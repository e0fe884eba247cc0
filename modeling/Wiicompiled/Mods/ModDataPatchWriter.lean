import Wiicompiled.Mods.OverlayFunctionBuilder
import Wiicompiled.Support.FlatMemory
import Wiicompiled.Support.Reordering

/-!
# The generated patches of guest memory

The start-up code that the translator writes for a mod: one statement for each
executable patch and each data patch, in the order of their addresses, after the
module image.  The literals of a statement are computed at translation time; its
effect is on guest memory.
-/

namespace Wiicompiled.Mods.ModDataPatchWriter

open ByteImage FlatMemory Reordering

abbrev Memory := BitVec 32 → UInt8

/-- `Memory::Read8`, `Read16` and `Read32`. -/
def readMemory (memory : Memory) (address : BitVec 32) (width : ℕ) : ℕ :=
  fromBytes (load memory address width)

/-- `Memory::Write8`, `Write16` and `Write32`, and the `PatchGuest` functions. -/
def writeMemory (memory : Memory) (address : BitVec 32) (width value : ℕ) : Memory :=
  store memory address (toBytes width value)

/-! ## Statements -/

/-- The statements of the generated code. -/
inductive Statement where
  | write (width : ℕ) (address value : BitVec 32)
  | conditional (width : ℕ) (address expected value : BitVec 32)
  | rel24 (address target : BitVec 32)
  | branch (address target : BitVec 32) (link : Bool)
deriving DecidableEq

/-- The effect of a statement; a branch out of range aborts start-up. -/
def Statement.run (s : Statement) (memory : Memory) : Option Memory :=
  match s with
  | .write width address value => some (writeMemory memory address width value.toNat)
  | .conditional width address expected value =>
      if readMemory memory address width = expected.toNat then
        some (writeMemory memory address width value.toNat)
      else some memory
  | .rel24 address target =>
      let original := BitVec.ofNat 32 (readMemory memory address 4)
      let delta := target - address
      if inBranchRange delta then
        some (writeMemory memory address 4
          (original &&& 0xFC000003 ||| delta &&& 0x03FFFFFC).toNat)
      else none
  | .branch address target link =>
      (encodeBranch address target link).map fun instruction =>
        writeMemory memory address 4 instruction.toNat

def emitBaseExecutablePatch (moduleLinkBase : BitVec 32)
    (patch : KamekPatchClassification) : Option Statement :=
  let address := patch.commandAddress
  let target := resolve (patch.argument 0) moduleLinkBase
  match patch.commandId with
  | .addr32 => target.map fun value => .write 4 address value
  | .addr16Lo => target.map fun value => .write 2 address (value &&& 0xFFFF)
  | .addr16Hi => target.map fun value : BitVec 32 => .write 2 address (value >>> 16)
  | .addr16Ha =>
      target.map fun value : BitVec 32 => .write 2 address ((value + 0x8000) >>> 16)
  | .rel24 => target.map fun target => .rel24 address target
  | .write32 => some (.write 4 address (patch.argument 0))
  | .write16 => some (.write 2 address (patch.argument 0 &&& 0xFFFF))
  | .write8 => some (.write 1 address (patch.argument 0 &&& 0xFF))
  | .condWritePointer =>
      target.map fun value => .conditional 4 address (patch.argument 1) value
  | .condWrite32 => some (.conditional 4 address (patch.argument 1) (patch.argument 0))
  | .condWrite16 =>
      some (.conditional 2 address (patch.argument 1 &&& 0xFFFF)
        (patch.argument 0 &&& 0xFFFF))
  | .condWrite8 =>
      some (.conditional 1 address (patch.argument 1 &&& 0xFF)
        (patch.argument 0 &&& 0xFF))
  | .branch => target.map fun target => .branch address target false
  | .branchLink => target.map fun target => .branch address target true

/-- The statement for a data patch; a branch in data cannot be emitted. -/
def emitPatch (moduleGuestBase : BitVec 32) (patch : KamekPatchClassification) :
    Option Statement :=
  match patch.commandId with
  | .rel24 | .branch | .branchLink => none
  | _ => emitBaseExecutablePatch moduleGuestBase patch

/-! ## The start-up functions -/

/-- `ApplyExecutableBasePatches`. -/
def applyExecutableBasePatches (plan : List KamekPatchClassification)
    (moduleLinkBase : BitVec 32) : Option (List Statement) :=
  (orderByAddress (ofKind plan .baseExecutablePatch)).mapM
    (emitBaseExecutablePatch moduleLinkBase)

def dataPatches (plan : List KamekPatchClassification) (moduleGuestBase : BitVec 32) :
    Option (List Statement) :=
  (orderByAddress (ofKind plan .baseDataPatch)).mapM (emitPatch moduleGuestBase)

def runStatements (statements : List Statement) (memory : Memory) : Option Memory :=
  runAll Statement.run statements memory

/-- Copy the module image, clear its BSS, and publish the digest of the code. -/
def initializeModuleImage (moduleGuestBase : BitVec 32) (image : List UInt8)
    (bssOffset bssSize : BitVec 32) (digest : Option (List UInt8)) (memory : Memory) :
    Memory :=
  let memory := store memory moduleGuestBase image
  let memory :=
    store memory (moduleGuestBase + bssOffset) (List.replicate bssSize.toNat 0)
  match digest with
  | some bytes => if bytes.length = 20 then store memory 0x800017B0 bytes else memory
  | none => memory

/-- `ApplyDataPatches`, for a mod without Retro WFC pointers: the outer option is the
translation, the inner one start-up. -/
def applyDataPatches (chunk : KamekChunk) (manifest : BaseManifest)
    (moduleGuestBase moduleLinkBase : BitVec 32) (moduleImage : List UInt8)
    (digest : Option (List UInt8)) : Option (Memory → Option Memory) := do
  let plan := build chunk manifest moduleGuestBase
  let executable ← applyExecutableBasePatches plan moduleLinkBase
  let data ← dataPatches plan moduleGuestBase
  some fun memory =>
    (runStatements executable
      (initializeModuleImage moduleGuestBase moduleImage chunk.codeSize chunk.bssSize
        digest memory)).bind (runStatements data)

end Wiicompiled.Mods.ModDataPatchWriter
