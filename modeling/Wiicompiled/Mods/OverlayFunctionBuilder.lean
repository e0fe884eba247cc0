import Wiicompiled.Mods.KamekPatchPlanner

/-!
# Overlay images

The translation-time application of Kamek patches: every base function that has an
executable patch gets a copy of its bytes with its patches applied in the order of
their addresses, and the module image gets the relative commands in stream order.
-/

namespace Wiicompiled.Mods.OverlayFunctionBuilder

open ByteImage Ir

/-! ## One patch -/

/-- A checked conversion to `ushort` or `byte`. -/
def checkedNarrow (width : ℕ) (value : BitVec 32) : Option ℕ :=
  if value.toNat < 256 ^ width then some value.toNat else none

/-- An unconditional write, which is reported as applied. -/
def applyWrite (image : List UInt8) (offset width value : ℕ) :
    Option (List UInt8 × Bool) :=
  (write image offset width value).map fun image' => (image', true)

/-- A conditional write: skipped when the image does not hold the expected number. -/
def applyConditionalWrite (image : List UInt8) (offset width expected value : ℕ) :
    Option (List UInt8 × Bool) :=
  (read image offset width).bind fun actual =>
    if actual ≠ expected then some (image, false)
    else applyWrite image offset width value

def applyConditionalWrite32 (image : List UInt8) (offset : ℕ)
    (expected value : BitVec 32) : Option (List UInt8 × Bool) :=
  applyConditionalWrite image offset 4 expected.toNat value.toNat

def applyConditionalWrite16 (image : List UInt8) (offset : ℕ) (expected value : ℕ) :
    Option (List UInt8 × Bool) :=
  applyConditionalWrite image offset 2 expected value

def applyConditionalWrite8 (image : List UInt8) (offset : ℕ) (expected value : ℕ) :
    Option (List UInt8 × Bool) :=
  applyConditionalWrite image offset 1 expected value

/-- The image after a command and whether it was applied.  A command that throws has
written nothing. -/
def applyPatch (image : List UInt8) (imageGuestStart patchAddress : BitVec 32)
    (id : KamekCommandId) (argument : ℕ → BitVec 32) (moduleGuestBase : BitVec 32) :
    Option (List UInt8 × Bool) := do
  let offset ← checkedInt (patchAddress - imageGuestStart)
  match id with
  | .addr32 =>
      let target ← resolve (argument 0) moduleGuestBase
      applyWrite image offset 4 target.toNat
  | .addr16Lo =>
      let target ← resolve (argument 0) moduleGuestBase
      applyWrite image offset 2 (target &&& 0xFFFF).toNat
  | .addr16Hi =>
      let target ← resolve (argument 0) moduleGuestBase
      applyWrite image offset 2 (target >>> 16).toNat
  | .addr16Ha =>
      let target ← resolve (argument 0) moduleGuestBase
      applyWrite image offset 2 ((target + 0x8000) >>> 16).toNat
  | .rel24 =>
      let target ← resolve (argument 0) moduleGuestBase
      let original ← readUInt32 image offset
      let delta := target - patchAddress
      ensure (inBranchRange delta)
      let patched := original &&& 0xFC000003 ||| delta &&& 0x03FFFFFC
      applyWrite image offset 4 patched.toNat
  | .write32 => applyWrite image offset 4 (argument 0).toNat
  | .write16 =>
      let value ← checkedNarrow 2 (argument 0)
      applyWrite image offset 2 value
  | .write8 =>
      let value ← checkedNarrow 1 (argument 0)
      applyWrite image offset 1 value
  | .condWritePointer =>
      let value ← resolve (argument 0) moduleGuestBase
      applyConditionalWrite32 image offset (argument 1) value
  | .condWrite32 => applyConditionalWrite32 image offset (argument 1) (argument 0)
  | .condWrite16 =>
      let expected ← checkedNarrow 2 (argument 1)
      let value ← checkedNarrow 2 (argument 0)
      applyConditionalWrite16 image offset expected value
  | .condWrite8 =>
      let expected ← checkedNarrow 1 (argument 1)
      let value ← checkedNarrow 1 (argument 0)
      applyConditionalWrite8 image offset expected value
  | .branch | .branchLink =>
      let target ← resolve (argument 0) moduleGuestBase
      let patched ← encodeBranch patchAddress target (id = .branchLink)
      applyWrite image offset 4 patched.toNat

inductive PatchStatus where
  | applied
  | skipped
  | failed
deriving DecidableEq

structure PatchApplicationRecord where
  address : BitVec 32
  commandId : KamekCommandId
  target : List (BitVec 32)
  status : PatchStatus
deriving DecidableEq

/-- The target a report names: the resolved address or the arguments. -/
def formatTarget (id : KamekCommandId) (arguments : List (BitVec 32))
    (moduleGuestBase : BitVec 32) : Option (List (BitVec 32)) :=
  match id with
  | .addr32 | .addr16Lo | .addr16Hi | .addr16Ha | .rel24 | .branch | .branchLink
  | .condWritePointer =>
      (resolve (arguments.getD 0 0) moduleGuestBase).map fun target => [target]
  | _ => some arguments

/-- Apply a command and report it.  An exception of the application is a failure,
one of the report is not caught. -/
def tryApplyPatch (image : List UInt8) (imageGuestStart patchAddress : BitVec 32)
    (command : KamekCommand) (moduleGuestBase : BitVec 32) :
    Option (List UInt8 × PatchApplicationRecord) :=
  let record := PatchApplicationRecord.mk patchAddress command.id
  (formatTarget command.id command.arguments moduleGuestBase).map fun target =>
    match applyPatch image imageGuestStart patchAddress command.id
      (fun i => command.arguments.getD i 0) moduleGuestBase with
    | some (image', true) => (image', record target .applied)
    | some (image', false) => (image', record target .skipped)
    | none => (image, record target .failed)

/-! ## The module image -/

/-- The code of the module with the relative commands applied in stream order. -/
def buildModuleImage (chunk : KamekChunk) (moduleGuestBase : BitVec 32) :
    Option (List UInt8) :=
  (chunk.commands.filter fun c => c.addressIsAbsolute = false).foldlM
    (fun image command =>
      (tryApplyPatch image moduleGuestBase (moduleGuestBase + command.address) command
        moduleGuestBase).map Prod.fst)
    chunk.codeBlob

/-! ## The overlays -/

structure OverlayFunctionImage where
  start : BitVec 32
  stop : BitVec 32
  bytes : List UInt8
  patches : List PatchApplicationRecord
deriving DecidableEq

/-- The first command of the stream with the contents of the classification. -/
def findMatchingCommand (chunk : KamekChunk)
    (classification : KamekPatchClassification) : Option KamekCommand :=
  chunk.commands.find? fun command =>
    command.id = classification.commandId &&
      command.address = classification.commandAddress &&
      command.addressIsAbsolute = classification.commandAddressIsAbsolute &&
      command.arguments = classification.arguments

/-- The source bytes of a function.  `images` are the image files of the manifest. -/
def sourceBytes (manifest : BaseManifest) (images : String → Option (List UInt8))
    (function : BaseFunctionRange) : Option (List UInt8) := do
  let s ← manifest.sections.find? fun s => folded s.name = folded function.sourceSection
  let imageFile ← s.imageFile
  ensure (isNullOrWhiteSpace imageFile = false)
  let sourceImage ← images imageFile
  let sourceOffset ← checkedInt function.sourceImageOffset
  let functionSize ← checkedInt (function.stop - function.start)
  ensure (sourceOffset + functionSize ≤ sourceImage.length)
  some (window sourceImage sourceOffset functionSize)

/-- The executable patches of the function that starts at `start`. -/
def patchGroup (plan : List KamekPatchClassification) (start : BitVec 32) :
    List KamekPatchClassification :=
  (ofKind plan .baseExecutablePatch).filter fun c =>
    (c.containingFunction.map BaseFunctionRange.start) = some start

def overlayStep (chunk : KamekChunk) (function : BaseFunctionRange)
    (moduleGuestBase : BitVec 32) (state : List UInt8 × List PatchApplicationRecord)
    (classification : KamekPatchClassification) :
    Option (List UInt8 × List PatchApplicationRecord) := do
  let command ← findMatchingCommand chunk classification
  let (bytes, record) ← tryApplyPatch state.1 function.start
    classification.commandAddress command moduleGuestBase
  some (bytes, state.2 ++ [record])

def buildOverlay (chunk : KamekChunk) (manifest : BaseManifest)
    (plan : List KamekPatchClassification) (images : String → Option (List UInt8))
    (moduleGuestBase functionStart : BitVec 32) : Option OverlayFunctionImage := do
  let function ← findContaining manifest functionStart
  let bytes ← sourceBytes manifest images function
  let (bytes, patches) ←
    (orderByAddress (patchGroup plan function.start)).foldlM
      (overlayStep chunk function moduleGuestBase) (bytes, [])
  some ⟨function.start, function.stop, bytes, patches⟩

/-- The starts of the functions that have executable patches, sorted. -/
def overlayStarts (plan : List KamekPatchClassification) : List (BitVec 32) :=
  ((ofKind plan .baseExecutablePatch).filterMap fun c =>
    c.containingFunction.map BaseFunctionRange.start).dedup.insertionSort (· ≤ ·)

structure OverlayBuildResult where
  moduleImage : List UInt8
  overlayFunctions : List OverlayFunctionImage
deriving DecidableEq

def buildAndWrite (chunk : KamekChunk) (manifest : BaseManifest)
    (images : String → Option (List UInt8)) (moduleGuestBase : BitVec 32) :
    Option OverlayBuildResult := do
  let plan := build chunk manifest moduleGuestBase
  let moduleImage ← buildModuleImage chunk moduleGuestBase
  ensure (manifest.sections.map fun s => folded s.name).Nodup
  let overlays ← (overlayStarts plan).mapM fun start =>
    buildOverlay chunk manifest plan images moduleGuestBase start
  some ⟨moduleImage, overlays⟩

end Wiicompiled.Mods.OverlayFunctionBuilder
