import Wiicompiled.Ir.RegisterNames
import Wiicompiled.Support.ByteImage

/-!
# The patch plan of a Kamek chunk

The commands of a mod's code file, the manifest of the base game, and the
classification of every command by the part of memory it patches.
-/

namespace Wiicompiled.Mods

open ByteImage

/-! ## Commands -/

inductive KamekCommandId where
  | addr32
  | addr16Lo
  | addr16Hi
  | addr16Ha
  | rel24
  | write32
  | write16
  | write8
  | condWritePointer
  | condWrite32
  | condWrite16
  | condWrite8
  | branch
  | branchLink
deriving DecidableEq

def argumentCount : KamekCommandId → ℕ
  | .condWritePointer | .condWrite32 | .condWrite16 | .condWrite8 => 2
  | _ => 1

/-- A command as the parser makes it, with the arguments of its kind.  An address
that is not absolute is relative to the module. -/
structure KamekCommand where
  id : KamekCommandId
  addressIsAbsolute : Bool
  address : BitVec 32
  arguments : List (BitVec 32)
  count : arguments.length = argumentCount id
deriving DecidableEq

/-- The selected chunk of a code file. -/
structure KamekChunk where
  bssSize : BitVec 32
  codeSize : BitVec 32
  codeBlob : List UInt8
  commands : List KamekCommand
  codeLength : codeBlob.length = codeSize.toNat

/-- An operand is an absolute address or an offset into the module. -/
def resolve (raw moduleGuestBase : BitVec 32) : Option (BitVec 32) :=
  if 0x80000000 ≤ raw then some raw else checkedAdd moduleGuestBase raw

/-- Whether `delta` can be the displacement of a branch. -/
def inBranchRange (delta : BitVec 32) : Bool :=
  delta &&& 3 = 0 && decide (-0x02000000 ≤ delta.toInt) && decide (delta.toInt ≤ 0x01FFFFFC)

def encodeBranch (source target : BitVec 32) (link : Bool) : Option (BitVec 32) :=
  let delta := target - source
  if inBranchRange delta then
    some (0x48000000 ||| delta &&& 0x03FFFFFC ||| if link then 1 else 0)
  else none

/-! ## The base manifest -/

structure BaseSectionMetadata where
  name : String
  guestStart : BitVec 32
  guestEnd : BitVec 32
  executable : Bool
  imageFile : Option String

/-- The function `[start, stop)`. -/
structure BaseFunctionRange where
  start : BitVec 32
  stop : BitVec 32
  sourceSection : String
  sourceImageOffset : BitVec 32
deriving DecidableEq

/-- The manifest of the base game.  The executable sections are cut into functions
at the function starts, so that two functions have no address in common. -/
structure BaseManifest where
  sections : List BaseSectionMetadata
  functions : List BaseFunctionRange
  disjoint : ∀ f ∈ functions, ∀ g ∈ functions, ∀ a : BitVec 32,
    f.start ≤ a → a < f.stop → g.start ≤ a → a < g.stop → f = g

/-- The functions in the order of their starts. -/
def functionIndex (manifest : BaseManifest) : List BaseFunctionRange :=
  manifest.functions.insertionSort fun f g => f.start ≤ g.start

/-- Binary search between `lo` and `hi`; the fuel is the number of candidates. -/
def search (functions : List BaseFunctionRange) (address : BitVec 32) :
    ℕ → ℤ → ℤ → Option BaseFunctionRange
  | 0, _, _ => none
  | fuel + 1, lo, hi =>
      if lo ≤ hi then
        let mid := lo + (hi - lo) / 2
        (functions[mid.toNat]?).bind fun function =>
          if address < function.start then search functions address fuel lo (mid - 1)
          else if function.stop ≤ address then search functions address fuel (mid + 1) hi
          else some function
      else none

def findContaining (manifest : BaseManifest) (address : BitVec 32) :
    Option BaseFunctionRange :=
  let functions := functionIndex manifest
  search functions address functions.length 0 (functions.length - 1)

def findSection (manifest : BaseManifest) (address : BitVec 32) :
    Option BaseSectionMetadata :=
  manifest.sections.find? fun s => s.guestStart ≤ address && address < s.guestEnd

/-! ## Classification -/

inductive KamekPatchClassificationKind where
  | moduleCommand
  | baseExecutablePatch
  | baseDataPatch
  | droppedReservedRegion
  | unsupported
deriving DecidableEq

/-- A classified command, with the function that contains an executable patch. -/
structure KamekPatchClassification where
  kind : KamekPatchClassificationKind
  commandId : KamekCommandId
  commandAddress : BitVec 32
  commandAddressIsAbsolute : Bool
  containingFunction : Option BaseFunctionRange
  arguments : List (BitVec 32)
deriving DecidableEq

def codehandlerRegionStart : BitVec 32 := 0x80001920

def codehandlerRegionEnd : BitVec 32 := 0x80001924

def KamekCommand.classified (command : KamekCommand)
    (kind : KamekPatchClassificationKind) (function : Option BaseFunctionRange) :
    KamekPatchClassification :=
  ⟨kind, command.id, command.address, command.addressIsAbsolute, function,
    command.arguments⟩

def classify (manifest : BaseManifest) (moduleGuestBase : BitVec 32)
    (command : KamekCommand) : KamekPatchClassification :=
  if command.addressIsAbsolute = false then
    ⟨.moduleCommand, command.id, moduleGuestBase + command.address, false, none,
      command.arguments⟩
  else
    match findSection manifest command.address with
    | none => command.classified .unsupported none
    | some s =>
        if s.executable = false ∧ codehandlerRegionStart ≤ command.address ∧
            command.address < codehandlerRegionEnd then
          command.classified .droppedReservedRegion none
        else if s.executable then
          match findContaining manifest command.address with
          | none => command.classified .unsupported none
          | some function => command.classified .baseExecutablePatch (some function)
        else command.classified .baseDataPatch none

/-- The plan: the classifications in the order of the commands. -/
def build (chunk : KamekChunk) (manifest : BaseManifest)
    (moduleGuestBase : BitVec 32) : List KamekPatchClassification :=
  chunk.commands.map (classify manifest moduleGuestBase)

def ofKind (plan : List KamekPatchClassification) (kind : KamekPatchClassificationKind) :
    List KamekPatchClassification :=
  plan.filter fun c => c.kind = kind

/-- `OrderBy(p => p.CommandAddress)`, which is stable. -/
def orderByAddress (patches : List KamekPatchClassification) :
    List KamekPatchClassification :=
  patches.insertionSort fun p q => p.commandAddress ≤ q.commandAddress

/-- The first argument, and the second for a conditional write. -/
def KamekPatchClassification.argument (c : KamekPatchClassification) (i : ℕ) : BitVec 32 :=
  c.arguments.getD i 0

/-- The bytes that a command of this kind writes. -/
def commandWidth : KamekCommandId → ℕ
  | .addr16Lo | .addr16Hi | .addr16Ha | .write16 | .condWrite16 => 2
  | .write8 | .condWrite8 => 1
  | _ => 4

/-! ## Facts -/

theorem commandWidth_le (id : KamekCommandId) : commandWidth id ≤ 2 ^ 32 := by
  cases id <;> decide

theorem mem_of_search {functions : List BaseFunctionRange} {address : BitVec 32}
    {fuel : ℕ} {lo hi : ℤ} {f : BaseFunctionRange}
    (h : search functions address fuel lo hi = some f) :
    f ∈ functions ∧ f.start ≤ address ∧ address < f.stop := by
  induction fuel generalizing lo hi with
  | zero => exact absurd h (by simp [search])
  | succ fuel ih =>
      rw [search] at h
      split at h
      · obtain ⟨g, hg, h⟩ := Option.bind_eq_some_iff.mp h
        split at h
        · exact ih h
        · split at h
          · exact ih h
          · next hstart hstop =>
              obtain rfl := Option.some.inj h
              exact ⟨List.mem_of_getElem? hg, BitVec.not_lt.mp hstart, BitVec.not_le.mp hstop⟩
      · exact absurd h (by simp)

theorem mem_of_findContaining {manifest : BaseManifest} {address : BitVec 32}
    {f : BaseFunctionRange} (h : findContaining manifest address = some f) :
    f ∈ manifest.functions ∧ f.start ≤ address ∧ address < f.stop := by
  obtain ⟨hmem, hrange⟩ := mem_of_search h
  exact ⟨(List.mem_insertionSort _).mp hmem, hrange⟩

theorem classify_executable {manifest : BaseManifest} {moduleGuestBase : BitVec 32}
    {command : KamekCommand}
    (h : (classify manifest moduleGuestBase command).kind = .baseExecutablePatch) :
    ∃ f ∈ manifest.functions, f.start ≤ command.address ∧ command.address < f.stop ∧
      classify manifest moduleGuestBase command =
        command.classified .baseExecutablePatch (some f) := by
  revert h
  unfold classify
  split
  · simp
  · split
    · simp [KamekCommand.classified]
    · split
      · simp [KamekCommand.classified]
      · split
        · split
          · simp [KamekCommand.classified]
          · next f hf =>
              obtain ⟨hmem, hstart, hstop⟩ := mem_of_findContaining hf
              intro _
              exact ⟨f, hmem, hstart, hstop, rfl⟩
        · simp [KamekCommand.classified]

end Wiicompiled.Mods
