import Wiicompiled.Analysis.GuestHelperEffectCatalog
import Wiicompiled.CodeGen.AddressConstants

/-!
# Block-local lowering of guest memory ranges

`GuestMemoryRangeLowering` follows base registers through copies and constant additions.
Accesses of a segment whose bases come from one root share a range that is resolved at the
first of them, and neighbours in a range are combined into pairs.  C# `int` values are
integers here; a checked operation that leaves the range of `int` throws.
-/

namespace Wiicompiled.CodeGen.GuestMemoryRangeLowering

open Ir Analysis

def MaxRangeLength : ℤ := 4096

def InInt (value : ℤ) : Prop :=
  -2147483648 ≤ value ∧ value ≤ 2147483647

instance (value : ℤ) : Decidable (InInt value) :=
  inferInstanceAs (Decidable (_ ∧ _))

/-- `checked(..)`; `none` is the `OverflowException`. -/
def checked (value : ℤ) : Option ℤ :=
  if InInt value then some value else none

/-! ## Registers -/

/-- The part of a name before its first underscore. -/
def beforeSeparator (name : List Char) : List Char :=
  name.takeWhile fun c => c ≠ '_'

def IsArchitecturalRegister (name : String) : Bool :=
  let base := beforeSeparator name.toList
  let version := name.toList.drop (base.length + 1)
  let isIndex := match tryParseInt (base.drop 1) with
    | some index => decide (0 ≤ index ∧ index < 32)
    | none => false
  version.all Char.isDigit && decide (2 ≤ base.length) &&
    (base.head? = some 'r' || base.head? = some 'R' || base.head? = some 'f' ||
      base.head? = some 'F') && isIndex

def NormalizeRegisterIdentity (name : String) : String :=
  if IsArchitecturalRegister name then String.ofList (beforeSeparator name.toList) else name

/-- The key of a register in a dictionary that ignores case. -/
def cellOf (name : String) : List Char :=
  folded (NormalizeRegisterIdentity name)

/-! ## Accesses -/

structure PsqAccess where
  isStore : Bool
  w : UInt32
  i : UInt32
  knownGqr : Option UInt32
  guardKnownGqr : Bool
deriving DecidableEq

def TryParsePsq (target : String) (arguments : List IrValue) : Option PsqAccess :=
  let starts := fun marker : String => startsWithIgnoreCase target.toList marker.toList
  let isLoad := equalsIgnoreCase target.toList "PPC_PsqL".toList ||
    starts "PPC_PsqLKnown_" || starts "PPC_PsqLKnownGuarded_"
  let isStore := equalsIgnoreCase target.toList "PPC_PsqSt".toList ||
    starts "PPC_PsqStKnown_" || starts "PPC_PsqStKnownGuarded_"
  let wArg := arguments[if isLoad then 1 else 2]?.bind IrValue.constant
  let iArg := arguments[if isLoad then 2 else 3]?.bind IrValue.constant
  let guardedMarker := if isLoad then "PPC_PsqLKnownGuarded_" else "PPC_PsqStKnownGuarded_"
  let knownMarker := if isLoad then "PPC_PsqLKnown_" else "PPC_PsqStKnown_"
  let guarded := starts guardedMarker
  let marker := if guarded then guardedMarker else knownMarker
  let known := if starts marker then tryParseHexDigits (target.toList.drop marker.length) else none
  if (!isLoad && !isStore) || arguments.length < (if isLoad then 3 else 4) ||
      !(arguments.head?.any fun a => a.kind = "register" && a.registerName.isSome) then none
  else if (wArg = some 0 ∨ wArg = some 1) ∧ iArg.all (fun i => decide (0 ≤ i ∧ i ≤ 7)) then
    some ⟨isStore, (wArg.getD 0).toUInt64.toUInt32, (iArg.getD 0).toUInt64.toUInt32, known, guarded⟩
  else none

/-- An access as the instruction spells it. -/
structure RawAccess where
  address : IrAddress
  sizeBytes : ℤ
  isStore : Bool
  psq : Option PsqAccess
deriving DecidableEq

/-- `Access.TryCreate`. -/
def TryCreate : IrInstruction → Option RawAccess
  | .load _ address sizeBytes => some ⟨address, sizeBytes.toInt, false, none⟩
  | .store address _ sizeBytes => some ⟨address, sizeBytes.toInt, true, none⟩
  | .call _ target arguments =>
      match TryParsePsq target arguments, arguments.head?.bind IrValue.registerName with
      | some psq, some address =>
          some ⟨⟨address, 0⟩, if psq.w = 0 then 8 else 4, psq.isStore, some psq⟩
      | _, _ => none
  | _ => none

/-- Accesses to the hardware window are never part of a range. -/
def IsProvenHardwareRegisterAccess (constants : CxxLinearCodeGenerator.Constants)
    (instruction : IrInstruction) : Bool :=
  match TryCreate instruction with
  | none => false
  | some raw =>
      match constants (folded raw.address.base) with
      | none => false
      | some baseAddress =>
          let effective := baseAddress + raw.address.offset.toUInt32
          0xCC000000 ≤ effective && effective < 0xCE000000

/-- The value that a base started from: a register, and how often it has been overwritten. -/
structure Root where
  name : String
  generation : ℕ
deriving DecidableEq

/-- The canonical base under which accesses are grouped. -/
def Root.text (root : Root) : List Char :=
  if root.generation = 0 then folded root.name
  else folded root.name ++ '#' :: (toString root.generation).toList

/-- An access whose address is relative to its root. -/
structure Access where
  index : ℕ
  root : Root
  offset : ℤ
  sizeBytes : ℤ
  isStore : Bool
  psq : Option PsqAccess
  originalBase : String
  baseDelta : ℤ
deriving DecidableEq

/-- What the tracker knows: the affine values, and the generations of registers. -/
structure Tracker where
  affine : List Char → Option (Root × ℤ)
  generations : List Char → ℕ

def Tracker.initial : Tracker where
  affine _ := none
  generations _ := 0

def Lookup (tracker : Tracker) (name : String) : Root × ℤ :=
  match tracker.affine (folded name) with
  | some known => known
  | none =>
      if IsArchitecturalRegister name then
        match tracker.affine (cellOf name) with
        | some known => known
        | none => (⟨NormalizeRegisterIdentity name, tracker.generations (cellOf name)⟩, 0)
      else (⟨name, 0⟩, 0)

/-- The destination has a value that is not followed. -/
def InvalidateDestination (tracker : Tracker) (destination : String) : Tracker :=
  if IsArchitecturalRegister destination then
    { affine := Function.update tracker.affine (cellOf destination) none
      generations := Function.update tracker.generations (cellOf destination)
        (tracker.generations (cellOf destination) + 1) }
  else { tracker with affine := Function.update tracker.affine (cellOf destination) none }

/-- The register and the constant of an addition. -/
def affineOperands (left right : IrValue) : Option (String × ℤ) :=
  let parts :=
    if left.kind = "register" ∧ right.kind = "const" ∧ right.constant.isSome then
      some (left, right.constant)
    else if right.kind = "register" ∧ left.kind = "const" ∧ left.constant.isSome then
      some (right, left.constant)
    else none
  match parts with
  | some (register, some constant) =>
      if InInt constant.toInt then register.registerName.map fun name => (name, constant.toInt)
      else none
  | _ => none

def TryAffineAdd (tracker : Tracker) (left right : IrValue) : Option (Root × ℤ) :=
  match affineOperands left right with
  | none => none
  | some (name, constant) =>
      let sum := (Lookup tracker name).2 + constant
      if InInt sum then some ((Lookup tracker name).1, sum) else none

/-- How an instruction changes what the tracker knows. -/
def track (tracker : Tracker) (instruction : IrInstruction) : Tracker :=
  let invalidate := instruction.definitions.foldl InvalidateDestination tracker
  let follow := fun (destination : String) (value : Root × ℤ) =>
    { tracker with affine := Function.update tracker.affine (cellOf destination) (some value) }
  match instruction with
  | .assign destination value =>
      if value.kind = "register" then
        match value.registerName with
        | some source => follow destination (Lookup tracker source)
        | none => invalidate
      else invalidate
  | .binary destination left right op =>
      if equalsIgnoreCase op.toList "add".toList then
        match TryAffineAdd tracker left right with
        | some value => follow destination value
        | none => invalidate
      else invalidate
  | _ => invalidate

/-- The access of an instruction; `some none` if it has none. -/
def newAccess (constants : CxxLinearCodeGenerator.Constants) (tracker : Tracker) (index : ℕ)
    (instruction : IrInstruction) : Option (Option Access) :=
  if IsProvenHardwareRegisterAccess constants instruction then some none
  else
    match TryCreate instruction with
    | none => some none
    | some raw =>
        let (root, delta) := Lookup tracker raw.address.base
        (checked (delta + raw.address.offset.toInt)).map fun offset =>
          some ⟨index, root, offset, raw.sizeBytes, raw.isStore, raw.psq, raw.address.base, delta⟩

def BuildAccesses (constants : CxxLinearCodeGenerator.Constants) :
    Tracker → ℕ → List IrInstruction → Option (List Access)
  | _, _, [] => some []
  | tracker, index, instruction :: rest =>
      (newAccess constants tracker index instruction).bind fun access =>
        (BuildAccesses constants (track tracker instruction) (index + 1) rest).map fun later =>
          access.toList ++ later

/-! ## Plans -/

structure Plan where
  range : String
  minOffset : ℤ
  length : ℤ
  needsRead : Bool
  needsWrite : Bool
deriving DecidableEq

/-- The key of `GroupBy`. -/
def Access.accessClass (access : Access) : List Char × Bool :=
  (access.root.text, access.isStore)

def HasOverlappingOppositeAccess (candidates : List Access) (access : Access) : Bool :=
  candidates.any fun candidate =>
    candidate.isStore ≠ access.isStore && candidate.root.text = access.root.text &&
      decide (access.offset < candidate.offset + candidate.sizeBytes) &&
      decide (candidate.offset < access.offset + access.sizeBytes)

def Access.endOffset (access : Access) : ℤ :=
  access.offset + access.sizeBytes

def rangeName (number : ℕ) : String :=
  "guest_range_" ++ toString number

def planGroup (minimumAccesses : ℤ) (accesses : List Access) (number : ℕ)
    (grouped : List Access) : Option Plan :=
  let min := (grouped.map Access.offset).min?.getD 0
  let max := (grouped.map Access.endOffset).max?.getD 0
  if grouped.length < 2 then none
  else if (grouped.length : ℤ) < minimumAccesses then none
  else if grouped.any (HasOverlappingOppositeAccess accesses) then none
  else if max - min ≤ 0 ∨ MaxRangeLength < max - min then none
  else
    some ⟨rangeName number, min, max - min, grouped.any fun access => !access.isStore,
      grouped.any fun access => access.isStore⟩

/-- The groups that get a range, with consecutive numbers. -/
def makePlans (minimumAccesses : ℤ) (accesses : List Access) :
    List (List Access) → ℕ → List (List Access × Plan) × ℕ
  | [], number => ([], number)
  | grouped :: groups, number =>
      match planGroup minimumAccesses accesses number grouped with
      | none => makePlans minimumAccesses accesses groups number
      | some plan =>
          let (plans, number') := makePlans minimumAccesses accesses groups (number + 1)
          ((grouped, plan) :: plans, number')

/-- `GroupBy`: the groups in the order of their first members. -/
def groupAccesses (accesses : List Access) : List (List Access) :=
  (accesses.map Access.accessClass).eraseDups.map fun key =>
    accesses.filter fun access => access.accessClass = key

def plannedAt (plans : List (List Access × Plan)) (index : ℕ) : Option (Access × Plan) :=
  plans.findSome? fun (grouped, plan) =>
    (grouped.find? fun access => access.index = index).map fun access => (access, plan)

/-! ## Segments -/

def ToResolved (instruction : IrInstruction) (access : Access) (plan : Plan) : IrInstruction :=
  let relativeOffset := Int32.ofInt (access.offset - plan.minOffset)
  match instruction, access.psq with
  | .load destination address sizeBytes, _ =>
      .resolvedLoad destination plan.range address relativeOffset sizeBytes
  | .store address source sizeBytes, _ =>
      .resolvedStore plan.range address relativeOffset source sizeBytes
  | .call destination _ (address :: arguments), some psq =>
      if psq.isStore then
        .resolvedPsqStore plan.range address relativeOffset
          (arguments.headD (IrValue.imm 0)) psq.w psq.i psq.knownGqr psq.guardKnownGqr
      else
        .resolvedPsqLoad destination plan.range address relativeOffset psq.w psq.i psq.knownGqr
          psq.guardKnownGqr
  | instruction, _ => instruction

/-- What the lowering emits for one instruction: a range that is resolved in front of it, and
the instruction itself. -/
structure Chunk where
  resolve : Option IrInstruction
  instruction : IrInstruction

def Chunk.instructions (chunk : Chunk) : List IrInstruction :=
  chunk.resolve.toList ++ [chunk.instruction]

/-- Emit a segment; the names are of the ranges that have been resolved. -/
def emitSegment (plans : List (List Access × Plan)) :
    List String → ℕ → List IrInstruction → Option (List Chunk)
  | _, _, [] => some []
  | emitted, index, instruction :: rest =>
      match plannedAt plans index with
      | none => (emitSegment plans emitted (index + 1) rest).map (⟨none, instruction⟩ :: ·)
      | some (access, plan) =>
          let resolved := ToResolved instruction access plan
          if plan.range ∈ emitted then
            (emitSegment plans emitted (index + 1) rest).map (⟨none, resolved⟩ :: ·)
          else
            (checked (plan.minOffset - access.baseDelta)).bind fun minOffset =>
              let resolve := IrInstruction.resolveGuestMemoryRange plan.range
                (IrValue.register access.originalBase) (Int32.ofInt minOffset)
                (Int32.ofInt plan.length) plan.needsRead plan.needsWrite
              (emitSegment plans (plan.range :: emitted) (index + 1) rest).map
                (⟨some resolve, resolved⟩ :: ·)

/-- The settings of one run of the pass. -/
structure Options where
  minimumAccesses : ℤ
  scalarOnly : Bool
  ignoreDisabledPcTraces : Bool
  hardwareConstants : CxxLinearCodeGenerator.Constants

def segmentAccesses (options : Options) (segment : List IrInstruction) : Option (List Access) :=
  (BuildAccesses options.hardwareConstants .initial 0 segment).map fun accesses =>
    accesses.filter fun access => !options.scalarOnly || access.psq.isNone

def LowerSegment (options : Options) (segment : List IrInstruction) (nextRange : ℕ) :
    Option (List Chunk × ℕ) :=
  (segmentAccesses options segment).bind fun accesses =>
    let (plans, number) :=
      makePlans options.minimumAccesses accesses (groupAccesses accesses) nextRange
    (emitSegment plans [] 0 segment).map fun chunks => (chunks, number)

/-! ## Blocks -/

def IsMemoryEpochBoundary (effect : GuestHelperEffect) : Bool :=
  effect.writes.gpr ≠ 0 || effect.boundaryFlags ≠ 0

def IsOwnershipBoundary : IrInstruction → Bool
  | .call _ target arguments =>
      IsMemoryEpochBoundary (GuestHelperEffectCatalog.analyze target arguments)
  | .indirectCall .. | .branch .. | .jump .. | .indirectJump .. | .jumpTable .. | .ret ..
  | .undefined .. => true
  | _ => false

/-- A part of a block: a boundary, or a segment between boundaries. -/
inductive Part where
  | boundary (instruction : IrInstruction)
  | segment (instructions : List IrInstruction)

def flushed (segment : List IrInstruction) : List Part :=
  if segment.isEmpty then [] else [.segment segment]

/-- Cut a block at its boundaries. -/
def parts : List IrInstruction → List IrInstruction → List Part
  | [], segment => flushed segment
  | instruction :: rest, segment =>
      if IsOwnershipBoundary instruction then
        flushed segment ++ .boundary instruction :: parts rest []
      else parts rest (segment ++ [instruction])

inductive LoweredPart where
  | boundary (instruction : IrInstruction)
  | segment (instructions : List IrInstruction) (chunks : List Chunk)

def LoweredPart.instructions : LoweredPart → List IrInstruction
  | .boundary instruction => [instruction]
  | .segment _ chunks => chunks.flatMap Chunk.instructions

def lowerParts (options : Options) : List Part → ℕ → Option (List LoweredPart × ℕ)
  | [], nextRange => some ([], nextRange)
  | .boundary instruction :: rest, nextRange =>
      (lowerParts options rest nextRange).map fun (lowered, number) =>
        (.boundary instruction :: lowered, number)
  | .segment instructions :: rest, nextRange =>
      (LowerSegment options instructions nextRange).bind fun (chunks, number) =>
        (lowerParts options rest number).map fun (lowered, number') =>
          (.segment instructions chunks :: lowered, number')

def LowerBlock (options : Options) (instructions : List IrInstruction) (nextRange : ℕ) :
    Option (List LoweredPart × ℕ) :=
  lowerParts options (parts instructions []) nextRange

/-! ## Pairs -/

def IsMovableAddressCalculation (instruction : IrInstruction) (forbiddenUse : Option String) :
    Bool :=
  let uses := fun value : IrValue =>
    forbiddenUse.any fun name =>
      value.registerName.any fun register => folded register = folded name
  match instruction with
  | .assign destination value => !IsArchitecturalRegister destination && !uses value
  | .binary destination left right _ =>
      !IsArchitecturalRegister destination && !uses left && !uses right
  | _ => false

/-- The instructions over which a pair may be combined. -/
def skips (ignoreDisabledPcTraces : Bool) (forbiddenUse : Option String)
    (instruction : IrInstruction) : Bool :=
  (ignoreDisabledPcTraces && instruction matches .tracePpc ..) ||
    IsMovableAddressCalculation instruction forbiddenUse

/-- `Math.Abs`, which throws for the least `int`. -/
def absInt (value : Int32) : Option ℤ :=
  if value = Int32.minValue then none else some (value.toInt.natAbs : ℤ)

/-- `Math.Abs(second - first) == size`, for sizes 2 and 4. -/
def areAdjacent (first second : Int32) (size : Int32) : Option Bool :=
  if size = 2 ∨ size = 4 then (absInt (second - first)).map fun distance => distance = size.toInt
  else some false

/-- The pair of two resolved accesses, if they combine. -/
def combinePair (first second : IrInstruction) : Option (Option IrInstruction) :=
  match first, second with
  | .resolvedLoad firstDestination firstRange firstAddress firstOffset firstSize,
    .resolvedLoad secondDestination secondRange secondAddress secondOffset secondSize =>
      if firstRange = secondRange ∧ firstSize = secondSize then
        (areAdjacent firstOffset secondOffset firstSize).map fun adjacent =>
          if adjacent then
            some (.resolvedLoadPair firstDestination secondDestination firstRange firstAddress
              secondAddress (min firstOffset secondOffset) firstSize
              (decide (secondOffset < firstOffset)))
          else none
      else some none
  | .resolvedStore firstRange firstAddress firstOffset firstSource firstSize,
    .resolvedStore secondRange secondAddress secondOffset secondSource secondSize =>
      if firstRange = secondRange ∧ firstSize = secondSize then
        (areAdjacent firstOffset secondOffset firstSize).map fun adjacent =>
          if adjacent then
            some (.resolvedStorePair firstRange firstAddress secondAddress
              (min firstOffset secondOffset) firstSource secondSource firstSize
              (decide (secondOffset < firstOffset)))
          else none
      else some none
  | _, _ => some none

/-- What the search for the second half of a pair passes over. -/
def skipped (ignoreDisabledPcTraces : Bool) (first : IrInstruction) (rest : List IrInstruction) :
    List IrInstruction :=
  match first with
  | .resolvedLoad destination _ _ _ _ =>
      rest.takeWhile (skips ignoreDisabledPcTraces (some destination))
  | .resolvedStore .. => rest.takeWhile (skips ignoreDisabledPcTraces none)
  | _ => []

def CombineAdjacentLoads (ignoreDisabledPcTraces : Bool) :
    List IrInstruction → Option (List IrInstruction)
  | [] => some []
  | first :: rest =>
      let movable := skipped ignoreDisabledPcTraces first rest
      match _h : rest.drop movable.length with
      | [] => (CombineAdjacentLoads ignoreDisabledPcTraces rest).map (first :: ·)
      | second :: later =>
          (combinePair first second).bind fun pair =>
            match pair with
            | none => (CombineAdjacentLoads ignoreDisabledPcTraces rest).map (first :: ·)
            | some pair =>
                (CombineAdjacentLoads ignoreDisabledPcTraces later).map
                  (movable ++ pair :: ·)
termination_by instructions => instructions.length
decreasing_by
  · simp
  · simp
  · have hlength := congrArg List.length _h
    rw [List.length_drop, List.length_cons] at hlength
    rw [List.length_cons]
    omega

/-- `Lower`, at one block. -/
def Lower (options : Options) (instructions : List IrInstruction) (nextRange : ℕ) :
    Option (List IrInstruction × ℕ) :=
  (LowerBlock options instructions nextRange).bind fun (lowered, number) =>
    (CombineAdjacentLoads options.ignoreDisabledPcTraces
      (lowered.flatMap LoweredPart.instructions)).map fun combined => (combined, number)

end Wiicompiled.CodeGen.GuestMemoryRangeLowering
