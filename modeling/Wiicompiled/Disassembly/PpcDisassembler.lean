import Mathlib.Data.List.AList
import Mathlib.Data.List.Sort
import Mathlib.Data.Prod.Lex
import Wiicompiled.Ir.RegisterNames
import Wiicompiled.Support.Probing

/-!
# Disassembly of one function

The demand-driven walk over the instructions of a function.  It asks whether the target
of an unconditional branch is the entry point of another function, and logs every target
that is not; nothing else in it depends on the known entry points.  The decoder of single
words and the recognition of jump tables never see the entry points and are left as
parameters.
-/

namespace Wiicompiled.Disassembly

open Ir

/-! ## Instructions and images -/

/-- The exceptions of the front end, by the classes that its callers tell apart. -/
inductive Failure where
  | invalidOperation
  | argument
  | indexOutOfRange
  | notSupported
  | overflow
  | other
deriving DecidableEq

inductive PpcOperand where
  | register (name : String) (number : Int32)
  | immediate (value : Int32) (preferHex : Bool)
  | displacement (offset : Int32) (baseRegister : String) (baseRegisterNumber : Int32)
  | branchTarget (targetAddress : UInt32)
  | conditionRegister (name : String) (bitIndex : Int32)
deriving DecidableEq

structure PpcInstruction where
  address : UInt32
  word : UInt32
  mnemonic : String
  operands : List PpcOperand
  branchTargets : List UInt32
  isReturn : Bool
  isCall : Bool
  isConditionalBranch : Bool
deriving DecidableEq

namespace PpcInstruction

/-- `checked(Address + 4u)`. -/
def endAddress (i : PpcInstruction) : Except Failure UInt32 :=
  if i.address.toNat + 4 < UInt32.size then .ok (i.address + 4) else .error .overflow

def isUnconditionalBranch (i : PpcInstruction) : Bool :=
  !i.branchTargets.isEmpty && !i.isConditionalBranch && !i.isCall && !i.isReturn

end PpcInstruction

structure ProgramImage where
  memory : List UInt8
  memoryBase : UInt32

namespace ProgramImage

def contains (image : ProgramImage) (address : UInt32) (size : ℕ) : Bool :=
  image.memoryBase ≤ address &&
    address.toNat - image.memoryBase.toNat + size ≤ image.memory.length

def getOffset (image : ProgramImage) (address : UInt32) : ℕ :=
  address.toNat - image.memoryBase.toNat

def readUInt32BigEndian (image : ProgramImage) (address : UInt32) : UInt32 :=
  ((image.memory.drop (image.getOffset address)).take 4).foldl
    (fun word byte => word <<< 8 ||| byte.toUInt32) 0

end ProgramImage

/-! ## The walk -/

/-- The decoder of single words and the recognition of jump tables from the decoded
instructions in ascending order. -/
structure Decoder where
  decode : UInt32 → UInt32 → PpcInstruction
  tryRecognize : List PpcInstruction → UInt32 → UInt32 → UInt32 → ProgramImage →
    Except Failure (Option (List UInt32))

structure DecodeRequest where
  image : ProgramImage
  entryPoint : UInt32
  endAddress : UInt32
  maxInstructions : Int
  throwOnBudget : Bool

/-- The result of the walk; no list when the budget is exhausted. -/
abbrev Decoded := Except Failure (Option (List PpcInstruction))

structure DecodeState where
  instructionMap : AList fun _ : UInt32 => PpcInstruction
  reachable : List UInt32
  localControlFlowTargets : List UInt32
  worklist : List UInt32
  cursor : Option UInt32

section Walk

variable (d : Decoder) (q : DecodeRequest)

def budgetExhausted : Decoded :=
  if q.throwOnBudget then .error .invalidOperation else .ok none

/-- The reachable instructions in ascending order. -/
def collect (s : DecodeState) : Decoded :=
  ((s.reachable.insertionSort (· ≤ ·)).mapM fun address =>
    match s.instructionMap.lookup address with
    | some ins => Except.ok ins
    | none => Except.error Failure.other).map some

/-- The instruction at an address of the image, decoded at its first use. -/
def fetch (map : AList fun _ : UInt32 => PpcInstruction) (cursor : UInt32) :
    Option (PpcInstruction × AList fun _ : UInt32 => PpcInstruction) :=
  match map.lookup cursor with
  | some ins => some (ins, map)
  | none =>
      if q.image.contains cursor 4 then
        let ins := d.decode cursor (q.image.readUInt32BigEndian cursor)
        some (ins, map.insert cursor ins)
      else none

def jumpTableTargets (s : DecodeState) (ins : PpcInstruction) :
    Except Failure (Option (List UInt32)) :=
  if ins.branchTargets = [] ∧ equalsIgnoreCase ins.mnemonic.toList "bctr".toList then
    let ordered := (s.instructionMap.entries.map Sigma.snd).insertionSort
      fun i j => i.address ≤ j.address
    d.tryRecognize ordered ins.address q.entryPoint q.endAddress q.image
  else .ok none

/-- The instruction with the targets of its jump table; these are local. -/
def withJumpTable (s : DecodeState) (ins : PpcInstruction) :
    Option (List UInt32) → PpcInstruction × DecodeState
  | some targets =>
      let ins := { ins with branchTargets := targets, isReturn := false }
      (ins, { s with
        instructionMap := s.instructionMap.insert ins.address ins
        localControlFlowTargets := targets ++ s.localControlFlowTargets })
  | none => (ins, s)

def isKnownExternalFunctionEntry (s : DecodeState) (target : UInt32) :
    Probing UInt32 Bool :=
  if target = q.entryPoint ∨ target ∈ s.localControlFlowTargets then .done false
  else .ask target

/-- Queue the targets of an unconditional branch that stay in the function. -/
def enqueueTargets (s : DecodeState) (recognized : Bool) (targets : List UInt32) :
    Probing UInt32 (List UInt32) :=
  .fold (fun worklist target =>
    (if recognized then .done false else isKnownExternalFunctionEntry q s target).andThen
      fun external =>
        .done (if !external ∧ target ∉ s.reachable then worklist ++ [target] else worklist))
    targets s.worklist

def fallThrough (s : DecodeState) (ins : PpcInstruction) :
    Probing UInt32 (DecodeState ⊕ Decoded) :=
  match ins.endAddress with
  | .ok next => .done (.inl { s with cursor := some next })
  | .error e => .done (.inr (.error e))

/-- What happens at an instruction that has become reachable. -/
def followInstruction (s : DecodeState) (ins : PpcInstruction) (recognized : Bool) :
    Probing UInt32 (DecodeState ⊕ Decoded) :=
  if ins.isConditionalBranch then
    fallThrough
      { s with
        localControlFlowTargets := ins.branchTargets ++ s.localControlFlowTargets
        worklist := s.worklist ++ ins.branchTargets.filter fun target =>
          target ∉ s.reachable } ins
  else if ins.isUnconditionalBranch then
    (enqueueTargets q s recognized ins.branchTargets).andThen fun worklist =>
      .done (.inl { s with worklist := worklist, cursor := none })
  else if ins.isReturn then .done (.inl { s with cursor := none })
  else fallThrough s ins

def visitInstruction (s : DecodeState) (ins : PpcInstruction) :
    Probing UInt32 (DecodeState ⊕ Decoded) :=
  if ins.address ∈ s.reachable then .done (.inl { s with cursor := none })
  else
    let s := { s with reachable := ins.address :: s.reachable }
    match jumpTableTargets d q s ins with
    | .ok targets =>
        followInstruction q (withJumpTable s ins targets).2 (withJumpTable s ins targets).1
          targets.isSome
    | .error e => .done (.inr (.error e))

/-- One pass through the two nested loops: take an address from the work list, or look
at the instruction under the cursor. -/
def decodeStep (s : DecodeState) : Probing UInt32 (DecodeState ⊕ Decoded) :=
  match s.cursor with
  | none =>
      match s.worklist with
      | [] => .done (.inr (collect s))
      | next :: rest =>
          if q.maxInstructions ≤ s.reachable.length then .done (.inr (budgetExhausted q))
          else .done (.inl { s with worklist := rest, cursor := some next })
  | some cursor =>
      if cursor < q.entryPoint ∨ q.endAddress ≤ cursor then
        .done (.inl { s with cursor := none })
      else if q.maxInstructions ≤ s.reachable.length then .done (.inr (budgetExhausted q))
      else
        match fetch d q s.instructionMap cursor with
        | none => .done (.inl { s with cursor := none })
        | some (ins, map) => visitInstruction d q { s with instructionMap := map } ins

end Walk

/-! ## The walk ends -/

/-- The instructions that may still become reachable, the addresses that wait, and
whether there is a cursor. -/
def decodeMeasure (q : DecodeRequest) (s : DecodeState) : ℕ ×ₗ ℕ ×ₗ ℕ :=
  toLex ((q.maxInstructions - s.reachable.length).toNat,
    toLex (s.worklist.length, if s.cursor.isSome then 1 else 0))

def DecodeDescends (q : DecodeRequest) (s' s : DecodeState) : Prop :=
  decodeMeasure q s' < decodeMeasure q s

section Ends

variable {q : DecodeRequest}

theorem decodeDescends_wf (q : DecodeRequest) : WellFounded (DecodeDescends q) :=
  InvImage.wf (decodeMeasure q) wellFounded_lt

theorem decodeDescends_of_reachable {s s' : DecodeState} {address : UInt32}
    (hbudget : (s.reachable.length : Int) < q.maxInstructions)
    (h : s'.reachable = address :: s.reachable) : DecodeDescends q s' s := by
  apply Prod.Lex.toLex_lt_toLex.mpr
  left
  rw [h, List.length_cons]
  omega

theorem decodeDescends_of_cursor {s s' : DecodeState} {cursor : UInt32}
    (hcursor : s.cursor = some cursor) (hreachable : s'.reachable = s.reachable)
    (hworklist : s'.worklist = s.worklist) (h : s'.cursor = none) :
    DecodeDescends q s' s := by
  apply Prod.Lex.toLex_lt_toLex.mpr
  right
  rw [hreachable]
  refine ⟨rfl, Prod.Lex.toLex_lt_toLex.mpr (.inr ?_)⟩
  simp [hworklist, hcursor, h]

theorem fallThrough_reachable {s s' : DecodeState} {ins : PpcInstruction}
    {K : UInt32 → Bool} {log : List UInt32}
    (h : (fallThrough s ins K log).1 = .inl s') : s'.reachable = s.reachable := by
  rw [fallThrough] at h
  rcases hnext : ins.endAddress with e | next <;> rw [hnext] at h
  · cases h
  · obtain rfl := Sum.inl.inj h
    rfl

theorem followInstruction_reachable {s s' : DecodeState} {ins : PpcInstruction}
    {recognized : Bool} {K : UInt32 → Bool} {log : List UInt32}
    (h : (followInstruction q s ins recognized K log).1 = .inl s') :
    s'.reachable = s.reachable := by
  rw [followInstruction] at h
  split_ifs at h
  · have hsame := fallThrough_reachable h
    exact hsame
  · obtain rfl := Sum.inl.inj h
    rfl
  · obtain rfl := Sum.inl.inj h
    rfl
  · exact fallThrough_reachable h

theorem withJumpTable_reachable (s : DecodeState) (ins : PpcInstruction)
    (targets : Option (List UInt32)) :
    (withJumpTable s ins targets).2.reachable = s.reachable := by
  cases targets <;> rfl

theorem visitInstruction_descends {d : Decoder} {s s₀ s' : DecodeState}
    {ins : PpcInstruction} {cursor : UInt32} {K : UInt32 → Bool} {log : List UInt32}
    (hbudget : (s.reachable.length : Int) < q.maxInstructions)
    (hcursor : s.cursor = some cursor) (hreachable : s₀.reachable = s.reachable)
    (hworklist : s₀.worklist = s.worklist)
    (h : (visitInstruction d q s₀ ins K log).1 = .inl s') : DecodeDescends q s' s := by
  rw [visitInstruction] at h
  split_ifs at h
  · obtain rfl := Sum.inl.inj h
    exact decodeDescends_of_cursor hcursor hreachable hworklist rfl
  · rcases htargets : jumpTableTargets d q
      { s₀ with reachable := ins.address :: s₀.reachable } ins with e | targets <;>
      simp only [htargets] at h
    · cases h
    · apply decodeDescends_of_reachable hbudget
      rw [followInstruction_reachable h, withJumpTable_reachable, hreachable]

/-- A step that goes on takes the next address, gives the cursor up or visits the
instruction at the cursor. -/
theorem decodeStep_cases {d : Decoder} {s s' : DecodeState} {K : UInt32 → Bool}
    {log : List UInt32} (h : (decodeStep d q s K log).1 = .inl s') :
    (∃ next rest, s.cursor = none ∧ s.worklist = next :: rest ∧
      (s.reachable.length : Int) < q.maxInstructions ∧
        s' = { s with worklist := rest, cursor := some next }) ∨
    ∃ cursor, s.cursor = some cursor ∧
      (((cursor < q.entryPoint ∨ q.endAddress ≤ cursor) ∨
          fetch d q s.instructionMap cursor = none) ∧ s' = { s with cursor := none } ∨
        ¬(cursor < q.entryPoint ∨ q.endAddress ≤ cursor) ∧
          ¬q.maxInstructions ≤ s.reachable.length ∧
          ∃ ins map, fetch d q s.instructionMap cursor = some (ins, map) ∧
            (visitInstruction d q { s with instructionMap := map } ins K log).1 = .inl s') := by
  rw [decodeStep] at h
  rcases hcursor : s.cursor with _ | cursor <;> simp only [hcursor] at h
  · rcases hworklist : s.worklist with _ | ⟨next, rest⟩ <;> simp only [hworklist] at h
    · cases h
    · split_ifs at h with hbudget
      · cases h
      · exact .inl ⟨next, rest, rfl, rfl, by omega, (Sum.inl.inj h).symm⟩
  · refine .inr ⟨cursor, rfl, ?_⟩
    split_ifs at h with hwindow hbudget
    · exact .inl ⟨.inl hwindow, (Sum.inl.inj h).symm⟩
    · cases h
    · rcases hfetch : fetch d q s.instructionMap cursor with _ | ⟨ins, map⟩ <;>
        simp only [hfetch] at h
      · exact .inl ⟨.inr rfl, (Sum.inl.inj h).symm⟩
      · exact .inr ⟨hwindow, hbudget, ins, map, rfl, hcursor ▸ h⟩

theorem decodeStep_descends (d : Decoder) (s : DecodeState) (K : UInt32 → Bool)
    (log : List UInt32) (s' : DecodeState)
    (h : (decodeStep d q s K log).1 = .inl s') : DecodeDescends q s' s := by
  rcases decodeStep_cases h with ⟨next, rest, -, hworklist, -, rfl⟩ |
    ⟨cursor, hcursor, ⟨-, rfl⟩ | ⟨-, hbudget, ins, map, -, hvisit⟩⟩
  · apply Prod.Lex.toLex_lt_toLex.mpr
    refine .inr ⟨rfl, Prod.Lex.toLex_lt_toLex.mpr (.inl ?_)⟩
    simp [hworklist]
  · exact decodeDescends_of_cursor hcursor rfl rfl rfl
  · refine visitInstruction_descends (by omega) hcursor ?_ ?_ hvisit <;> rfl

end Ends

/-! ## Disassembling -/

/-- The walk from the entry point, through the instructions that the limits allow. -/
def disassembleFunctionCore (d : Decoder) (image : ProgramImage) (entryPoint : UInt32)
    (maxInstructions maxBytes : Int) (throwOnBudget : Bool) : Probing UInt32 Decoded :=
  if image.contains entryPoint 4 then
    let available := min maxBytes (image.memory.length - image.getOffset entryPoint)
    let q : DecodeRequest :=
      { image := image
        entryPoint := entryPoint
        endAddress := entryPoint + UInt32.ofInt available
        maxInstructions := maxInstructions
        throwOnBudget := throwOnBudget }
    .loop (decodeDescends_wf q) (decodeStep d q) (decodeStep_descends d)
      ⟨∅, [], [], [entryPoint], none⟩
  else .done (.error .argument)

/-! ## The walk can be replayed -/

section Replay

open Probing

variable (d : Decoder) (q : DecodeRequest)

theorem replayable_enqueueTargets (s : DecodeState) (recognized : Bool)
    (targets : List UInt32) : Replayable (enqueueTargets q s recognized targets) := by
  apply replayable_fold
  intro worklist target
  refine Replayable.andThen ?_ fun external => replayable_done _
  rw [isKnownExternalFunctionEntry]
  split_ifs
  · exact replayable_done false
  · exact replayable_done false
  · exact replayable_ask target

theorem replayable_fallThrough (s : DecodeState) (ins : PpcInstruction) :
    Replayable (fallThrough s ins) := by
  rw [fallThrough]
  split <;> exact replayable_done _

theorem replayable_followInstruction (s : DecodeState) (ins : PpcInstruction)
    (recognized : Bool) : Replayable (followInstruction q s ins recognized) := by
  rw [followInstruction]
  split_ifs
  · exact replayable_fallThrough _ ins
  · exact (replayable_enqueueTargets q s recognized _).andThen fun _ => replayable_done _
  · exact replayable_done _
  · exact replayable_fallThrough s ins

/-- Only the targets of an unconditional branch are asked for, and these are logged. -/
theorem replayable_decodeStep (s : DecodeState) : Replayable (decodeStep d q s) := by
  rw [decodeStep]
  split
  · split
    · exact replayable_done _
    · split_ifs <;> exact replayable_done _
  · split_ifs
    · exact replayable_done _
    · exact replayable_done _
    · split
      · exact replayable_done _
      · rw [visitInstruction]
        split_ifs
        · exact replayable_done _
        · dsimp only
          split
          · exact replayable_followInstruction q _ _ _
          · exact replayable_done _

theorem replayable_disassembleFunctionCore (image : ProgramImage) (entryPoint : UInt32)
    (maxInstructions maxBytes : Int) (throwOnBudget : Bool) :
    Replayable
      (disassembleFunctionCore d image entryPoint maxInstructions maxBytes throwOnBudget) := by
  rw [disassembleFunctionCore]
  split_ifs
  · exact replayable_loop _ _ (replayable_decodeStep d _) _
  · exact replayable_done _

end Replay

end Wiicompiled.Disassembly
