import Wiicompiled.Analysis.GuestExecution
import Wiicompiled.Support.RoundRobin

/-!
# ABI contracts

The contract of a guest function: the registers it may read before writing
them, the registers it may write, and those it writes on every way out.  The
analyzer solves a forward must-write problem over the branch and jump edges
between blocks and then replays every block.
-/

namespace Wiicompiled.Analysis

open Ir RoundRobin

/-- An inferred contract.  The source lists the three masks register class by
register class. -/
structure GuestAbiContract where
  readBeforeWrite : GuestStateMask
  possibleWrites : GuestStateMask
  definiteWrites : GuestStateMask
  gprReturnMask : BitVec 32
  fprReturnMask : BitVec 32
  boundaryFlags : GuestCallBoundaryFlags
  directCallTargets : List UInt32
deriving DecidableEq

abbrev ContractMap := UInt32 → Option GuestAbiContract

/-! ## Save and restore thunks -/

/-- One family of save or restore thunks, four bytes apart. -/
structure GuestSaveRestoreThunkRange where
  baseAddress : UInt32
  firstRegister : ℕ
  lastRegister : ℕ

structure GuestSaveRestoreThunks where
  saveGpr : Option GuestSaveRestoreThunkRange
  restGpr : Option GuestSaveRestoreThunkRange
  saveFpr : Option GuestSaveRestoreThunkRange
  restFpr : Option GuestSaveRestoreThunkRange

/-- The thunks in effect for a project without a function map. -/
def GuestSaveRestoreThunks.none : GuestSaveRestoreThunks :=
  ⟨.none, .none, .none, .none⟩

inductive InlineThunkKind where
  | saveGpr
  | restGpr
  | saveFpr
  | restFpr
deriving DecidableEq

/-- The register at which the thunk at `candidate` starts. -/
def tryRange (candidate : UInt32) :
    Option GuestSaveRestoreThunkRange → Option ℕ
  | none => none
  | some range =>
      let lastAddress := range.baseAddress +
        UInt32.ofNat ((range.lastRegister - range.firstRegister) * 4)
      if candidate < range.baseAddress ∨ candidate > lastAddress ∨
          (candidate - range.baseAddress) &&& 3 ≠ 0 then none
      else
        some (range.firstRegister +
          ((candidate - range.baseAddress) / 4).toNat)

def tryGetInlineThunk (thunks : GuestSaveRestoreThunks) (address : UInt32) :
    Option (InlineThunkKind × ℕ) :=
  match tryRange address thunks.saveGpr with
  | some start => some (.saveGpr, start)
  | none =>
  match tryRange address thunks.restGpr with
  | some start => some (.restGpr, start)
  | none =>
  match tryRange address thunks.saveFpr with
  | some start => some (.saveFpr, start)
  | none =>
  match tryRange address thunks.restFpr with
  | some start => some (.restFpr, start)
  | none => none

namespace GuestAbiContractAnalyzer

open GuestStateMask

/-- `rN..r31` or `fN..f31`. -/
def registerRangeToTop (general : Bool) (startRegister : ℕ) : GuestStateMask :=
  let mask := 0xFFFFFFFF#32 <<< (startRegister % 32)
  if general then { empty with gpr := mask } else { empty with fpr := mask }

/-- What a restore thunk at `address` writes. -/
def thunkWrites (thunks : GuestSaveRestoreThunks) (address : UInt32) :
    GuestStateMask :=
  match tryGetInlineThunk thunks address with
  | some (.restGpr, start) => registerRangeToTop true start
  | some (.restFpr, start) => registerRangeToTop false start
  | _ => empty

/-! ## Reads and writes of one instruction -/

/-- What a direct call without a contract reads: the registers of a save thunk,
or its IR arguments. -/
def uncontractedReads (thunks : GuestSaveRestoreThunks) (address : UInt32)
    (arguments : List IrValue) : GuestStateMask :=
  match tryGetInlineThunk thunks address with
  | some (.saveGpr, start) => registerRangeToTop true start
  | some (.saveFpr, start) => registerRangeToTop false start
  | _ => valuesMask ofSsaName arguments

def callReads (thunks : GuestSaveRestoreThunks) (contracts : ContractMap)
    (target : String) (arguments : List IrValue) : GuestStateMask :=
  match tryParseAddress target with
  | some address =>
      match contracts address with
      | some callee => callee.readBeforeWrite
      | none => uncontractedReads thunks address arguments
  | none =>
      (valuesMask ofSsaName arguments).union
        (GuestHelperEffectCatalog.analyze target arguments).reads

/-- What an instruction reads; a branch also reads the registers that its raw
condition text names. -/
def reads (thunks : GuestSaveRestoreThunks) (contracts : ContractMap) :
    IrInstruction → GuestStateMask
  | .call _ target arguments => callReads thunks contracts target arguments
  | .branch _ _ _ conditionRegister =>
      (ofSsaName conditionRegister).union
        (specialRegistersInRawExpression conditionRegister)
  | i => operandReads ofSsaName i

def callWrites (thunks : GuestSaveRestoreThunks) (contracts : ContractMap)
    (destination target : String) (arguments : List IrValue) :
    GuestStateMask × GuestStateMask :=
  let helperEffect :=
    if (tryParseAddress target).isNone then
      some (GuestHelperEffectCatalog.analyze target arguments)
    else none
  let named := ofSsaName destination
  -- The packed CR that a CR helper returns stands for the fields it changes.
  let packedCr := named.cr = 0xFF ∧
    helperEffect.all fun effect => effect.writes.cr ≠ 0
  let shared := if packedCr then empty else named
  match tryParseAddress target with
  | some address =>
      match contracts address with
      | some callee =>
          (shared.union callee.possibleWrites, shared.union callee.definiteWrites)
      | none =>
          let shared := shared.union (thunkWrites thunks address)
          (shared, shared)
  | none =>
      match helperEffect with
      | some effect => (shared.union effect.writes, shared)
      | none => (shared, shared)

/-- Possible and definite writes of an instruction; they differ only for calls. -/
def writes (thunks : GuestSaveRestoreThunks) (contracts : ContractMap) :
    IrInstruction → GuestStateMask × GuestStateMask
  | .call destination target arguments =>
      callWrites thunks contracts destination target arguments
  | i => (operandWrites ofSsaName i, operandWrites ofSsaName i)

def possibleWrites (thunks : GuestSaveRestoreThunks) (contracts : ContractMap)
    (i : IrInstruction) : GuestStateMask :=
  (writes thunks contracts i).1

def definiteWrites (thunks : GuestSaveRestoreThunks) (contracts : ContractMap)
    (i : IrInstruction) : GuestStateMask :=
  (writes thunks contracts i).2

/-! ## The must-write fixpoint -/

/-- The labels that the analysis follows: those of a final branch or jump. -/
def successors (block : IrBasicBlock) : List String :=
  match block.instructions.getLast? with
  | some (.branch _ trueLabel falseLabel _) => [trueLabel, falseLabel]
  | some (.jump targetLabel) => [targetLabel]
  | _ => []

def predecessors (function : IrFunction) (index : ℕ) : List ℕ :=
  (List.range function.blocks.length).flatMap fun p =>
    ((successors (function.blockAt p)).filterMap function.ordinal).filterMap
      fun s => if s = index then some p else none

instance : Inhabited GuestStateMask := ⟨empty⟩

section Fixpoint

variable (thunks : GuestSaveRestoreThunks) (contracts : ContractMap)
  (function : IrFunction)

def definiteWritesOf (instructions : List IrInstruction) : GuestStateMask :=
  instructions.foldl
    (fun set i => set.union (definiteWrites thunks contracts i)) empty

/-- The intersection of the exit sets of the given blocks. -/
def intersectExits (facts : List (GuestStateMask × GuestStateMask)) :
    List ℕ → GuestStateMask
  | [] => empty
  | p :: ps => ps.foldl (fun set q => set.intersect (fact facts q).2) (fact facts p).2

/-- What is definitely written at a block's entry, from the facts of its
predecessors; a fact is the pair of the entry and exit sets of a block. -/
def incoming (facts : List (GuestStateMask × GuestStateMask)) (index : ℕ) :
    GuestStateMask :=
  if (function.blockAt index).label = function.entryLabel then empty
  else intersectExits facts (predecessors function index)

def transfer (index : ℕ) (facts : List (GuestStateMask × GuestStateMask)) :
    GuestStateMask × GuestStateMask :=
  let incoming := incoming function facts index
  (incoming,
    incoming.union
      (definiteWritesOf thunks contracts (function.blockAt index).instructions))

def initialFacts : List (GuestStateMask × GuestStateMask) :=
  List.replicate function.blocks.length (empty, empty)

/-- The entry and exit sets of all blocks; `none` only without enough fuel. -/
def definiteFacts (fuel : ℕ) : Option (List (GuestStateMask × GuestStateMask)) :=
  iterate (sweep (transfer thunks contracts function)
    (List.range function.blocks.length)) fuel (initialFacts function)

/-! ## The contract -/

/-- What the replay of the blocks accumulates. -/
structure Replay where
  written : GuestStateMask
  readBeforeWrite : GuestStateMask
  possibleWrites : GuestStateMask
  directTargets : List UInt32
  boundaryFlags : GuestCallBoundaryFlags

def addTarget (targets : List UInt32) (target : UInt32) : List UInt32 :=
  if target ∈ targets then targets
  else targets.takeWhile (· < target) ++ target ::
    targets.dropWhile (· < target)

def instructionFlags : IrInstruction → GuestCallBoundaryFlags
  | .call _ target arguments =>
      match tryParseAddress target with
      | some address =>
          match contracts address with
          | some callee => callee.boundaryFlags
          | none => 0
      | none => (GuestHelperEffectCatalog.analyze target arguments).boundaryFlags
  | .indirectCall .. | .indirectJump .. | .undefined .. =>
      GuestCallBoundaryFlags.requiresCompleteContext
  | _ => 0

/-- The guest address that an instruction calls, save and restore thunks
excepted. -/
def instructionTarget : IrInstruction → Option UInt32
  | .call _ target _ =>
      match tryParseAddress target with
      | some address =>
          if (tryGetInlineThunk thunks address).isNone then some address else none
      | none => none
  | _ => none

def replayInstruction (acc : Replay) (i : IrInstruction) : Replay where
  written := acc.written.union (definiteWrites thunks contracts i)
  readBeforeWrite := acc.readBeforeWrite.union
    ((reads thunks contracts i).except acc.written)
  possibleWrites := acc.possibleWrites.union (possibleWrites thunks contracts i)
  directTargets :=
    match instructionTarget thunks i with
    | some target => addTarget acc.directTargets target
    | none => acc.directTargets
  boundaryFlags := acc.boundaryFlags ||| instructionFlags contracts i

def replayBlock (facts : List (GuestStateMask × GuestStateMask))
    (acc : Replay) (index : ℕ) : Replay :=
  (function.blockAt index).instructions.foldl (replayInstruction thunks contracts)
    { acc with written := (fact facts index).1 }

def replay (facts : List (GuestStateMask × GuestStateMask)) : Replay :=
  (List.range function.blocks.length).foldl
    (replayBlock thunks contracts function facts) ⟨empty, empty, empty, [], 0⟩

/-- A block without a followed successor inside the function. -/
def isExitBlock (index : ℕ) : Bool :=
  ((successors (function.blockAt index)).filterMap function.ordinal).isEmpty

/-- The intersection of the exit sets of all exit blocks. -/
def exitWrites (facts : List (GuestStateMask × GuestStateMask)) :
    GuestStateMask :=
  intersectExits facts
    ((List.range function.blocks.length).filter (isExitBlock function))

/-- The contract that the solution of the must-write problem gives. -/
def contractOf (facts : List (GuestStateMask × GuestStateMask)) :
    GuestAbiContract :=
  let result := replay thunks contracts function facts
  { readBeforeWrite := result.readBeforeWrite
    possibleWrites := result.possibleWrites
    definiteWrites := exitWrites function facts
    gprReturnMask := result.possibleWrites.gpr &&& 0x18
    fprReturnMask := result.possibleWrites.fpr &&& 0x2
    boundaryFlags := result.boundaryFlags
    directCallTargets := result.directTargets }

/-- The contract of a function; `none` stands for the exception that a
duplicate label raises. -/
def analyze : Option GuestAbiContract :=
  if function.DistinctLabels then
    (definiteFacts thunks contracts function
        (184 * function.blocks.length + 1)).map (contractOf thunks contracts function)
  else none

/-! ## What the fixpoint and the replay compute -/

variable {thunks contracts function}

theorem has_definiteWritesOf (instructions : List IrInstruction) (r : Reg) :
    (definiteWritesOf thunks contracts instructions).has r = true ↔
      ∃ i ∈ instructions, (definiteWrites thunks contracts i).has r = true := by
  have hfold : ∀ set : GuestStateMask,
      (instructions.foldl
        (fun set i => set.union (definiteWrites thunks contracts i)) set).has r =
          true ↔
        set.has r = true ∨
          ∃ i ∈ instructions, (definiteWrites thunks contracts i).has r = true := by
    induction instructions with
    | nil => simp
    | cons i instructions ih =>
        intro set
        rw [List.foldl_cons, ih, has_union, Bool.or_eq_true, or_assoc]
        simp
  simpa [definiteWritesOf] using hfold empty

theorem has_intersectExits
    {facts : List (GuestStateMask × GuestStateMask)} {blocks : List ℕ} {r : Reg} :
    (intersectExits facts blocks).has r = true ↔
      blocks ≠ [] ∧ ∀ q ∈ blocks, (fact facts q).2.has r = true := by
  have hfold : ∀ (qs : List ℕ) (set : GuestStateMask),
      (qs.foldl (fun set q => set.intersect (fact facts q).2) set).has r = true ↔
        set.has r = true ∧ ∀ q ∈ qs, (fact facts q).2.has r = true := by
    intro qs
    induction qs with
    | nil => simp
    | cons q qs ih =>
        intro set
        rw [List.foldl_cons, ih, has_intersect, Bool.and_eq_true, and_assoc]
        simp
  cases blocks with
  | nil => simp [intersectExits]
  | cons p ps =>
      rw [intersectExits, hfold]
      simp

theorem intersectExits_mono
    {s t : List (GuestStateMask × GuestStateMask)} (h : Below s t)
    (blocks : List ℕ) : intersectExits s blocks ≤ intersectExits t blocks := by
  intro r hr
  rw [has_intersectExits] at hr ⊢
  exact ⟨hr.1, fun q hq => (h.2 q).2 r (hr.2 q hq)⟩

theorem transfer_monotone : MonotoneEqs (transfer thunks contracts function) := by
  intro i s t h
  have hin : incoming function s i ≤ incoming function t i := by
    rw [incoming, incoming]
    split
    · exact le_rfl
    · exact intersectExits_mono h _
  exact ⟨hin, union_mono hin le_rfl⟩

/-- The fixpoint loop ends, with entry and exit sets that solve the equations. -/
theorem definiteFacts_solves :
    ∃ facts, definiteFacts thunks contracts function
        (184 * function.blocks.length + 1) = some facts ∧
      ∀ i, i < function.blocks.length →
        fact facts i = transfer thunks contracts function i facts := by
  have horder : ∀ i, i < function.blocks.length →
      i ∈ List.range function.blocks.length :=
    fun _ hi => List.mem_range.mpr hi
  have hfuel : 184 * function.blocks.length < 184 * function.blocks.length + 1 :=
    Nat.lt_succ_self _
  exact iterate_sweep_from_bottom transfer_monotone pairSize_le pairSize_lt_of_lt
    empty_pair_le horder hfuel

/-- A replayed sequence reads a register before writing it exactly at an
instruction that reads it, with no definite write of it earlier on. -/
theorem replayInstructions_reads (instructions : List IrInstruction) (r : Reg) :
    ∀ acc : Replay,
      (instructions.foldl (replayInstruction thunks contracts)
          acc).readBeforeWrite.has r = true ↔
        acc.readBeforeWrite.has r = true ∨
          ∃ front i back, instructions = front ++ i :: back ∧
            (reads thunks contracts i).has r = true ∧
            acc.written.has r = false ∧
            (definiteWritesOf thunks contracts front).has r = false := by
  induction instructions with
  | nil => simp
  | cons i instructions ih =>
      intro acc
      rw [List.foldl_cons, ih]
      constructor
      · rintro (hread | ⟨front, j, back, hsplit, hj, hacc, hfront⟩)
        · simp only [replayInstruction, has_union, has_except, Bool.or_eq_true,
            Bool.and_eq_true, Bool.not_eq_true'] at hread
          rcases hread with hread | ⟨hi, hacc⟩
          · exact Or.inl hread
          · exact Or.inr ⟨[], i, instructions, rfl, hi, hacc, by
              simp [definiteWritesOf]⟩
        · simp only [replayInstruction, has_union, Bool.or_eq_false_iff] at hacc
          refine Or.inr ⟨i :: front, j, back, by rw [hsplit]; rfl, hj, hacc.1, ?_⟩
          rw [Bool.eq_false_iff] at hfront ⊢
          intro hmem
          obtain ⟨k, hk, hwrite⟩ := has_definiteWritesOf _ r |>.mp hmem
          rcases List.mem_cons.mp hk with rfl | hk
          · rw [hacc.2] at hwrite
            cases hwrite
          · exact hfront ((has_definiteWritesOf _ r).mpr ⟨k, hk, hwrite⟩)
      · rintro (hread | ⟨front, j, back, hsplit, hj, hacc, hfront⟩)
        · refine Or.inl ?_
          simp [replayInstruction, hread]
        · cases front with
          | nil =>
              simp only [List.nil_append, List.cons.injEq] at hsplit
              refine Or.inl ?_
              simp [replayInstruction, hsplit.1, hj, hacc]
          | cons k front =>
              simp only [List.cons_append, List.cons.injEq] at hsplit
              obtain ⟨rfl, hsplit⟩ := hsplit
              have hall : ∀ l ∈ i :: front,
                  (definiteWrites thunks contracts l).has r = false := by
                intro l hl
                rw [Bool.eq_false_iff]
                intro hwrite
                have hmem := (has_definiteWritesOf _ r).mpr ⟨l, hl, hwrite⟩
                rw [hfront] at hmem
                cases hmem
              refine Or.inr ⟨front, j, back, hsplit, hj, ?_, ?_⟩
              · simp [replayInstruction, hacc, hall i List.mem_cons_self]
              · rw [Bool.eq_false_iff]
                intro hmem
                obtain ⟨l, hl, hwrite⟩ := (has_definiteWritesOf _ r).mp hmem
                rw [hall l (List.mem_cons_of_mem i hl)] at hwrite
                cases hwrite

theorem replayInstructions_possible (instructions : List IrInstruction) (r : Reg) :
    ∀ acc : Replay,
      (instructions.foldl (replayInstruction thunks contracts)
          acc).possibleWrites.has r = true ↔
        acc.possibleWrites.has r = true ∨
          ∃ i ∈ instructions, (possibleWrites thunks contracts i).has r = true := by
  induction instructions with
  | nil => simp
  | cons i instructions ih =>
      intro acc
      rw [List.foldl_cons, ih]
      simp [replayInstruction, or_assoc]

theorem replay_reads
    {facts : List (GuestStateMask × GuestStateMask)} {r : Reg} :
    (replay thunks contracts function facts).readBeforeWrite.has r = true ↔
      ∃ index, index < function.blocks.length ∧ ∃ front i back,
        (function.blockAt index).instructions = front ++ i :: back ∧
          (reads thunks contracts i).has r = true ∧
          (fact facts index).1.has r = false ∧
          (definiteWritesOf thunks contracts front).has r = false := by
  have hfold : ∀ (blocks : List ℕ) (acc : Replay),
      (blocks.foldl (replayBlock thunks contracts function facts)
          acc).readBeforeWrite.has r = true ↔
        acc.readBeforeWrite.has r = true ∨ ∃ index ∈ blocks, ∃ front i back,
          (function.blockAt index).instructions = front ++ i :: back ∧
            (reads thunks contracts i).has r = true ∧
            (fact facts index).1.has r = false ∧
            (definiteWritesOf thunks contracts front).has r = false := by
    intro blocks
    induction blocks with
    | nil => simp
    | cons index blocks ih =>
        intro acc
        rw [List.foldl_cons, ih, replayBlock, replayInstructions_reads, or_assoc]
        simp
  rw [replay, hfold]
  simp only [has_empty, Bool.false_eq_true, false_or, List.mem_range]

theorem replay_possible
    {facts : List (GuestStateMask × GuestStateMask)} {r : Reg} :
    (replay thunks contracts function facts).possibleWrites.has r = true ↔
      ∃ index, index < function.blocks.length ∧
        ∃ i ∈ (function.blockAt index).instructions,
          (possibleWrites thunks contracts i).has r = true := by
  have hfold : ∀ (blocks : List ℕ) (acc : Replay),
      (blocks.foldl (replayBlock thunks contracts function facts)
          acc).possibleWrites.has r = true ↔
        acc.possibleWrites.has r = true ∨ ∃ index ∈ blocks,
          ∃ i ∈ (function.blockAt index).instructions,
            (possibleWrites thunks contracts i).has r = true := by
    intro blocks
    induction blocks with
    | nil => simp
    | cons index blocks ih =>
        intro acc
        rw [List.foldl_cons, ih, replayBlock, replayInstructions_possible, or_assoc]
        simp
  rw [replay, hfold]
  simp only [has_empty, Bool.false_eq_true, false_or, List.mem_range]

/-- A contract comes from a solution of the must-write equations. -/
theorem analyze_eq_some
    {contract : GuestAbiContract}
    (h : analyze thunks contracts function = some contract) :
    function.DistinctLabels ∧ ∃ facts,
      definiteFacts thunks contracts function (184 * function.blocks.length + 1) =
        some facts ∧
      (∀ i, i < function.blocks.length →
        fact facts i = transfer thunks contracts function i facts) ∧
      contract = contractOf thunks contracts function facts := by
  obtain ⟨facts, hfacts, hsolves⟩ :
      ∃ facts, definiteFacts thunks contracts function
          (184 * function.blocks.length + 1) = some facts ∧
        ∀ i, i < function.blocks.length →
          fact facts i = transfer thunks contracts function i facts :=
    definiteFacts_solves
  rw [analyze] at h
  split at h
  · rename_i hlabels
    rw [hfacts] at h
    cases h
    exact ⟨hlabels, facts, hfacts, hsolves, rfl⟩
  · cases h

theorem analyze_isSome (h : function.DistinctLabels) :
    (analyze thunks contracts function).isSome = true := by
  obtain ⟨facts, hfacts, -⟩ :
      ∃ facts, definiteFacts thunks contracts function
          (184 * function.blocks.length + 1) = some facts ∧
        ∀ i, i < function.blocks.length →
          fact facts i = transfer thunks contracts function i facts :=
    definiteFacts_solves
  rw [analyze, if_pos h, hfacts]
  rfl

end Fixpoint

end GuestAbiContractAnalyzer

end Wiicompiled.Analysis
