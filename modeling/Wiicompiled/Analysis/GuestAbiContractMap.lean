import Wiicompiled.Analysis.GuestAbiContract

/-!
# Dependence on the contracts of callees

A contract depends only on the contracts of the called addresses.  Its definite
and possible writes grow with those of the callees; its reads shrink when the
definite writes of the callees grow.
-/

namespace Wiicompiled.Analysis.GuestAbiContractAnalyzer

open Ir GuestStateMask RoundRobin

def calledAddress : IrInstruction → Option UInt32
  | .call _ target _ => tryParseAddress target
  | _ => none

section Dependence

variable {thunks : GuestSaveRestoreThunks} {contracts contracts' : ContractMap}
  {function : IrFunction}

/-! ## Equal contracts -/

theorem definiteWritesOf_congr
    {instructions : List IrInstruction}
    (h : ∀ i ∈ instructions,
      definiteWrites thunks contracts i = definiteWrites thunks contracts' i) :
    definiteWritesOf thunks contracts instructions =
      definiteWritesOf thunks contracts' instructions := by
  ext r
  rw [Bool.eq_iff_iff, has_definiteWritesOf, has_definiteWritesOf]
  constructor
  · rintro ⟨i, hi, hr⟩
    exact ⟨i, hi, h i hi ▸ hr⟩
  · rintro ⟨i, hi, hr⟩
    exact ⟨i, hi, (h i hi).symm ▸ hr⟩

/-- A property of all instructions of a function holds in every block that the
index of a block may name. -/
theorem forall_blockAt
    {P : IrInstruction → Prop}
    (h : ∀ block ∈ function.blocks, ∀ i ∈ block.instructions, P i) (index : ℕ) :
    ∀ i ∈ (function.blockAt index).instructions, P i := by
  by_cases hindex : index < function.blocks.length
  · exact h _ (IrFunction.blockAt_mem hindex)
  · intro i hi
    simp [IrFunction.blockAt, Nat.le_of_not_lt hindex] at hi

theorem definiteFacts_congr
    (h : ∀ block ∈ function.blocks, ∀ i ∈ block.instructions,
      definiteWrites thunks contracts i = definiteWrites thunks contracts' i)
    (fuel : ℕ) :
    definiteFacts thunks contracts function fuel =
      definiteFacts thunks contracts' function fuel := by
  have htransfer : transfer thunks contracts function =
      transfer thunks contracts' function := by
    funext index facts
    rw [transfer, transfer, definiteWritesOf_congr (forall_blockAt h index)]
  rw [definiteFacts, definiteFacts, htransfer]

structure SameEffect (thunks : GuestSaveRestoreThunks)
    (contracts contracts' : ContractMap) (i : IrInstruction) : Prop where
  reads : reads thunks contracts i = GuestAbiContractAnalyzer.reads thunks contracts' i
  writes : writes thunks contracts i =
    GuestAbiContractAnalyzer.writes thunks contracts' i
  flags : instructionFlags contracts i = instructionFlags contracts' i

theorem sameEffect_of_called
    {i : IrInstruction}
    (h : ∀ address, calledAddress i = some address →
      contracts address = contracts' address) :
    SameEffect thunks contracts contracts' i := by
  cases i
  case call destination target arguments =>
    cases haddress : tryParseAddress target with
    | none =>
        constructor
        · simp only [reads, callReads, haddress]
        · simp only [writes, callWrites, haddress]
        · simp only [instructionFlags, haddress]
    | some address =>
        have hsame := h address haddress
        constructor
        · simp only [reads, callReads, haddress, hsame]
        · simp only [writes, callWrites, haddress, hsame]
        · simp only [instructionFlags, haddress, hsame]
  all_goals exact ⟨rfl, rfl, rfl⟩

theorem analyze_congr
    (h : ∀ block ∈ function.blocks, ∀ i ∈ block.instructions,
      SameEffect thunks contracts contracts' i) :
    analyze thunks contracts function = analyze thunks contracts' function := by
  have hfacts := definiteFacts_congr
    (fun block hblock i hi => congrArg Prod.snd (h block hblock i hi).writes)
    (184 * function.blocks.length + 1)
  have hreplay : ∀ facts, replay thunks contracts function facts =
      replay thunks contracts' function facts := by
    intro facts
    have hblock : replayBlock thunks contracts function facts =
        replayBlock thunks contracts' function facts := by
      funext acc index
      rw [replayBlock, replayBlock]
      apply List.foldl_ext
      intro acc i hi
      have hsame := forall_blockAt h index i hi
      simp only [replayInstruction, definiteWrites, possibleWrites, hsame.reads,
        hsame.writes, hsame.flags]
    rw [replay, replay, hblock]
  have hcontract : contractOf thunks contracts function =
      contractOf thunks contracts' function := by
    funext facts
    rw [contractOf, contractOf, hreplay]
  rw [analyze, analyze, hfacts, hcontract]

/-! ## Growing definite writes -/

theorem definiteWritesOf_mono
    {instructions : List IrInstruction}
    (h : ∀ i ∈ instructions,
      definiteWrites thunks contracts i ≤ definiteWrites thunks contracts' i) :
    definiteWritesOf thunks contracts instructions ≤
      definiteWritesOf thunks contracts' instructions := by
  intro r hr
  rw [has_definiteWritesOf] at hr ⊢
  obtain ⟨i, hi, hr⟩ := hr
  exact ⟨i, hi, h i hi r hr⟩

/-- More definite writes in the body give more definite writes at its exits. -/
theorem definiteWrites_mono
    (h : ∀ block ∈ function.blocks, ∀ i ∈ block.instructions,
      definiteWrites thunks contracts i ≤ definiteWrites thunks contracts' i)
    {contract contract' : GuestAbiContract}
    (hcontract : analyze thunks contracts function = some contract)
    (hcontract' : analyze thunks contracts' function = some contract') :
    contract.definiteWrites ≤ contract'.definiteWrites := by
  obtain ⟨-, facts, hfacts, -, rfl⟩ := analyze_eq_some hcontract
  obtain ⟨-, facts', hfacts', hsolves', rfl⟩ := analyze_eq_some hcontract'
  have hle : ∀ index, index < function.blocks.length →
      transfer thunks contracts function index facts' ≤
        transfer thunks contracts' function index facts' := by
    intro index _
    have hown := definiteWritesOf_mono (forall_blockAt h index)
    exact ⟨le_rfl, union_mono le_rfl hown⟩
  have hbelow : Below facts facts' :=
    iterate_sweep_below transfer_monotone empty_pair_le hle hfacts hfacts' hsolves'
  exact intersectExits_mono hbelow _

/-! ## What a contract consists of -/

/-- A register that need not be written yet where an instruction of a function
is executed, as far as the must-write analysis can tell. -/
def Unwritten (thunks : GuestSaveRestoreThunks) (contracts : ContractMap)
    (function : IrFunction) (r : Reg) (i : IrInstruction) : Prop :=
  ∃ facts, definiteFacts thunks contracts function
      (184 * function.blocks.length + 1) = some facts ∧
    ∃ index, index < function.blocks.length ∧ ∃ front back,
      (function.blockAt index).instructions = front ++ i :: back ∧
        (fact facts index).1.has r = false ∧
        (definiteWritesOf thunks contracts front).has r = false

theorem Unwritten.congr
    (h : ∀ block ∈ function.blocks, ∀ i ∈ block.instructions,
      definiteWrites thunks contracts i = definiteWrites thunks contracts' i)
    {r : Reg} {i : IrInstruction} (hi : Unwritten thunks contracts function r i) :
    Unwritten thunks contracts' function r i := by
  obtain ⟨facts, hfacts, index, hindex, front, back, hsplit, hin, hfront⟩ := hi
  have hsame : definiteWritesOf thunks contracts front =
      definiteWritesOf thunks contracts' front := by
    apply definiteWritesOf_congr
    intro j hj
    exact forall_blockAt h index j (by rw [hsplit]; exact List.mem_append_left _ hj)
  refine ⟨facts, ?_, index, hindex, front, back, hsplit, hin, hsame ▸ hfront⟩
  rw [← definiteFacts_congr h]
  exact hfacts

/-- A function reads a register before writing it exactly at an instruction
that reads it where it need not be written yet. -/
theorem readBeforeWrite_iff
    {contract : GuestAbiContract}
    (hcontract : analyze thunks contracts function = some contract) (r : Reg) :
    contract.readBeforeWrite.has r = true ↔
      ∃ i, Unwritten thunks contracts function r i ∧
        (reads thunks contracts i).has r = true := by
  obtain ⟨-, facts, hfacts, -, rfl⟩ := analyze_eq_some hcontract
  rw [contractOf, replay_reads]
  constructor
  · rintro ⟨index, hindex, front, i, back, hsplit, hread, hin, hfront⟩
    exact ⟨i, ⟨facts, hfacts, index, hindex, front, back, hsplit, hin, hfront⟩, hread⟩
  · rintro ⟨i, ⟨facts', hfacts', index, hindex, front, back, hsplit, hin, hfront⟩,
      hread⟩
    rw [hfacts] at hfacts'
    cases hfacts'
    exact ⟨index, hindex, front, i, back, hsplit, hread, hin, hfront⟩

theorem exists_index_iff {P : IrInstruction → Prop} :
    (∃ index, index < function.blocks.length ∧
        ∃ i ∈ (function.blockAt index).instructions, P i) ↔
      ∃ block ∈ function.blocks, ∃ i ∈ block.instructions, P i := by
  constructor
  · rintro ⟨index, hindex, i, hi, h⟩
    exact ⟨_, IrFunction.blockAt_mem hindex, i, hi, h⟩
  · rintro ⟨block, hblock, i, hi, h⟩
    obtain ⟨index, hindex, rfl⟩ := List.getElem_of_mem hblock
    exact ⟨index, hindex, i, by simpa [IrFunction.blockAt, hindex] using hi, h⟩

theorem possibleWrites_iff
    {contract : GuestAbiContract}
    (hcontract : analyze thunks contracts function = some contract) (r : Reg) :
    contract.possibleWrites.has r = true ↔
      ∃ block ∈ function.blocks, ∃ i ∈ block.instructions,
        (possibleWrites thunks contracts i).has r = true := by
  obtain ⟨-, facts, -, -, rfl⟩ := analyze_eq_some hcontract
  rw [contractOf, replay_possible, exists_index_iff]

theorem replayInstructions_flags
    (instructions : List IrInstruction) (k : ℕ) :
    ∀ acc : Replay,
      (instructions.foldl (replayInstruction thunks contracts)
          acc).boundaryFlags.getLsbD k = true ↔
        acc.boundaryFlags.getLsbD k = true ∨ ∃ i ∈ instructions,
          (instructionFlags contracts i).getLsbD k = true := by
  induction instructions with
  | nil => simp
  | cons i instructions ih =>
      intro acc
      rw [List.foldl_cons, ih]
      simp [replayInstruction, or_assoc]

theorem boundaryFlags_iff
    {contract : GuestAbiContract}
    (hcontract : analyze thunks contracts function = some contract) (k : ℕ) :
    contract.boundaryFlags.getLsbD k = true ↔
      ∃ block ∈ function.blocks, ∃ i ∈ block.instructions,
        (instructionFlags contracts i).getLsbD k = true := by
  obtain ⟨-, facts, -, -, rfl⟩ := analyze_eq_some hcontract
  have hfold : ∀ (blocks : List ℕ) (acc : Replay),
      (blocks.foldl (replayBlock thunks contracts function facts)
          acc).boundaryFlags.getLsbD k = true ↔
        acc.boundaryFlags.getLsbD k = true ∨ ∃ index ∈ blocks,
          ∃ i ∈ (function.blockAt index).instructions,
            (instructionFlags contracts i).getLsbD k = true := by
    intro blocks
    induction blocks with
    | nil => simp
    | cons index blocks ih =>
        intro acc
        rw [List.foldl_cons, ih, replayBlock, replayInstructions_flags, or_assoc]
        simp
  rw [contractOf, replay, hfold, ← exists_index_iff]
  simp

theorem replayInstructions_targets
    (instructions : List IrInstruction) :
    ∀ acc acc' : Replay, acc.directTargets = acc'.directTargets →
      (instructions.foldl (replayInstruction thunks contracts) acc).directTargets =
        (instructions.foldl (replayInstruction thunks contracts') acc').directTargets := by
  induction instructions with
  | nil => exact fun _ _ h => h
  | cons i instructions ih =>
      intro acc acc' h
      apply ih
      simp only [replayInstruction, h]

theorem directCallTargets_eq
    {contract contract' : GuestAbiContract}
    (hcontract : analyze thunks contracts function = some contract)
    (hcontract' : analyze thunks contracts' function = some contract') :
    contract.directCallTargets = contract'.directCallTargets := by
  obtain ⟨-, facts, -, -, rfl⟩ := analyze_eq_some hcontract
  obtain ⟨-, facts', -, -, rfl⟩ := analyze_eq_some hcontract'
  have hfold : ∀ (blocks : List ℕ) (acc acc' : Replay),
      acc.directTargets = acc'.directTargets →
        (blocks.foldl (replayBlock thunks contracts function facts)
            acc).directTargets =
          (blocks.foldl (replayBlock thunks contracts' function facts')
            acc').directTargets := by
    intro blocks
    induction blocks with
    | nil => exact fun _ _ h => h
    | cons index blocks ih =>
        intro acc acc' h
        apply ih
        exact replayInstructions_targets _ _ _ h
  exact hfold _ _ _ rfl

/-- Contracts of one function agree when their masks and flags do. -/
theorem contract_ext
    {contract contract' : GuestAbiContract}
    (hcontract : analyze thunks contracts function = some contract)
    (hcontract' : analyze thunks contracts' function = some contract')
    (hreads : contract.readBeforeWrite = contract'.readBeforeWrite)
    (hpossible : contract.possibleWrites = contract'.possibleWrites)
    (hdefinite : contract.definiteWrites = contract'.definiteWrites)
    (hflags : contract.boundaryFlags = contract'.boundaryFlags) :
    contract = contract' := by
  have htargets := directCallTargets_eq hcontract hcontract'
  obtain ⟨-, facts, -, -, rfl⟩ := analyze_eq_some hcontract
  obtain ⟨-, facts', -, -, rfl⟩ := analyze_eq_some hcontract'
  simp only [contractOf] at hreads hpossible hdefinite hflags htargets ⊢
  rw [hreads, hpossible, hdefinite, hflags, htargets]

end Dependence

end Wiicompiled.Analysis.GuestAbiContractAnalyzer
