import Wiicompiled.Analysis.GuestAbiContract

/-!
# Soundness of inferred contracts

Along every execution from the entry, a contract covers the registers read
before being written and the registers written, and its definite writes have
happened when a return is reached.  The analysis follows only the final
branches and jumps of blocks, so this holds for executions that take every
other edge into a block at which the analysis assumes nothing.
-/

namespace Wiicompiled.Analysis.GuestAbiContractAnalyzer

open Ir GuestStateMask RoundRobin

/-! ## What the callees are assumed to do -/

def WithinContract (contract : GuestAbiContract) (finished : Bool)
    (calleeReads calleeWrites : GuestStateMask) : Prop :=
  calleeReads ≤ contract.readBeforeWrite ∧
    calleeWrites ≤ contract.possibleWrites ∧
    (finished = true → contract.definiteWrites ≤ calleeWrites)

/-- A run of a callee without a contract: a save or restore thunk touches its
register window, any other callee only reads the IR arguments. -/
def WithinOperands (thunks : GuestSaveRestoreThunks) (address : UInt32)
    (arguments : List IrValue) (finished : Bool)
    (calleeReads calleeWrites : GuestStateMask) : Prop :=
  calleeReads ≤ uncontractedReads thunks address arguments ∧
    calleeWrites ≤ thunkWrites thunks address ∧
    (finished = true → thunkWrites thunks address ≤ calleeWrites)

def SoundCallees (thunks : GuestSaveRestoreThunks) (contracts : ContractMap)
    (runs : CalleeRuns) (function : IrFunction) : Prop :=
  ∀ block ∈ function.blocks, ∀ destination target arguments address,
    .call destination target arguments ∈ block.instructions →
      tryParseAddress target = some address →
      ∀ finished calleeReads calleeWrites,
        runs address finished calleeReads calleeWrites →
          match contracts address with
          | some contract =>
              WithinContract contract finished calleeReads calleeWrites
          | none =>
              WithinOperands thunks address arguments finished calleeReads
                calleeWrites

/-- No guest call returns into the packed CR; the analysis leaves such a
destination out, as if the callee were a CR helper. -/
def NoPackedCrGuestCall (function : IrFunction) : Prop :=
  ∀ block ∈ function.blocks, ∀ destination target arguments,
    .call destination target arguments ∈ block.instructions →
      (tryParseAddress target).isSome → (ofSsaName destination).cr ≠ 0xFF

/-! ## One instruction -/

section Instruction

variable {thunks : GuestSaveRestoreThunks} {contracts : ContractMap}
  {runs : CalleeRuns} {function : IrFunction} {block : IrBasicBlock}
  {i : IrInstruction} {finished : Bool} {readSet writeSet : GuestStateMask}

theorem psqReads_intersect (target : String) (arguments : List IrValue) :
    (psqReads target arguments).intersect GuestHelperEffectCatalog.completeState =
      empty := by
  have hgqr : ∀ index, (argumentGqr arguments index).intersect
      GuestHelperEffectCatalog.completeState = empty := by
    intro index
    simp [argumentGqr, intersect, GuestHelperEffectCatalog.completeState, empty]
  rw [psqReads]
  split
  · rfl
  · split
    · exact hgqr 2
    · split
      · exact hgqr 3
      · rfl

theorem Footprint.reads_le
    (hcallees : SoundCallees thunks contracts runs function)
    (hblock : block ∈ function.blocks) (hi : i ∈ block.instructions)
    (h : Footprint runs i finished readSet writeSet) :
    readSet.intersect GuestHelperEffectCatalog.completeState ≤
      reads thunks contracts i := by
  have hall : ∀ m, readSet ≤ m →
      readSet.intersect GuestHelperEffectCatalog.completeState ≤ m :=
    fun m hm => (intersect_le_left _ _).trans hm
  cases h with
  | plain hplain =>
      have huses := CoarserReading.ssa.uses_le hplain
      cases i
      case call | branch => cases hplain
      all_goals exact hall _ huses
  | @guestCall destination target arguments address _ calleeReads calleeWrites haddress hrun =>
      refine hall _ ((except_le _ _).trans ?_)
      have hsound := hcallees block hblock _ _ _ address hi haddress _ _ _ hrun
      simp only [reads, callReads, haddress]
      cases hcontract : contracts address with
      | some contract =>
          rw [hcontract] at hsound
          exact hsound.1
      | none =>
          rw [hcontract] at hsound
          exact hsound.1
  | @helperCall destination target arguments writes haddress hwrites =>
      have hargs := CoarserReading.ssa.values_le arguments
      have hpsq := psqReads_intersect target arguments
      intro r hr
      simp only [reads, callReads, hiddenReads, haddress, Option.isSome_none,
        Bool.false_eq_true, if_false, has_intersect, has_union, Bool.and_eq_true,
        Bool.or_eq_true] at hr ⊢
      obtain ⟨hin | hin | hin, hstate⟩ := hr
      · exact Or.inl (hargs r hin)
      · exact Or.inr hin
      · have hboth : ((psqReads target arguments).intersect
            GuestHelperEffectCatalog.completeState).has r = true := by
          rw [has_intersect, hin, hstate]
          rfl
        rw [hpsq, has_empty] at hboth
        cases hboth
  | indirectCall => exact hall _ (le_union_right _ _)
  | indirectJump => exact hall _ (le_union_right _ _)
  | branch => exact hall _ le_rfl
  | setCrField fieldIndex left right isUnsigned =>
      have hxer : ofSsaName "xer" = ofReg .xer := by decide
      have hleft := CoarserReading.ssa.value_le left
      have hright := CoarserReading.ssa.value_le right
      refine hall _ ?_
      intro r hr
      simp only [IrInstruction.uses, reads, operandReads, has_namesMask_append,
        has_namesMask_cons, has_namesMask_nil, has_union, Bool.or_eq_true,
        Bool.or_false, hxer] at hr ⊢
      exact hr.imp (Or.imp (hleft r) (hright r)) id

theorem definitions_le_possible
    (thunks : GuestSaveRestoreThunks) (contracts : ContractMap)
    (hplain : isPlain i = true) :
    namesMask i.definitions ≤ possibleWrites thunks contracts i := by
  by_cases hstops : i.stops = false
  · have hops := operandWrites_eq (fun _ _ => rfl) hplain hstops
    cases i
    case call => cases hplain
    all_goals exact le_of_eq hops.symm
  · cases i
    case ret | undefined => exact empty_le _
    case indirectJump => cases hplain
    all_goals exact absurd rfl hstops

theorem Footprint.writes_le
    (hcallees : SoundCallees thunks contracts runs function)
    (hcr : NoPackedCrGuestCall function)
    (hblock : block ∈ function.blocks) (hi : i ∈ block.instructions)
    (h : Footprint runs i finished readSet writeSet) :
    writeSet ≤ possibleWrites thunks contracts i := by
  cases h with
  | plain hplain => exact definitions_le_possible thunks contracts hplain
  | @guestCall destination target arguments address _ calleeReads calleeWrites haddress hrun =>
      have hsound := hcallees block hblock _ _ _ address hi haddress _ _ _ hrun
      have hnot : ¬(ofSsaName destination).cr = 0xFF :=
        hcr block hblock _ _ _ hi (by simp [haddress])
      simp only [possibleWrites, writes, callWrites, haddress, hnot, false_and,
        if_false]
      cases hcontract : contracts address with
      | some contract =>
          rw [hcontract] at hsound
          exact union_le (hsound.2.1.trans (le_union_right _ _)) (le_union_left _ _)
      | none =>
          rw [hcontract] at hsound
          exact union_le (hsound.2.1.trans (le_union_right _ _)) (le_union_left _ _)
  | @helperCall destination target arguments calleeWrites haddress hwrites =>
      simp only [possibleWrites, writes, callWrites, haddress, Option.isNone_none,
        if_true, Option.all_some, decide_not, helperDestination]
      refine union_le (hwrites.trans (le_union_right _ _)) ?_
      refine le_trans (le_of_eq ?_) (le_union_left _ _)
      simp
  | indirectCall => exact le_union_right _ _
  | indirectJump => exact empty_le _
  | branch => exact empty_le _
  | setCrField => exact le_rfl

theorem Footprint.definite_le
    (hcallees : SoundCallees thunks contracts runs function)
    (hblock : block ∈ function.blocks) (hi : i ∈ block.instructions)
    (hstops : i.stops = false)
    (h : Footprint runs i true readSet writeSet) :
    definiteWrites thunks contracts i ≤ writeSet := by
  cases h with
  | plain hplain =>
      have hops := operandWrites_eq (fun _ _ => rfl) hplain hstops
      cases i
      case call => cases hplain
      all_goals exact le_of_eq hops
  | @guestCall destination target arguments address _ calleeReads calleeWrites haddress hrun =>
      have hsound := hcallees block hblock _ _ _ address hi haddress _ _ _ hrun
      have hdest : ∀ p : Prop, ∀ _ : Decidable p,
          (if p then empty else ofSsaName destination) ≤
            calleeWrites.union (ofSsaName destination) := by
        intro p _
        split
        · exact empty_le _
        · exact le_union_right _ _
      simp only [definiteWrites, writes, callWrites, haddress]
      cases hcontract : contracts address with
      | some contract =>
          rw [hcontract] at hsound
          exact union_le (hdest _ _) ((hsound.2.2 rfl).trans (le_union_left _ _))
      | none =>
          rw [hcontract] at hsound
          exact union_le (hdest _ _) ((hsound.2.2 rfl).trans (le_union_left _ _))
  | @helperCall destination target arguments calleeWrites haddress hwrites =>
      simp only [definiteWrites, writes, callWrites, haddress, Option.isNone_none,
        if_true, Option.all_some, decide_not, helperDestination]
      refine le_trans (le_of_eq ?_) (le_union_right _ _)
      simp
  | indirectCall => exact le_fullState _
  | indirectJump => cases hstops
  | branch => exact empty_le _
  | setCrField => exact le_rfl

end Instruction

/-! ## Edges that the analysis does not follow -/

def FollowedEdge (function : IrFunction) (b s : ℕ) : Prop :=
  s ∈ (successors (function.blockAt b)).filterMap function.ordinal

/-- An edge that the analysis follows, or that enters the entry block or a block
that no followed edge enters. -/
def HarmlessEdge (function : IrFunction) (b s : ℕ) : Prop :=
  FollowedEdge function b s ∨
    (function.blockAt s).label = function.entryLabel ∨
      predecessors function s = []

/-- A step inside a block, or over a harmless edge. -/
def harmlessStep (function : IrFunction) (c d : Config) : Prop :=
  (∃ i, c.remaining = i :: d.remaining ∧ i.transfers = false) ∨
    HarmlessEdge function c.block d.block

theorem mem_predecessors
    {function : IrFunction} {b s : ℕ} (hb : b < function.blocks.length)
    (h : FollowedEdge function b s) : b ∈ predecessors function s := by
  rw [predecessors, List.mem_flatMap]
  refine ⟨b, List.mem_range.mpr hb, ?_⟩
  rw [List.mem_filterMap]
  exact ⟨s, h, by simp⟩

/-! ## Executions -/

section Executions

variable {thunks : GuestSaveRestoreThunks} {contracts : ContractMap}
  {runs : CalleeRuns} {function : IrFunction}
  {facts : List (GuestStateMask × GuestStateMask)}

/-- Where an execution stands: in a block, with a part of it done, and
everything written that the analysis takes to be written there. -/
structure Covered (thunks : GuestSaveRestoreThunks) (contracts : ContractMap)
    (function : IrFunction) (facts : List (GuestStateMask × GuestStateMask))
    (c : Config) : Prop where
  inside : c.block < function.blocks.length
  done : ∃ front,
    (function.blockAt c.block).instructions = front ++ c.remaining ∧
      (fact facts c.block).1.union (definiteWritesOf thunks contracts front) ≤
        c.written ∧
      ∀ i ∈ front, i.transfers = false ∧ i.stops = false

theorem covered_entry
    (hfacts : ∀ i, i < function.blocks.length →
      fact facts i = transfer thunks contracts function i facts)
    {entry : ℕ} (hentry : function.ordinal function.entryLabel = some entry) :
    Covered thunks contracts function facts (entryConfig function entry) := by
  have hlt := IrFunction.ordinal_lt hentry
  refine ⟨hlt, [], rfl, ?_, by simp⟩
  have hin : (fact facts entry).1 = empty := by
    rw [hfacts entry hlt, transfer, incoming,
      if_pos (IrFunction.label_blockAt_ordinal hentry)]
  exact union_le (hin ▸ empty_le _) (empty_le _)

/-- Entering a block over a harmless edge, with the whole predecessor executed. -/
theorem incoming_le_of_edge
    (hfacts : ∀ i, i < function.blocks.length →
      fact facts i = transfer thunks contracts function i facts)
    {b s : ℕ} {written : GuestStateMask} (hb : b < function.blocks.length)
    (hs : s < function.blocks.length) (hedge : HarmlessEdge function b s)
    (hwritten : (fact facts b).1.union (definiteWritesOf thunks contracts
      (function.blockAt b).instructions) ≤ written) :
    (fact facts s).1 ≤ written := by
  have hin : (fact facts s).1 = incoming function facts s := by
    rw [hfacts s hs, transfer]
  rw [hin, incoming]
  split
  · exact empty_le _
  · rename_i hentry
    rcases hedge with hfollowed | hlabel | hnil
    · have hout : (fact facts b).2 ≤ written := by
        rw [hfacts b hb, transfer] at hwritten ⊢
        exact hwritten
      intro r hr
      exact hout r ((has_intersectExits.mp hr).2 b (mem_predecessors hb hfollowed))
    · exact absurd hlabel hentry
    · rw [hnil]
      exact empty_le _

theorem covered_step
    (hfacts : ∀ i, i < function.blocks.length →
      fact facts i = transfer thunks contracts function i facts)
    (hends : ControlAtEnds function)
    (hcallees : SoundCallees thunks contracts runs function)
    {c d : Config} (hc : Covered thunks contracts function facts c)
    (hstep : Step function runs c d) (hharmless : harmlessStep function c d) :
    Covered thunks contracts function facts d := by
  obtain ⟨hinside, front, hsplit, hwritten, hplain⟩ := hc
  have hmem := IrFunction.blockAt_mem hinside
  cases hstep with
  | @instruction block i rest written readSet writeSet htransfers hstops hfootprint =>
      have hi : i ∈ (function.blockAt block).instructions := by
        rw [hsplit]
        simp
      refine ⟨hinside, front ++ [i], by simpa using hsplit, ?_,
        plain_append hplain htransfers hstops⟩
      · have hdef := Footprint.definite_le hcallees hmem hi hstops hfootprint
        intro r hr
        rw [has_union, Bool.or_eq_true, has_definiteWritesOf] at hr
        rw [has_union, Bool.or_eq_true]
        rcases hr with hr | ⟨j, hj, hr⟩
        · exact Or.inl (hwritten r (le_union_left _ _ r hr))
        · rcases List.mem_append.mp hj with hj | hj
          · refine Or.inl (hwritten r (le_union_right _ _ r ?_))
            exact (has_definiteWritesOf front r).mpr ⟨j, hj, hr⟩
          · rw [List.mem_singleton] at hj
            subst hj
            exact Or.inr (hdef r hr)
  | @transfer block next i rest written label hlabel hnext =>
      obtain ⟨htransfers, rfl⟩ := hends.last hmem hsplit hlabel
      have hedge : HarmlessEdge function block next := by
        rcases hharmless with ⟨j, hj, hfalse⟩ | hedge
        · rw [← (List.cons.inj hj).1, htransfers] at hfalse
          cases hfalse
        · exact hedge
      have hlt := IrFunction.ordinal_lt hnext
      refine ⟨hlt, [], rfl, ?_, by simp⟩
      have hall : (fact facts block).1.union (definiteWritesOf thunks contracts
          (function.blockAt block).instructions) ≤ written := by
        intro r hr
        rw [has_union, Bool.or_eq_true, has_definiteWritesOf, hsplit] at hr
        rcases hr with hr | ⟨j, hj, hr⟩
        · exact hwritten r (le_union_left _ _ r hr)
        · rcases List.mem_append.mp hj with hj | hj
          · refine hwritten r (le_union_right _ _ r ?_)
            exact (has_definiteWritesOf front r).mpr ⟨j, hj, hr⟩
          · rw [List.mem_singleton] at hj
            subst hj
            have hnone : definiteWrites thunks contracts j = empty := by
              cases j <;> first | rfl | cases htransfers
            rw [hnone, has_empty] at hr
            cases hr
      exact union_le (incoming_le_of_edge hfacts hinside hlt hedge hall)
        (empty_le _)
  | @«continue» block written hnext =>
      rw [List.append_nil] at hsplit
      have hedge : HarmlessEdge function block (block + 1) := by
        rcases hharmless with ⟨j, hj, -⟩ | hedge
        · cases hj
        · exact hedge
      refine ⟨hnext, [], rfl, ?_, by simp⟩
      have hall : (fact facts block).1.union (definiteWritesOf thunks contracts
          (function.blockAt block).instructions) ≤ written := by
        rw [hsplit]
        exact hwritten
      exact union_le (incoming_le_of_edge hfacts hinside hnext hedge hall)
        (empty_le _)

end Executions

/-- What a contract promises about the executions that reach the given
configurations: the GPR, FPR, CR, XER, CTR and LR reads, all writes, and the
writes done at a return. -/
structure SoundContract (runs : CalleeRuns) (reached : Config → Prop)
    (contract : GuestAbiContract) : Prop where
  reads : ∀ c, reached c → ∀ i rest, c.remaining = i :: rest →
    ∀ finished readSet writeSet, Footprint runs i finished readSet writeSet →
      (readSet.except c.written).intersect GuestHelperEffectCatalog.completeState ≤
        contract.readBeforeWrite
  writes : ∀ c, reached c → ∀ i rest, c.remaining = i :: rest →
    ∀ finished readSet writeSet, Footprint runs i finished readSet writeSet →
      writeSet ≤ contract.possibleWrites
  returns : ∀ c, reached c → ∀ value rest, c.remaining = .ret value :: rest →
    contract.definiteWrites ≤ c.written

/-- An inferred contract is sound along every execution that takes the edges
the analysis does not follow only into blocks at which it assumes nothing. -/
theorem analyze_sound
    (thunks : GuestSaveRestoreThunks) (contracts : ContractMap)
    (runs : CalleeRuns) (function : IrFunction) (contract : GuestAbiContract)
    (hends : ControlAtEnds function)
    (hcallees : SoundCallees thunks contracts runs function)
    (hcr : NoPackedCrGuestCall function)
    (hcontract : analyze thunks contracts function = some contract) :
    SoundContract runs (Reachable function runs (harmlessStep function))
      contract := by
  obtain ⟨-, facts, -, hfacts, rfl⟩ := analyze_eq_some hcontract
  have hcovered : ∀ c, Reachable function runs (harmlessStep function) c →
      Covered thunks contracts function facts c := by
    rintro c ⟨entry, hentry, hsteps⟩
    exact hsteps.invariant
      (fun c d hc hstep hharmless =>
        covered_step hfacts hends hcallees hc hstep hharmless)
      (covered_entry hfacts hentry)
  refine ⟨?_, ?_, ?_⟩
  · intro c hreach i rest hremaining finished readSet writeSet hfootprint r hr
    obtain ⟨hinside, front, hsplit, hwritten, -⟩ := hcovered c hreach
    have hi : i ∈ (function.blockAt c.block).instructions := by
      rw [hsplit, hremaining]
      simp
    rw [has_intersect, has_except, Bool.and_eq_true, Bool.and_eq_true,
      Bool.not_eq_true'] at hr
    have hclean : ∀ m : GuestStateMask, m ≤ c.written → m.has r = false := by
      intro m hm
      rw [Bool.eq_false_iff]
      intro htrue
      have hin := hm r htrue
      rw [hr.1.2] at hin
      cases hin
    rw [contractOf, replay_reads]
    refine ⟨c.block, hinside, front, i, rest, by rw [hsplit, hremaining], ?_, ?_, ?_⟩
    · refine Footprint.reads_le hcallees (IrFunction.blockAt_mem hinside) hi
        hfootprint r ?_
      rw [has_intersect, hr.1.1, hr.2]
      rfl
    · exact hclean _ ((le_union_left _ _).trans hwritten)
    · exact hclean _ ((le_union_right _ _).trans hwritten)
  · intro c hreach i rest hremaining finished readSet writeSet hfootprint r hr
    obtain ⟨hinside, front, hsplit, -, -⟩ := hcovered c hreach
    have hi : i ∈ (function.blockAt c.block).instructions := by
      rw [hsplit, hremaining]
      simp
    rw [contractOf, replay_possible]
    exact ⟨c.block, hinside, i, hi,
      Footprint.writes_le hcallees hcr (IrFunction.blockAt_mem hinside) hi
        hfootprint r hr⟩
  · intro c hreach value rest hremaining r hr
    obtain ⟨hinside, front, hsplit, hwritten, -⟩ := hcovered c hreach
    have hmem := IrFunction.blockAt_mem hinside
    rw [hremaining] at hsplit
    have hrest : rest = [] := by
      by_contra hne
      have htrap := (hends.inner hmem hsplit hne).2 rfl
      cases htrap
    subst hrest
    have hlast : (function.blockAt c.block).instructions.getLast? =
        some (.ret value) := by
      rw [hsplit]
      simp
    have hexit : c.block ∈ (List.range function.blocks.length).filter
        (isExitBlock function) := by
      rw [List.mem_filter, List.mem_range]
      refine ⟨hinside, ?_⟩
      simp [isExitBlock, successors, hlast]
    rw [contractOf, exitWrites, has_intersectExits] at hr
    have hout := hr.2 c.block hexit
    rw [hfacts c.block hinside, transfer, has_union, Bool.or_eq_true] at hout
    rcases hout with hin | hown
    · refine hwritten r (le_union_left _ _ r ?_)
      rw [hfacts c.block hinside, transfer]
      exact hin
    · obtain ⟨j, hj, hwrite⟩ := (has_definiteWritesOf _ r).mp hown
      rw [hsplit, List.mem_append, List.mem_singleton] at hj
      rcases hj with hj | rfl
      · refine hwritten r (le_union_right _ _ r ?_)
        exact (has_definiteWritesOf front r).mpr ⟨j, hj, hwrite⟩
      · change empty.has r = true at hwrite
        rw [has_empty] at hwrite
        cases hwrite

/-- An `if` whose `else` block falls through to the join that its `then` block
jumps to; the join reads `r3`, which only the `then` block writes. -/
def joinFunction : IrFunction where
  name := "func_80001000"
  entryLabel := "loc_80001000"
  blocks :=
    [⟨"loc_80001000", [.branch "beq" "loc_80001008" "loc_80001010" "cr0"]⟩,
      ⟨"loc_80001008", [.assign "r3" (.imm 0), .jump "loc_80001014"]⟩,
      ⟨"loc_80001010", [.assign "r4" (.imm 0)]⟩,
      ⟨"loc_80001014", [.assign "r5" (.register "r3"), .ret none]⟩]

theorem joinFunction_contract :
    analyze .none (fun _ => none) joinFunction = some
      { readBeforeWrite := ofReg (.cr 0)
        possibleWrites := { empty with gpr := 0x38 }
        definiteWrites := empty
        gprReturnMask := 0x18
        fprReturnMask := 0
        boundaryFlags := 0
        directCallTargets := [] } := by
  decide

theorem joinFunction_no_calls
    {block : IrBasicBlock} (hblock : block ∈ joinFunction.blocks)
    (destination target : String) (arguments : List IrValue) :
    .call destination target arguments ∉ block.instructions := by
  intro hcall
  simp only [joinFunction, List.mem_cons, List.not_mem_nil, or_false] at hblock
  rcases hblock with rfl | rfl | rfl | rfl <;> simp at hcall

theorem joinFunction_soundCallees :
    SoundCallees .none (fun _ => none) (fun _ _ _ _ => False) joinFunction := by
  intro block hblock destination target arguments address hcall
  exact absurd hcall (joinFunction_no_calls hblock _ _ _)

theorem joinFunction_noPackedCrGuestCall : NoPackedCrGuestCall joinFunction := by
  intro block hblock destination target arguments hcall
  exact absurd hcall (joinFunction_no_calls hblock _ _ _)

/-- The contract of `joinFunction` leaves out `r3`, which the path through the
`else` block reads unwritten. -/
theorem joinFunction_not_sound :
    ControlAtEnds joinFunction ∧
      SoundCallees .none (fun _ => none) (fun _ _ _ _ => False) joinFunction ∧
      NoPackedCrGuestCall joinFunction ∧
      ∃ contract, analyze .none (fun _ => none) joinFunction = some contract ∧
        ¬SoundContract (fun _ _ _ _ => False)
          (Reachable joinFunction (fun _ _ _ _ => False) anyStep) contract := by
  refine ⟨by decide, joinFunction_soundCallees, joinFunction_noPackedCrGuestCall, _,
    joinFunction_contract, ?_⟩
  intro hsound
  let runs : CalleeRuns := fun _ _ _ _ => False
  have hentry : Steps joinFunction runs anyStep (entryConfig joinFunction 0)
      ⟨0, (joinFunction.blockAt 0).instructions, empty⟩ := .refl
  have helse : Steps joinFunction runs anyStep (entryConfig joinFunction 0)
      ⟨2, (joinFunction.blockAt 2).instructions, empty⟩ :=
    hentry.tail (.transfer (List.mem_cons_of_mem _ List.mem_cons_self) (by decide)) trivial
  have hassign : Steps joinFunction runs anyStep (entryConfig joinFunction 0)
      ⟨2, [], empty.union (namesMask ["r4"])⟩ :=
    helse.tail (.instruction rfl rfl (.plain rfl)) trivial
  have hjoin : Steps joinFunction runs anyStep (entryConfig joinFunction 0)
      ⟨3, (joinFunction.blockAt 3).instructions, empty.union (namesMask ["r4"])⟩ :=
    hassign.tail (.continue (by decide)) trivial
  have hread := hsound.reads _ ⟨0, by decide, hjoin⟩ _ _ rfl _ _ _
    (.plain rfl) (.gpr 3) (by decide)
  exact absurd hread (by decide)

/-- Along the other path, where the join is entered by the jump, the contract of
`joinFunction` is sound. -/
theorem joinFunction_sound_by_jump :
    ∃ contract, analyze .none (fun _ => none) joinFunction = some contract ∧
      SoundContract (fun _ _ _ _ => False)
        (Reachable joinFunction (fun _ _ _ _ => False)
          (harmlessStep joinFunction)) contract := by
  refine ⟨_, joinFunction_contract, ?_⟩
  exact analyze_sound .none (fun _ => none) _ _ _ (by decide)
    joinFunction_soundCallees joinFunction_noPackedCrGuestCall joinFunction_contract

end Wiicompiled.Analysis.GuestAbiContractAnalyzer
