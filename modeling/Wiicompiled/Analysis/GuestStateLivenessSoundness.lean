import Wiicompiled.Analysis.GuestAbiSoundness
import Wiicompiled.Analysis.GuestStateLiveness

/-!
# Soundness of state-free liveness

Along every path that continues from a reported call, the registers read before
being written are live after the call.  The analysis takes every name by its
hardware base and looks only at operands, so this holds for paths on which
names are spelled like the registers they stand for and nothing is read behind
the operands.
-/

namespace Wiicompiled.Analysis.GuestStateLivenessAnalyzer

open Ir GuestStateMask RoundRobin
open GuestAbiContractAnalyzer (SoundCallees uncontractedReads)

/-! ## Instructions that the analysis reads rightly -/

/-- The inputs of the callee reach it, and no others: those of a contracted
callee are not taken for the destination of the call, and those of any other
guest callee are operands of the call. -/
def CalleeInputsKept (thunks : GuestSaveRestoreThunks) (contracts : ContractMap) :
    IrInstruction → Prop
  | .call destination target arguments =>
      match tryParseAddress target with
      | some address =>
          match contracts address with
          | some contract =>
              contract.readBeforeWrite.intersect (ofHardwareName destination) ≤
                linkMask destination
          | none =>
              uncontractedReads thunks address arguments ≤
                valuesMask ofHardwareName arguments
      | none => True
  | _ => True

/-- The destinations are spelled like the registers that are written, everything
read is an operand, and callees get their inputs. -/
structure AccountedFor (thunks : GuestSaveRestoreThunks) (contracts : ContractMap)
    (i : IrInstruction) : Prop where
  spelled : ∀ name ∈ i.definitions, ofHardwareName name = ofSsaName name
  hidden : hiddenReads i ≤ operandReads ofHardwareName i
  inputs : CalleeInputsKept thunks contracts i

def executes (considered : IrInstruction → Prop) (c _ : Config) : Prop :=
  ∀ i rest, c.remaining = i :: rest → considered i

/-! ## One instruction -/

section Instruction

variable {thunks : GuestSaveRestoreThunks} {contracts : ContractMap}
  {runs : CalleeRuns} {function : IrFunction} {block : IrBasicBlock}
  {i : IrInstruction} {finished : Bool} {readSet writeSet : GuestStateMask}

theorem AccountedFor.destination
    {destination target : String} {arguments : List IrValue}
    (h : AccountedFor thunks contracts (.call destination target arguments)) :
    ofHardwareName destination = ofSsaName destination := by
  by_cases hblank : isNullOrWhiteSpace destination = true
  · rw [ofHardwareName, ofSsaName, if_pos hblank, if_pos hblank]
  · exact h.spelled destination (by simp [IrInstruction.definitions, hblank])

theorem transfer_of_not_contracted
    (h : contractedCall contracts i = none) (live : GuestStateMask) :
    transferInstruction contracts i live =
      (live.except (operandWrites ofHardwareName i)).union
        (operandReads ofHardwareName i) := by
  rw [transferInstruction, h]

theorem transfer_of_contracted
    {destination target : String} {arguments : List IrValue} {address : UInt32}
    {contract : GuestAbiContract} (haddress : tryParseAddress target = some address)
    (hcontract : contracts address = some contract) (live : GuestStateMask) :
    transferInstruction contracts (.call destination target arguments) live =
      ((live.except contract.definiteWrites).union
        (callInputs destination contract)).except (ofHardwareName destination) := by
  simp [transferInstruction, contractedCall, haddress, hcontract, callDestination]

theorem readBeforeWrite_le_callInputs
    (destination : String) (contract : GuestAbiContract) :
    contract.readBeforeWrite ≤ callInputs destination contract := by
  rw [callInputs]
  split
  · exact le_union_left _ _
  · exact le_rfl

theorem Footprint.reads_le_live
    (hcallees : SoundCallees thunks contracts runs function)
    (hblock : block ∈ function.blocks) (hi : i ∈ block.instructions)
    (hneeds : needsContext i = false)
    (haccounted : AccountedFor thunks contracts i)
    (h : Footprint runs i finished readSet writeSet) (live : GuestStateMask) :
    readSet ≤ transferInstruction contracts i live := by
  have hoperands : ∀ j, contractedCall contracts j = none →
      readSet ≤ operandReads ofHardwareName j →
        readSet ≤ transferInstruction contracts j live := by
    intro j hj hle
    rw [transfer_of_not_contracted hj]
    exact hle.trans (le_union_right _ _)
  cases h with
  | plain hplain =>
      have hnone : contractedCall contracts i = none := by
        cases i
        case call => cases hplain
        all_goals rfl
      exact hoperands i hnone (CoarserReading.hardware.uses_le hplain)
  | @guestCall destination target arguments address _ calleeReads calleeWrites haddress hrun =>
      have hsound := hcallees block hblock _ _ _ address hi haddress _ _ _ hrun
      have hkept := haccounted.inputs
      simp only [CalleeInputsKept, haddress] at hkept
      cases hcontract : contracts address with
      | some contract =>
          rw [hcontract] at hsound
          rw [transfer_of_contracted haddress hcontract]
          simp only [hcontract] at hkept
          intro r hr
          rw [has_except, Bool.and_eq_true, Bool.not_eq_true'] at hr
          have hin := hsound.1 r hr.1
          have hdest : (ofHardwareName destination).has r = false := by
            rw [Bool.eq_false_iff]
            intro hdest
            have hlink := hkept r (by rw [has_intersect, hin, hdest]; rfl)
            rw [hr.2] at hlink
            cases hlink
          rw [has_except, hdest, has_union,
            readBeforeWrite_le_callInputs destination contract r hin]
          simp
      | none =>
          rw [hcontract] at hsound
          simp only [hcontract] at hkept
          refine hoperands _ (by simp [contractedCall, haddress, hcontract]) ?_
          exact (except_le _ _).trans (hsound.1.trans hkept)
  | @helperCall destination target arguments calleeWrites haddress hwrites =>
      refine hoperands _ (by simp [contractedCall, haddress]) ?_
      exact union_le (CoarserReading.hardware.values_le arguments) haccounted.hidden
  | indirectCall => cases hneeds
  | indirectJump => cases hneeds
  | branch =>
      exact hoperands _ rfl
        (union_le (ofSsaName_le_ofHardwareName _) haccounted.hidden)
  | setCrField fieldIndex left right isUnsigned =>
      have hxer : ofSsaName "xer" = ofReg .xer := by decide
      have hleft := CoarserReading.hardware.value_le left
      have hright := CoarserReading.hardware.value_le right
      refine hoperands _ rfl ?_
      intro r hr
      simp only [IrInstruction.uses, operandReads, has_namesMask_append,
        has_namesMask_cons, has_namesMask_nil, has_union, Bool.or_eq_true,
        Bool.or_false, hxer] at hr ⊢
      exact hr.imp (Or.imp (hleft r) (hright r)) id

/-- What is live after an execution and not written by it is live before it. -/
theorem Footprint.unwritten_le_live
    (hcallees : SoundCallees thunks contracts runs function)
    (hblock : block ∈ function.blocks) (hi : i ∈ block.instructions)
    (hneeds : needsContext i = false) (hstops : i.stops = false)
    (haccounted : AccountedFor thunks contracts i)
    (h : Footprint runs i true readSet writeSet) (live : GuestStateMask) :
    live.except writeSet ≤ transferInstruction contracts i live := by
  have hkills : ∀ j, contractedCall contracts j = none →
      operandWrites ofHardwareName j ≤
          writeSet.union (operandReads ofHardwareName j) →
        live.except writeSet ≤ transferInstruction contracts j live := by
    intro j hj hle r hr
    rw [has_except, Bool.and_eq_true, Bool.not_eq_true'] at hr
    rw [transfer_of_not_contracted hj, has_union, has_except, hr.1, Bool.true_and,
      Bool.or_eq_true, Bool.not_eq_true']
    by_cases hwrite : (operandWrites ofHardwareName j).has r = true
    · have hboth := hle r hwrite
      rw [has_union, hr.2, Bool.false_or] at hboth
      exact Or.inr hboth
    · exact Or.inl (Bool.eq_false_iff.mpr hwrite)
  cases h with
  | plain hplain =>
      have hnone : contractedCall contracts i = none := by
        cases i
        case call => cases hplain
        all_goals rfl
      refine hkills i hnone ?_
      rw [operandWrites_eq haccounted.spelled hplain hstops]
      exact le_union_left _ _
  | @guestCall destination target arguments address _ calleeReads calleeWrites haddress hrun =>
      have hsound := hcallees block hblock _ _ _ address hi haddress _ _ _ hrun
      have hdest := haccounted.destination
      cases hcontract : contracts address with
      | some contract =>
          rw [hcontract] at hsound
          rw [transfer_of_contracted haddress hcontract, hdest]
          intro r hr
          rw [has_except, has_union, Bool.and_eq_true, Bool.not_eq_true',
            Bool.or_eq_false_iff] at hr
          have hkept : contract.definiteWrites.has r = false := by
            rw [Bool.eq_false_iff]
            intro hdef
            have hwritten := hsound.2.2 rfl r hdef
            rw [hr.2.1] at hwritten
            cases hwritten
          rw [has_except, has_union, has_except, hr.1, hr.2.2, hkept]
          rfl
      | none =>
          refine hkills _ (by simp [contractedCall, haddress, hcontract]) ?_
          rw [operandWrites, hdest]
          exact (le_union_right _ _).trans (le_union_left _ _)
  | @helperCall destination target arguments calleeWrites haddress hwrites =>
      have hdest := haccounted.destination
      refine hkills _ (by simp [contractedCall, haddress]) ?_
      rw [operandWrites, hdest]
      by_cases hpacked : (ofSsaName destination).cr = 0xFF ∧
          (GuestHelperEffectCatalog.analyze target arguments).writes.cr ≠ 0
      · -- The helper reads the complete CR, so none of its fields is dead.
        have hcr : ofSsaName destination ≤
            (GuestHelperEffectCatalog.analyze target arguments).reads := by
          rw [ofSsaName_packedCr hpacked.1]
          have hreads := GuestHelperEffectCatalog.readsPackedCr_analyze target arguments hpacked.2
          intro r hr
          cases r
          case cr i =>
            rw [has, hreads]
            exact hr
          all_goals simp [has, empty] at hr
        have hhidden := haccounted.hidden
        simp only [hiddenReads, haddress] at hhidden
        exact hcr.trans ((le_union_left _ _).trans
          (hhidden.trans (le_union_right _ _)))
      · rw [helperDestination, if_neg hpacked]
        exact (le_union_right _ _).trans (le_union_left _ _)
  | indirectCall => cases hneeds
  | branch => exact hkills _ rfl (empty_le _)
  | setCrField => exact hkills _ rfl (le_union_left _ _)
  | indirectJump => cases hneeds

end Instruction

/-! ## Executions -/

section Executions

variable {thunks : GuestSaveRestoreThunks} {contracts : ContractMap}
  {runs : CalleeRuns} {function : IrFunction} {exitLive : GuestStateMask}
  {facts : List (GuestStateMask × GuestStateMask)}

theorem needsContext_of_mem
    (h : canDeconstructWithoutContext function = true) {block : IrBasicBlock}
    (hblock : block ∈ function.blocks) {i : IrInstruction}
    (hi : i ∈ block.instructions) : needsContext i = false := by
  have hall := List.all_eq_true.mp (List.all_eq_true.mp h block hblock) i hi
  rw [Bool.and_eq_true, Bool.and_eq_true, Bool.not_eq_true'] at hall
  exact hall.1.1

/-- Before the last instruction of an accepted block, control stays in the
block. -/
theorem inner_plain
    (hends : ControlAtEnds function)
    (haccept : canDeconstructWithoutContext function = true) {block : IrBasicBlock}
    (hblock : block ∈ function.blocks) {front back : List IrInstruction}
    {i j : IrInstruction} (hsplit : block.instructions = front ++ i :: back)
    (hj : j ∈ front) : j.transfers = false ∧ j.stops = false := by
  obtain ⟨before, after, rfl⟩ := List.append_of_mem hj
  have hsplit' : block.instructions = before ++ j :: (after ++ i :: back) := by
    rw [hsplit]
    simp
  obtain ⟨htransfers, htraps⟩ := hends.inner hblock hsplit' (by simp)
  have hneeds := needsContext_of_mem haccept hblock
    (by rw [hsplit']; simp : j ∈ block.instructions)
  refine ⟨htransfers, ?_⟩
  rw [Bool.eq_false_iff]
  intro hstops
  have htrap := htraps hstops
  cases j
  case undefined => cases hneeds
  all_goals cases htrap

theorem mem_successors_of_target
    {index next : ℕ} {front : List IrInstruction} {i : IrInstruction} {label : String}
    (hsplit : (function.blockAt index).instructions = front ++ [i])
    (hneeds : needsContext i = false) (hlabel : label ∈ i.targets)
    (hnext : function.ordinal label = some next) :
    next ∈ successors function index := by
  have hlast : (function.blockAt index).instructions.getLast? = some i := by
    rw [hsplit]
    simp
  rw [successors, List.mem_filterMap]
  refine ⟨label, ?_, hnext⟩
  rw [successorLabels, hlast]
  cases i
  case branch | jump => exact hlabel
  case jumpTable => cases hneeds
  all_goals cases hlabel

theorem mem_successors_of_fallthrough
    (hlabels : function.DistinctLabels) {index : ℕ}
    (hplain : ∀ i ∈ (function.blockAt index).instructions,
      i.transfers = false ∧ i.stops = false)
    (hnext : index + 1 < function.blocks.length) :
    index + 1 ∈ successors function index := by
  rw [successors, List.mem_filterMap]
  refine ⟨(function.blockAt (index + 1)).label, ?_,
    IrFunction.ordinal_label hlabels hnext⟩
  have hlabel : function.blocks[index + 1]?.map IrBasicBlock.label =
      some (function.blockAt (index + 1)).label := by
    simp [IrFunction.blockAt, hnext]
  rw [hlabel, successorLabels]
  cases hlast : (function.blockAt index).instructions.getLast? with
  | none => simp
  | some i =>
      obtain ⟨htransfers, hstops⟩ := hplain i (List.mem_of_getLast? hlast)
      cases i
      case branch | jump | jumpTable => cases htransfers
      case ret | undefined | indirectJump => cases hstops
      all_goals simp

/-- What is live at the start of a successor is live at the end of the block. -/
theorem live_successor_le
    (hfacts : ∀ i, i < function.blocks.length →
      fact facts i = transfer contracts function exitLive i facts)
    {b s : ℕ} (hb : b < function.blocks.length) (hs : s < function.blocks.length)
    (hedge : s ∈ successors function b) :
    liveBefore contracts (function.blockAt s).instructions (fact facts s).1 ≤
      (fact facts b).1 := by
  have hin : (fact facts s).2 =
      liveBefore contracts (function.blockAt s).instructions (fact facts s).1 := by
    rw [hfacts s hs]
    rfl
  have hout : (fact facts b).1 = outgoing function exitLive b facts := by
    rw [hfacts b hb]
    rfl
  intro r hr
  rw [hout, has_outgoing]
  exact Or.inr ⟨s, hedge, by rw [hin]; exact hr⟩

/-- Where a path stands after the call: in a block, with a part of it done, and
with nothing live but what was live after the call or has been written. -/
structure LiveWithin (contracts : ContractMap) (function : IrFunction)
    (facts : List (GuestStateMask × GuestStateMask)) (liveAfter : GuestStateMask)
    (c : Config) : Prop where
  inside : c.block < function.blocks.length
  done : ∃ front, (function.blockAt c.block).instructions = front ++ c.remaining ∧
    ∀ i ∈ front, i.transfers = false ∧ i.stops = false
  live : (liveBefore contracts c.remaining (fact facts c.block).1).except
    c.written ≤ liveAfter

theorem liveWithin_step
    (hfacts : ∀ i, i < function.blocks.length →
      fact facts i = transfer contracts function exitLive i facts)
    (hlabels : function.DistinctLabels) (hends : ControlAtEnds function)
    (haccept : canDeconstructWithoutContext function = true)
    (hcallees : SoundCallees thunks contracts runs function)
    {liveAfter : GuestStateMask} {c d : Config}
    (hc : LiveWithin contracts function facts liveAfter c)
    (hstep : Step function runs c d)
    (haccounted : executes (AccountedFor thunks contracts) c d) :
    LiveWithin contracts function facts liveAfter d := by
  obtain ⟨hinside, ⟨front, hsplit, hplain⟩, hlive⟩ := hc
  have hmem := IrFunction.blockAt_mem hinside
  cases hstep with
  | @instruction block i rest written readSet writeSet htransfers hstops hfootprint =>
      have hi : i ∈ (function.blockAt block).instructions := by
        rw [hsplit]
        simp
      constructor
      · exact hinside
      · exact ⟨front ++ [i], by simpa using hsplit, plain_append hplain htransfers hstops⟩
      · have hkept := Footprint.unwritten_le_live hcallees hmem hi
          (needsContext_of_mem haccept hmem hi) hstops (haccounted i rest rfl)
          hfootprint (liveBefore contracts rest (fact facts block).1)
        intro r hr
        rw [has_except, has_union, Bool.and_eq_true, Bool.not_eq_true',
          Bool.or_eq_false_iff] at hr
        apply hlive r
        have hbefore := hkept r (by rw [has_except, hr.1, hr.2.2]; rfl)
        rw [has_except, Bool.and_eq_true, Bool.not_eq_true']
        exact ⟨hbefore, hr.2.1⟩
  | @transfer block next i rest written label hlabel hnext =>
      obtain ⟨htransfers, rfl⟩ := hends.last hmem hsplit hlabel
      have hi : i ∈ (function.blockAt block).instructions := by
        rw [hsplit]
        simp
      have hneeds := needsContext_of_mem haccept hmem hi
      have hlt := IrFunction.ordinal_lt hnext
      have hedge := mem_successors_of_target hsplit hneeds hlabel hnext
      have hbefore : (fact facts block).1 ≤
          liveBefore contracts [i] (fact facts block).1 := by
        have hnone : contractedCall contracts i = none := by
          cases i <;> first | rfl | cases htransfers
        have hwrites : operandWrites ofHardwareName i = empty := by
          cases i <;> first | rfl | cases htransfers
        intro r hr
        change (transferInstruction contracts i _).has r = true
        rw [transfer_of_not_contracted hnone, hwrites]
        simp [hr]
      constructor
      · exact hlt
      · exact ⟨[], rfl, by simp⟩
      · intro r hr
        rw [has_except, Bool.and_eq_true] at hr
        apply hlive r
        rw [has_except, Bool.and_eq_true]
        exact ⟨hbefore r (live_successor_le hfacts hinside hlt hedge r hr.1), hr.2⟩
  | @«continue» block written hnext =>
      rw [List.append_nil] at hsplit
      have hedge := mem_successors_of_fallthrough hlabels
        (by rw [hsplit]; exact hplain) hnext
      constructor
      · exact hnext
      · exact ⟨[], rfl, by simp⟩
      · intro r hr
        rw [has_except, Bool.and_eq_true] at hr
        apply hlive r
        rw [has_except, Bool.and_eq_true]
        exact ⟨live_successor_le hfacts hinside hnext hedge r hr.1, hr.2⟩

end Executions

/-- The reads before writes on the paths that continue from a reported call and
execute only the considered instructions are live after the call. -/
def SoundSite (runs : CalleeRuns) (function : IrFunction)
    (considered : IrInstruction → Prop) (site : GuestCallSiteStateContract) : Prop :=
  ∀ block, function.ordinal site.blockLabel = some block →
    ∀ c, Steps function runs (executes considered)
        ⟨block, (function.blockAt block).instructions.drop
          (site.instructionIndex + 1), empty⟩ c →
      ∀ i rest, c.remaining = i :: rest → considered i →
        ∀ finished readSet writeSet, Footprint runs i finished readSet writeSet →
          readSet.except c.written ≤ site.liveAfter

/-- The live sets reported for direct calls are sound along every path on which
the analysis accounts for all instructions. -/
theorem directCalls_sound
    (thunks : GuestSaveRestoreThunks) (contracts : ContractMap)
    (runs : CalleeRuns) (function : IrFunction) (exitLive : GuestStateMask)
    (result : GuestStateLivenessResult)
    (hends : ControlAtEnds function)
    (haccept : canDeconstructWithoutContext function = true)
    (hcallees : SoundCallees thunks contracts runs function)
    (hresult : analyze contracts function exitLive = some result) :
    ∀ site ∈ result.directCalls,
      SoundSite runs function (AccountedFor thunks contracts) site := by
  obtain ⟨hlabels, facts, hfacts, hsites⟩ := analyze_eq_some hresult
  intro site hsite block hblock c hsteps i rest hremaining haccounted
    finished readSet writeSet hfootprint
  obtain ⟨index, front, call, after, hlt, hlabel, hsplit, hcontracted, hindex, hlive⟩ :=
    hsites site hsite
  have hsame : index = block := by
    rw [← hlabel, IrFunction.ordinal_label hlabels hlt] at hblock
    exact Option.some.inj hblock
  subst hsame
  have hmem := IrFunction.blockAt_mem hlt
  have hafter : (function.blockAt index).instructions.drop
      (site.instructionIndex + 1) = after := by
    rw [hsplit, hindex]
    simp
  have hcall : call.transfers = false ∧ call.stops = false := by
    cases call <;> first | exact ⟨rfl, rfl⟩ | cases hcontracted
  have hstart : LiveWithin contracts function facts site.liveAfter
      ⟨index, after, empty⟩ := by
    constructor
    · exact hlt
    · refine ⟨front ++ [call], by simpa using hsplit, fun j hj => ?_⟩
      rcases List.mem_append.mp hj with hj | hj
      · exact inner_plain hends haccept hmem hsplit hj
      · rw [List.mem_singleton] at hj
        subst hj
        exact hcall
    · rw [hlive]
      exact except_le _ _
  rw [hafter] at hsteps
  obtain ⟨hinside, ⟨done, hdone, -⟩, hwithin⟩ := hsteps.invariant
    (fun _ _ hc hstep haccounted =>
      liveWithin_step hfacts hlabels hends haccept hcallees hc hstep haccounted)
    hstart
  have hmem' := IrFunction.blockAt_mem hinside
  have hi : i ∈ (function.blockAt c.block).instructions := by
    rw [hdone, hremaining]
    simp
  have hreads := Footprint.reads_le_live hcallees hmem' hi
    (needsContext_of_mem haccept hmem' hi) haccounted hfootprint
    (liveBefore contracts rest (fact facts c.block).1)
  intro r hr
  rw [has_except, Bool.and_eq_true] at hr
  apply hwithin r
  rw [has_except, Bool.and_eq_true, hremaining]
  exact ⟨hreads r hr.1, hr.2⟩

/-- A function whose only block calls and then inserts 16 bits into the result
of the callee, lifted to a mask of the source and a mask of `r3`. -/
def insertFunction : IrFunction where
  name := "func_80001000"
  entryLabel := "loc_80001000"
  blocks :=
    [⟨"loc_80001000",
      [.call "lr" "0x80002000" [],
        .binary "r3_mrot" (.register "r4") (.imm (-65536)) "and",
        .binary "r3_mdest" (.register "r3") (.imm 65535) "and",
        .binary "r3" (.register "r3_mdest") (.register "r3_mrot") "or",
        .ret none]⟩]

/-- The contract of a callee that only writes `r3`. -/
def resultContract : GuestAbiContract where
  readBeforeWrite := empty
  possibleWrites := { empty with gpr := 0x8 }
  definiteWrites := { empty with gpr := 0x8 }
  gprReturnMask := 0x8
  fprReturnMask := 0
  boundaryFlags := 0
  directCallTargets := []

def resultContracts : ContractMap :=
  fun address => if address = 0x80002000 then some resultContract else none

def resultRuns : CalleeRuns :=
  fun address _ reads writes =>
    address = 0x80002000 ∧ reads = empty ∧ writes = { empty with gpr := 0x8 }

theorem resultContracts_sound (function : IrFunction) :
    SoundCallees .none resultContracts resultRuns function := by
  rintro _ _ _ _ _ address _ _ finished _ _ ⟨rfl, rfl, rfl⟩
  exact ⟨le_rfl, le_rfl, fun _ => le_rfl⟩

theorem insertFunction_liveness :
    (analyze resultContracts insertFunction empty).map
        GuestStateLivenessResult.directCalls =
      some [⟨"loc_80001000", 0, 0, 0x80002000, empty, empty, ofReg (.gpr 4)⟩] := by
  decide

/-- The mask of the source spells `r3` in its destination, so `r3` counts as dead
after the call, although the next instruction reads it. -/
theorem insertFunction_not_sound :
    ControlAtEnds insertFunction ∧
      canDeconstructWithoutContext insertFunction = true ∧
      SoundCallees .none resultContracts resultRuns insertFunction ∧
      ∃ result, analyze resultContracts insertFunction empty = some result ∧
        ∃ site ∈ result.directCalls,
          ¬SoundSite resultRuns insertFunction (fun _ => True) site := by
  refine ⟨by decide, by decide, resultContracts_sound _, ?_⟩
  obtain ⟨result, hresult, hcalls⟩ :=
    Option.map_eq_some_iff.mp insertFunction_liveness
  refine ⟨result, hresult, _, by rw [hcalls]; exact List.mem_singleton_self _, ?_⟩
  intro hsound
  have hafter : Steps insertFunction resultRuns (executes fun _ => True)
      ⟨0, (insertFunction.blockAt 0).instructions.drop 1, empty⟩
      ⟨0, (insertFunction.blockAt 0).instructions.drop 1, empty⟩ := .refl
  have hmasked := hafter.tail (.instruction rfl rfl (.plain rfl)) fun _ _ _ => trivial
  have hread := hsound 0 (by decide) _ hmasked _ _ rfl trivial _ _ _
    (.plain rfl) (.gpr 3) (by decide)
  exact absurd hread (by decide)

/-- A function that calls and then copies the result of the callee. -/
def copyFunction : IrFunction where
  name := "func_80001000"
  entryLabel := "loc_80001000"
  blocks :=
    [⟨"loc_80001000",
      [.call "lr" "0x80002000" [], .assign "r5" (.register "r3"), .ret none]⟩]

theorem copyFunction_sound :
    ∃ result, analyze resultContracts copyFunction empty = some result ∧
      ∀ site ∈ result.directCalls,
        SoundSite resultRuns copyFunction (AccountedFor .none resultContracts) site := by
  have hsome : (analyze resultContracts copyFunction empty).isSome = true := by decide
  obtain ⟨result, hresult⟩ := Option.isSome_iff_exists.mp hsome
  exact ⟨result, hresult, directCalls_sound .none resultContracts resultRuns
    copyFunction empty result (by decide) (by decide) (resultContracts_sound _) hresult⟩

end Wiicompiled.Analysis.GuestStateLivenessAnalyzer
