import Mathlib.Data.List.Lex
import Wiicompiled.Analysis.GuestAbiContract

/-!
# State-free liveness

Backward liveness of the architectural registers.  A call whose callee has a
contract kills what the callee definitely writes and introduces its inputs; all
other instructions are read through their operands, with every name taken by
its hardware base.  The result lists, for every such call, the registers that
are live after it.
-/

namespace Wiicompiled.Analysis

open Ir GuestStateMask RoundRobin

structure GuestCallSiteStateContract where
  blockLabel : String
  instructionIndex : ℕ
  callOrdinal : ℕ
  target : UInt32
  inputs : GuestStateMask
  outputs : GuestStateMask
  liveAfter : GuestStateMask
deriving DecidableEq

structure GuestStateLivenessResult where
  blockLiveIn : List (String × GuestStateMask)
  blockLiveOut : List (String × GuestStateMask)
  directCalls : List GuestCallSiteStateContract
deriving DecidableEq

namespace GuestStateLivenessAnalyzer

/-! ## The functions that are accepted -/

def supervisorRegisters : List String :=
  ["msr", "dar", "dsisr", "iccr", "tbr", "tbl", "tbu", "srr0", "srr1"]

def isSupervisorRegister (name : String) : Bool :=
  supervisorRegisters.any fun r => hardwareBase name.toList = r.toList

/-- Unknown control-flow targets need a materialized context. -/
def needsContext : IrInstruction → Bool
  | .indirectCall .. | .indirectJump .. | .jumpTable .. | .undefined .. => true
  | _ => false

def canDeconstructWithoutContext (function : IrFunction) : Bool :=
  function.blocks.all fun block =>
    block.instructions.all fun i =>
      !needsContext i && !i.uses.any isSupervisorRegister &&
        !i.definitions.any isSupervisorRegister

/-! ## The transfer of a block -/

section Transfer

variable (contracts : ContractMap)

/-- The address and the contract of a direct call, when the map knows it. -/
def contractedCall : IrInstruction → Option (UInt32 × GuestAbiContract)
  | .call _ target _ =>
      match tryParseAddress target with
      | some address => (contracts address).map fun contract => (address, contract)
      | none => none
  | _ => none

/-- What a contracted call hands over.  A call without a destination is a
lowered tail branch, which forwards the caller's LR. -/
def callInputs (destination : String) (contract : GuestAbiContract) :
    GuestStateMask :=
  if isNullOrWhiteSpace destination then
    contract.readBeforeWrite.union (ofReg .lr)
  else contract.readBeforeWrite

def callDestination : IrInstruction → String
  | .call destination _ _ => destination
  | _ => ""

def transferInstruction (i : IrInstruction) (live : GuestStateMask) :
    GuestStateMask :=
  match contractedCall contracts i with
  | some (_, contract) =>
      ((live.except contract.definiteWrites).union
          (callInputs (callDestination i) contract)).except
        (ofHardwareName (callDestination i))
  | none =>
      (live.except (operandWrites ofHardwareName i)).union
        (operandReads ofHardwareName i)

def liveBefore (instructions : List IrInstruction) (live : GuestStateMask) :
    GuestStateMask :=
  instructions.foldr (transferInstruction contracts) live

/-- Walk a block backwards, collecting the contracted calls; the index is that
of the first instruction. -/
def transferBlock (label : String) :
    ℕ → List IrInstruction → GuestStateMask →
      GuestStateMask × List GuestCallSiteStateContract
  | _, [], live => (live, [])
  | index, i :: rest, live =>
      let (liveAfter, calls) := transferBlock label (index + 1) rest live
      let site := fun (address : UInt32) (contract : GuestAbiContract) =>
        { blockLabel := label
          instructionIndex := index
          callOrdinal := 0
          target := address
          inputs := callInputs (callDestination i) contract
          outputs := liveAfter.intersect contract.possibleWrites
          liveAfter := liveAfter : GuestCallSiteStateContract }
      (transferInstruction contracts i liveAfter,
        match contractedCall contracts i with
        | some (address, contract) => calls ++ [site address contract]
        | none => calls)

end Transfer

/-! ## The fixpoint -/

/-- The labels to which control may go from the end of a block. -/
def successorLabels (block : IrBasicBlock) (fallthroughLabel : Option String) :
    List String :=
  match block.instructions.getLast? with
  | some (.branch _ trueLabel falseLabel _) => [trueLabel, falseLabel]
  | some (.jump targetLabel) => [targetLabel]
  | some (.ret _) | some (.undefined ..) | some (.indirectJump _)
  | some (.jumpTable ..) => []
  | _ => fallthroughLabel.toList

def successors (function : IrFunction) (index : ℕ) : List ℕ :=
  (successorLabels (function.blockAt index)
    (function.blocks[index + 1]?.map IrBasicBlock.label)).filterMap function.ordinal

section Fixpoint

variable (contracts : ContractMap) (function : IrFunction)
  (exitLive : GuestStateMask)

/-- What is live at the end of a block; a fact is the pair of the registers live
at the end and at the start of a block. -/
def outgoing (index : ℕ) (facts : List (GuestStateMask × GuestStateMask)) :
    GuestStateMask :=
  if successors function index = [] then exitLive
  else
    (successors function index).foldl
      (fun live successor => live.union (fact facts successor).2) empty

def transfer (index : ℕ) (facts : List (GuestStateMask × GuestStateMask)) :
    GuestStateMask × GuestStateMask :=
  let outgoing := outgoing function exitLive index facts
  (outgoing, liveBefore contracts (function.blockAt index).instructions outgoing)

def initialFacts : List (GuestStateMask × GuestStateMask) :=
  List.replicate function.blocks.length (empty, empty)

/-- The live sets of all blocks, by rounds from the last block to the first;
`none` only without enough fuel. -/
def liveFacts (fuel : ℕ) : Option (List (GuestStateMask × GuestStateMask)) :=
  iterate (sweep (transfer contracts function exitLive)
    (List.range function.blocks.length).reverse) fuel (initialFacts function)

/-! ## The call sites -/

/-- Order by block label, then by instruction. -/
def callOrder (a b : GuestCallSiteStateContract) : Prop :=
  if a.blockLabel = b.blockLabel then a.instructionIndex ≤ b.instructionIndex
  else ordinalKey a.blockLabel ≤ ordinalKey b.blockLabel

instance : DecidableRel callOrder :=
  fun a b => inferInstanceAs (Decidable
    (if a.blockLabel = b.blockLabel then a.instructionIndex ≤ b.instructionIndex
      else ordinalKey a.blockLabel ≤ ordinalKey b.blockLabel))

def numberCalls (calls : List GuestCallSiteStateContract) :
    List GuestCallSiteStateContract :=
  calls.zipIdx.map fun entry =>
    { entry.1 with
      callOrdinal := ((calls.take entry.2).filter fun call =>
        call.blockLabel = entry.1.blockLabel ∧ call.target = entry.1.target).length }

def collectCalls (facts : List (GuestStateMask × GuestStateMask)) :
    List GuestCallSiteStateContract :=
  (List.range function.blocks.length).flatMap fun index =>
    let block := function.blockAt index
    (transferBlock contracts block.label 0 block.instructions
      (fact facts index).1).2

/-- The liveness of a function; `none` stands for the exception that a
duplicate label raises. -/
def analyze : Option GuestStateLivenessResult :=
  if function.DistinctLabels then
    (liveFacts contracts function exitLive
        (184 * function.blocks.length + 1)).map fun facts =>
      let labels := function.blocks.map IrBasicBlock.label
      { blockLiveIn := labels.zip (facts.map Prod.snd)
        blockLiveOut := labels.zip (facts.map Prod.fst)
        directCalls :=
          numberCalls ((collectCalls contracts function facts).insertionSort callOrder) }
  else none

end Fixpoint

/-! ## What the fixpoint and the walk compute -/

section Results

variable {contracts : ContractMap} {function : IrFunction}
  {exitLive : GuestStateMask}

theorem transferInstruction_mono
    (i : IrInstruction) {live live' : GuestStateMask} (h : live ≤ live') :
    transferInstruction contracts i live ≤ transferInstruction contracts i live' := by
  intro r
  simp only [transferInstruction]
  split
  · simp only [has_except, has_union, Bool.and_eq_true, Bool.or_eq_true]
    rintro ⟨⟨hlive, hkept⟩ | hin, hdest⟩
    · exact ⟨Or.inl ⟨h r hlive, hkept⟩, hdest⟩
    · exact ⟨Or.inr hin, hdest⟩
  · simp only [has_except, has_union, Bool.and_eq_true, Bool.or_eq_true]
    rintro (⟨hlive, hkept⟩ | hin)
    · exact Or.inl ⟨h r hlive, hkept⟩
    · exact Or.inr hin

theorem liveBefore_mono
    (instructions : List IrInstruction) {live live' : GuestStateMask}
    (h : live ≤ live') :
    liveBefore contracts instructions live ≤ liveBefore contracts instructions live' := by
  induction instructions with
  | nil => exact h
  | cons i instructions ih => exact transferInstruction_mono i ih

theorem has_outgoing
    {index : ℕ} {facts : List (GuestStateMask × GuestStateMask)} {r : Reg} :
    (outgoing function exitLive index facts).has r = true ↔
      (successors function index = [] ∧ exitLive.has r = true) ∨
        ∃ s ∈ successors function index, (fact facts s).2.has r = true := by
  have hfold : ∀ (blocks : List ℕ) (live : GuestStateMask),
      (blocks.foldl (fun live s => live.union (fact facts s).2) live).has r = true ↔
        live.has r = true ∨ ∃ s ∈ blocks, (fact facts s).2.has r = true := by
    intro blocks
    induction blocks with
    | nil => simp
    | cons s blocks ih =>
        intro live
        rw [List.foldl_cons, ih, has_union, Bool.or_eq_true, or_assoc]
        simp
  rw [outgoing]
  by_cases hnil : successors function index = []
  · simp [hnil]
  · rw [if_neg hnil, hfold]
    simp [hnil]

theorem transfer_monotone : MonotoneEqs (transfer contracts function exitLive) := by
  intro i s t h
  have hout : outgoing function exitLive i s ≤ outgoing function exitLive i t := by
    intro r hr
    rw [has_outgoing] at hr ⊢
    rcases hr with hexit | ⟨b, hb, hr⟩
    · exact Or.inl hexit
    · exact Or.inr ⟨b, hb, (h.2 b).2 r hr⟩
  exact ⟨hout, liveBefore_mono _ hout⟩

/-- The fixpoint loop ends, with live sets that solve the equations. -/
theorem liveFacts_solves :
    ∃ facts, liveFacts contracts function exitLive
        (184 * function.blocks.length + 1) = some facts ∧
      ∀ i, i < function.blocks.length →
        fact facts i = transfer contracts function exitLive i facts := by
  have horder : ∀ i, i < function.blocks.length →
      i ∈ (List.range function.blocks.length).reverse :=
    fun _ hi => List.mem_reverse.mpr (List.mem_range.mpr hi)
  have hfuel : 184 * function.blocks.length < 184 * function.blocks.length + 1 :=
    Nat.lt_succ_self _
  exact iterate_sweep_from_bottom transfer_monotone pairSize_le pairSize_lt_of_lt
    empty_pair_le horder hfuel

theorem transferBlock_fst
    (label : String) (instructions : List IrInstruction) :
    ∀ (index : ℕ) (live : GuestStateMask),
      (transferBlock contracts label index instructions live).1 =
        liveBefore contracts instructions live := by
  induction instructions with
  | nil => exact fun _ _ => rfl
  | cons i rest ih =>
      intro index live
      change transferInstruction contracts i
        (transferBlock contracts label (index + 1) rest live).1 = _
      rw [ih]
      rfl

theorem mem_transferBlock
    {label : String} {site : GuestCallSiteStateContract}
    (instructions : List IrInstruction) :
    ∀ {index : ℕ} {live : GuestStateMask},
      site ∈ (transferBlock contracts label index instructions live).2 →
        ∃ front i rest, instructions = front ++ i :: rest ∧
          (contractedCall contracts i).isSome ∧
          site.blockLabel = label ∧
          site.instructionIndex = index + front.length ∧
          site.liveAfter = liveBefore contracts rest live := by
  induction instructions with
  | nil =>
      intro index live hsite
      simp [transferBlock] at hsite
  | cons i rest ih =>
      intro index live hsite
      have hlater : site ∈ (transferBlock contracts label (index + 1) rest live).2 →
          ∃ front j rest', i :: rest = front ++ j :: rest' ∧
            (contractedCall contracts j).isSome ∧
            site.blockLabel = label ∧
            site.instructionIndex = index + front.length ∧
            site.liveAfter = liveBefore contracts rest' live := by
        intro hin
        obtain ⟨front, j, rest', hsplit, hcall, hlabel, hindex, hlive⟩ := ih hin
        refine ⟨i :: front, j, rest', by simp [hsplit], hcall, hlabel, ?_, hlive⟩
        rw [hindex, List.length_cons]
        omega
      rw [transferBlock] at hsite
      cases hcall : contractedCall contracts i with
      | none =>
          rw [hcall] at hsite
          exact hlater hsite
      | some found =>
          rw [hcall] at hsite
          rcases List.mem_append.mp hsite with hin | hin
          · exact hlater hin
          · rw [List.mem_singleton] at hin
            subst hin
            refine ⟨[], i, rest, rfl, by simp [hcall], rfl, rfl, ?_⟩
            exact transferBlock_fst label rest (index + 1) live

theorem mem_numberCalls
    {calls : List GuestCallSiteStateContract} {site : GuestCallSiteStateContract}
    (h : site ∈ numberCalls calls) :
    ∃ call ∈ calls, site.blockLabel = call.blockLabel ∧
      site.instructionIndex = call.instructionIndex ∧
      site.liveAfter = call.liveAfter := by
  rw [numberCalls, List.mem_map] at h
  obtain ⟨⟨call, i⟩, hcall, rfl⟩ := h
  have hmem := List.mem_zipIdx hcall
  refine ⟨call, ?_, rfl, rfl, rfl⟩
  rw [hmem.2.2]
  exact List.getElem_mem _

/-- A reported site is an instruction of a block, and its live set that of the
rest of the block over a solution of the liveness equations. -/
theorem analyze_eq_some
    {result : GuestStateLivenessResult}
    (h : analyze contracts function exitLive = some result) :
    function.DistinctLabels ∧ ∃ facts,
      (∀ i, i < function.blocks.length →
        fact facts i = transfer contracts function exitLive i facts) ∧
      ∀ site ∈ result.directCalls, ∃ index front i rest,
        index < function.blocks.length ∧
          (function.blockAt index).label = site.blockLabel ∧
          (function.blockAt index).instructions = front ++ i :: rest ∧
          (contractedCall contracts i).isSome ∧
          site.instructionIndex = front.length ∧
          site.liveAfter = liveBefore contracts rest (fact facts index).1 := by
  obtain ⟨facts, hfacts, hsolves⟩ :
      ∃ facts, liveFacts contracts function exitLive
          (184 * function.blocks.length + 1) = some facts ∧
        ∀ i, i < function.blocks.length →
          fact facts i = transfer contracts function exitLive i facts :=
    liveFacts_solves
  rw [analyze] at h
  split at h
  · rename_i hlabels
    rw [hfacts] at h
    cases h
    refine ⟨hlabels, facts, hsolves, fun site hsite => ?_⟩
    obtain ⟨call, hcall, hlabel, hindex, hlive⟩ := mem_numberCalls hsite
    rw [List.mem_insertionSort, collectCalls, List.mem_flatMap] at hcall
    obtain ⟨index, hrange, hcall⟩ := hcall
    obtain ⟨front, i, rest, hsplit, hcontracted, hlabel', hindex', hlive'⟩ :=
      mem_transferBlock _ hcall
    refine ⟨index, front, i, rest, List.mem_range.mp hrange, ?_, hsplit, hcontracted,
      ?_, ?_⟩
    · rw [hlabel, hlabel']
    · rw [hindex, hindex', Nat.zero_add]
    · rw [hlive, hlive']
  · cases h

end Results

end GuestStateLivenessAnalyzer

end Wiicompiled.Analysis
