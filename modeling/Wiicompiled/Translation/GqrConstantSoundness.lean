import Mathlib.Data.List.GetD
import Wiicompiled.Translation.GqrTransferSoundness

/-!
# Soundness of the constant propagation of quantization registers

Along executions that never re-enter a block from itself, nor the entry block,
what the analysis reports at a block is what the registers hold there.  The
invariant compares the dictionary at every position with the machine; that it
survives an edge uses only that the last round changed nothing.
-/

namespace Wiicompiled.Translation.GqrConstantPropagation

open Ir

/-! ## The last round -/

@[simp]
theorem visit_length
    (function : IrFunction) (entryConstants : NameMap) (masks : WriteMasks)
    (s : List BlockFlow × Bool) (index : ℕ) :
    (visit function entryConstants masks s index).1.length = s.1.length := by
  rw [visit]
  split <;> simp

/-- A visited block that changes nothing satisfies its equations. -/
structure Settled (function : IrFunction) (entryConstants : NameMap)
    (masks : WriteMasks) (flows : List BlockFlow) (index : ℕ) : Prop where
  initialized : (flowAt flows index).initialized = true
  input : Below (flowAt flows index).input
    (blockInput function entryConstants flows index)
  output : Below (flowAt flows index).output
    (blockOutput function entryConstants masks flows index)

section Rounds

variable {function : IrFunction} {entryConstants : NameMap} {masks : WriteMasks}

theorem visit_quiet
    {flows : List BlockFlow} {flag : Bool} {index : ℕ}
    (h : (visit function entryConstants masks (flows, flag) index).2 = false) :
    flag = false ∧
      (visit function entryConstants masks (flows, flag) index).1 = flows ∧
      (skipped function flows index = false →
        Settled function entryConstants masks flows index) := by
  by_cases hskip : skipped function flows index = true
  · rw [visit, if_pos hskip] at h ⊢
    exact ⟨h, rfl, fun hnot => by simp [hskip] at hnot⟩
  · rw [visit, if_neg hskip] at h ⊢
    simp only [Bool.or_eq_false_iff, Bool.not_eq_false'] at h
    obtain ⟨⟨⟨hflag, hinput⟩, houtput⟩, hinitialized⟩ := h
    refine ⟨hflag, ?_, fun _ =>
      ⟨hinitialized, below_of_same hinput, below_of_same houtput⟩⟩
    simp only [hinput, houtput, if_true]
    by_cases hlt : index < flows.length
    · have hrecord : flowAt flows index = flows[index] := by simp [flowAt, hlt]
      rw [hrecord] at hinitialized ⊢
      rw [← hinitialized]
      exact List.set_getElem_self hlt
    · exact List.set_eq_of_length_le (Nat.le_of_not_lt hlt)

theorem foldl_visit_quiet
    {order : List ℕ} {s : List BlockFlow × Bool}
    (h : (order.foldl (visit function entryConstants masks) s).2 = false) :
    s.2 = false ∧ (order.foldl (visit function entryConstants masks) s).1 = s.1 ∧
      ∀ index ∈ order, skipped function s.1 index = false →
        Settled function entryConstants masks s.1 index := by
  induction order generalizing s with
  | nil => exact ⟨h, rfl, by simp⟩
  | cons index order ih =>
      rw [List.foldl_cons] at h ⊢
      obtain ⟨hflag, hrest, hsettled⟩ := ih h
      obtain ⟨hstart, hsame, hfirst⟩ := visit_quiet hflag
      rw [hsame] at hrest hsettled
      refine ⟨hstart, hrest, fun k hk => ?_⟩
      rcases List.mem_cons.mp hk with rfl | hin
      · exact hfirst
      · exact hsettled k hin

theorem rounds_settled
    {fuel : ℕ} {flows result : List BlockFlow}
    (h : rounds function entryConstants masks fuel flows = some result) :
    ∀ index < function.blocks.length, skipped function result index = false →
      Settled function entryConstants masks result index := by
  induction fuel generalizing flows with
  | zero => cases h
  | succ fuel ih =>
      rw [rounds] at h
      by_cases hchanged : (round function entryConstants masks flows).2 = true
      · rw [if_pos hchanged] at h
        exact ih h
      · rw [if_neg hchanged] at h
        cases h
        obtain ⟨-, hsame, hsettled⟩ := foldl_visit_quiet (Bool.eq_false_iff.mpr hchanged)
        intro index hlt
        rw [round, hsame]
        exact hsettled index (List.mem_range.mpr hlt)

theorem rounds_length
    {fuel : ℕ} {flows result : List BlockFlow}
    (h : rounds function entryConstants masks fuel flows = some result) :
    result.length = flows.length := by
  have hround : ∀ (order : List ℕ) (s : List BlockFlow × Bool),
      (order.foldl (visit function entryConstants masks) s).1.length = s.1.length := by
    intro order
    induction order with
    | nil => exact fun _ => rfl
    | cons index order ih => exact fun s => by rw [List.foldl_cons, ih, visit_length]
  induction fuel generalizing flows with
  | zero => cases h
  | succ fuel ih =>
      rw [rounds] at h
      by_cases hchanged : (round function entryConstants masks flows).2 = true
      · rw [if_pos hchanged] at h
        rw [ih h]
        exact hround _ _
      · rw [if_neg hchanged] at h
        cases h
        exact hround _ _

end Rounds

/-! ## Positions -/

/-- The steps to which soundness applies: control leaves a block for another one
that is not the entry, it does not fall through an empty block, and executed
instructions are understood. -/
def Allowed (function : IrFunction) (runs : CallRuns) (c d : Config) : Prop :=
  match c.remaining with
  | [] =>
      (function.blockAt c.block).instructions ≠ [] ∧
        isEntry function d.block = false
  | i :: _ =>
      if i.transfers then d.block ≠ c.block ∧ isEntry function d.block = false
      else Understood function runs c.source i

/-- The machine has what the dictionary holds after the executed part of the
block. -/
def Tracks (function : IrFunction) (predecessorOut : String → Option NameMap)
    (masks : WriteMasks) (start : NameMap) (c : Config) : Prop :=
  ∃ front, (function.blockAt c.block).instructions = front ++ c.remaining ∧
    (∀ i ∈ front, i.transfers = false ∧ i.stops = false) ∧
    Sound function (transferBlock predecessorOut masks front start) c.machine

section Positions

variable {function : IrFunction} {runs : CallRuns} {masks : WriteMasks}
  {predecessorOut : String → Option NameMap} {start : NameMap}

theorem tracks_enter
    {block : ℕ} {source : Option ℕ} {m : Machine} (h : Sound function start m) :
    Tracks function predecessorOut masks start (enter function block source m) :=
  ⟨[], rfl, by simp, h⟩

theorem Tracks.sound_of_entered
    {c : Config} (h : Tracks function predecessorOut masks start c)
    (hfull : c.remaining = (function.blockAt c.block).instructions) :
    Sound function start c.machine := by
  obtain ⟨front, hblock, -, hsound⟩ := h
  rw [hfull] at hblock
  have hnil : front = [] := List.self_eq_append_left.mp hblock
  subst hnil
  exact hsound

theorem Tracks.instruction
    (hssa : SsaForm function) (hmasks : SoundMasks masks runs)
    {block : ℕ} {source : Option ℕ} {entered m m' : Machine} {i : IrInstruction}
    {rest : List IrInstruction}
    (hsource : ∀ p, source = some p → ∀ label pred,
      IrCfg.ordinal function label = some p → predecessorOut label = some pred →
        Sound function pred entered)
    (htransfers : i.transfers = false) (hstops : i.stops = false)
    (hunderstood : Understood function runs source i)
    (hexecutes : Executes function runs source entered i m m')
    (h : Tracks function predecessorOut masks start ⟨block, source, entered, i :: rest, m⟩) :
    Tracks function predecessorOut masks start ⟨block, source, entered, rest, m'⟩ := by
  obtain ⟨front, hblock, hfront, hsound⟩ := h
  have hi : i ∈ (function.blockAt block).instructions := by
    rw [hblock]
    simp
  refine ⟨front ++ [i], by simpa using hblock, ?_, ?_⟩
  · intro j hj
    rcases List.mem_append.mp hj with hin | hin
    · exact hfront j hin
    · rw [List.mem_singleton.mp hin]
      exact ⟨htransfers, hstops⟩
  · rw [transferBlock, List.foldl_append]
    exact hsound.transfer hssa hmasks
      (IrFunction.blockAt_mem (IrFunction.lt_of_mem_blockAt hi)) hi hunderstood
      hsource hexecutes

end Positions

/-! ## Executions -/

section Runs

variable {function : IrFunction} {entryConstants : NameMap} {masks : WriteMasks}
  {runs : CallRuns} {start : Machine} {flows : List BlockFlow} {c d : Config}

/-- What an execution keeps of the final state of the analysis. -/
structure Agrees (function : IrFunction) (entryConstants : NameMap)
    (masks : WriteMasks) (flows : List BlockFlow) (c : Config) : Prop where
  lt : c.block < function.blocks.length
  settled : Settled function entryConstants masks flows c.block
  source : ∀ p, c.source = some p → Sound function (flowAt flows p).output c.entered
  tracks : Tracks function (outputs function flows) masks
    (blockInput function entryConstants flows c.block) c

theorem Agrees.leave
    (hsettled : ∀ index < function.blocks.length, skipped function flows index = false →
      Settled function entryConstants masks flows index)
    {block next : ℕ} {m : Machine} (hinitialized : (flowAt flows block).initialized = true)
    (hsound : Sound function (flowAt flows block).output m)
    (hedge : next ∈ IrCfg.successors function block)
    (hnext : next < function.blocks.length) (hne : next ≠ block)
    (hentry : isEntry function next = false) :
    Agrees function entryConstants masks flows (enter function next (some block) m) := by
  have hmeet : block ∈ meetPredecessors function flows next := by
    refine List.mem_filter.mpr ⟨IrCfg.mem_predecessors.mpr hedge, ?_⟩
    simp [hinitialized, hne.symm]
  have hvisited : skipped function flows next = false := by
    rw [skipped, List.isEmpty_eq_false_iff_exists_mem.mpr ⟨block, hmeet⟩,
      Bool.and_false]
  refine ⟨hnext, hsettled next hnext hvisited, ?_, tracks_enter ?_⟩
  · rintro p hp
    cases hp
    exact hsound
  · rw [enter_block, blockInput, if_neg (by simp [hentry])]
    exact hsound.mono (below_intersect (List.mem_map.mpr ⟨block, hmeet, rfl⟩))

/-- The output of the current block holds when all of it has been executed; the
last instruction is a control transfer or has been executed as well. -/
theorem Agrees.sound_output
    (h : Agrees function entryConstants masks flows c) {front : List IrInstruction}
    (hblock : (function.blockAt c.block).instructions = front ++ c.remaining)
    (hcontrol : ∀ i ∈ c.remaining, i.transfers = true)
    (hsound : Sound function (transferBlock (outputs function flows) masks front
      (blockInput function entryConstants flows c.block)) c.machine) :
    Sound function (flowAt flows c.block).output c.machine := by
  have hskip : ∀ instructions : List IrInstruction,
      (∀ i ∈ instructions, i.transfers = true) → ∀ state,
      transferBlock (outputs function flows) masks instructions state = state := by
    intro instructions
    induction instructions with
    | nil => exact fun _ _ => rfl
    | cons i rest ih =>
        intro hall state
        have hi := hall i List.mem_cons_self
        have hsame : transfer (outputs function flows) masks i state = state := by
          cases i <;> first | rfl | cases hi
        rw [transferBlock, List.foldl_cons, hsame]
        exact ih (fun j hj => hall j (List.mem_cons_of_mem _ hj)) state
  refine hsound.mono fun key value hlookup => ?_
  have hout := h.settled.output key value hlookup
  rw [blockOutput, hblock, transferBlock, List.foldl_append] at hout
  rwa [← hskip c.remaining hcontrol (transferBlock (outputs function flows) masks front
    (blockInput function entryConstants flows c.block))]

theorem Agrees.step
    (hssa : SsaForm function) (hcontrol : ControlAtEnds function)
    (hmasks : SoundMasks masks runs)
    (hsettled : ∀ index < function.blocks.length, skipped function flows index = false →
      Settled function entryConstants masks flows index)
    (h : Agrees function entryConstants masks flows c) (hstep : Step function runs c d)
    (hallowed : Allowed function runs c d) :
    Agrees function entryConstants masks flows d := by
  obtain ⟨front, hblock, hfront, hsound⟩ := h.tracks
  cases hstep with
  | @instruction block source entered m m' i rest htransfers hstops hexecutes =>
      have hunderstood : Understood function runs source i := by
        simpa [Allowed, htransfers] using hallowed
      refine ⟨h.lt, h.settled, h.source, ?_⟩
      refine Tracks.instruction hssa hmasks ?_ htransfers hstops hunderstood
        hexecutes h.tracks
      intro p hp label pred hlabel hpred
      rw [outputs, hlabel] at hpred
      cases hpred
      exact h.source p hp
  | @transfer block next source entered m i rest label hlabel hnext =>
      obtain ⟨htransfers, rfl⟩ :=
        hcontrol.last (IrFunction.blockAt_mem h.lt) hblock hlabel
      obtain ⟨hother, hentry⟩ : next ≠ block ∧ isEntry function next = false := by
        simpa [Allowed, htransfers] using hallowed
      exact Agrees.leave hsettled h.settled.initialized
        (h.sound_output hblock (by simpa using htransfers) hsound)
        (IrCfg.mem_successors_of_transfer hblock htransfers hlabel hnext)
        (IrCfg.ordinal_lt hnext) hother hentry
  | @«continue» block source entered m hnext =>
      obtain ⟨hnonempty, hentry⟩ : (function.blockAt block).instructions ≠ [] ∧
          isEntry function (block + 1) = false := by
        simpa [Allowed] using hallowed
      have hall : (function.blockAt block).instructions = front := by
        simpa using hblock
      obtain ⟨before, last, hlast⟩ := List.eq_nil_or_concat'
        (function.blockAt block).instructions |>.resolve_left hnonempty
      have hplain := hfront last (by rw [← hall, hlast]; simp)
      exact Agrees.leave hsettled h.settled.initialized
        (h.sound_output hblock (by simp) hsound)
        (IrCfg.mem_successors_of_fallthrough hlast hplain.1 hplain.2 hnext) hnext
        (by omega) hentry

theorem sound_entryConstants
    (h : SoundEntryConstants entryConstants start) :
    Sound function entryConstants start := by
  constructor
  · intro key value hlookup
    obtain ⟨n, hn, rfl, hvalue⟩ := h key value hlookup
    rw [Machine.read_gqrName _ hn, hvalue]
  · intro key value hlookup
    obtain ⟨n, hn, heq, -⟩ := h key value hlookup
    exact Or.inl ⟨n, hn, heq⟩

theorem Reachable.agrees
    (hssa : SsaForm function) (hcontrol : ControlAtEnds function)
    (hmasks : SoundMasks masks runs)
    (hentry : SoundEntryConstants entryConstants start)
    (hsettled : ∀ index < function.blocks.length, skipped function flows index = false →
      Settled function entryConstants masks flows index)
    (h : Reachable function runs (Allowed function runs) start c) :
    Agrees function entryConstants masks flows c := by
  induction h with
  | @entry block hblock =>
      have hisEntry : isEntry function block = true := by
        simpa [isEntry] using IrCfg.folded_label_ordinal hblock
      have hlt := IrCfg.ordinal_lt hblock
      refine ⟨hlt, hsettled block hlt (by simp [skipped, hisEntry]), ?_,
        tracks_enter ?_⟩
      · intro p hp
        cases hp
      · rw [enter_block, blockInput, if_pos hisEntry]
        exact sound_entryConstants hentry
  | tail _ hstep hallowed ih =>
      exact ih.step hssa hcontrol hmasks hsettled hstep hallowed

end Runs

/-! ## Reports and specialized accesses -/

/-- At the start of a block the quantization registers hold what is reported. -/
def ReportsHold (function : IrFunction) (flow : List NameMap) (c : Config) : Prop :=
  c.remaining = (function.blockAt c.block).instructions →
    ∀ n value, (flow.getD c.block ∅).lookup (gqrName n) = some value →
      c.machine.gqr n = value

/-- The instruction about to be executed stands unchanged in the specialized
function, or as the known form for the value of the register it accesses. -/
def SpecializedRight (function specialized : IrFunction) (requireRuntimeGuard : Bool)
    (c : Config) : Prop :=
  ∀ i rest, c.remaining = i :: rest →
    ∀ j, (specialized.blockAt c.block).instructions[
        (function.blockAt c.block).instructions.length - c.remaining.length]? = some j →
      j = i ∨ ∃ n, AccessIndex c.machine i n ∧
        j = knownForm requireRuntimeGuard (c.machine.gqr n) i

section Reports

variable {function : IrFunction} {entryConstants : NameMap} {masks : WriteMasks}
  {runs : CallRuns} {start m : Machine} {flow : List NameMap} {c d : Config}

theorem Sound.gqr_eq
    (hssa : SsaForm function) {state : NameMap} (h : Sound function state m) {n : ℕ}
    {value : UInt32} (hlookup : state.lookup (gqrName n) = some value) :
    m.gqr n = value := by
  rcases h.tracked _ value hlookup with ⟨k, hk, heq⟩ | ⟨-, hname⟩
  · have hnk := gqrName_injective heq
    subst hnk
    rw [← m.read_gqrName hk]
    exact h.holds _ value hlookup
  · exact absurd rfl (hssa.ne_gqrName hname n)

/-- What is reported at a block holds whenever an execution enters it. -/
theorem Reachable.sound_report
    (hssa : SsaForm function) (hcontrol : ControlAtEnds function)
    (hmasks : SoundMasks masks runs)
    (hentry : SoundEntryConstants entryConstants start)
    (hflow : analyze function entryConstants masks = some flow)
    (h : Reachable function runs (Allowed function runs) start c)
    (hfull : c.remaining = (function.blockAt c.block).instructions) :
    Sound function (flow.getD c.block ∅) c.machine := by
  rw [analyze] at hflow
  by_cases hdistinct : IrCfg.DistinctLabels function
  · rw [if_pos hdistinct] at hflow
    dsimp only at hflow
    split at hflow
    · rename_i flows hrounds
      cases hflow
      have hagrees := h.agrees hssa hcontrol hmasks hentry
        (rounds_settled hrounds)
      have hsame : (flows.map BlockFlow.input).getD c.block ∅ =
          (flowAt flows c.block).input :=
        List.getD_map flows default BlockFlow.input
      rw [hsame]
      exact (hagrees.tracks.sound_of_entered hfull).mono hagrees.settled.input
    · cases hflow
      have hempty : (function.blocks.map fun _ => (∅ : NameMap)).getD c.block ∅ = ∅ :=
        List.getD_map _ ⟨"", []⟩ fun _ : IrBasicBlock => (∅ : NameMap)
      rw [hempty]
      exact Sound.empty
  · rw [if_neg hdistinct] at hflow
    cases hflow

theorem Reachable.tracks_specialize
    (hssa : SsaForm function) (hcontrol : ControlAtEnds function)
    (hmasks : SoundMasks masks runs)
    (hentry : SoundEntryConstants entryConstants start)
    (hflow : analyze function entryConstants masks = some flow)
    (h : Reachable function runs (Allowed function runs) start c) :
    Tracks function (fun _ => none) masks (flow.getD c.block ∅) c := by
  induction h with
  | @entry block hblock =>
      exact tracks_enter (Reachable.sound_report hssa hcontrol hmasks hentry hflow
        (.entry hblock) rfl)
  | @tail c d hc hstep hallowed ih =>
      have hd : Reachable function runs (Allowed function runs) start d :=
        .tail hc hstep hallowed
      have hsound := hd.sound_report hssa hcontrol hmasks hentry hflow
      cases hstep with
      | @instruction block source entered m m' i rest htransfers hstops hexecutes =>
          have hunderstood : Understood function runs source i := by
            simpa [Allowed, htransfers] using hallowed
          exact ih.instruction hssa hmasks (fun _ _ _ _ _ hpred => by cases hpred)
            htransfers hstops hunderstood hexecutes
      | transfer hlabel hnext => exact tracks_enter (hsound rfl)
      | «continue» hnext => exact tracks_enter (hsound rfl)

theorem analyze_length
    (hflow : analyze function entryConstants masks = some flow) :
    flow.length = function.blocks.length := by
  rw [analyze] at hflow
  split_ifs at hflow
  dsimp only at hflow
  split at hflow
  · rename_i flows hrounds
    cases hflow
    rw [List.length_map, rounds_length hrounds, List.length_map]
  · cases hflow
    rw [List.length_map]

theorem instructions_specialize
    {requireRuntimeGuard resolvedOnly : Bool} {specialized : IrFunction}
    (hflow : analyze function entryConstants masks = some flow)
    (h : specialize function entryConstants masks requireRuntimeGuard resolvedOnly =
      some specialized) {index : ℕ} (hlt : index < function.blocks.length) :
    (specialized.blockAt index).instructions =
      specializeBlock requireRuntimeGuard resolvedOnly masks
        (function.blockAt index).instructions (flow.getD index ∅) := by
  have hlength := analyze_length hflow
  rw [specialize, hflow, Option.map_some, Option.some_inj] at h
  subst h
  simp [IrFunction.blockAt, hlt, hlength]

theorem getElem?_specializeBlock
    (requireRuntimeGuard resolvedOnly : Bool) (masks : WriteMasks)
    {instructions front rest : List IrInstruction} {i : IrInstruction}
    (h : instructions = front ++ i :: rest) (state : NameMap) :
    (specializeBlock requireRuntimeGuard resolvedOnly masks instructions
        state)[front.length]? =
      some (trySpecializePsq requireRuntimeGuard resolvedOnly
        (transferBlock (fun _ => none) masks front state) i) := by
  subst h
  induction front generalizing state with
  | nil => rfl
  | cons j front ih => simpa [specializeBlock, transferBlock] using ih _

theorem Sound.knownIndex
    {state : NameMap} (h : Sound function state m) {destination target : String}
    {arguments : List IrValue} {n : ℕ}
    (hindex : knownIndex target arguments state = some n) :
    AccessIndex m (.call destination target arguments) n := by
  obtain ⟨argument, hargument, hindex⟩ := Option.bind_eq_some_iff.mp hindex
  obtain ⟨value, hvalue, hindex⟩ := Option.bind_eq_some_iff.mp hindex
  obtain ⟨word, hword, hindex⟩ := Option.bind_eq_some_iff.mp hindex
  refine ⟨argument, value, hargument, hvalue, fun actual hactual => ?_⟩
  rw [h.tryValue hword hactual]
  split_ifs at hindex
  exact (Option.some.inj hindex).symm

/-- An access that is replaced for register `n` gets the register's value. -/
theorem Sound.specialized
    (hssa : SsaForm function) {state : NameMap} (h : Sound function state m)
    (requireRuntimeGuard : Bool) {i : IrInstruction} {n : ℕ}
    (hindex : AccessIndex m i n) {j : IrInstruction}
    (hj : j = match state.lookup (gqrName n) with
      | some gqr => knownForm requireRuntimeGuard gqr i
      | none => i) :
    j = i ∨ ∃ n, AccessIndex m i n ∧
      j = knownForm requireRuntimeGuard (m.gqr n) i := by
  cases hlookup : state.lookup (gqrName n) with
  | none =>
      left
      simpa only [hlookup] using hj
  | some value =>
      right
      refine ⟨n, hindex, ?_⟩
      rw [h.gqr_eq hssa hlookup]
      simpa only [hlookup] using hj

/-- A replaced access is the known form for the value of its register. -/
theorem Sound.trySpecializePsq
    (hssa : SsaForm function) {state : NameMap} (h : Sound function state m)
    (requireRuntimeGuard resolvedOnly : Bool) (i : IrInstruction) :
    trySpecializePsq requireRuntimeGuard resolvedOnly state i = i ∨
      ∃ n, AccessIndex m i n ∧
        trySpecializePsq requireRuntimeGuard resolvedOnly state i =
          knownForm requireRuntimeGuard (m.gqr n) i := by
  cases i
  case resolvedPsqLoad destination range originalAddress rangeOffset w index known guard =>
    cases known with
    | some _ => exact Or.inl rfl
    | none =>
        have hindex : AccessIndex m (.resolvedPsqLoad destination range originalAddress
            rangeOffset w index none guard) index.toNat := rfl
        exact h.specialized hssa requireRuntimeGuard hindex rfl
  case resolvedPsqStore range originalAddress rangeOffset value w index known guard =>
    cases known with
    | some _ => exact Or.inl rfl
    | none =>
        have hindex : AccessIndex m (.resolvedPsqStore range originalAddress
            rangeOffset value w index none guard) index.toNat := rfl
        exact h.specialized hssa requireRuntimeGuard hindex rfl
  case call destination target arguments =>
    simp only [GqrConstantPropagation.trySpecializePsq]
    by_cases hresolved : resolvedOnly = true
    · rw [if_pos hresolved]
      exact Or.inl rfl
    · rw [if_neg hresolved]
      cases hindex : GqrConstantPropagation.knownIndex target arguments state with
      | none => exact Or.inl rfl
      | some n => exact h.specialized hssa requireRuntimeGuard (h.knownIndex hindex) rfl
  all_goals exact Or.inl rfl

/-- Along executions whose steps are all allowed, the reports of the analysis hold
and the specialized accesses have the constants of their registers. -/
theorem propagation_sound
    (hssa : SsaForm function) (hcontrol : ControlAtEnds function)
    (hmasks : SoundMasks masks runs)
    (hentry : SoundEntryConstants entryConstants start)
    (hflow : analyze function entryConstants masks = some flow)
    (hc : Reachable function runs (Allowed function runs) start c) :
    ReportsHold function flow c ∧
      ∀ requireRuntimeGuard resolvedOnly specialized,
        specialize function entryConstants masks requireRuntimeGuard resolvedOnly =
          some specialized →
        SpecializedRight function specialized requireRuntimeGuard c := by
  constructor
  · intro hfull n value hlookup
    exact (hc.sound_report hssa hcontrol hmasks hentry hflow hfull).gqr_eq hssa hlookup
  · intro requireRuntimeGuard resolvedOnly specialized hspecialize i rest hremaining j hj
    obtain ⟨front, hblock, -, hsound⟩ :=
      hc.tracks_specialize hssa hcontrol hmasks hentry hflow
    rw [hremaining] at hblock
    have hlt : c.block < function.blocks.length :=
      IrFunction.lt_of_mem_blockAt (i := i) (by rw [hblock]; simp)
    have hposition : (function.blockAt c.block).instructions.length -
        c.remaining.length = front.length := by
      rw [hblock, hremaining, List.length_append]
      omega
    rw [hposition, instructions_specialize hflow hspecialize hlt,
      getElem?_specializeBlock _ _ _ hblock, Option.some_inj] at hj
    rw [← hj]
    exact hsound.trySpecializePsq hssa requireRuntimeGuard resolvedOnly i

end Reports

/-! ## Loops -/

section Loops

/-- No callee summaries are known. -/
def noMasks : WriteMasks :=
  fun _ => none

/-- Calls that change no quantization register. -/
def noEffect : CallRuns :=
  fun _ before after => after = before

def clearMachine : Machine :=
  ⟨fun _ => 0, fun _ => 0⟩

theorem noEffect_soundMasks (masks : WriteMasks) : SoundMasks masks noEffect := by
  intro target before after _ hrun n _ _
  rw [hrun]

theorem empty_soundEntryConstants (m : Machine) : SoundEntryConstants ∅ m := by
  intro key value hlookup
  simp at hlookup

/-- Whether an execution may go anywhere. -/
def anyStep (_ _ : Config) : Prop :=
  True

theorem evaluates_imm (m : Machine) (immediate : Int64) :
    Evaluates m (.imm immediate) (truncate immediate) := by
  simp [Evaluates, IrValue.imm]

/-- A phi with two sources reads the one of the block that control came from. -/
theorem phi_of_pair
    {function : IrFunction} {m : Machine} {a b : String × String} {source : ℕ} (word : UInt32)
    (ha : IrCfg.ordinal function a.1 = some source → word = m.read (folded a.2))
    (hb : IrCfg.ordinal function b.1 = some source → word = m.read (folded b.2)) :
    ∀ pair ∈ [a, b], ∀ p, some source = some p → IrCfg.ordinal function pair.1 = some p →
      word = m.read (folded pair.2) := by
  rintro pair hpair p hp hlabel
  cases hp
  rcases List.mem_pair.mp hpair with rfl | rfl
  · exact ha hlabel
  · exact hb hlabel

theorem allowed_of_transfers
    {function : IrFunction} {runs : CallRuns} {c d : Config} {i : IrInstruction}
    {rest : List IrInstruction} (hremaining : c.remaining = i :: rest)
    (htransfers : i.transfers = true) (hother : d.block ≠ c.block)
    (hentry : isEntry function d.block = false) : Allowed function runs c d := by
  rw [Allowed, hremaining]
  simp only [htransfers, if_true]
  exact ⟨hother, hentry⟩

def twoBlockLoop : IrFunction :=
  ⟨"two_block_loop", "entry",
    [⟨"entry", [.assign "gqr2_1" (.imm 0x40004), .jump "head"]⟩,
      ⟨"head", [.branch "bdnz" "body" "exit" ""]⟩,
      ⟨"body", [.jump "head"]⟩,
      ⟨"exit", [.ret none]⟩]⟩

theorem twoBlockLoop_ssaForm : SsaForm twoBlockLoop :=
  ⟨by decide, by decide, by decide⟩

/-- Back at the head of the loop the register has the constant reported there. -/
theorem twoBlockLoop_reports :
    ∃ flow c, analyze twoBlockLoop ∅ noMasks = some flow ∧
      Reachable twoBlockLoop noEffect (Allowed twoBlockLoop noEffect) clearMachine c ∧
      c.block = 1 ∧ c.source = some 2 ∧ c.machine.gqr 2 = 0x40004 := by
  have hreport : (analyze twoBlockLoop ∅ noMasks).map
      (fun flow => (flow.getD 1 ∅).lookup (gqrName 2)) = some (some 0x40004) := by
    decide
  obtain ⟨flow, hflow, hlookup⟩ := Option.map_eq_some_iff.mp hreport
  have hhead : IrCfg.ordinal twoBlockLoop "head" = some 1 := by decide
  have hbody : IrCfg.ordinal twoBlockLoop "body" = some 2 := by decide
  have h0 : Reachable twoBlockLoop noEffect (Allowed twoBlockLoop noEffect) clearMachine
      (enter twoBlockLoop 0 none clearMachine) := .entry (by decide)
  have h1 := h0.tail (.instruction (by rfl) (by rfl) (.assign (evaluates_imm _ 0x40004)))
    trivial
  have h2 := h1.tail (.transfer (by decide) hhead)
    (allowed_of_transfers rfl rfl (by decide) (by decide))
  have h3 := h2.tail (.transfer (by decide) hbody)
    (allowed_of_transfers rfl rfl (by decide) (by decide))
  have h4 := h3.tail (.transfer (by decide) hhead)
    (allowed_of_transfers rfl rfl (by decide) (by decide))
  have hsound := propagation_sound twoBlockLoop_ssaForm (by decide)
    (noEffect_soundMasks noMasks) (empty_soundEntryConstants _) hflow h4
  exact ⟨flow, _, hflow, h4, rfl, rfl, hsound.1 rfl 2 0x40004 hlookup⟩

/-- A loop of one block that changes the constant it is entered with. -/
def oneBlockLoop : IrFunction :=
  ⟨"one_block_loop", "entry",
    [⟨"entry", [.assign "gqr2_1" (.imm 0x40004), .jump "loop"]⟩,
      ⟨"loop", [.phi "gqr2_2" ⟨[("entry", "gqr2_1"), ("loop", "gqr2_3")], by decide⟩,
        .assign "gqr2_3" (.imm 0x50005), .branch "bdnz" "loop" "exit" ""]⟩,
      ⟨"exit", [.ret none]⟩]⟩

/-- The second iteration finds a register value that is not the one reported. -/
theorem oneBlockLoop_not_sound :
    SsaForm oneBlockLoop ∧ ControlAtEnds oneBlockLoop ∧
      SoundMasks noMasks noEffect ∧ SoundEntryConstants ∅ clearMachine ∧
      ∃ flow c, analyze oneBlockLoop ∅ noMasks = some flow ∧
        Reachable oneBlockLoop noEffect anyStep clearMachine c ∧
        ¬ReportsHold oneBlockLoop flow c := by
  refine ⟨⟨by decide, by decide, by decide⟩, by decide, noEffect_soundMasks noMasks,
    empty_soundEntryConstants _, ?_⟩
  have hreport : (analyze oneBlockLoop ∅ noMasks).map
      (fun flow => (flow.getD 1 ∅).lookup (gqrName 2)) = some (some 0x40004) := by
    decide
  obtain ⟨flow, hflow, hlookup⟩ := Option.map_eq_some_iff.mp hreport
  have hloop : IrCfg.ordinal oneBlockLoop "loop" = some 1 := by decide
  have h0 : Reachable oneBlockLoop noEffect anyStep clearMachine
      (enter oneBlockLoop 0 none clearMachine) := .entry (by decide)
  have h1 := h0.tail (.instruction (by rfl) (by rfl) (.assign (evaluates_imm _ 0x40004)))
    trivial
  have h2 := h1.tail (.transfer (by decide) hloop)
    trivial
  have h3 := h2.tail (.instruction (by rfl) (by rfl) (.phi
    (phi_of_pair 0x40004 (fun _ => by decide) fun hlabel => absurd hlabel (by decide)))) trivial
  have h4 := h3.tail (.instruction (by rfl) (by rfl) (.assign (evaluates_imm _ 0x50005)))
    trivial
  have h5 := h4.tail (.transfer (by decide) hloop)
    trivial
  refine ⟨flow, _, hflow, h5, fun hholds => ?_⟩
  exact absurd (hholds rfl 2 0x40004 hlookup) (by decide)

end Loops

end Wiicompiled.Translation.GqrConstantPropagation
