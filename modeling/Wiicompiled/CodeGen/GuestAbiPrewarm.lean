import Wiicompiled.CodeGen.InferredGuestFunctionAbi

/-!
# Prewarming the inferred ABIs

Prewarming infers functions on several workers and then fills in, in ascending order, what
these have left out.  The targets that the inference of a function asks for are fixed by
its code, so the cache after a prewarm is the one of inferring the functions one after
another.  One case is excepted: calls to save thunks are first asked for in the scan for
scalars, where a failure that is met for the first time counts otherwise than one that is
in the cache.
-/

namespace Wiicompiled.CodeGen

open Ir Memoized Memoized.Procedures Translation.GqrConstantPropagation

namespace InferredGuestFunctionAbiProvider

variable (provider : InferredGuestFunctionAbiProvider)

/-! ## What is asked for -/

def callTarget (target : String) : List UInt32 :=
  if isGuestCallTarget target then (provider.tryResolveTargetAddress target).toList else []

def scalarTarget : IrInstruction → List UInt32
  | .call _ target _ => provider.callTarget target
  | _ => []

/-- The targets of calls in the inference of argument registers: save thunks are no
calls. -/
def argumentTarget : IrInstruction → List UInt32
  | .call _ target _ =>
      if provider.thunks.isInlineSaveThunk target then [] else provider.callTarget target
  | _ => []

def argumentTargets (linear : IrFunction) : List UInt32 :=
  linear.blocks.flatMap fun block => block.instructions.flatMap provider.argumentTarget

def scalarTargets (linear : IrFunction) : List UInt32 :=
  (List.range linear.blocks.length).flatMap fun index =>
    (linear.blockAt index).instructions.flatMap provider.scalarTarget

/-- The functions that the inference of a function asks for. -/
def asks (entryPoint : UInt32) : Set UInt32 :=
  { q | ∃ linear, provider.linearIr entryPoint = some linear ∧
    IrCfg.DistinctLabels linear ∧
      (q ∈ provider.argumentTargets linear ∨ q ∈ provider.scalarTargets linear) }

theorem asksFor_tryGetGuestFunctionAbi (target : String) :
    (provider.tryGetGuestFunctionAbi target).AsksFor
      (provider.tryResolveTargetAddress target).toList := by
  rw [tryGetGuestFunctionAbi]
  rcases provider.tryResolveTargetAddress target with _ | address
  · exact .done _
  · exact .ask fun answer => .done answer

/-- What follows a question without asking anything changes nothing. -/
theorem asksFor_bind_done {β γ : Type} {q : Inferring β} {l : List UInt32} {g : β → γ}
    (h : q.AsksFor l) : (q.bind fun b => .done (g b)).AsksFor l := by
  simpa using h.bind fun b => Questions.AsksFor.done (g b)

theorem asksFor_callArguments (target : String) (arguments : List IrValue) :
    (provider.callArgumentsForArgumentInference target arguments).AsksFor
      (provider.callTarget target) := by
  rw [callArgumentsForArgumentInference, callTarget]
  split_ifs
  · exact asksFor_bind_done (provider.asksFor_tryGetGuestFunctionAbi target)
  · exact .done _

theorem asksFor_uses (i : IrInstruction) :
    (provider.instructionRegisterUsesForArgumentInference i).AsksFor
      (provider.argumentTarget i) := by
  match i with
  | .call _ target arguments =>
      rw [instructionRegisterUsesForArgumentInference, argumentTarget]
      split_ifs
      · exact .done _
      · exact asksFor_bind_done (provider.asksFor_callArguments target arguments)
  | .ret (some _) | .ret none => exact .done _
  | .assign .. | .binary .. | .load .. | .store .. | .resolveGuestMemoryRange ..
  | .resolvedLoad .. | .resolvedStore .. | .resolvedPsqLoad .. | .resolvedPsqStore ..
  | .resolvedLoadPair .. | .resolvedStorePair .. | .indirectCall .. | .setCrField ..
  | .phi .. | .branch .. | .jump .. | .indirectJump .. | .jumpTable .. | .comment ..
  | .tracePpc .. | .undefined .. => exact .done _

theorem asksFor_collect (linear : IrFunction) :
    (Questions.collect provider.blockUsesAndDefs linear.blocks).AsksFor
      (provider.argumentTargets linear) := by
  refine Questions.asksFor_collect (fun block => ?_) linear.blocks
  exact Questions.asksFor_fold (fun _ i => asksFor_bind_done (provider.asksFor_uses i)) _ _

theorem asksFor_processCall (target : String) (arguments : List IrValue) (s : ScalarState) :
    (provider.processScalarArgumentCall target arguments s).AsksFor
      (provider.callTarget target) := by
  rw [processScalarArgumentCall, callTarget]
  split_ifs
  · exact asksFor_bind_done (provider.asksFor_tryGetGuestFunctionAbi target)
  · exact .done _
  · exact .done _

theorem asksFor_processInstruction (s : ScalarState) (i : IrInstruction) :
    (provider.processScalarArgumentInstruction s i).AsksFor (provider.scalarTarget i) := by
  match i with
  | .call _ target arguments =>
      exact asksFor_bind_done (provider.asksFor_processCall target arguments s)
  | .assign .. | .binary .. | .load .. | .store .. | .resolveGuestMemoryRange ..
  | .resolvedLoad .. | .resolvedStore .. | .resolvedPsqLoad .. | .resolvedPsqStore ..
  | .resolvedLoadPair .. | .resolvedStorePair .. | .indirectCall .. | .setCrField ..
  | .phi .. | .branch .. | .jump .. | .indirectJump .. | .jumpTable .. | .ret ..
  | .comment .. | .tracePpc .. | .undefined .. => exact .done _

theorem asksFor_scanRound (linear : IrFunction) (scan : ScalarScan) :
    (provider.scanRound linear scan).AsksFor (provider.scalarTargets linear) := by
  refine Questions.asksFor_fold (fun scan index => ?_) _ _
  exact asksFor_bind_done
    (Questions.asksFor_fold (fun s i => provider.asksFor_processInstruction s i) _ _)

/-! ## Failures -/

/-- A failure counts for the argument registers like an ABI without any. -/
theorem indifferent_callArguments (target : String) (arguments : List IrValue) :
    (provider.callArgumentsForArgumentInference target arguments).Indifferent
      ⟨false, GuestFunctionAbi.empty⟩ ⟨true, GuestFunctionAbi.empty⟩ := by
  rw [callArgumentsForArgumentInference]
  split_ifs
  · rw [tryGetGuestFunctionAbi]
    rcases provider.tryResolveTargetAddress target with _ | address
    · exact .done _
    · exact .ask rfl fun answer => .done _
  · exact .done _

theorem indifferent_collect (linear : IrFunction) :
    (Questions.collect provider.blockUsesAndDefs linear.blocks).Indifferent
      ⟨false, GuestFunctionAbi.empty⟩ ⟨true, GuestFunctionAbi.empty⟩ := by
  refine Questions.indifferent_collect (fun block => ?_) linear.blocks
  refine Questions.indifferent_fold (fun sets i => ?_) _ _
  refine Questions.Indifferent.bind ?_ fun uses => .done _
  match i with
  | .call _ target arguments =>
      rw [instructionRegisterUsesForArgumentInference]
      split_ifs
      · exact .done _
      · exact (provider.indifferent_callArguments target arguments).bind fun _ => .done _
  | .ret (some _) | .ret none => exact .done _
  | .assign .. | .binary .. | .load .. | .store .. | .resolveGuestMemoryRange ..
  | .resolvedLoad .. | .resolvedStore .. | .resolvedPsqLoad .. | .resolvedPsqStore ..
  | .resolvedLoadPair .. | .resolvedStorePair .. | .indirectCall .. | .setCrField ..
  | .phi .. | .branch .. | .jump .. | .indirectJump .. | .jumpTable .. | .comment ..
  | .tracePpc .. | .undefined .. => exact .done _

/-! ## The course of an analysis -/

/-- The code of a function whose analysis gets under way. -/
def Analyzed (entryPoint : UInt32) (linear : IrFunction) : Prop :=
  provider.linearIr entryPoint = some linear ∧ IrCfg.DistinctLabels linear

/-- What an analysis has asked for, and what it still asks for. -/
def AnalysisOk (entryPoint : UInt32) (l : List UInt32) : AnalysisState → Prop
  | .failed => provider.InferenceFails entryPoint ∧ l = []
  | .collecting entry linear sets =>
      entry = entryPoint ∧ provider.Analyzed entryPoint linear ∧
        sets.Indifferent ⟨false, GuestFunctionAbi.empty⟩ ⟨true, GuestFunctionAbi.empty⟩ ∧
        ∃ rest, sets.AsksFor rest ∧
          ∀ q, q ∈ provider.argumentTargets linear ↔ q ∈ l ∨ q ∈ rest
  | .liveness entry linear _ _ =>
      entry = entryPoint ∧ provider.Analyzed entryPoint linear ∧
        ∀ q, q ∈ provider.argumentTargets linear ↔ q ∈ l
  | .scanning entry linear _ scan =>
      entry = entryPoint ∧ provider.Analyzed entryPoint linear ∧
        (∀ q ∈ provider.argumentTargets linear, q ∈ l) ∧
        ∃ rest, scan.AsksFor rest ∧
          ∀ q, q ∈ provider.argumentTargets linear ∨ q ∈ provider.scalarTargets linear ↔
            q ∈ l ∨ q ∈ rest
  | .done _ =>
      ∃ linear, provider.Analyzed entryPoint linear ∧
        ∀ q, q ∈ provider.argumentTargets linear ∨ q ∈ provider.scalarTargets linear ↔
          q ∈ l

theorem startAnalysis_ok (entryPoint : UInt32) :
    provider.AnalysisOk entryPoint [] (provider.startAnalysis entryPoint) := by
  rw [startAnalysis]
  rcases hlinear : provider.linearIr entryPoint with _ | linear
  · refine ⟨fun linear h => ?_, rfl⟩
    rw [hlinear] at h
    cases h
  · dsimp only
    split_ifs with hlabels
    · refine ⟨rfl, ⟨hlinear, hlabels⟩, provider.indifferent_collect linear, _,
        provider.asksFor_collect linear, fun q => ?_⟩
      simp
    · refine ⟨fun other h => ?_, rfl⟩
      rw [hlinear] at h
      obtain rfl := Option.some.inj h
      exact hlabels

theorem AnalysisOk.silent {entryPoint : UInt32} {l : List UInt32} {s s' : AnalysisState}
    (h : provider.AnalysisOk entryPoint l s)
    (hnext : provider.nextAnalysis s = .silent s') :
    provider.AnalysisOk entryPoint l s' := by
  match s, h with
  | .failed, _ => cases hnext
  | .collecting _ linear (.ask _ _), _ => cases hnext
  | .collecting _ linear (.done sets), ⟨hentry, hcode, _, rest, hasks, hrest⟩ =>
      obtain rfl := Action.silent.inj hnext
      obtain rfl := hasks.of_done
      exact ⟨hentry, hcode, fun q => by simpa using hrest q⟩
  | .liveness _ linear _ live, ⟨hentry, hcode, hasked⟩ =>
      rw [nextAnalysis] at hnext
      split_ifs at hnext
      · obtain rfl := Action.silent.inj hnext
        exact ⟨hentry, hcode, hasked⟩
      · obtain rfl := Action.silent.inj hnext
        refine ⟨hentry, hcode, fun q hq => (hasked q).mp hq, _,
          provider.asksFor_scanRound linear _, fun q => ?_⟩
        rw [hasked q]
  | .scanning _ linear _ (.ask _ _), _ => cases hnext
  | .scanning _ linear _ (.done scan), ⟨hentry, hcode, hargs, rest, hasks, hrest⟩ =>
      obtain rfl := hasks.of_done
      rw [nextAnalysis] at hnext
      split_ifs at hnext
      · obtain rfl := Action.silent.inj hnext
        refine ⟨hentry, hcode, hargs, _, provider.asksFor_scanRound linear _, fun q => ?_⟩
        have hq := hrest q
        simp only [List.not_mem_nil, or_false] at hq
        constructor
        · exact fun h => .inl (hq.mp h)
        · rintro (h | h)
          · exact hq.mpr h
          · exact .inr h
      · obtain rfl := Action.silent.inj hnext
        exact ⟨linear, hcode, fun q => by simpa using hrest q⟩
  | .done _, _ => cases hnext

theorem AnalysisOk.ask {entryPoint q : UInt32} {l : List UInt32} {s : AnalysisState}
    {f : Answer GuestFunctionAbi → AnalysisState} (h : provider.AnalysisOk entryPoint l s)
    (hnext : provider.nextAnalysis s = .ask q f) (answer : Answer GuestFunctionAbi) :
    provider.AnalysisOk entryPoint (q :: l) (f answer) := by
  match s, h with
  | .failed, _ => cases hnext
  | .collecting _ linear (.ask _ g), ⟨hentry, hcode, hsame, rest, hasks, hrest⟩ =>
      obtain ⟨rfl, rfl⟩ := Action.ask.inj hnext
      obtain ⟨rest', rfl, hasks'⟩ := hasks.of_ask
      refine ⟨hentry, hcode, hsame.of_ask.2 answer, rest', hasks' answer, fun r => ?_⟩
      rw [hrest r, List.mem_cons, List.mem_cons]
      tauto
  | .collecting _ _ (.done _), _ => cases hnext
  | .liveness _ _ _ live, _ =>
      rw [nextAnalysis] at hnext
      split_ifs at hnext
  | .scanning _ linear _ (.ask _ g), ⟨hentry, hcode, hargs, rest, hasks, hrest⟩ =>
      obtain ⟨rfl, rfl⟩ := Action.ask.inj hnext
      obtain ⟨rest', rfl, hasks'⟩ := hasks.of_ask
      refine ⟨hentry, hcode, fun r hr => List.mem_cons_of_mem _ (hargs r hr), rest',
        hasks' answer, fun r => ?_⟩
      rw [hrest r, List.mem_cons, List.mem_cons]
      tauto
  | .scanning _ _ _ (.done scan), _ =>
      rw [nextAnalysis] at hnext
      split_ifs at hnext
  | .done _, _ => cases hnext

theorem Visits.analysisOk {entryPoint : UInt32} {l : List UInt32} {s : AnalysisState}
    (h : provider.procedures.Visits entryPoint l s) :
    provider.AnalysisOk entryPoint l s := by
  induction h with
  | start => exact provider.startAnalysis_ok entryPoint
  | silent _ hnext ih => exact ih.silent provider hnext
  | ask _ hnext answer ih => exact ih.ask provider hnext answer

theorem AnalysisOk.asked {entryPoint : UInt32} {l : List UInt32} {s : AnalysisState}
    (h : provider.AnalysisOk entryPoint l s) : ∀ q ∈ l, q ∈ provider.asks entryPoint := by
  intro q hq
  match s, h with
  | .failed, ⟨_, hl⟩ =>
      subst hl
      cases hq
  | .collecting _ linear _, ⟨_, hcode, _, _, _, hrest⟩ =>
      exact ⟨linear, hcode.1, hcode.2, .inl ((hrest q).mpr (.inl hq))⟩
  | .liveness _ linear _ _, ⟨_, hcode, hasked⟩ =>
      exact ⟨linear, hcode.1, hcode.2, .inl ((hasked q).mpr hq)⟩
  | .scanning _ linear _ _, ⟨_, hcode, _, _, _, hrest⟩ =>
      exact ⟨linear, hcode.1, hcode.2, (hrest q).mpr (.inl hq)⟩
  | .done _, ⟨linear, hcode, hasked⟩ =>
      exact ⟨linear, hcode.1, hcode.2, (hasked q).mpr hq⟩

theorem AnalysisOk.complete {entryPoint : UInt32} {l : List UInt32} {s : AnalysisState}
    {o : Option GuestFunctionAbi} (h : provider.AnalysisOk entryPoint l s)
    (hnext : provider.nextAnalysis s = .finish o) :
    ∀ q ∈ provider.asks entryPoint, q ∈ l := by
  rintro q ⟨linear, hlinear, hlabels, hq⟩
  match s, h with
  | .failed, ⟨hfails, _⟩ => exact absurd hlabels (hfails linear hlinear)
  | .collecting _ _ (.ask _ _), _ => cases hnext
  | .collecting _ _ (.done _), _ => cases hnext
  | .liveness _ _ _ live, _ =>
      rw [nextAnalysis] at hnext
      split_ifs at hnext
  | .scanning _ _ _ (.ask _ _), _ => cases hnext
  | .scanning _ _ _ (.done scan), _ =>
      rw [nextAnalysis] at hnext
      split_ifs at hnext
  | .done _, ⟨other, hcode, hasked⟩ =>
      have hsame := hcode.1
      rw [hlinear] at hsame
      obtain rfl := Option.some.inj hsame
      exact (hasked q).mp hq

theorem inferenceFails_of_fails {entryPoint : UInt32}
    (h : provider.procedures.Fails entryPoint) : provider.InferenceFails entryPoint := by
  obtain ⟨l, s, hvisits, hend⟩ := h
  have hok := Visits.analysisOk provider hvisits
  change provider.nextAnalysis s = _ at hend
  match s, hok with
  | .failed, ⟨hfails, _⟩ => exact hfails
  | .collecting _ _ (.ask _ _), _ => cases hend
  | .collecting _ _ (.done _), _ => cases hend
  | .liveness _ _ _ live, _ =>
      rw [nextAnalysis] at hend
      split_ifs at hend
  | .scanning _ _ _ (.ask _ _), _ => cases hend
  | .scanning _ _ _ (.done scan), _ =>
      rw [nextAnalysis] at hend
      split_ifs at hend
  | .done _, _ => cases hend

/-! ## The cache after a prewarm -/

def CallsSaveThunk (entryPoint thunk : UInt32) : Prop :=
  ∃ linear, provider.linearIr entryPoint = some linear ∧
    ∃ block ∈ linear.blocks, ∃ destination target arguments,
      IrInstruction.call destination target arguments ∈ block.instructions ∧
        provider.thunks.isInlineSaveThunk target = true ∧
        provider.tryResolveTargetAddress target = some thunk

/-- The functions outside a cache whose ABI a prewarm comes to ask for. -/
def Requested (c₀ : UInt32 → Option GuestFunctionAbi) (addresses : List UInt32) :
    UInt32 → Prop :=
  Reach provider.asks c₀ (provider.prewarmTargets addresses)

/-- No function that is asked for calls a save thunk whose inference fails. -/
def SaveThunksInferable (c₀ : UInt32 → Option GuestFunctionAbi) (addresses : List UInt32) :
    Prop :=
  ∀ entryPoint thunk, provider.Requested c₀ addresses entryPoint →
    provider.CallsSaveThunk entryPoint thunk → ¬provider.InferenceFails thunk

def InferredInOrder (c₀ : UInt32 → Option GuestFunctionAbi) (addresses : List UInt32)
    (c : UInt32 → Option GuestFunctionAbi) : Prop :=
  provider.procedures.Pass c₀ (provider.prewarmTargets addresses) c

/-- The cache after a prewarm, in whatever order the workers have moved.  There is no
first phase for a single worker or a single address. -/
def Prewarm (workers : ℕ) (c₀ : UInt32 → Option GuestFunctionAbi)
    (addresses : List UInt32) (c : UInt32 → Option GuestFunctionAbi) : Prop :=
  if 1 < workers ∧ 1 < (orderedAddresses addresses).length then
    provider.procedures.Prewarms (Fin workers) c₀ (provider.prewarmTargets addresses) c
  else provider.InferredInOrder c₀ addresses c

/-- A target that is asked for in the scan alone is called as a save thunk. -/
theorem callsSaveThunk_of_scalarTarget {entryPoint q : UInt32} {linear : IrFunction}
    (hlinear : provider.linearIr entryPoint = some linear)
    (hscalar : q ∈ provider.scalarTargets linear)
    (hargument : q ∉ provider.argumentTargets linear) :
    provider.CallsSaveThunk entryPoint q := by
  obtain ⟨index, hindex, hblock⟩ := List.mem_flatMap.mp hscalar
  obtain ⟨i, hi, hq⟩ := List.mem_flatMap.mp hblock
  have hmem : linear.blockAt index ∈ linear.blocks :=
    IrFunction.blockAt_mem (List.mem_range.mp hindex)
  match i with
  | .call destination target arguments =>
      change q ∈ provider.callTarget target at hq
      refine ⟨linear, hlinear, _, hmem, destination, target, arguments, hi, ?_, ?_⟩
      · by_contra hthunk
        apply hargument
        refine List.mem_flatMap.mpr ⟨_, hmem, List.mem_flatMap.mpr ⟨_, hi, ?_⟩⟩
        rw [argumentTarget, if_neg hthunk]
        exact hq
      · rw [callTarget] at hq
        split_ifs at hq
        · exact Option.mem_toList.mp hq
        · cases hq
  | .assign .. | .binary .. | .load .. | .store .. | .resolveGuestMemoryRange ..
  | .resolvedLoad .. | .resolvedStore .. | .resolvedPsqLoad .. | .resolvedPsqStore ..
  | .resolvedLoadPair .. | .resolvedStorePair .. | .indirectCall .. | .setCrField ..
  | .phi .. | .branch .. | .jump .. | .indirectJump .. | .jumpTable .. | .ret ..
  | .comment .. | .tracePpc .. | .undefined .. => cases hq

theorem procedures_regular {c₀ : UInt32 → Option GuestFunctionAbi}
    {addresses : List UInt32} (hthunks : provider.SaveThunksInferable c₀ addresses) :
    provider.procedures.Regular provider.asks c₀ (provider.prewarmTargets addresses) := by
  constructor
  · intro entryPoint l s hvisits
    exact (Visits.analysisOk provider hvisits).asked provider
  · intro entryPoint l s o hvisits hend
    exact (Visits.analysisOk provider hvisits).complete provider hend
  · intro entryPoint l s q f hreach hvisits hnext hfirst hfails
    have hok := Visits.analysisOk provider hvisits
    change provider.nextAnalysis s = _ at hnext
    match s, hok with
    | .failed, _ => cases hnext
    | .collecting _ linear (.ask _ g), ⟨_, _, hsame, _⟩ =>
        obtain ⟨rfl, rfl⟩ := Action.ask.inj hnext
        exact congrArg _ hsame.of_ask.1
    | .collecting _ _ (.done _), _ => cases hnext
    | .liveness _ _ _ live, _ =>
        rw [nextAnalysis] at hnext
        split_ifs at hnext
    | .scanning _ linear _ (.ask r g), ⟨_, hcode, hargs, rest, hasks, hrest⟩ =>
        obtain ⟨rfl, rfl⟩ := Action.ask.inj hnext
        obtain ⟨rest', rfl, -⟩ := hasks.of_ask
        have hargument : r ∉ provider.argumentTargets linear :=
          fun hmem => hfirst (hargs r hmem)
        have hscalar : r ∈ provider.scalarTargets linear :=
          ((hrest r).mpr (.inr (List.mem_cons_self ..))).resolve_left hargument
        have hcalls := provider.callsSaveThunk_of_scalarTarget hcode.1 hscalar hargument
        exact absurd (provider.inferenceFails_of_fails hfails)
          (hthunks entryPoint r hreach hcalls)
    | .scanning _ _ _ (.done scan), _ =>
        rw [nextAnalysis] at hnext
        split_ifs at hnext
    | .done _, _ => cases hnext

/-- When no requested function calls a save thunk whose inference fails, every prewarm
leaves the cache of inferring the functions one after another, in ascending order. -/
theorem prewarm_deterministic (workers : ℕ) (c₀ : UInt32 → Option GuestFunctionAbi)
    (addresses : List UInt32) (hthunks : provider.SaveThunksInferable c₀ addresses)
    (c : UInt32 → Option GuestFunctionAbi)
    (hprewarm : provider.Prewarm workers c₀ addresses c) :
    provider.InferredInOrder c₀ addresses c ∧
      ∀ c', provider.InferredInOrder c₀ addresses c' → c' = c := by
  have horder : provider.InferredInOrder c₀ addresses c := by
    rw [Prewarm] at hprewarm
    split_ifs at hprewarm
    · obtain ⟨pool, hreachable, -, -, hpass⟩ := hprewarm
      exact (pass_after_pool_iff (provider.procedures_regular hthunks) hreachable).mp hpass
    · exact hprewarm
  exact ⟨horder, fun c' hc' => Pass.unique _ hc' horder⟩

/-! ## A save thunk without code -/

/-- A function that keeps its first scalar argument over a call, uses it, and leaves all
floating-point registers as they were. -/
def thunkCaller : IrFunction :=
  ⟨"func_80001000", "0x80001000", [⟨"0x80001000",
    [.assign "f14" (.register "f1"), .call "" "func_80002000" [],
      .binary "f20" (.register "f1") (.register "f1") "+",
      .assign "f1" (.register "f14"), .load "f14" ⟨"r1", 8⟩ 8, .ret none]⟩]⟩

/-- An image of this function, in which the other address has no code. -/
def thunkProvider (thunks : GuestSaveRestoreThunks) : InferredGuestFunctionAbiProvider where
  usedRange := ⟨0x80000000, 0x81000000⟩
  canonicalIr address := if address = 0x80001000 then some thunkCaller else none
  buildLinearIr _ := none
  thunks := thunks
  classifyReturn _ _ := (false, false)

def saveThunks : GuestSaveRestoreThunks :=
  ⟨some ⟨0x80002000, 14, 31⟩, none, none, none⟩

/-- One worker infers the thunk first, then another the function. -/
def thunkFirst : List (Fin 2 × Option UInt32) :=
  let first := ⟨0, Nat.succ_pos 1⟩
  (first, some 0x80002000) :: List.replicate 6 (first, none) ++
    (Fin.last 1, some 0x80001000) :: List.replicate 30 (Fin.last 1, none)

def scalarEntry (c : UInt32 → Option GuestFunctionAbi) : Option NameSet :=
  (c 0x80001000).map GuestFunctionAbi.scalarFloatArgumentRegisters

theorem thunkCaller_prewarmed :
    ((thunkProvider saveThunks).procedures.prewarmBy 40 (fun _ => none)
      ((thunkProvider saveThunks).prewarmTargets [0x80001000, 0x80002000])
      thunkFirst).map scalarEntry = some (some ["f1"]) := by
  decide +kernel

theorem thunkCaller_inOrder :
    ((thunkProvider saveThunks).procedures.passWithin 40 (fun _ => none)
      ((thunkProvider saveThunks).prewarmTargets [0x80001000, 0x80002000])).map
        scalarEntry = some (some []) := by
  decide +kernel

/-- Two workers and two addresses, of which the second is a save thunk without code: the
cache depends on who comes first. -/
theorem thunkCaller_depends_on_schedule :
    ∃ c c', (thunkProvider saveThunks).Prewarm 2 (fun _ => none)
        [0x80001000, 0x80002000] c ∧
      (thunkProvider saveThunks).InferredInOrder (fun _ => none)
        [0x80001000, 0x80002000] c' ∧ c ≠ c' := by
  obtain ⟨c, hc, hscalar⟩ := Option.map_eq_some_iff.mp thunkCaller_prewarmed
  obtain ⟨c', hc', hscalar'⟩ := Option.map_eq_some_iff.mp thunkCaller_inOrder
  refine ⟨c, c', ?_, pass_of_passWithin _ hc', fun hsame => ?_⟩
  · rw [Prewarm, if_pos (by decide)]
    exact prewarms_of_prewarmBy _ hc
  · rw [hsame, hscalar'] at hscalar
    cases hscalar

/-- Where the address is no thunk, the same workers leave the same cache. -/
theorem thunkCaller_deterministic :
    ∃ c, (thunkProvider ⟨none, none, none, none⟩).Prewarm 2 (fun _ => none)
        [0x80001000, 0x80002000] c ∧
      (thunkProvider ⟨none, none, none, none⟩).InferredInOrder (fun _ => none)
        [0x80001000, 0x80002000] c := by
  have hdone : ((thunkProvider ⟨none, none, none, none⟩).procedures.prewarmBy 40
      (fun _ => none)
      ((thunkProvider ⟨none, none, none, none⟩).prewarmTargets [0x80001000, 0x80002000])
      thunkFirst).isSome = true := by
    decide +kernel
  obtain ⟨c, hc⟩ := Option.isSome_iff_exists.mp hdone
  have hprewarm : (thunkProvider ⟨none, none, none, none⟩).Prewarm 2 (fun _ => none)
      [0x80001000, 0x80002000] c := by
    rw [Prewarm, if_pos (by decide)]
    exact prewarms_of_prewarmBy _ hc
  have hthunks : (thunkProvider ⟨none, none, none, none⟩).SaveThunksInferable
      (fun _ => none) [0x80001000, 0x80002000] := by
    rintro entryPoint thunk - ⟨linear, -, block, -, destination, target, arguments, -,
      hthunk, -⟩
    rw [GuestSaveRestoreThunks.isInlineSaveThunk] at hthunk
    split at hthunk <;> cases hthunk
  exact ⟨c, hprewarm, (prewarm_deterministic _ 2 _ _ hthunks c hprewarm).1⟩

end InferredGuestFunctionAbiProvider

end Wiicompiled.CodeGen
