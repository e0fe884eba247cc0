import Wiicompiled.CodeGen.GqrHoisting

/-!
# Hoisted quantization registers stay coherent

The copies agree with the context as long as every write is followed by a load.  Two kinds
of writes are not: an assignment to a quantization register that is neither a move nor a
phi, and what a callee has written before the dispatch on the link register leaves the
place of the call.
-/

namespace Wiicompiled.CodeGen.CxxLinearCodeGenerator

open Ir Analysis Translation
open GqrConstantPropagation (WriteMasks gqrKey callWriteMask)

/-! ## The emission of a planned function -/

theorem lt_of_TryGetGenericGqrPsqSite {target : String} {arguments : List IrValue}
    {site : ℕ × IrValue} (h : TryGetGenericGqrPsqSite target arguments = some site) :
    site.1 < 8 := by
  unfold TryGetGenericGqrPsqSite at h
  dsimp only at h
  split_ifs at h <;> split at h
  all_goals
    first
    | exact absurd h.symm (Option.some_ne_none _)
    | split_ifs at h with hrange
      obtain rfl := Option.some_inj.mp h
      have hle := Int64.le_iff_toInt_le.mp hrange.2
      have hseven : (7 : Int64).toInt = 7 := rfl
      omega

theorem lt_of_mem_CollectHoistableGqrIndices {function : IrFunction}
    {isStackAddress : IrValue → Bool} {enabled : Bool} {n : ℕ}
    (h : n ∈ CollectHoistableGqrIndices function isStackAddress enabled) : n < 8 := by
  rw [CollectHoistableGqrIndices] at h
  split_ifs at h
  · obtain ⟨instruction, -, hinstruction⟩ := List.mem_filterMap.mp (List.mem_dedup.mp h)
    rcases instruction
    case call =>
      obtain ⟨site, hsite, hindex⟩ := Option.bind_eq_some_iff.mp hinstruction
      split_ifs at hindex
      obtain rfl := Option.some_inj.mp hindex
      exact lt_of_TryGetGenericGqrPsqSite hsite
    all_goals exact absurd hinstruction.symm (Option.some_ne_none _)
  · exact absurd h List.not_mem_nil

def planHoisting (function : IrFunction) (isStackAddress : IrValue → Bool) (enabled : Bool)
    (gqrCalleeWriteMasks : WriteMasks)
    (nonReturningCallTargets lrContinuationCallTargets : List UInt32)
    (suppressed : ℕ → ℕ → Bool) : Emission where
  hoisted := CollectHoistableGqrIndices function isStackAddress enabled
  hoisted_lt := fun _ h => lt_of_mem_CollectHoistableGqrIndices h
  gqrCalleeWriteMasks := gqrCalleeWriteMasks
  nonReturningCallTargets := nonReturningCallTargets
  lrContinuationCallTargets := lrContinuationCallTargets
  suppressed := suppressed

/-! ## Coherence -/

/-- The copies of the hoisted registers are their values. -/
def Coherent (emission : Emission) (m : GqrMachine) : Prop :=
  ∀ n ∈ emission.hoisted, m.copies n = m.context n

/-- A generic access at the position reads the value in the context. -/
def AccessCoherent (function : IrFunction) (emission : Emission) (c : GqrConfig) : Prop :=
  ∀ i, (function.blockAt c.block).instructions[c.index]? = some i →
    ∀ n ∈ emission.hoisted, genericAccessIndex i = some n →
      c.machine.copies n = c.machine.context n

/-- The generic accesses are coherent in every execution of the emitted body. -/
def HoistingCoherent (function : IrFunction) (emission : Emission) : Prop :=
  ∀ entry context c, IrCfg.ordinal function function.entryLabel = some entry →
    Relation.ReflTransGen (fun c c' => ∃ resumed, GqrStep function emission resumed c c')
      (enterHoisted emission entry context) c → AccessCoherent function emission c

/-- The instructions behind which the emitter loads a quantization register that they
assign. -/
def loadsDestination : IrInstruction → Bool
  | .assign .. | .phi .. | .indirectCall .. => true
  | .call _ target arguments => HelperCallCanWriteGqrs target arguments
  | _ => false

/-- The instruction at the position assigns a hoisted register only in such a way. -/
def AssignsLoaded (function : IrFunction) (emission : Emission) (c : GqrConfig) : Prop :=
  ∀ i, (function.blockAt c.block).instructions[c.index]? = some i →
    ∀ name ∈ assignedNames i, ∀ n ∈ emission.hoisted, gqrKey (folded name) = some n →
      loadsDestination i = true

/-- The callee at the position leaves the hoisted registers alone. -/
def CalleeKeepsHoisted (function : IrFunction) (emission : Emission) (c : GqrConfig) : Prop :=
  ∀ i, (function.blockAt c.block).instructions[c.index]? = some i →
    ∀ n ∈ emission.hoisted, calleeMayWriteGqr emission.gqrCalleeWriteMasks i n = false

/-- A step at which every write of a hoisted register is followed by a load. -/
def LoadedStep (function : IrFunction) (emission : Emission) (c c' : GqrConfig) : Prop :=
  ∃ resumed, GqrStep function emission resumed c c' ∧ AssignsLoaded function emission c ∧
    (resumed = true → CalleeKeepsHoisted function emission c)

section Steps

variable {function : IrFunction} {emission : Emission} {c c' : GqrConfig}

theorem HelperCallCanWriteGqrs_of_mayWrite {target : String} {arguments : List IrValue}
    {n : ℕ} (hn : n < 8)
    (h : (if equalsIgnoreCase target.toList "PPC_WriteSpr".toList then
      match GuestHelperEffectCatalog.constantArgument arguments 0 with
      | some spr => decide (spr.toInt = 912 + n)
      | none => true
      else HelperCallCanWriteGqrs target arguments) = true) :
    HelperCallCanWriteGqrs target arguments = true := by
  split_ifs at h with hwriter
  · rw [HelperCallCanWriteGqrs, if_pos hwriter]
    rcases hspr : GuestHelperEffectCatalog.constantArgument arguments 0 with _ | spr
    · rfl
    · rw [hspr] at h
      have hvalue := of_decide_eq_true h
      have hlow : (912 : Int64) ≤ spr := by
        rw [Int64.le_iff_toInt_le, hvalue]
        have : (912 : Int64).toInt = 912 := rfl
        omega
      have hhigh : spr ≤ (919 : Int64) := by
        rw [Int64.le_iff_toInt_le, hvalue]
        have : (919 : Int64).toInt = 919 := rfl
        omega
      simp [hlow, hhigh]
  · exact h

theorem mem_EmitHoistedGqrReloads {i : IrInstruction} {n : ℕ} (hn : n ∈ emission.hoisted)
    (hassigns : ∀ name ∈ assignedNames i, ∀ n ∈ emission.hoisted,
      gqrKey (folded name) = some n → loadsDestination i = true)
    (hwrites : mayWriteGqr emission.gqrCalleeWriteMasks i n) :
    n ∈ EmitHoistedGqrReloads emission.hoisted emission.gqrCalleeWriteMasks i := by
  rcases hwrites with ⟨name, hname, hkey⟩ | hcallee
  · have hloads := hassigns name hname n hn hkey
    rcases i
    case assign destination value =>
      obtain rfl := List.mem_singleton.mp hname
      exact List.mem_filter.mpr ⟨hn, decide_eq_true hkey⟩
    case phi => exact absurd hname List.not_mem_nil
    case indirectCall => exact hn
    case call destination target arguments =>
      rw [assignedNames] at hname
      rcases htarget : tryParseAddressOrDecimal target with _ | address
      · rw [EmitHoistedGqrReloads, htarget]
        dsimp only
        rw [if_pos (show HelperCallCanWriteGqrs target arguments = true from hloads)]
        exact hn
      · rw [htarget] at hname
        exact absurd hname List.not_mem_nil
    all_goals exact absurd hloads Bool.false_ne_true
  · rcases i
    case indirectCall => exact hn
    case call destination target arguments =>
      rw [EmitHoistedGqrReloads]
      rw [calleeMayWriteGqr] at hcallee
      rcases htarget : tryParseAddressOrDecimal target with _ | address
      · rw [htarget] at hcallee
        dsimp only at hcallee ⊢
        rw [if_pos (HelperCallCanWriteGqrs_of_mayWrite (emission.hoisted_lt n hn) hcallee)]
        exact hn
      · rw [htarget] at hcallee
        exact List.mem_filter.mpr ⟨hn, hcallee⟩
    all_goals exact absurd hcallee Bool.false_ne_true

theorem assignedNames_of_resumes {instructions : List IrInstruction} {index : ℕ}
    {i : IrInstruction} (hi : instructions[index]? = some i)
    (h : resumesThroughLinkRegister emission instructions index = true) :
    assignedNames i = [] := by
  rw [resumesThroughLinkRegister, hi] at h
  rcases i
  case call destination target arguments =>
    dsimp only at h
    rcases htarget : tryParseAddress target with _ | address
    · rw [htarget] at h
      exact absurd h Bool.false_ne_true
    · rw [assignedNames, tryParseAddressOrDecimal, htarget]
      rfl
  all_goals exact absurd h Bool.false_ne_true

/-- **One step.**  Copies that agree with the context still do. -/
theorem Coherent.step (h : Coherent emission c.machine)
    (hstep : LoadedStep function emission c c') : Coherent emission c'.machine := by
  obtain ⟨resumed, hstep, hassigns, hcallee⟩ := hstep
  rcases hstep with ⟨hsuppressed⟩ | ⟨hi, hsuppressed, hframe⟩ |
    ⟨hi, hsuppressed, hresumes, hlr, hcontinuation, hframe⟩ | ⟨hi, hlabel, hnext⟩ |
    ⟨hend, hnext⟩
  · exact h
  · intro n hn
    dsimp only [loadCopies]
    split_ifs with hloaded
    · rfl
    · rw [hframe n fun hwrites =>
        hloaded (mem_EmitHoistedGqrReloads hn (hassigns _ hi) hwrites)]
      exact h n hn
  · intro n hn
    refine (h n hn).trans (hframe n ?_).symm
    rintro (⟨name, hname, hkey⟩ | hwrites)
    · rw [assignedNames_of_resumes hi hresumes] at hname
      exact absurd hname List.not_mem_nil
    · rw [hcallee rfl _ hi n hn] at hwrites
      exact absurd hwrites Bool.false_ne_true
  · exact h
  · exact h

/-- **Runs.**  The prologue makes the copies agree, and every step keeps that. -/
theorem Coherent.run {entry : ℕ} {context : ℕ → UInt32}
    (hrun : Relation.ReflTransGen (LoadedStep function emission)
      (enterHoisted emission entry context) c) : Coherent emission c.machine := by
  induction hrun with
  | refl => exact fun n hn => if_pos hn
  | tail _ hstep ih => exact ih.step hstep

/-- **Hoisted registers.**  In an execution of a planned function whose writes of hoisted
registers are all followed by loads, the generic accesses read the values in the context. -/
theorem accessCoherent_of_loaded (function : IrFunction) (isStackAddress : IrValue → Bool)
    (enabled : Bool) (gqrCalleeWriteMasks : WriteMasks)
    (nonReturningCallTargets lrContinuationCallTargets : List UInt32)
    (suppressed : ℕ → ℕ → Bool) (entry : ℕ) (context : ℕ → UInt32) (c : GqrConfig)
    (hrun : Relation.ReflTransGen
      (LoadedStep function (planHoisting function isStackAddress enabled gqrCalleeWriteMasks
        nonReturningCallTargets lrContinuationCallTargets suppressed))
      (enterHoisted (planHoisting function isStackAddress enabled gqrCalleeWriteMasks
        nonReturningCallTargets lrContinuationCallTargets suppressed) entry context) c) :
    AccessCoherent function (planHoisting function isStackAddress enabled gqrCalleeWriteMasks
      nonReturningCallTargets lrContinuationCallTargets suppressed) c := by
  intro i _ n hn _
  exact Coherent.run hrun n hn

end Steps

/-- A move to the first register and a generic load that reads it. -/
def movedLoad : IrFunction where
  name := "moved"
  entryLabel := "0x80001000"
  blocks :=
    [⟨"0x80001000",
      [.assign "gqr0_1" (IrValue.imm 7),
       .call "f1_1" "PPC_PsqL" [IrValue.register "r3_0", IrValue.imm 0, IrValue.imm 0],
       .ret none]⟩]

theorem movedLoad_hoisted :
    CollectHoistableGqrIndices movedLoad (fun _ => false) true = [0] := by
  decide +kernel

/-- The load behind the move reads seven. -/
theorem accessCoherent_movedLoad :
    AccessCoherent movedLoad
      (planHoisting movedLoad (fun _ => false) true (fun _ => none) [] [] fun _ _ => false)
      ⟨0, 1, fun n => if n = 0 then 7 else 0,
        loadCopies [0] (loadCopies [0] (fun _ => 0) fun _ => 0)
          fun n => if n = 0 then 7 else 0⟩ := by
  refine accessCoherent_of_loaded movedLoad (fun _ => false) true (fun _ => none) [] []
    (fun _ _ => false) 0 (fun _ => 0) _ (.single ⟨false, ?_, ?_, nofun⟩)
  · have hreloads : EmitHoistedGqrReloads (planHoisting movedLoad (fun _ => false) true
        (fun _ => none) [] [] fun _ _ => false).hoisted (fun _ => none)
          (.assign "gqr0_1" (IrValue.imm 7)) = [0] := by
      decide +kernel
    rw [enterHoisted, show (planHoisting movedLoad (fun _ => false) true (fun _ => none) [] []
      fun _ _ => false).hoisted = [0] from movedLoad_hoisted, ← hreloads]
    refine .instruction rfl rfl fun n hkept => ?_
    refine if_neg fun hzero => hkept (Or.inl ⟨"gqr0_1", List.mem_singleton_self _, ?_⟩)
    subst hzero
    decide +kernel
  · rintro i hi - - - - -
    obtain rfl := Option.some_inj.mp hi
    rfl

/-! ## A callee that goes on elsewhere -/

/-- A paired-single load in generic form at a local continuation, and a call to a function
that does not return behind the call. -/
def continuedLoad : IrFunction where
  name := "continued"
  entryLabel := "0x80001000"
  blocks :=
    [⟨"0x80001000", [.call "" "0x80002000" [], .ret none]⟩,
     ⟨"0x80001010",
      [.call "f1_1" "PPC_PsqL" [IrValue.register "r3_0", IrValue.imm 0, IrValue.imm 0],
       .ret none]⟩]

/-- The callee may write the first register, as its mask says. -/
def continuedEmission : Emission :=
  planHoisting continuedLoad (fun _ => false) true
    (fun address => if address = 0x80002000 then some 1 else none) [0x80002000] []
    fun _ _ => false

/-- The load after a callee that has set the first register to seven. -/
def afterContinuation : GqrConfig :=
  ⟨1, 0, fun n => if n = 0 then 7 else 0, loadCopies [0] (fun _ => 0) fun _ => 0⟩

theorem continuedEmission_hoisted : continuedEmission.hoisted = [0] := by
  decide +kernel

theorem afterContinuation_reached :
    Relation.ReflTransGen
      (fun c c' => ∃ resumed, GqrStep continuedLoad continuedEmission resumed c c')
      (enterHoisted continuedEmission 0 fun _ => 0) afterContinuation := by
  refine .single ⟨true, ?_⟩
  rw [enterHoisted, continuedEmission_hoisted]
  refine @GqrStep.resume _ _ 0 0 1 0 (.call "" "0x80002000" []) _ _ 0x80001010 rfl rfl
    ?_ ?_ ?_ ?_
  · decide +kernel
  · decide +kernel
  · decide +kernel
  · intro n hkept
    refine if_neg fun hzero => hkept (Or.inr ?_)
    subst hzero
    decide +kernel

/-- The dispatch on the link register leaves the loads behind the call out. -/
theorem not_hoistingCoherent : ¬ HoistingCoherent continuedLoad continuedEmission := by
  intro h
  have hcoherent := h 0 (fun _ => 0) afterContinuation (by decide +kernel)
    afterContinuation_reached
    (.call "f1_1" "PPC_PsqL" [IrValue.register "r3_0", IrValue.imm 0, IrValue.imm 0]) rfl 0
    (by rw [continuedEmission_hoisted]; exact List.mem_singleton_self 0) (by decide +kernel)
  exact absurd hcoherent (by decide +kernel)

end Wiicompiled.CodeGen.CxxLinearCodeGenerator
