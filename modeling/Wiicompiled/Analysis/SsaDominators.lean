import Wiicompiled.Analysis.SsaPureRenaming

/-!
# The dominators of a reachable block

A block without predecessors that is not the entry is set to dominate itself only.  So the set
of a reachable block is right exactly when no path that begins at such a block comes to it
without passing the entry; then the immediate dominator is right as well.
-/

namespace Wiicompiled.Analysis.SsaTransformer

open Ir Dominators

/-! ## The largest candidate -/

section Candidates

variable {function : IrFunction} {entry block : ℕ} {dominators : ℕ → Finset ℕ}

theorem card_le_bestCandidate {cs : List ℕ} {best : ℕ}
    (h : bestCandidate dominators cs = some best) :
    ∀ c ∈ cs, (dominators c).card ≤ (dominators best).card := by
  obtain ⟨step, hstep, hcs⟩ : ∃ step : Option ℕ → ℕ → Option ℕ,
      (∀ best c, step best c = best.elim (some c) fun b =>
        if (dominators b).card < (dominators c).card then some c else some b) ∧
        bestCandidate dominators cs = cs.foldl step none :=
    ⟨_, fun best c => by cases best <;> rfl, rfl⟩
  have hfold : ∀ (cs : List ℕ) (first : Option ℕ), cs.foldl step first = some best →
        (∀ b ∈ first, (dominators b).card ≤ (dominators best).card) ∧
          ∀ c ∈ cs, (dominators c).card ≤ (dominators best).card := by
    intro cs
    induction cs with
    | nil =>
        rintro first rfl
        exact ⟨fun b hb => by rw [Option.some.inj hb], fun c hc => absurd hc List.not_mem_nil⟩
    | cons c cs ih =>
        intro first hfirst
        rw [List.foldl_cons] at hfirst
        obtain ⟨hnext, hrest⟩ := ih _ hfirst
        rcases first with - | b
        · refine ⟨fun b hb => (nomatch hb), fun d hd => ?_⟩
          rcases List.mem_cons.mp hd with rfl | hd
          · exact hnext d (hstep none d)
          · exact hrest d hd
        · rw [hstep, Option.elim_some] at hnext
          by_cases hlt : (dominators b).card < (dominators c).card
          · rw [if_pos hlt] at hnext
            have hc := hnext c rfl
            refine ⟨fun x hx => ?_, fun d hd => ?_⟩
            · rw [← Option.some.inj hx]
              omega
            · rcases List.mem_cons.mp hd with rfl | hd
              · exact hc
              · exact hrest d hd
          · rw [if_neg hlt] at hnext
            have hb := hnext b rfl
            refine ⟨fun x hx => ?_, fun d hd => ?_⟩
            · rw [← Option.some.inj hx]
              exact hb
            · rcases List.mem_cons.mp hd with rfl | hd
              · omega
              · exact hrest d hd
  exact (hfold cs none (hcs ▸ h)).2

end Candidates

/-! ## The immediate dominator -/

/-- A strict dominator that every other strict dominator dominates. -/
def Immediate (function : IrFunction) (entry c block : ℕ) : Prop :=
  Dominates (IrCfg.predecessors function) entry c block ∧ c ≠ block ∧
    ∀ d, Dominates (IrCfg.predecessors function) entry d block → d ≠ block →
      Dominates (IrCfg.predecessors function) entry d c

/-- The dominator set of a block is exact, and its immediate dominator is the only strict
dominator that every other strict dominator dominates. -/
structure RightAt (function : IrFunction) (entry : ℕ) (dominators : ℕ → Finset ℕ) (block : ℕ) :
    Prop where
  exactSet : ∀ d, d ∈ dominators block ↔
    Dominates (IrCfg.predecessors function) entry d block
  immediate : ∀ c, ImmediateDominator function dominators block = some c ↔
    Immediate function entry c block
  isSome : block ≠ entry → (ImmediateDominator function dominators block).isSome

section Immediate

variable {function : IrFunction} {entry block c : ℕ} {dominators : ℕ → Finset ℕ}

theorem Immediate.unique {c' : ℕ} (h : Immediate function entry c block)
    (h' : Immediate function entry c' block) (hblock : Reachable function entry block) : c = c' :=
  (h'.2.2 c h.1 h.2.1).antisymm (h.2.2 c' h'.1 h'.2.1) (h'.1.reachable hblock)

/-- Where the sets of a block and of its dominators are exact, the largest strict dominator is
the immediate one, and the quick test finds it so. -/
theorem immediateDominator_of_exact (hentry : entry < function.blocks.length)
    (hblock : Reachable function entry block)
    (hexact : ∀ e, Dominates (IrCfg.predecessors function) entry e block →
      ∀ d, d ∈ dominators e ↔ Dominates (IrCfg.predecessors function) entry d e)
    (hne : block ≠ entry) :
    ∃ best, ImmediateDominator function dominators block = some best ∧
      Immediate function entry best block := by
  have hdom := hexact block (dominates_self block)
  have hlt : ∀ d, Dominates (IrCfg.predecessors function) entry d block →
      d < function.blocks.length := fun d hd =>
    List.mem_range.mp ((hd.reachable hblock).mem (List.mem_range.mpr hentry)
      fun b p hp => (predecessors_lt b p hp).2)
  have hcandidate : ∀ d, d ∈ candidates function dominators block ↔
      Dominates (IrCfg.predecessors function) entry d block ∧ d ≠ block := fun d => by
    rw [mem_candidates, hdom]
    exact ⟨fun h => h.2, fun h => ⟨hlt d h.1, h⟩⟩
  have hnonempty : candidates function dominators block ≠ [] :=
    List.ne_nil_of_mem ((hcandidate entry).mpr ⟨dominates_root, Ne.symm hne⟩)
  obtain ⟨best, hbest⟩ : ∃ best, bestCandidate dominators (candidates function dominators block) =
      some best := bestCandidate_isSome hnonempty
  obtain ⟨hbestDom, hbestNe⟩ := (hcandidate best).mp (bestCandidate_mem hbest)
  have hmax := card_le_bestCandidate hbest
  -- a candidate that the best one dominates is the best one
  have hsmaller : ∀ d ∈ candidates function dominators block, d ≠ best →
      ¬Dominates (IrCfg.predecessors function) entry best d := by
    intro d hd hdne hbd
    obtain ⟨hdd, -⟩ := (hcandidate d).mp hd
    have hsub : dominators best ⊂ dominators d := by
      refine Finset.ssubset_iff_of_subset (fun x hx => ?_) |>.mpr ⟨d, ?_, fun hmem => ?_⟩
      · exact (hexact d hdd x).mpr (((hexact best hbestDom x).mp hx).trans hbd)
      · exact (hexact d hdd d).mpr (dominates_self d)
      · exact hdne (((hexact best hbestDom d).mp hmem).antisymm hbd
          (hbestDom.reachable hblock))
    have hcard := Finset.card_lt_card hsub
    have hle := hmax d hd
    omega
  have himmediate : Immediate function entry best block := by
    refine ⟨hbestDom, hbestNe, fun d hd hdne => ?_⟩
    by_cases heq : d = best
    · rw [heq]
      exact dominates_self best
    · exact (hd.total hbestDom hblock).resolve_right
        (hsmaller d ((hcandidate d).mpr ⟨hd, hdne⟩) heq)
  refine ⟨best, ?_, himmediate⟩
  have hquick : IsImmediateDominator dominators block (candidates function dominators block) best =
      true := by
    rw [IsImmediateDominator, Bool.and_eq_true, decide_eq_true_iff, List.all_eq_true]
    refine ⟨Finset.ext fun d => ?_, fun d hd => ?_⟩
    · rw [Finset.mem_erase, hdom, hexact best hbestDom]
      refine ⟨fun h => himmediate.2.2 d h.2 h.1, fun h => ⟨fun heq => ?_, h.trans hbestDom⟩⟩
      rw [heq] at h
      exact hbestNe (hbestDom.antisymm h hblock)
    · by_cases heq : d = best
      · rw [heq, decide_eq_true rfl, Bool.true_or]
      · have hnot : best ∉ dominators d := fun hmem =>
          hsmaller d hd heq ((hexact d ((hcandidate d).mp hd).1 best).mp hmem)
        rw [decide_eq_true hnot, Bool.or_true]
  rw [ImmediateDominator]
  simp only [hbest]
  exact if_pos hquick

/-- The dominators of a reachable block are right exactly when every path to it from a block
without predecessors passes the entry. -/
theorem computeDominators_right_iff (hentry : entry < function.blocks.length) :
    ∃ dominators, ComputeDominators function entry = some dominators ∧
      ∀ block, Reachable function entry block →
        (RightAt function entry dominators block ↔
          Sealed (IrCfg.predecessors function) entry block) := by
  obtain ⟨dominators, hdominators⟩ := exists_computeDominators hentry
  have hmem : entry ∈ ordinals function := List.mem_range.mpr hentry
  refine ⟨dominators, hdominators, fun block hblock => ⟨fun hright => ?_, fun hsealed => ?_⟩⟩
  · exact (solution_iff_sealed hmem predecessors_lt hdominators hblock).mp hright.exactSet
  have hexact : ∀ e, Dominates (IrCfg.predecessors function) entry e block →
      ∀ d, d ∈ dominators e ↔ Dominates (IrCfg.predecessors function) entry d e := fun e he =>
    (solution_iff_sealed hmem predecessors_lt hdominators (he.reachable hblock)).mpr
      (hsealed.of_dominates he hblock)
  refine ⟨hexact block (dominates_self block), fun c => ?_, fun hne => ?_⟩
  · by_cases hne : block = entry
    · rw [hne, immediateDominator_entry hdominators]
      refine iff_of_false (fun h => nomatch h) fun h => h.2.1 (eq_of_dominates_entry h.1)
    · obtain ⟨best, hbest, himmediate⟩ := immediateDominator_of_exact hentry hblock hexact hne
      rw [hbest]
      constructor
      · rintro h
        rwa [← Option.some.inj h]
      · exact fun h => congrArg some (himmediate.unique h hblock)
  · obtain ⟨best, hbest, -⟩ := immediateDominator_of_exact hentry hblock hexact hne
    rw [hbest]
    rfl

end Immediate

/-- A block that nothing leads to jumps to where the entry jumps. -/
def strayJump : IrFunction where
  name := "stray"
  entryLabel := "A"
  blocks := [⟨"A", [.jump "C"]⟩, ⟨"B", [.jump "C"]⟩, ⟨"C", [.ret none]⟩]

theorem computeDominators_right_entry :
    ∃ dominators, ComputeDominators strayJump 0 = some dominators ∧
      RightAt strayJump 0 dominators 0 := by
  obtain ⟨dominators, hdominators, hiff⟩ :=
    computeDominators_right_iff (show 0 < strayJump.blocks.length by decide)
  exact ⟨dominators, hdominators, (hiff 0 reachable_entry).mpr fun w _ => List.mem_cons_self⟩

/-- The entry is not among the dominators of the block that both jump to. -/
theorem computeDominators_wrong_stray :
    ∃ dominators, ComputeDominators strayJump 0 = some dominators ∧
      Reachable strayJump 0 2 ∧ ¬RightAt strayJump 0 dominators 2 := by
  obtain ⟨dominators, hdominators, hnot⟩ := Option.map_eq_some_iff.mp
    (show (ComputeDominators strayJump 0).map (fun dominators => decide (0 ∈ dominators 2)) =
      some false by decide +kernel)
  refine ⟨dominators, hdominators, ⟨[0], .step .start (by decide +kernel)⟩, fun hright => ?_⟩
  exact of_decide_eq_false hnot ((hright.exactSet 0).mpr dominates_root)

end Wiicompiled.Analysis.SsaTransformer
