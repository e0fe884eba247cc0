import Wiicompiled.Analysis.SsaDominators

/-!
# Dominance frontiers

`ComputeDominanceFrontier` climbs the dominator tree from each predecessor of a join until it
meets a strict dominator of the join.  Where every block that leads anywhere can be reached,
the climbs end and find the frontiers; two unreachable blocks that lead to each other can be
each other's immediate dominator, and a climb from them to a reachable join does not end.
-/

namespace Wiicompiled.Analysis.SsaTransformer

open Ir Dominators

/-! ## The climbs -/

/-- The blocks that the runner passes, from one predecessor of the block. -/
def climb (function : IrFunction) (dominators : ℕ → Finset ℕ) (block : ℕ) :
    ℕ → ℕ → Option (List ℕ)
  | 0, _ => none
  | fuel + 1, runner =>
      if runner ∈ dominators block ∧ runner ≠ block then some []
      else
        match ImmediateDominator function dominators runner with
        | none => some [runner]
        | some immediateRunner =>
            if immediateRunner = runner then some [runner]
            else (climb function dominators block fuel immediateRunner).map (runner :: ·)

/-- The blocks whose frontier gets the block. -/
def climbs (function : IrFunction) (dominators : ℕ → Finset ℕ) (block : ℕ) :
    Option (List ℕ) :=
  let preds := IrCfg.predecessors function block
  if preds.length < 2 then some []
  else
    (preds.mapM (climb function dominators block (function.blocks.length + 1))).map
      List.flatten

def ComputeDominanceFrontier (function : IrFunction) (dominators : ℕ → Finset ℕ) :
    Option (DominanceFrontier function) :=
  ((ordinals function).mapM (climbs function dominators)).map fun found =>
    { blocks := fun x => (ordinals function).filter fun y => x ∈ found.getD y []
      isBlock := fun _ _ hy => List.mem_range.mp (List.mem_of_mem_filter hy) }

/-- The block dominates a predecessor of the other one, which it does not dominate strictly. -/
def InFrontier (function : IrFunction) (entry x y : ℕ) : Prop :=
  ∃ p ∈ IrCfg.predecessors function y, Dominates (IrCfg.predecessors function) entry x p ∧
    (Dominates (IrCfg.predecessors function) entry x y → x = y)

variable {function : IrFunction} {entry x y : ℕ} {dominators : ℕ → Finset ℕ}

/-- The runner passes the dominators of its start up to the first strict one of the block. -/
theorem exists_climb (hdominators : ComputeDominators function entry = some dominators)
    (hentry : entry < function.blocks.length)
    (hexact : ∀ b, Reachable function entry b → ∀ d, d ∈ dominators b ↔
      Dominates (IrCfg.predecessors function) entry d b)
    (hy : Reachable function entry y) {fuel runner : ℕ}
    (hrunner : Reachable function entry runner) (hfuel : (dominators runner).card < fuel) :
    ∃ passed, climb function dominators y fuel runner = some passed ∧
      ∀ x, x ∈ passed ↔ Dominates (IrCfg.predecessors function) entry x runner ∧
        (Dominates (IrCfg.predecessors function) entry x y → x = y) := by
  induction fuel generalizing runner with
  | zero => exact absurd hfuel (Nat.not_lt_zero _)
  | succ fuel ih =>
      rw [climb]
      by_cases hstop : runner ∈ dominators y ∧ runner ≠ y
      · rw [if_pos hstop]
        have hdom := (hexact y hy runner).mp hstop.1
        refine ⟨[], rfl, fun x => iff_of_false List.not_mem_nil fun ⟨hx, hstrict⟩ => hstop.2 ?_⟩
        obtain rfl := hstrict (hx.trans hdom)
        exact hdom.antisymm hx hy
      · rw [if_neg hstop]
        have hself : Dominates (IrCfg.predecessors function) entry runner y → runner = y :=
          fun hdom => by
            by_contra hne
            exact hstop ⟨(hexact y hy runner).mpr hdom, hne⟩
        by_cases hroot : runner = entry
        · subst hroot
          rw [immediateDominator_entry hdominators]
          refine ⟨[runner], rfl, fun x => ?_⟩
          rw [List.mem_singleton]
          refine ⟨?_, fun hx => eq_of_dominates_entry hx.1⟩
          rintro rfl
          exact ⟨dominates_self x, hself⟩
        · obtain ⟨next, hnext, hdom, hne, hstrict⟩ := immediateDominator_of_exact hentry hrunner
            (fun e he => hexact e (he.reachable hrunner)) hroot
          rw [hnext]
          dsimp only
          rw [if_neg hne]
          have hcard := card_lt_card hexact hrunner ((hexact runner hrunner next).mpr hdom) hne
          obtain ⟨passed, hpassed, hmem⟩ := ih (hdom.reachable hrunner) (by omega)
          refine ⟨runner :: passed, by rw [hpassed, Option.map_some], fun x => ?_⟩
          rw [List.mem_cons, hmem]
          constructor
          · rintro (rfl | ⟨hx, hy⟩)
            · exact ⟨dominates_self x, hself⟩
            · exact ⟨hx.trans hdom, hy⟩
          · rintro ⟨hx, hy⟩
            by_cases heq : x = runner
            · exact Or.inl heq
            · exact Or.inr ⟨hstrict x hx heq, hy⟩

theorem reachable_of_mem {b p : ℕ} (hp : p ∈ IrCfg.predecessors function b)
    (h : Reachable function entry p) : Reachable function entry b := by
  obtain ⟨w, hw⟩ := h
  exact ⟨p :: w, hw.step hp⟩

theorem InFrontier.two_le (h : InFrontier function entry x y) (hy : Reachable function entry y)
    (hne : y ≠ entry) : 2 ≤ (IrCfg.predecessors function y).length := by
  obtain ⟨p, hp, hxp, hstrict⟩ := h
  by_contra hlt
  have hall : ∀ q ∈ IrCfg.predecessors function y, q = p := by
    obtain ⟨q, hq⟩ := List.length_eq_one_iff.mp
      (show (IrCfg.predecessors function y).length = 1 by
        have := List.length_pos_of_mem hp
        omega)
    simp only [hq, List.mem_singleton] at hp ⊢
    rintro _ rfl
    exact hp.symm
  have hpy : Dominates (IrCfg.predecessors function) entry p y := by
    rintro w hw
    rcases hw with - | ⟨-, hq⟩
    · exact absurd rfl hne
    · rw [← hall _ hq]
      exact List.mem_cons_of_mem _ List.mem_cons_self
  obtain rfl := hstrict (hxp.trans hpy)
  obtain rfl := hpy.antisymm hxp hy
  -- a block that only follows itself cannot be reached
  have hnone : ∀ w, ¬ Dominators.Walk (IrCfg.predecessors function) entry (p :: w) := by
    intro w
    induction w with
    | nil =>
        rintro ⟨⟩
        exact hne rfl
    | cons q w ih =>
        rintro (- | ⟨hw, hq⟩)
        exact ih (hall q hq ▸ hw)
  obtain ⟨w, hw⟩ := hy
  exact hnone w hw

theorem exists_climbs (hdominators : ComputeDominators function entry = some dominators)
    (hentry : entry < function.blocks.length)
    (hexact : ∀ b, Reachable function entry b → ∀ d, d ∈ dominators b ↔
      Dominates (IrCfg.predecessors function) entry d b)
    (hleads : ∀ p ∈ IrCfg.predecessors function y, Reachable function entry p) :
    ∃ passed, climbs function dominators y = some passed ∧
      ∀ x, x ∈ passed ↔ 2 ≤ (IrCfg.predecessors function y).length ∧
        InFrontier function entry x y := by
  rw [climbs]
  by_cases hfew : (IrCfg.predecessors function y).length < 2
  · refine ⟨[], if_pos hfew, fun x => iff_of_false List.not_mem_nil fun h => ?_⟩
    exact absurd h.1 (Nat.not_le.mpr hfew)
  have hcard : ∀ b, Reachable function entry b →
      (dominators b).card < function.blocks.length + 1 := by
    intro b hb
    rw [Nat.lt_succ_iff, ← Finset.card_range function.blocks.length]
    refine Finset.card_le_card fun d hd => Finset.mem_range.mpr (List.mem_range.mp ?_)
    exact (((hexact b hb d).mp hd).reachable hb).mem (List.mem_range.mpr hentry)
      fun b p hp => (predecessors_lt b p hp).2
  have hclimb : ∀ p ∈ IrCfg.predecessors function y, _ := fun p hp =>
    exists_climb hdominators hentry hexact (reachable_of_mem hp (hleads p hp)) (hleads p hp)
      (hcard p (hleads p hp))
  obtain ⟨passed, hpassed⟩ := PartialMaps.exists_mapM fun p hp =>
    (hclimb p hp).imp fun _ h => h.1
  refine ⟨passed.flatten, ?_, fun x => ?_⟩
  · simp only [if_neg hfew, hpassed, Option.map_some]
  rw [List.mem_flatten]
  constructor
  · rintro ⟨part, hpart, hx⟩
    obtain ⟨p, hp, hsome⟩ := PartialMaps.mem_of_mapM hpassed hpart
    obtain ⟨part', hpart', hiff⟩ := hclimb p hp
    obtain rfl := Option.some.inj (hpart'.symm.trans hsome)
    exact ⟨Nat.not_lt.mp hfew, p, hp, (hiff x).mp hx⟩
  · rintro ⟨-, p, hp, hx⟩
    obtain ⟨part, hpart, hsome⟩ := PartialMaps.exists_of_mem_mapM hpassed hp
    obtain ⟨part', hpart', hiff⟩ := hclimb p hp
    obtain rfl := Option.some.inj (hpart'.symm.trans hsome)
    exact ⟨_, hpart, (hiff x).mpr hx⟩

/-- Where every block that leads anywhere can be reached, the climbs end, and the frontier of a
block has exactly the blocks with a predecessor that it dominates, unless it dominates them
strictly; but the entry is in a frontier only if it has two predecessors. -/
theorem computeDominanceFrontier_iff (hentry : entry < function.blocks.length)
    (hleads : ∀ b, ∀ p ∈ IrCfg.predecessors function b, Reachable function entry p) :
    ∃ dominators frontier, ComputeDominators function entry = some dominators ∧
      ComputeDominanceFrontier function dominators = some frontier ∧
      ∀ x y, y ∈ frontier.blocks x ↔
        (y = entry → 2 ≤ (IrCfg.predecessors function y).length) ∧
          InFrontier function entry x y := by
  obtain ⟨dominators, hdominators⟩ := exists_computeDominators hentry
  have hexact : ∀ b, Reachable function entry b → ∀ d, d ∈ dominators b ↔
      Dominates (IrCfg.predecessors function) entry d b := fun b hb d =>
    mem_solution_iff (List.mem_range.mpr hentry) predecessors_lt (fun b _ => hleads b)
      hdominators hb
  have hclimbs := fun y => exists_climbs hdominators hentry hexact (hleads y)
  obtain ⟨found, hfound⟩ := PartialMaps.exists_mapM
    fun y (_ : y ∈ ordinals function) => (hclimbs y).imp fun _ h => h.1
  refine ⟨dominators, _, hdominators, by rw [ComputeDominanceFrontier, hfound, Option.map_some],
    fun x y => ?_⟩
  have hall := PartialMaps.forall₂_of_mapM hfound
  dsimp only
  rw [List.mem_filter, decide_eq_true_eq, ordinals, List.mem_range]
  by_cases hy : y < function.blocks.length
  · have hlength := hall.length_eq
    rw [ordinals, List.length_range] at hlength
    have hget := hall.get (i := y) (by rwa [ordinals, List.length_range]) (hlength ▸ hy)
    obtain ⟨passed, hpassed, hiff⟩ := hclimbs y
    simp only [ordinals, List.get_eq_getElem, List.getElem_range, hpassed, Option.some.injEq]
      at hget
    rw [List.getD_eq_getElem?_getD, List.getElem?_eq_getElem (hlength ▸ hy), ← hget,
      Option.getD_some, hiff]
    refine ⟨fun h => ⟨fun _ => h.2.1, h.2.2⟩, fun h => ⟨hy, ?_, h.2⟩⟩
    by_cases hne : y = entry
    · exact h.1 hne
    · obtain ⟨p, hp, -⟩ := h.2
      exact h.2.two_le (reachable_of_mem hp (hleads y p hp)) hne
  · refine iff_of_false (fun h => hy h.1) fun h => hy ?_
    obtain ⟨p, hp, -⟩ := h.2
    exact List.mem_range.mp (predecessors_lt y p hp).2

/-- In a diamond, every block can be reached. -/
theorem computeDominanceFrontier_diamond :
    ∃ dominators frontier, ComputeDominators diamond 0 = some dominators ∧
      ComputeDominanceFrontier diamond dominators = some frontier ∧
      ∀ x y, y ∈ frontier.blocks x ↔
        (y = 0 → 2 ≤ (IrCfg.predecessors diamond y).length) ∧ InFrontier diamond 0 x y := by
  refine computeDominanceFrontier_iff (by decide) fun b p hp => ?_
  have hstart : Reachable diamond 0 0 := reachable_entry
  have hleft : Reachable diamond 0 1 := reachable_of_mem (by decide +kernel) hstart
  have hright : Reachable diamond 0 2 := reachable_of_mem (by decide +kernel) hstart
  have hjoin : Reachable diamond 0 3 := reachable_of_mem (by decide +kernel) hleft
  have hlt : p < 4 := List.mem_range.mp (predecessors_lt b p hp).1
  match p, hlt with
  | 0, _ => exact hstart
  | 1, _ => exact hleft
  | 2, _ => exact hright
  | 3, _ => exact hjoin

/-- Two blocks after a jump over them, which lead to each other and to the last block. -/
def strandedLoop : IrFunction where
  name := "stranded"
  entryLabel := "A"
  blocks :=
    [⟨"A", [.jump "D"]⟩, ⟨"B", [.branch "eq" "C" "D" "cr0"]⟩, ⟨"C", [.jump "B"]⟩,
      ⟨"D", [.ret none]⟩]

/-- A climb to the last block from one of them does not end. -/
theorem climb_strandedLoop :
    ∃ dominators, ComputeDominators strandedLoop 0 = some dominators ∧
      ∀ fuel, climb strandedLoop dominators 3 fuel 1 = none := by
  have hfacts : (ComputeDominators strandedLoop 0).map (fun d => (decide (1 ∈ d 3 ∨ 2 ∈ d 3),
      ImmediateDominator strandedLoop d 1, ImmediateDominator strandedLoop d 2)) =
      some (false, some 2, some 1) := by
    decide +kernel
  obtain ⟨dominators, hdominators, h⟩ := Option.map_eq_some_iff.mp hfacts
  simp only [Prod.mk.injEq, decide_eq_false_iff_not, not_or] at h
  refine ⟨dominators, hdominators, fun fuel => ?_⟩
  suffices hboth : climb strandedLoop dominators 3 fuel 1 = none ∧
      climb strandedLoop dominators 3 fuel 2 = none from hboth.1
  induction fuel with
  | zero => exact ⟨rfl, rfl⟩
  | succ fuel ih => simp [climb, h, ih]

/-! ## Phis on the iterated frontier -/

def IteratedFrontier (frontier : ℕ → List ℕ) (defBlocks : List ℕ) (y : ℕ) : Prop :=
  ∃ d ∈ defBlocks, Relation.TransGen (fun x y => y ∈ frontier x) d y

theorem placePhis_closed {frontier : ℕ → List ℕ} {defBlocks placed : List ℕ} {fuel : ℕ}
    {worklist already : List ℕ}
    (h : placePhis frontier defBlocks fuel worklist already = some placed)
    (hreach : ∀ y ∈ already, IteratedFrontier frontier defBlocks y)
    (hwork : ∀ x ∈ worklist, x ∈ defBlocks ∨ x ∈ already)
    (hclosed : ∀ x, x ∈ defBlocks ∨ x ∈ already →
      x ∈ worklist ∨ ∀ y ∈ frontier x, y ∈ already) :
    (∀ y ∈ placed, IteratedFrontier frontier defBlocks y) ∧
      ∀ x, x ∈ defBlocks ∨ x ∈ placed → ∀ y ∈ frontier x, y ∈ placed := by
  induction fuel generalizing worklist already with
  | zero =>
      rcases worklist with - | ⟨x, worklist⟩ <;> rw [placePhis] at h <;> cases h
      exact ⟨hreach, fun x hx => (hclosed x hx).resolve_left List.not_mem_nil⟩
  | succ fuel ih =>
      rcases worklist with - | ⟨x, worklist⟩
      · rw [placePhis] at h
        cases h
        exact ⟨hreach, fun x hx => (hclosed x hx).resolve_left List.not_mem_nil⟩
      rw [placePhis] at h
      generalize hadded : ((frontier x).filter fun y => y ∉ already).dedup = added at h
      have hmem : ∀ y, y ∈ added ↔ y ∈ frontier x ∧ y ∉ already := fun y => by
        rw [← hadded, List.mem_dedup, List.mem_filter, decide_eq_true_eq]
      refine ih h (fun y hy => ?_) (fun y hy => ?_) fun y hy => ?_
      · rcases List.mem_append.mp hy with hy | hy
        · exact hreach y hy
        have hxy := ((hmem y).mp hy).1
        rcases hwork x List.mem_cons_self with hx | hx
        · exact ⟨x, hx, .single hxy⟩
        · obtain ⟨d, hd, hdx⟩ := hreach x hx
          exact ⟨d, hd, hdx.tail hxy⟩
      · have := hwork y
        simp only [List.mem_append, List.mem_filter, List.mem_cons] at hy this ⊢
        tauto
      · have hold := hclosed y
        have hnew := hmem y
        simp only [List.mem_append, List.mem_filter, List.mem_cons, decide_eq_true_eq] at hy hold ⊢
        by_cases hyx : y = x
        · subst hyx
          exact Or.inr fun z hz => by
            rw [hmem]
            tauto
        · grind

/-- Whatever the frontiers are, the blocks that get a variable's phi are those that frontiers
lead to from its definitions. -/
theorem placements_iteratedFrontier (frontier : DominanceFrontier function) :
    ∃ placed, placements function frontier = some placed ∧
      List.Forall₂ (fun site phis => phis.1 = site.1 ∧
        ∀ y, y ∈ phis.2 ↔ IteratedFrontier frontier.blocks site.2 y) (defSites function) placed := by
  obtain ⟨_, hphis⟩ := exists_insertPhiNodes function frontier
  obtain ⟨placed, hplaced, -⟩ := Option.map_eq_some_iff.mp hphis
  refine ⟨placed, hplaced, (PartialMaps.forall₂_of_mapM hplaced).imp fun site phis h => ?_⟩
  obtain ⟨blocks, hblocks, rfl⟩ := Option.map_eq_some_iff.mp h
  obtain ⟨hreach, hclosed⟩ := placePhis_closed hblocks (by simp) (fun _ => Or.inl)
    fun x hx => Or.inl (hx.resolve_right List.not_mem_nil)
  refine ⟨rfl, fun y => ⟨hreach y, ?_⟩⟩
  rintro ⟨d, hd, hdy⟩
  induction hdy with
  | single hy => exact hclosed d (Or.inl hd) _ hy
  | tail _ hy ih => exact hclosed _ (Or.inr ih) _ hy

end Wiicompiled.Analysis.SsaTransformer
