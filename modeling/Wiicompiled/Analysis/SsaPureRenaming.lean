import Mathlib.Algebra.Group.Action.Defs
import Wiicompiled.Analysis.SsaConversion
import Wiicompiled.Support.PartialMaps

/-!
# The result of the conversion

Placing phis ends, the dominators are found, and the walk renames every block below the
entry in the dominator tree.  The result is the original function up to phis and versions,
and no two instructions of renamed blocks define the same version.
-/

namespace Wiicompiled.Analysis.SsaTransformer

open Ir

/-! ## Turns -/

section Turns

variable {stable : Prop} {function withPhis : IrFunction} {entry : ℕ} {idom : ℕ → Option ℕ}
  {walk : Walk} {defined implicit : List String}

def leaves (work : List Frame) : ℕ :=
  work.countP fun frame =>
    match frame with
    | .visit _ => false
    | .leave .. => true

/-- Every block can still be visited and left once. -/
def turnsLeft (function : IrFunction) (walk : Walk) : ℕ :=
  2 * (function.blocks.length - walk.renamed.length) + leaves walk.work

theorem leaves_visited {block : ℕ} (blocks : List ℕ) (pops : List (String × String))
    (work : List Frame) :
    leaves (blocks.map Frame.visit ++ .leave block pops :: work) = leaves work + 1 := by
  induction blocks with
  | nil => simp [leaves]
  | cons b blocks ih => exact ih

theorem TreeWalk.length_le (h : TreeWalk function entry idom walk) :
    (visits walk.work).length + walk.renamed.length ≤ function.blocks.length := by
  rw [← List.length_append, ← List.length_range (n := function.blocks.length)]
  exact (h.nodup.subperm fun b hb => List.mem_range.mpr (h.bounded b hb)).length_le

theorem exists_step (hstable : stable) (h : Converting stable withPhis walk defined implicit)
    (htree : TreeWalk function entry idom walk)
    (hwork : walk.work ≠ []) :
    ∃ walk', step function entry idom walk = some walk' ∧
      turnsLeft function walk' < turnsLeft function walk := by
  have hlength := htree.length_le
  rcases heq : walk.work with - | ⟨⟨block⟩ | ⟨block, pops⟩, work⟩
  · exact absurd heq hwork
  · have hfresh := htree.fresh heq
    have hactive : block ∉ walk.active := fun hb => hfresh (htree.active block hb)
    refine ⟨_, visit_eq heq hactive, ?_⟩
    rw [heq] at hlength
    simp only [visits, List.filterMap_cons, List.length_cons] at hlength
    simp only [turnsLeft, leaves_visited, List.length_cons, heq]
    have hvisit : leaves (.visit block :: work) = leaves work := by simp [leaves]
    omega
  · obtain ⟨versions, hpop⟩ := exists_popVersions hstable (h.pops_tracked heq)
    refine ⟨_, by rw [leave_eq heq, hpop, Option.map_some], ?_⟩
    have hleave : leaves (.leave block pops :: work) = leaves work + 1 := by simp [leaves]
    simp only [turnsLeft, heq, hleave]
    omega

theorem exists_run (hstable : stable) {fuel : ℕ}
    (h : Converting stable withPhis walk defined implicit)
    (htree : TreeWalk function entry idom walk) (hroot : idom entry = none)
    (hlen : withPhis.blocks.length = function.blocks.length)
    (hfuel : turnsLeft function walk ≤ fuel) :
    ∃ walk', run function entry idom fuel walk = some walk' := by
  induction fuel generalizing walk defined implicit with
  | zero =>
      rw [run]
      by_cases hempty : walk.work.isEmpty = true
      · exact ⟨walk, if_pos hempty⟩
      · obtain ⟨walk', -, hlt⟩ := exists_step hstable h htree
          (fun hnil => hempty (List.isEmpty_iff.mpr hnil))
        omega
  | succ fuel ih =>
      rw [run]
      by_cases hempty : walk.work.isEmpty = true
      · exact ⟨walk, if_pos hempty⟩
      · obtain ⟨next, hstep, hlt⟩ := exists_step hstable h htree
          (fun hnil => hempty (List.isEmpty_iff.mpr hnil))
        obtain ⟨htree', defined', implicit', h'⟩ := converting_step h htree hroot hlen hstep
        rw [if_neg hempty, hstep, Option.bind_some]
        exact ih h' htree' (by omega)

end Turns

/-! ## Phis -/

section Phis

variable {function : IrFunction} {frontier : DominanceFrontier function}

theorem exists_placePhis {defBlocks : List ℕ} {fuel : ℕ} {worklist already : List ℕ}
    (hnodup : already.Nodup) (hbound : ∀ y ∈ already, y < function.blocks.length)
    (hfuel : worklist.length + (function.blocks.length - already.length) ≤ fuel) :
    ∃ placed, placePhis frontier.blocks defBlocks fuel worklist already = some placed := by
  induction fuel generalizing worklist already with
  | zero =>
      rcases worklist with - | ⟨x, worklist⟩
      · exact ⟨already, by rw [placePhis]⟩
      · rw [List.length_cons] at hfuel
        omega
  | succ fuel ih =>
      rcases worklist with - | ⟨x, worklist⟩
      · exact ⟨already, by rw [placePhis]⟩
      · rw [placePhis]
        generalize hadded : ((frontier.blocks x).filter fun y => y ∉ already).dedup = added
        have hmem : ∀ y ∈ added, y ∈ frontier.blocks x ∧ y ∉ already := by
          intro y hy
          rw [← hadded, List.mem_dedup, List.mem_filter, decide_eq_true_eq] at hy
          exact hy
        have hnodup' : (already ++ added).Nodup := by
          rw [List.nodup_append]
          refine ⟨hnodup, hadded ▸ List.nodup_dedup _, ?_⟩
          rintro y hy _ hy' rfl
          exact (hmem y hy').2 hy
        have hbound' : ∀ y ∈ already ++ added, y < function.blocks.length := by
          intro y hy
          rcases List.mem_append.mp hy with hy | hy
          · exact hbound y hy
          · exact frontier.isBlock x y (hmem y hy).1
        have hle : (already ++ added).length ≤ function.blocks.length := by
          rw [← List.length_range (n := function.blocks.length)]
          exact (hnodup'.subperm fun y hy => List.mem_range.mpr (hbound' y hy)).length_le
        refine ih hnodup' hbound' ?_
        have hfilter := List.length_filter_le (fun y => decide (y ∉ defBlocks)) added
        rw [List.length_append] at hle ⊢
        rw [List.length_append]
        rw [List.length_cons] at hfuel
        omega

theorem exists_insertPhiNodes (function : IrFunction) (frontier : DominanceFrontier function) :
    ∃ withPhis, InsertPhiNodes function frontier = some withPhis := by
  have hplaced : ∃ placed, placements function frontier = some placed := by
    refine PartialMaps.exists_mapM fun site _ => ?_
    have hplace : ∃ placed, placePhis frontier.blocks site.2
        (site.2.length + function.blocks.length) site.2 [] = some placed :=
      exists_placePhis List.nodup_nil (by simp) (by simp)
    obtain ⟨placed, hplaced⟩ := hplace
    exact ⟨_, by rw [hplaced, Option.map_some]⟩
  obtain ⟨placed, hplaced⟩ := hplaced
  exact ⟨_, by rw [InsertPhiNodes, hplaced, Option.map_some]⟩

/-- The variables that get phis are bases of destinations. -/
def DefinedBase (function : IrFunction) (name : String) : Prop :=
  ∃ b, ∃ i ∈ (function.blockAt b).instructions, ∃ destination ∈ destinationOf i,
    name = Base destination

theorem addSite_names {P : String → Prop} {block : ℕ} {name : String} (hname : P name)
    {sites : DefSites} (h : ∀ site ∈ sites, P site.1) :
    ∀ site ∈ addSite block sites name, P site.1 := by
  rw [addSite]
  by_cases hany : (sites.any fun site => folded site.1 = folded name) = true
  · rw [if_pos hany]
    intro site hsite
    obtain ⟨old, hold, rfl⟩ := List.mem_map.mp hsite
    by_cases hkey : folded old.1 = folded name ∧ block ∉ old.2
    · rw [if_pos hkey]
      exact h old hold
    · rw [if_neg hkey]
      exact h old hold
  · rw [if_neg hany]
    intro site hsite
    rcases List.mem_append.mp hsite with hold | hnew
    · exact h site hold
    · rw [List.mem_singleton] at hnew
      rw [hnew]
      exact hname

theorem foldl_keeps {α β : Type} {P : α → Prop} {f : α → β → α} {bs : List β}
    (hf : ∀ a, P a → ∀ b ∈ bs, P (f a b)) {a : α} (ha : P a) : P (bs.foldl f a) := by
  induction bs generalizing a with
  | nil => exact ha
  | cons b bs ih =>
      exact ih (fun a ha b' hb' => hf a ha b' (List.mem_cons_of_mem b hb'))
        (hf a ha b List.mem_cons_self)

theorem defSites_names (function : IrFunction) :
    ∀ site ∈ defSites function, DefinedBase function site.1 := by
  refine foldl_keeps (P := fun sites : DefSites => ∀ site ∈ sites, DefinedBase function site.1)
    ?_ (by simp)
  intro sites hsites b _
  refine foldl_keeps (P := fun sites : DefSites => ∀ site ∈ sites, DefinedBase function site.1)
    ?_ hsites
  intro sites hsites name hname
  refine addSite_names ?_ hsites
  obtain ⟨i, hi, hbase⟩ := List.mem_filterMap.mp (List.mem_filter.mp hname).1
  obtain ⟨destination, hdest, heq⟩ := Option.map_eq_some_iff.mp hbase
  exact ⟨b, i, hi, destination, hdest, heq.symm⟩

/-- The phis that are inserted name bases of destinations and have no sources yet. -/
structure Inserted (function withPhis : IrFunction) : Prop where
  name : withPhis.name = function.name
  entryLabel : withPhis.entryLabel = function.entryLabel
  labels : withPhis.blocks.map IrBasicBlock.label = function.blocks.map IrBasicBlock.label
  instructions : ∀ b, ∃ phis, (withPhis.blockAt b).instructions =
      phis ++ (function.blockAt b).instructions ∧
    ∀ i ∈ phis, ∃ name, i = .phi name ⟨[], List.nodup_nil⟩ ∧ DefinedBase function name

theorem inserted_insertPhiNodes {withPhis : IrFunction}
    (h : InsertPhiNodes function frontier = some withPhis) : Inserted function withPhis := by
  obtain ⟨placed, hplaced, rfl⟩ := Option.map_eq_some_iff.mp h
  refine ⟨rfl, rfl, ?_, fun b => ?_⟩
  · exact List.ext_getElem (by simp) (by simp)
  by_cases hlt : b < function.blocks.length
  · refine ⟨phisAt placed b, by simp [IrFunction.blockAt, hlt], ?_⟩
    intro i hi
    obtain ⟨site, hsite, rfl⟩ := List.mem_map.mp hi
    have hmem := (List.mem_filter.mp (List.mem_reverse.mp hsite)).1
    obtain ⟨original, horiginal, hmap⟩ := PartialMaps.mem_of_mapM hplaced hmem
    obtain ⟨blocks, -, rfl⟩ := Option.map_eq_some_iff.mp hmap
    exact ⟨_, rfl, defSites_names function original horiginal⟩
  · refine ⟨[], ?_, by simp⟩
    simp [IrFunction.blockAt, List.getElem?_eq_none (Nat.le_of_not_lt hlt)]

end Phis

/-! ## The dominator tree -/

section Tree

variable {function : IrFunction} {entry : ℕ} {dominators : ℕ → Finset ℕ}

def Reachable (function : IrFunction) (entry block : ℕ) : Prop :=
  Dominators.Reachable (IrCfg.predecessors function) entry block

/-- No unreachable block leads to a reachable one. -/
def ReachablePredecessors (function : IrFunction) (entry : ℕ) : Prop :=
  ∀ b, Reachable function entry b →
    ∀ p ∈ IrCfg.predecessors function b, Reachable function entry p

theorem lt_of_mem_successors_right {s b : ℕ} (h : s ∈ IrCfg.successors function b) :
    s < function.blocks.length := by
  have htarget : ∀ labels : List String, s ∈ labels.filterMap (IrCfg.ordinal function) →
      s < function.blocks.length := by
    intro labels hs
    obtain ⟨label, -, hlabel⟩ := List.mem_filterMap.mp hs
    exact IrCfg.ordinal_lt hlabel
  rw [IrCfg.successors] at h
  split at h
  · cases h
  · exact htarget _ (List.mem_eraseDups.mp h)
  · split_ifs at h with htransfers hstops hnext
    · exact htarget _ h
    · cases h
    · rw [List.mem_singleton.mp h]
      exact hnext
    · cases h

theorem predecessors_lt (b : ℕ) : ∀ p ∈ IrCfg.predecessors function b,
    p ∈ ordinals function ∧ b ∈ ordinals function := by
  intro p hp
  have hs := IrCfg.mem_predecessors.mp hp
  exact ⟨List.mem_range.mpr (IrCfg.lt_of_mem_successors hs),
    List.mem_range.mpr (lt_of_mem_successors_right hs)⟩

theorem exists_computeDominators (hentry : entry < function.blocks.length) :
    ∃ dominators, ComputeDominators function entry = some dominators := by
  have hmem : entry ∈ ordinals function := List.mem_range.mpr hentry
  refine Dominators.exists_solve
    (Dominators.descending_top hmem fun b p hp => (predecessors_lt b p hp).1) ?_
  have hcard : ∀ b ∈ (ordinals function).toFinset,
      (Dominators.top entry (ordinals function) b).card ≤ function.blocks.length := by
    intro b hb
    rw [Dominators.top]
    by_cases heq : b = entry
    · rw [if_pos heq, Finset.card_singleton]
      omega
    · rw [if_neg heq, Finset.insert_eq_self.mpr hb]
      refine (List.toFinset_card_le _).trans ?_
      rw [ordinals, List.length_range]
  have hsum := Finset.sum_le_card_nsmul _ _ _ hcard
  rw [ordinals, List.toFinset_card_of_nodup List.nodup_range, List.length_range,
    smul_eq_mul] at hsum
  exact Nat.lt_succ_of_le hsum

theorem mem_candidates {b c : ℕ} :
    c ∈ candidates function dominators b ↔
      c < function.blocks.length ∧ c ∈ dominators b ∧ c ≠ b := by
  simp [candidates, ordinals]

theorem bestCandidate_mem {cs : List ℕ} {best : ℕ} (h : bestCandidate dominators cs = some best) :
    best ∈ cs := by
  have hkeep : ∀ b ∈ bestCandidate dominators cs, b ∈ cs := by
    refine foldl_keeps (P := fun best : Option ℕ => ∀ b ∈ best, b ∈ cs) ?_ (by simp)
    rintro (- | b) hbest c hc x hx
    · obtain rfl := Option.some.inj hx
      exact hc
    · dsimp only at hx
      by_cases hlt : (dominators b).card < (dominators c).card
      · rw [if_pos hlt] at hx
        obtain rfl := Option.some.inj hx
        exact hc
      · rw [if_neg hlt] at hx
        exact hbest x hx
  exact hkeep best h

theorem bestCandidate_isSome {cs : List ℕ} (h : cs ≠ []) :
    ∃ best, bestCandidate dominators cs = some best := by
  rcases cs with - | ⟨c, cs⟩
  · exact absurd rfl h
  have hsome : (bestCandidate dominators (c :: cs)).isSome = true := by
    rw [bestCandidate, List.foldl_cons]
    refine foldl_keeps (P := fun best : Option ℕ => best.isSome = true) ?_ rfl
    rintro (- | b) - d -
    · rfl
    · dsimp only
      by_cases hlt : (dominators b).card < (dominators d).card
      · rw [if_pos hlt]
        rfl
      · rw [if_neg hlt]
        rfl
  exact Option.isSome_iff_exists.mp hsome

theorem immediateDominator_mem {b c : ℕ} (h : ImmediateDominator function dominators b = some c) :
    c ∈ candidates function dominators b := by
  rw [ImmediateDominator] at h
  rcases hbest : bestCandidate dominators (candidates function dominators b) with - | best
  · simp [hbest] at h
  · simp only [hbest] at h
    split_ifs at h with himmediate
    · rw [← Option.some.inj h]
      exact bestCandidate_mem hbest
    · exact List.mem_of_find?_eq_some h

theorem exists_immediateDominator {b c : ℕ} (hc : c ∈ candidates function dominators b)
    (himmediate : ∀ d ∈ candidates function dominators b, d ≠ c → c ∉ dominators d) :
    ∃ d, ImmediateDominator function dominators b = some d := by
  have hsome : ∃ best, bestCandidate dominators (candidates function dominators b) = some best :=
    bestCandidate_isSome (List.ne_nil_of_mem hc)
  obtain ⟨best, hbest⟩ := hsome
  rw [ImmediateDominator]
  simp only [hbest]
  by_cases hquick : IsImmediateDominator dominators b (candidates function dominators b) best = true
  · exact ⟨best, if_pos hquick⟩
  · rw [if_neg hquick]
    refine Option.isSome_iff_exists.mp (List.find?_isSome.mpr ⟨c, hc, ?_⟩)
    rw [List.all_eq_true]
    intro d hd
    by_cases heq : d = c
    · simp [heq]
    · simp [himmediate d hd heq]

theorem immediateDominator_entry (h : ComputeDominators function entry = some dominators) :
    ImmediateDominator function dominators entry = none := by
  rcases hdom : ImmediateDominator function dominators entry with - | c
  · rfl
  · obtain ⟨-, hmem, hne⟩ := mem_candidates.mp (immediateDominator_mem hdom)
    rw [Dominators.solution_entry h, Finset.mem_singleton] at hmem
    exact absurd hmem hne

/-- The blocks below the entry in the dominator tree are all the reachable ones. -/
theorem mem_of_reachable (h : ComputeDominators function entry = some dominators)
    (hentry : entry < function.blocks.length) (hclosed : ReachablePredecessors function entry)
    {renamed : List ℕ} (hroot : entry ∈ renamed)
    (hchild : ∀ d ∈ renamed,
      ∀ c ∈ domChildren function (ImmediateDominator function dominators) d, c ∈ renamed)
    {b : ℕ} (hb : Reachable function entry b) : b ∈ renamed := by
  have hmem : entry ∈ ordinals function := List.mem_range.mpr hentry
  have hdom : ∀ b, Reachable function entry b → ∀ d, d ∈ dominators b ↔
      Dominators.Dominates (IrCfg.predecessors function) entry d b :=
    fun b hb d => Dominators.mem_solution_iff hmem predecessors_lt hclosed h hb
  have hblock : ∀ b, Reachable function entry b → b < function.blocks.length := by
    intro b hb
    exact List.mem_range.mp (hb.mem hmem fun b p hp => (predecessors_lt b p hp).2)
  induction hn : (dominators b).card using Nat.strong_induction_on generalizing b with
  | _ n ih =>
      by_cases hbe : b = entry
      · rw [hbe]
        exact hroot
      have hentryDom : entry ∈ dominators b := (hdom b hb entry).mpr Dominators.dominates_root
      obtain ⟨c, hc, hcb, himmediate⟩ := Dominators.exists_immediate hdom hb hentryDom hbe
      have hcandidate : c ∈ candidates function dominators b :=
        mem_candidates.mpr ⟨hblock c (((hdom b hb c).mp hc).reachable hb), hc, hcb⟩
      obtain ⟨d, hd⟩ := exists_immediateDominator hcandidate fun e he hec => by
        obtain ⟨-, hedom, heb⟩ := mem_candidates.mp he
        exact himmediate e hedom heb hec
      obtain ⟨-, hddom, hdb⟩ := mem_candidates.mp (immediateDominator_mem hd)
      have hlt := Dominators.card_lt_card hdom hb hddom hdb
      have hreach := ((hdom b hb d).mp hddom).reachable hb
      exact hchild d (ih _ (hn ▸ hlt) hreach rfl) b (mem_domChildren.mpr ⟨hblock b hb, hd⟩)

end Tree

/-! ## Conversion -/

/-- Every register name has at most one version, and none is empty. -/
def WellNamed (function : IrFunction) : Prop :=
  ∀ b, ∀ i ∈ (function.blockAt b).instructions, StableNames i

/-- The function without phis and with plain names. -/
def plainFunction (function : IrFunction) : IrFunction :=
  { function with
    blocks := function.blocks.map fun block =>
      { block with instructions := plainBody block.instructions } }

/-- The versions that the instructions of the renamed blocks define. -/
def renamedDefinitions (result : SsaResult) : List String :=
  result.renamed.flatMap fun b =>
    (result.function.blockAt b).instructions.filterMap destinationOf

/-- Every version is defined once, and every version that is read is defined or is an
implicit parameter. -/
structure UniqueVersions (function : IrFunction) (result : SsaResult) (implicit : List String) :
    Prop where
  nodup : (renamedDefinitions result ++ implicit).Nodup
  reads : ∀ b ∈ result.renamed, ∀ i ∈ (result.function.blockAt b).instructions,
    ∀ name ∈ operandNames i, name ∈ renamedDefinitions result ++ implicit
  sources : ∀ b ∈ result.renamed, ∀ destination sources,
    .phi destination sources ∈ (result.function.blockAt b).instructions →
      ∀ entry ∈ sources.entries, entry.2 ∈ renamedDefinitions result ++ implicit ∨
        OriginalSource function entry.2
  single : WellNamed function → (implicit.map keyOf).Nodup

/-- The result is the original function up to phis and versions.  The blocks below the entry
in the dominator tree are renamed, and the others only get phis. -/
structure PureRenaming (function : IrFunction) (result : SsaResult) : Prop where
  same : plainFunction result.function = plainFunction function
  once : result.renamed.Nodup
  reached : ∀ entry, IrCfg.ordinal function function.entryLabel = some entry →
    ReachablePredecessors function entry →
      ∀ b, Reachable function entry b → b ∈ result.renamed
  others : ∀ b, b ∉ result.renamed → ∃ phis, (∀ i ∈ phis, isPhi i = true) ∧
    (result.function.blockAt b).instructions = phis ++ (function.blockAt b).instructions
  versions : ∃ implicit, UniqueVersions function result implicit

section Conversion

variable {function withPhis : IrFunction} {entry : ℕ}

theorem Inserted.length (h : Inserted function withPhis) :
    withPhis.blocks.length = function.blocks.length := by
  have hlength := congrArg List.length h.labels
  rwa [List.length_map, List.length_map] at hlength

theorem isPhi_of_inserted {phis : List IrInstruction}
    (h : ∀ i ∈ phis, ∃ name, i = .phi name ⟨[], List.nodup_nil⟩ ∧ DefinedBase function name) :
    ∀ i ∈ phis, isPhi i = true := by
  intro i hi
  obtain ⟨name, rfl, -⟩ := h i hi
  rfl

theorem Inserted.plainBody (h : Inserted function withPhis) (b : ℕ) :
    SsaTransformer.plainBody (withPhis.blockAt b).instructions =
      SsaTransformer.plainBody (function.blockAt b).instructions := by
  obtain ⟨phis, heq, hphis⟩ := h.instructions b
  have hnone : phis.filter (fun i => !isPhi i) = [] := by
    rw [List.filter_eq_nil_iff]
    intro i hi
    simp [isPhi_of_inserted hphis i hi]
  rw [SsaTransformer.plainBody, heq, List.filter_append, hnone, List.nil_append,
    SsaTransformer.plainBody]

theorem stable_base {name : String} (h : Stable name) : Stable (Base name) :=
  ⟨Base_ne_empty h.1, congrArg Base h.2⟩

theorem Inserted.wellNamed (h : Inserted function withPhis) (hnames : WellNamed function) :
    WellNamed withPhis := by
  intro b i hi
  obtain ⟨phis, heq, hphis⟩ := h.instructions b
  rw [heq] at hi
  rcases List.mem_append.mp hi with hphi | hold
  · obtain ⟨name, rfl, c, j, hj, destination, hdest, rfl⟩ := hphis i hphi
    refine ⟨by simp [operandNames], fun x hx => ?_⟩
    obtain rfl := Option.some.inj hx
    exact stable_base ((hnames c j hj).2 destination hdest)
  · exact hnames b i hold

theorem Inserted.originalSource (h : Inserted function withPhis) {name : String}
    (hsource : OriginalSource withPhis name) : OriginalSource function name := by
  obtain ⟨b, destination, sources, hmem, e, he, hname⟩ := hsource
  obtain ⟨phis, heq, hphis⟩ := h.instructions b
  rw [heq] at hmem
  rcases List.mem_append.mp hmem with hphi | hold
  · obtain ⟨x, hx, -⟩ := hphis _ hphi
    obtain ⟨-, rfl⟩ := IrInstruction.phi.inj hx
    cases he
  · exact ⟨b, destination, sources, hold, e, he, hname⟩

theorem converting_initialWalk {stable : Prop} (hnames : stable → WellNamed withPhis) :
    Converting stable withPhis (initialWalk withPhis entry) [] [] := by
  have hat : ∀ b, (initialWalk withPhis entry).working.getD b [] =
      (withPhis.blockAt b).instructions := by
    intro b
    by_cases hlt : b < withPhis.blocks.length
    · simp [initialWalk, IrFunction.blockAt, hlt]
    · simp [initialWalk, IrFunction.blockAt, List.getElem?_eq_none (Nat.le_of_not_lt hlt)]
  refine ⟨⟨by simp, List.nodup_nil, ?_, fun _ _ => rfl, fun _ => List.nodup_nil⟩,
    List.length_map .., List.Perm.nil, by simp [initialWalk], ?_, ?_, ?_, ?_⟩
  · intro key x hx
    cases hx
  · intro b destination sources hmem e he
    rw [hat] at hmem
    exact .inr ⟨b, destination, sources, hmem, e, he, rfl⟩
  · intro b
    rw [hat]
  · intro hs b _ i hi
    rw [hat] at hi
    exact hnames hs b i hi
  · intro hs b destination sources hmem
    rw [hat] at hmem
    exact (hnames hs b _ hmem).2 destination rfl

theorem treeWalk_initialWalk {idom : ℕ → Option ℕ} (hentry : entry < function.blocks.length) :
    TreeWalk function entry idom (initialWalk withPhis entry) := by
  have hmem : ∀ b, b ∈ visits (initialWalk withPhis entry).work ++
      (initialWalk withPhis entry).renamed ↔ b = entry := by
    intro b
    simp [visits, initialWalk]
  refine ⟨by simp [visits, initialWalk], fun b hb => .inl ((hmem b).mp hb), ?_,
    (hmem entry).mpr rfl, fun b hb => (hmem b).mp hb ▸ hentry, ?_⟩
  · intro d hd
    cases hd
  · intro b hb
    cases hb

theorem blockAt_rebuild {walk : Walk} (hlength : walk.working.length = withPhis.blocks.length)
    (b : ℕ) : ((rebuild withPhis walk).blockAt b).instructions =
      if b ∈ walk.renamed then walk.working.getD b [] else (withPhis.blockAt b).instructions := by
  by_cases hlt : b < withPhis.blocks.length
  · simp [rebuild, IrFunction.blockAt, hlt]
  · have hge := Nat.le_of_not_lt hlt
    simp [rebuild, IrFunction.blockAt, List.getElem?_eq_none hge,
      List.getElem?_eq_none (hlength ▸ hge)]

theorem convert_eq_some {frontier : DominanceFrontier function} {result : SsaResult}
    (h : Convert function frontier = some result) :
    ∃ entry dominators withPhis walk, IrCfg.ordinal function function.entryLabel = some entry ∧
      ComputeDominators function entry = some dominators ∧
      InsertPhiNodes function frontier = some withPhis ∧
      renameWalk function withPhis entry (ImmediateDominator function dominators) = some walk ∧
      result = ⟨rebuild withPhis walk, walk.renamed⟩ := by
  rw [Convert] at h
  split_ifs at h with hlabels
  obtain ⟨entry, hentry, h⟩ := Option.bind_eq_some_iff.mp h
  obtain ⟨dominators, hdominators, h⟩ := Option.bind_eq_some_iff.mp h
  obtain ⟨withPhis, hphis, h⟩ := Option.bind_eq_some_iff.mp h
  obtain ⟨walk, hwalk, h⟩ := Option.bind_eq_some_iff.mp h
  exact ⟨entry, dominators, withPhis, walk, hentry, hdominators, hphis, hwalk,
    (Option.some.inj h).symm⟩

theorem plainFunction_rebuild {walk : Walk} {defined implicit : List String}
    (hinserted : Inserted function withPhis)
    (h : Converting (WellNamed function) withPhis walk defined implicit) :
    plainFunction (rebuild withPhis walk) = plainFunction function := by
  have hbody : ∀ b, plainBody ((rebuild withPhis walk).blockAt b).instructions =
      plainBody (function.blockAt b).instructions := by
    intro b
    rw [blockAt_rebuild h.length, ← hinserted.plainBody b]
    by_cases hb : b ∈ walk.renamed
    · rw [if_pos hb, h.same b]
    · rw [if_neg hb]
  have hlabels : (rebuild withPhis walk).blocks.map IrBasicBlock.label =
      function.blocks.map IrBasicBlock.label := by
    rw [← hinserted.labels]
    exact List.ext_getElem (by simp [rebuild]) (by simp [rebuild])
  have hlength := congrArg List.length hlabels
  rw [List.length_map, List.length_map] at hlength
  have hblocks : (plainFunction (rebuild withPhis walk)).blocks =
      (plainFunction function).blocks := by
    refine List.ext_getElem (by simp [plainFunction, hlength]) fun b hb hb' => ?_
    simp only [plainFunction, List.length_map] at hb hb'
    have hat : plainBody (rebuild withPhis walk).blocks[b].instructions =
        plainBody function.blocks[b].instructions := by
      simpa only [IrFunction.blockAt, List.getD_eq_getElem?_getD, List.getElem?_eq_getElem hb,
        List.getElem?_eq_getElem hb', Option.getD_some] using hbody b
    have hbound : b < ((rebuild withPhis walk).blocks.map IrBasicBlock.label).length := by
      rwa [List.length_map]
    have hbound' : b < (function.blocks.map IrBasicBlock.label).length := by
      rwa [List.length_map]
    have hlabel : ((rebuild withPhis walk).blocks.map IrBasicBlock.label)[b] =
        (function.blocks.map IrBasicBlock.label)[b] := by
      simp only [hlabels]
    rw [List.getElem_map, List.getElem_map] at hlabel
    simp only [plainFunction, List.getElem_map, hat, hlabel]
  rw [plainFunction] at hblocks ⊢
  rw [plainFunction] at hblocks ⊢
  rw [IrFunction.mk.injEq]
  exact ⟨hinserted.name, hinserted.entryLabel, hblocks⟩

theorem pureRenaming_rebuild {dominators : ℕ → Finset ℕ} {walk : Walk}
    {defined implicit : List String}
    (hentry : IrCfg.ordinal function function.entryLabel = some entry)
    (hdominators : ComputeDominators function entry = some dominators)
    (hinserted : Inserted function withPhis) (hwork : walk.work = [])
    (htree : TreeWalk function entry (ImmediateDominator function dominators) walk)
    (h : Converting (WellNamed function) withPhis walk defined implicit) :
    PureRenaming function ⟨rebuild withPhis walk, walk.renamed⟩ := by
  have hvisits : visits walk.work = [] := by
    rw [hwork]
    rfl
  have hat : ∀ b ∈ walk.renamed,
      ((rebuild withPhis walk).blockAt b).instructions = walk.working.getD b [] := by
    intro b hb
    rw [blockAt_rebuild h.length, if_pos hb]
  obtain ⟨hnodup, -, hchild, hroot, -, -⟩ := htree
  rw [hvisits, List.nil_append] at hnodup hchild hroot
  refine ⟨plainFunction_rebuild hinserted h, hnodup, ?_, ?_, implicit, ?_⟩
  · intro entry' hentry' hclosed b hb
    obtain rfl := Option.some.inj (hentry.symm.trans hentry')
    exact mem_of_reachable hdominators (IrCfg.ordinal_lt hentry) hclosed hroot hchild hb
  · intro b hb
    obtain ⟨phis, heq, hphis⟩ := hinserted.instructions b
    refine ⟨phis, isPhi_of_inserted hphis, ?_⟩
    rw [blockAt_rebuild h.length, if_neg hb, heq]
  · have hdefinitions : (renamedDefinitions ⟨rebuild withPhis walk, walk.renamed⟩).Perm
        defined := by
      refine List.Perm.trans (List.Perm.of_eq ?_) h.defines
      exact List.flatMap_congr fun b hb => by rw [hat b hb, definitionsAt]
    have hall := hdefinitions.append_right implicit
    refine ⟨hall.nodup_iff.mpr h.tracked.nodup, ?_, ?_, h.tracked.single⟩
    · intro b hb i hi name hname
      rw [hat b hb] at hi
      exact hall.mem_iff.mpr (h.reads b hb i hi name hname)
    · intro b hb destination sources hmem e he
      rw [hat b hb] at hmem
      exact (h.sources b destination sources hmem e he).imp hall.mem_iff.mpr
        hinserted.originalSource

/-- Conversion returns for every well-named function whose labels are distinct and contain
the entry label, and whatever it returns is a pure renaming with unique definitions. -/
theorem convert_pureRenaming (function : IrFunction) (frontier : DominanceFrontier function) :
    (IrCfg.DistinctLabels function → WellNamed function →
      (IrCfg.ordinal function function.entryLabel).isSome →
        ∃ result, Convert function frontier = some result) ∧
    ∀ result, Convert function frontier = some result → PureRenaming function result := by
  constructor
  · intro hlabels hnames hsome
    obtain ⟨entry, hentry⟩ := Option.isSome_iff_exists.mp hsome
    have hlt := IrCfg.ordinal_lt hentry
    obtain ⟨dominators, hdominators⟩ := exists_computeDominators hlt
    obtain ⟨withPhis, hphis⟩ := exists_insertPhiNodes function frontier
    have hinserted := inserted_insertPhiNodes hphis
    have hrun : ∃ walk, run function entry (ImmediateDominator function dominators)
        (2 * function.blocks.length) (initialWalk withPhis entry) = some walk :=
      exists_run hnames (converting_initialWalk fun h => hinserted.wellNamed h)
        (treeWalk_initialWalk hlt) (immediateDominator_entry hdominators) hinserted.length
        (by simp [turnsLeft, initialWalk, leaves])
    obtain ⟨walk, hwalk⟩ := hrun
    refine ⟨⟨rebuild withPhis walk, walk.renamed⟩, ?_⟩
    rw [Convert, if_pos hlabels, hentry, Option.bind_eq_bind, Option.bind_some, hdominators,
      Option.bind_eq_bind, Option.bind_some, hphis, Option.bind_eq_bind, Option.bind_some,
      renameWalk, hwalk]
    rfl
  · intro result hresult
    obtain ⟨entry, dominators, withPhis, walk, hentry, hdominators, hphis, hwalk, rfl⟩ :=
      convert_eq_some hresult
    have hinserted := inserted_insertPhiNodes hphis
    obtain ⟨hwork, htree, defined, implicit, h⟩ := converting_run
      (converting_initialWalk fun hnames => hinserted.wellNamed hnames)
      (treeWalk_initialWalk (IrCfg.ordinal_lt hentry)) (immediateDominator_entry hdominators)
      hinserted.length hwalk
    exact pureRenaming_rebuild hentry hdominators hinserted hwork htree h

end Conversion

/-- A branch whose arms both assign a register that is read where they meet. -/
def diamond : IrFunction where
  name := "diamond"
  entryLabel := "A"
  blocks :=
    [⟨"A", [.assign "r3" (.imm 1), .branch "eq" "B" "C" "cr0"]⟩,
      ⟨"B", [.binary "r4" (.register "r3") (.register "r5") "add", .jump "D"]⟩,
      ⟨"C", [.assign "r4" (.register "r3"), .jump "D"]⟩,
      ⟨"D", [.assign "r6" (.register "r4"), .ret none]⟩]

def diamondFrontier : DominanceFrontier diamond where
  blocks x := if x = 1 ∨ x = 2 then [3] else []
  isBlock x y h := by
    by_cases hx : x = 1 ∨ x = 2
    · rw [if_pos hx, List.mem_singleton] at h
      rw [h]
      decide
    · rw [if_neg hx] at h
      cases h

theorem convert_pureRenaming_diamond :
    ∃ result, Convert diamond diamondFrontier = some result ∧ PureRenaming diamond result := by
  have hnames : WellNamed diamond := by
    have hall : ∀ block ∈ diamond.blocks, ∀ i ∈ block.instructions, StableNames i := by
      decide +kernel
    intro b i hi
    exact hall _ (IrFunction.blockAt_mem (IrFunction.lt_of_mem_blockAt hi)) i hi
  obtain ⟨result, hresult⟩ := (convert_pureRenaming diamond diamondFrontier).1 (by decide +kernel)
    hnames (by decide +kernel)
  exact ⟨result, hresult, (convert_pureRenaming diamond diamondFrontier).2 result hresult⟩

/-! ## A use before any definition -/

/-- Every name that a reachable block reads is defined by exactly one instruction of the
reachable blocks. -/
def DefinedExactlyOnce (function : IrFunction) (result : SsaResult) : Prop :=
  ∀ entry, IrCfg.ordinal function function.entryLabel = some entry →
    ∀ b, Reachable function entry b → ∀ i ∈ (result.function.blockAt b).instructions,
      ∀ name ∈ operandNames i, ∃! site : ℕ × ℕ, Reachable function entry site.1 ∧
        ∃ j, (result.function.blockAt site.1).instructions[site.2]? = some j ∧
          destinationOf j = some name

def RenamesWithExactDefinitions : Prop :=
  ∀ (function : IrFunction) (frontier : DominanceFrontier function) (result : SsaResult),
    IrCfg.DistinctLabels function → Convert function frontier = some result →
      plainFunction result.function = plainFunction function ∧ DefinedExactlyOnce function result

def copyArgument : IrFunction where
  name := "copy"
  entryLabel := "A"
  blocks := [⟨"A", [.assign "r4" (.register "r3"), .ret none]⟩]

def noFrontier : DominanceFrontier copyArgument where
  blocks _ := []
  isBlock _ y h := by cases h

def copiedArgument : IrFunction where
  name := "copy"
  entryLabel := "A"
  blocks := [⟨"A", [.assign "r4_0" (.register "r3_0"), .ret none]⟩]

/-- The argument becomes an implicit parameter, which no instruction defines. -/
theorem not_renamesWithExactDefinitions : ¬RenamesWithExactDefinitions := by
  intro h
  have hconvert : Convert copyArgument noFrontier = some ⟨copiedArgument, [0]⟩ := by
    decide +kernel
  obtain ⟨-, hexact⟩ := h copyArgument noFrontier _ (by decide +kernel) hconvert
  obtain ⟨⟨b, k⟩, ⟨-, j, hj, hdest⟩, -⟩ := hexact 0 (by decide +kernel) 0
    Dominators.reachable_entry (.assign "r4_0" (.register "r3_0")) (by decide +kernel) "r3_0"
    (by decide +kernel)
  have hmem := List.mem_of_getElem? hj
  have hblock := IrFunction.blockAt_mem (IrFunction.lt_of_mem_blockAt hmem)
  have hnone : ∀ block ∈ copiedArgument.blocks, ∀ i ∈ block.instructions,
      destinationOf i ≠ some "r3_0" := by decide +kernel
  exact hnone _ hblock j hmem hdest

end Wiicompiled.Analysis.SsaTransformer
