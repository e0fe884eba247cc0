import Mathlib.Algebra.Order.BigOperators.Group.Finset
import Mathlib.Data.Finset.Max

/-!
# Dominators of a rooted graph

A node dominates another one when every walk from the root to the latter meets it.  Sweeps
that intersect the sets of the predecessors, started from the sets of all nodes, descend to
the dominators; every node that can be reached has a strict dominator that dominates no
other strict dominator of it.
-/

namespace Dominators

variable {ι : Type*}

/-! ## Walks -/

section Walks

variable (preds : ι → List ι) (entry : ι)

/-- The walks from the root, with the last node first. -/
inductive Walk : List ι → Prop
  | start : Walk [entry]
  | step {p b : ι} {w : List ι} (hw : Walk (p :: w)) (hp : p ∈ preds b) : Walk (b :: p :: w)

def Reachable (b : ι) : Prop :=
  ∃ w, Walk preds entry (b :: w)

def Dominates (d b : ι) : Prop :=
  ∀ w, Walk preds entry (b :: w) → d ∈ b :: w

variable {preds entry}

theorem Walk.suffix {front back : List ι} {d : ι}
    (h : Walk preds entry (front ++ d :: back)) : Walk preds entry (d :: back) := by
  induction front with
  | nil => exact h
  | cons b front ih =>
      apply ih
      rcases front with - | ⟨p, front⟩
      · rcases h with - | ⟨hw, -⟩
        exact hw
      · rcases h with - | ⟨hw, -⟩
        exact hw

theorem Walk.split {b d : ι} {w : List ι} (h : Walk preds entry (b :: w)) (hd : d ∈ b :: w) :
    ∃ front back, b :: w = front ++ d :: back ∧ Walk preds entry (d :: back) := by
  obtain ⟨front, back, heq⟩ := List.append_of_mem hd
  rw [heq] at h
  exact ⟨front, back, heq, h.suffix⟩

theorem reachable_entry : Reachable preds entry entry :=
  ⟨[], .start⟩

theorem Reachable.preds_ne_nil {b : ι} (h : Reachable preds entry b) (hb : b ≠ entry) :
    preds b ≠ [] := by
  obtain ⟨w, hw⟩ := h
  rcases hw with - | ⟨-, hp⟩
  · exact absurd rfl hb
  · exact List.ne_nil_of_mem hp

theorem Reachable.mem {nodes : List ι} (hentry : entry ∈ nodes) (htargets : ∀ b, ∀ p ∈ preds b, b ∈ nodes)
    {b : ι} (h : Reachable preds entry b) : b ∈ nodes := by
  obtain ⟨w, hw⟩ := h
  rcases hw with - | ⟨-, hp⟩
  · exact hentry
  · exact htargets b _ hp

/-! ## Domination -/

theorem dominates_self (b : ι) : Dominates preds entry b b :=
  fun _ _ => List.mem_cons_self

/-- The root dominates every node that can be reached. -/
theorem dominates_root {b : ι} : Dominates preds entry entry b := by
  intro w hw
  generalize hwalk : b :: w = walk at hw
  induction hw generalizing b w with
  | start => exact List.mem_singleton_self _
  | step _ _ ih => exact List.mem_cons_of_mem _ (ih _ rfl)

theorem eq_of_dominates_entry {d : ι} (h : Dominates preds entry d entry) : d = entry := by
  simpa using h [] .start

theorem Dominates.trans {d e b : ι} (hde : Dominates preds entry d e)
    (heb : Dominates preds entry e b) : Dominates preds entry d b := by
  intro w hw
  obtain ⟨front, back, heq, hback⟩ := hw.split (heb w hw)
  rw [heq]
  exact List.mem_append_right front (hde back hback)

theorem Dominates.reachable {d b : ι} (h : Dominates preds entry d b)
    (hb : Reachable preds entry b) : Reachable preds entry d := by
  obtain ⟨w, hw⟩ := hb
  obtain ⟨-, back, -, hback⟩ := hw.split (h w hw)
  exact ⟨back, hback⟩

/-- On a walk to one of two nodes that dominate each other, the other one comes earlier. -/
theorem Dominates.shorter {d e : ι} (hne : d ≠ e) (hde : Dominates preds entry d e)
    {w : List ι} (hw : Walk preds entry (e :: w)) :
    ∃ back, back.length < w.length ∧ Walk preds entry (d :: back) := by
  obtain ⟨front, back, heq, hback⟩ := hw.split (hde w hw)
  refine ⟨back, ?_, hback⟩
  rcases front with - | ⟨x, front⟩
  · rw [List.nil_append, List.cons.injEq] at heq
    exact absurd heq.1.symm hne
  · rw [List.cons_append, List.cons.injEq] at heq
    rw [heq.2, List.length_append, List.length_cons]
    omega

theorem Dominates.antisymm {d e : ι} (hde : Dominates preds entry d e)
    (hed : Dominates preds entry e d) (he : Reachable preds entry e) : d = e := by
  by_contra hne
  obtain ⟨w, hw⟩ := he
  induction hn : w.length using Nat.strong_induction_on generalizing w with
  | _ n ih =>
      obtain ⟨u, hu, hwalk⟩ := hde.shorter hne hw
      obtain ⟨v, hv, hwalk'⟩ := hed.shorter (Ne.symm hne) hwalk
      exact ih v.length (by omega) v hwalk' rfl

/-- A list with another end begins as before. -/
theorem exists_cons_splice {front back : List ι} {b d : ι} {w : List ι}
    (h : b :: w = front ++ d :: back) (back' : List ι) :
    ∃ w', b :: w' = front ++ d :: back' := by
  rcases front with - | ⟨c, front⟩
  · obtain ⟨rfl, -⟩ := List.cons.inj h
    exact ⟨back', rfl⟩
  · obtain ⟨rfl, -⟩ := List.cons.inj h
    exact ⟨front ++ d :: back', rfl⟩

/-- Another way to a node that the walk meets. -/
theorem Walk.splice {front back back' : List ι} {d : ι} (h : Walk preds entry (front ++ d :: back))
    (h' : Walk preds entry (d :: back')) : Walk preds entry (front ++ d :: back') := by
  induction front with
  | nil => exact h'
  | cons b front ih =>
      rcases front with - | ⟨p, front⟩
      · rcases h with - | ⟨hw, hp⟩
        exact h'.step hp
      · rcases h with - | ⟨hw, hp⟩
        exact (ih hw).step hp

/-- The dominators of a node dominate each other. -/
theorem Dominates.total {d e b : ι} (hd : Dominates preds entry d b)
    (he : Dominates preds entry e b) (hb : Reachable preds entry b) :
    Dominates preds entry d e ∨ Dominates preds entry e d := by
  classical
  by_contra hneither
  rw [not_or, Dominates, Dominates] at hneither
  push Not at hneither
  obtain ⟨⟨u, hu, hdu⟩, ⟨v, hv, hev⟩⟩ := hneither
  obtain ⟨w, hw⟩ := hb
  -- the part of the walk behind the last of the two
  obtain ⟨x, hx⟩ : ∃ x, (b :: w).find? (fun y => y = d ∨ y = e) = some x :=
    Option.isSome_iff_exists.mp (List.find?_isSome.mpr ⟨d, hd w hw, by simp⟩)
  obtain ⟨hxde, front, back, heq, hfront⟩ := List.find?_eq_some_iff_append.mp hx
  have hnone : ∀ y ∈ front, y ≠ d ∧ y ≠ e := by
    intro y hy
    have hy' := hfront y hy
    simpa using hy'
  have hcases : x = d ∨ x = e := of_decide_eq_true hxde
  rw [heq] at hw
  rcases hcases with rfl | rfl
  · obtain ⟨w', heq'⟩ := exists_cons_splice heq v
    have hmem := he w' (heq' ▸ hw.splice hv)
    rw [heq', List.mem_append] at hmem
    exact hmem.elim (fun hmem => (hnone e hmem).2 rfl) hev
  · obtain ⟨w', heq'⟩ := exists_cons_splice heq u
    have hmem := hd w' (heq' ▸ hw.splice hu)
    rw [heq', List.mem_append] at hmem
    exact hmem.elim (fun hmem => (hnone d hmem).1 rfl) hdu

end Walks

/-! ## Open walks -/

section OpenWalks

variable (preds : ι → List ι) (entry : ι)

/-- The walks from the root or from another node without predecessors. -/
inductive OpenWalk : List ι → Prop
  | start {b : ι} (hb : b = entry ∨ preds b = []) : OpenWalk [b]
  | step {p b : ι} {w : List ι} (hw : OpenWalk (p :: w)) (hp : p ∈ preds b) :
      OpenWalk (b :: p :: w)

/-- Every open walk to the node comes by the root. -/
def Sealed (b : ι) : Prop :=
  ∀ w, OpenWalk preds entry (b :: w) → entry ∈ b :: w

variable {preds entry}

theorem Walk.openWalk {w : List ι} (h : Walk preds entry w) : OpenWalk preds entry w := by
  induction h with
  | start => exact .start (Or.inl rfl)
  | step _ hp ih => exact ih.step hp

theorem OpenWalk.mem {nodes : List ι} (hnodes : ∀ b, ∀ p ∈ preds b, p ∈ nodes) {b d : ι}
    {w : List ι} (h : OpenWalk preds entry (b :: w)) (hd : d ∈ w) : d ∈ nodes := by
  generalize hwalk : b :: w = walk at h
  induction h generalizing b w with
  | start =>
      obtain ⟨-, rfl⟩ := List.cons.inj hwalk
      exact absurd hd List.not_mem_nil
  | @step p c u _ hp ih =>
      obtain ⟨rfl, rfl⟩ := List.cons.inj hwalk
      rcases List.mem_cons.mp hd with rfl | hd
      · exact hnodes _ _ hp
      · exact ih hd rfl

/-- The walk from the root on that an open walk ends with. -/
theorem OpenWalk.walk {front back : List ι}
    (h : OpenWalk preds entry (front ++ entry :: back)) : Walk preds entry (front ++ [entry]) := by
  induction front with
  | nil => exact .start
  | cons b front ih =>
      rcases front with - | ⟨p, front⟩
      · rcases h with - | ⟨hw, hp⟩
        exact .step .start hp
      · rcases h with - | ⟨hw, hp⟩
        exact (ih hw).step hp

theorem OpenWalk.splice {front back back' : List ι} {d : ι}
    (h : Walk preds entry (front ++ d :: back)) (h' : OpenWalk preds entry (d :: back')) :
    OpenWalk preds entry (front ++ d :: back') := by
  induction front with
  | nil => exact h'
  | cons b front ih =>
      rcases front with - | ⟨p, front⟩
      · rcases h with - | ⟨hw, hp⟩
        exact h'.step hp
      · rcases h with - | ⟨hw, hp⟩
        exact (ih hw).step hp

/-- A dominator is on the open walks that come by the root. -/
theorem Dominates.mem_openWalk {d b : ι} (h : Dominates preds entry d b) {w : List ι}
    (hw : OpenWalk preds entry (b :: w)) (hentry : entry ∈ b :: w) : d ∈ b :: w := by
  obtain ⟨front, back, heq⟩ := List.append_of_mem hentry
  obtain ⟨w', heq'⟩ := exists_cons_splice heq []
  have hmem := h w' (heq' ▸ (heq ▸ hw : OpenWalk preds entry (front ++ entry :: back)).walk)
  rw [heq'] at hmem
  rw [heq]
  rcases List.mem_append.mp hmem with hmem | hmem
  · exact List.mem_append_left _ hmem
  · rw [List.mem_singleton.mp hmem]
    exact List.mem_append_right _ List.mem_cons_self

/-- The dominators of a sealed node are sealed. -/
theorem Sealed.of_dominates {e b : ι} (h : Sealed preds entry b)
    (heb : Dominates preds entry e b) (hb : Reachable preds entry b) : Sealed preds entry e := by
  intro u hu
  obtain ⟨w, hw⟩ := hb
  -- the walk to the node that meets the root once
  obtain ⟨front, back, heq, hfront⟩ :=
    List.eq_append_cons_of_mem ((dominates_root : Dominates preds entry entry b) w hw)
  rw [heq] at hw
  have hwalk := hw.openWalk.walk
  obtain ⟨w', hw'⟩ := exists_cons_splice heq []
  have hmem := heb w' (hw' ▸ hwalk)
  rw [hw', List.mem_append, List.mem_singleton] at hmem
  rcases hmem with hmem | rfl
  · obtain ⟨before, after, hsplit⟩ := List.append_of_mem hmem
    rw [hsplit, List.append_assoc, List.cons_append] at hwalk hw'
    obtain ⟨w'', hw''⟩ := exists_cons_splice hw' u
    have hentry := h w'' (hw'' ▸ OpenWalk.splice hwalk hu)
    rw [hw'', List.mem_append] at hentry
    refine hentry.resolve_left fun hbefore => hfront ?_
    rw [hsplit]
    exact List.mem_append_left _ hbefore
  · exact List.mem_cons_self

end OpenWalks

/-! ## Sweeps -/

section Sweeps

variable [DecidableEq ι] (preds : ι → List ι) (entry : ι)

/-- The node together with what all its predecessors have. -/
def flow (dom : ι → Finset ι) (b : ι) : Finset ι :=
  match preds b with
  | [] => {b}
  | p :: ps => insert b (ps.foldl (fun common q => common ∩ dom q) (dom p))

/-- Recompute the sets of all nodes but the root, and tell whether one changed. -/
def sweep : List ι → (ι → Finset ι) → (ι → Finset ι) × Bool
  | [], dom => (dom, false)
  | b :: bs, dom =>
      if b = entry then sweep bs dom
      else if flow preds dom b = dom b then sweep bs dom
      else ((sweep bs (Function.update dom b (flow preds dom b))).1, true)

/-- Sweep until nothing changes. -/
def solve (nodes : List ι) : ℕ → (ι → Finset ι) → Option (ι → Finset ι)
  | 0, _ => none
  | fuel + 1, dom =>
      if (sweep preds entry nodes dom).2 then
        solve nodes fuel (sweep preds entry nodes dom).1
      else some (sweep preds entry nodes dom).1

variable {preds entry}

theorem mem_foldl_inter {dom : ι → Finset ι} {d : ι} {ps : List ι} {s : Finset ι} :
    d ∈ ps.foldl (fun common q => common ∩ dom q) s ↔ d ∈ s ∧ ∀ p ∈ ps, d ∈ dom p := by
  induction ps generalizing s with
  | nil => simp
  | cons p ps ih => simp [ih, and_assoc]

theorem mem_flow {dom : ι → Finset ι} {d b : ι} :
    d ∈ flow preds dom b ↔ d = b ∨ preds b ≠ [] ∧ ∀ p ∈ preds b, d ∈ dom p := by
  rw [flow]
  rcases preds b with - | ⟨p, ps⟩
  · simp
  · simp [mem_foldl_inter]

theorem flow_mono {dom dom' : ι → Finset ι} (h : ∀ b, dom' b ⊆ dom b) (b : ι) :
    flow preds dom' b ⊆ flow preds dom b := by
  intro d hd
  rw [mem_flow] at hd ⊢
  rcases hd with heq | ⟨hne, hall⟩
  · exact .inl heq
  · exact .inr ⟨hne, fun p hp => h p (hall p hp)⟩

/-- What every recomputation keeps, sweeps keep. -/
theorem sweep_induct {P : (ι → Finset ι) → Prop}
    (hstep : ∀ dom b, b ≠ entry → P dom → P (Function.update dom b (flow preds dom b)))
    {bs : List ι} {dom : ι → Finset ι} (h : P dom) : P (sweep preds entry bs dom).1 := by
  induction bs generalizing dom with
  | nil => exact h
  | cons b bs ih =>
      rw [sweep]
      by_cases hb : b = entry
      · rw [if_pos hb]
        exact ih h
      rw [if_neg hb]
      by_cases hsame : flow preds dom b = dom b
      · rw [if_pos hsame]
        exact ih h
      · rw [if_neg hsame]
        exact ih (hstep dom b hb h)

theorem solve_induct {P : (ι → Finset ι) → Prop}
    (hstep : ∀ dom b, b ≠ entry → P dom → P (Function.update dom b (flow preds dom b)))
    {nodes : List ι} {fuel : ℕ} {dom result : ι → Finset ι} (h : P dom)
    (hsolve : solve preds entry nodes fuel dom = some result) : P result := by
  induction fuel generalizing dom with
  | zero => cases hsolve
  | succ fuel ih =>
      rw [solve] at hsolve
      have hswept : P (sweep preds entry nodes dom).1 := sweep_induct hstep h
      by_cases hchanged : (sweep preds entry nodes dom).2 = true
      · rw [if_pos hchanged] at hsolve
        exact ih hswept hsolve
      · rw [if_neg hchanged] at hsolve
        rwa [← Option.some.inj hsolve]

/-- A sweep that changes nothing has met a solution. -/
theorem flow_eq_of_unchanged {bs : List ι} {dom : ι → Finset ι}
    (h : (sweep preds entry bs dom).2 = false) :
    (sweep preds entry bs dom).1 = dom ∧
      ∀ b ∈ bs, b ≠ entry → flow preds dom b = dom b := by
  induction bs with
  | nil => exact ⟨rfl, by simp⟩
  | cons b bs ih =>
      rw [sweep] at h ⊢
      by_cases hb : b = entry
      · rw [if_pos hb] at h ⊢
        obtain ⟨heq, hflow⟩ := ih h
        exact ⟨heq, by simpa [hb] using hflow⟩
      rw [if_neg hb] at h ⊢
      by_cases hsame : flow preds dom b = dom b
      · rw [if_pos hsame] at h ⊢
        obtain ⟨heq, hflow⟩ := ih h
        refine ⟨heq, fun c hc hne => ?_⟩
        rcases List.mem_cons.mp hc with rfl | hc
        · exact hsame
        · exact hflow c hc hne
      · rw [if_neg hsame] at h
        cases h

theorem solve_solution {nodes : List ι} {fuel : ℕ} {dom result : ι → Finset ι}
    (h : solve preds entry nodes fuel dom = some result) :
    ∀ b ∈ nodes, b ≠ entry → flow preds result b = result b := by
  induction fuel generalizing dom with
  | zero => cases h
  | succ fuel ih =>
      rw [solve] at h
      by_cases hchanged : (sweep preds entry nodes dom).2 = true
      · rw [if_pos hchanged] at h
        exact ih h
      · rw [if_neg hchanged] at h
        obtain ⟨heq, hflow⟩ := flow_eq_of_unchanged (Bool.not_eq_true _ ▸ hchanged)
        rw [← Option.some.inj h, heq]
        exact hflow

end Sweeps

/-! ## Descent -/

section Descent

variable [DecidableEq ι] {preds : ι → List ι} {entry : ι} {nodes : List ι}

/-- Every set contains what a recomputation would make of it. -/
def Descending (preds : ι → List ι) (entry : ι) (dom : ι → Finset ι) : Prop :=
  ∀ b, b ≠ entry → flow preds dom b ⊆ dom b

theorem update_flow_subset {dom : ι → Finset ι} {b : ι} (hb : b ≠ entry)
    (h : Descending preds entry dom) (c : ι) :
    Function.update dom b (flow preds dom b) c ⊆ dom c := by
  by_cases hc : c = b
  · rw [hc, Function.update_self]
    exact h b hb
  · rw [Function.update_of_ne hc]

theorem Descending.update {dom : ι → Finset ι} {b : ι} (hb : b ≠ entry)
    (h : Descending preds entry dom) :
    Descending preds entry (Function.update dom b (flow preds dom b)) := by
  intro c hc
  have hmono : flow preds (Function.update dom b (flow preds dom b)) c ⊆ flow preds dom c :=
    flow_mono (update_flow_subset hb h) c
  by_cases heq : c = b
  · rw [heq] at hmono ⊢
    rwa [Function.update_self]
  · rw [Function.update_of_ne heq]
    exact hmono.trans (h c hc)

/-- The sum of the sizes of all sets. -/
def size (nodes : List ι) (dom : ι → Finset ι) : ℕ :=
  ∑ b ∈ nodes.toFinset, (dom b).card

theorem size_update_lt {dom : ι → Finset ι} {b : ι} (hmem : b ∈ nodes) (hb : b ≠ entry)
    (h : Descending preds entry dom) (hne : flow preds dom b ≠ dom b) :
    size nodes (Function.update dom b (flow preds dom b)) < size nodes dom := by
  refine Finset.sum_lt_sum (fun c _ => Finset.card_le_card (update_flow_subset hb h c))
    ⟨b, List.mem_toFinset.mpr hmem, ?_⟩
  rw [Function.update_self]
  exact Finset.card_lt_card (lt_of_le_of_ne (h b hb) hne)

/-- A sweep that changes something makes the sets smaller. -/
theorem sweep_size {bs : List ι} (hsub : ∀ b ∈ bs, b ∈ nodes) {dom : ι → Finset ι}
    (h : Descending preds entry dom) :
    size nodes (sweep preds entry bs dom).1 ≤ size nodes dom ∧
      ((sweep preds entry bs dom).2 = true →
        size nodes (sweep preds entry bs dom).1 < size nodes dom) := by
  induction bs generalizing dom with
  | nil => exact ⟨le_rfl, fun hchanged => absurd hchanged (by simp [sweep])⟩
  | cons b bs ih =>
      have hsub' : ∀ c ∈ bs, c ∈ nodes := fun c hc => hsub c (List.mem_cons_of_mem b hc)
      rw [sweep]
      by_cases hb : b = entry
      · rw [if_pos hb]
        exact ih hsub' h
      rw [if_neg hb]
      by_cases hsame : flow preds dom b = dom b
      · rw [if_pos hsame]
        exact ih hsub' h
      · rw [if_neg hsame]
        have hlt := size_update_lt (hsub b List.mem_cons_self) hb h hsame
        have hle := (ih hsub' (h.update hb)).1
        exact ⟨by dsimp only; omega, fun _ => by dsimp only; omega⟩

theorem exists_solve {fuel : ℕ} {dom : ι → Finset ι} (h : Descending preds entry dom)
    (hfuel : size nodes dom < fuel) : ∃ result, solve preds entry nodes fuel dom = some result := by
  induction fuel generalizing dom with
  | zero => omega
  | succ fuel ih =>
      rw [solve]
      by_cases hchanged : (sweep preds entry nodes dom).2 = true
      · rw [if_pos hchanged]
        have hlt := (sweep_size (fun b hb => hb) h).2 hchanged
        exact ih (sweep_induct (fun _ _ hb hdom => hdom.update hb) h) (by omega)
      · rw [if_neg hchanged]
        exact ⟨_, rfl⟩

end Descent

/-! ## The dominators -/

section Solution

variable [DecidableEq ι] {preds : ι → List ι} {entry : ι} {nodes : List ι}

/-- Every node but the root starts with all nodes. -/
def top (entry : ι) (nodes : List ι) (b : ι) : Finset ι :=
  if b = entry then {entry} else insert b nodes.toFinset

theorem descending_top (hentry : entry ∈ nodes) (hnodes : ∀ b, ∀ p ∈ preds b, p ∈ nodes) :
    Descending preds entry (top entry nodes) := by
  intro b hb d hd
  rw [top, if_neg hb, Finset.mem_insert, List.mem_toFinset]
  rcases mem_flow.mp hd with heq | ⟨hne, hall⟩
  · exact .inl heq
  right
  obtain ⟨p, hp⟩ := List.exists_mem_of_ne_nil _ hne
  have hmem := hall p hp
  rw [top] at hmem
  by_cases hpe : p = entry
  · rw [if_pos hpe, Finset.mem_singleton] at hmem
    rwa [hmem]
  · rw [if_neg hpe, Finset.mem_insert, List.mem_toFinset] at hmem
    rcases hmem with heq | hmem
    · rw [heq]
      exact hnodes b p hp
    · exact hmem

theorem solution_entry {fuel : ℕ} {dom : ι → Finset ι}
    (h : solve preds entry nodes fuel (top entry nodes) = some dom) : dom entry = {entry} := by
  refine solve_induct (P := fun dom => dom entry = {entry}) ?_ (by simp [top]) h
  intro dom c hc hdom
  rwa [Function.update_of_ne (Ne.symm hc)]

/-- A solution below the top has the nodes that are on every open walk. -/
theorem mem_solution_iff_openWalk
    (hnodes : ∀ b, ∀ p ∈ preds b, p ∈ nodes ∧ b ∈ nodes) {fuel : ℕ} {dom : ι → Finset ι}
    (h : solve preds entry nodes fuel (top entry nodes) = some dom) {d b : ι} (hb : b ∈ nodes)
    (hsome : ∃ w, OpenWalk preds entry (b :: w)) :
    d ∈ dom b ↔ ∀ w, OpenWalk preds entry (b :: w) → d ∈ b :: w := by
  have hroot := solution_entry h
  constructor
  · intro hd w hw
    generalize hwalk : b :: w = walk at hw
    induction hw generalizing b w with
    | @start c hc =>
        obtain ⟨rfl, rfl⟩ := List.cons.inj hwalk
        by_cases hbe : b = entry
        · rw [hbe, hroot] at hd
          rw [hbe]
          exact List.mem_singleton.mpr (Finset.mem_singleton.mp hd)
        · rw [← solve_solution h b hb hbe, mem_flow] at hd
          rcases hd with rfl | ⟨hne, -⟩
          · exact List.mem_cons_self
          · exact absurd (hc.resolve_left hbe) hne
    | @step p c u hu hp ih =>
        obtain ⟨rfl, rfl⟩ := List.cons.inj hwalk
        by_cases hbe : b = entry
        · rw [hbe, hroot, Finset.mem_singleton] at hd
          rw [hd, hbe]
          exact List.mem_cons_self
        rw [← solve_solution h b hb hbe, mem_flow] at hd
        rcases hd with rfl | ⟨-, hall⟩
        · exact List.mem_cons_self
        · exact List.mem_cons_of_mem b (ih (hnodes b p hp).1 ⟨u, hu⟩ (hall p hp) u rfl)
  · intro hd
    obtain ⟨w, hw⟩ := hsome
    have hmem : d ∈ nodes := by
      rcases List.mem_cons.mp (hd w hw) with rfl | hmem
      · exact hb
      · exact hw.mem (fun b p hp => (hnodes b p hp).1) hmem
    refine solve_induct (P := fun dom =>
      ∀ b, ∀ d ∈ nodes, (∀ w, OpenWalk preds entry (b :: w) → d ∈ b :: w) → d ∈ dom b)
      ?_ ?_ h b d hmem hd
    · intro dom c hc hdom b d hmem hd
      by_cases heq : b = c
      · rw [heq, Function.update_self, mem_flow]
        by_cases hdc : d = c
        · exact .inl hdc
        · subst heq
          refine .inr ⟨fun hnil => hdc ?_, fun p hp => hdom p d hmem fun u hu => ?_⟩
          · exact List.mem_singleton.mp (hd [] (.start (Or.inr hnil)))
          · exact (List.mem_cons.mp (hd (p :: u) (hu.step hp))).resolve_left hdc
      · rw [Function.update_of_ne heq]
        exact hdom b d hmem hd
    · intro b d hmem hd
      rw [top]
      by_cases hbe : b = entry
      · rw [if_pos hbe, Finset.mem_singleton]
        rw [hbe] at hd
        exact List.mem_singleton.mp (hd [] (.start (Or.inl rfl)))
      · rw [if_neg hbe, Finset.mem_insert, List.mem_toFinset]
        exact .inr hmem

/-- A solution below the top has exactly the dominators of a reachable node if and only if the
node is sealed. -/
theorem solution_iff_sealed (hentry : entry ∈ nodes)
    (hnodes : ∀ b, ∀ p ∈ preds b, p ∈ nodes ∧ b ∈ nodes) {fuel : ℕ} {dom : ι → Finset ι}
    (h : solve preds entry nodes fuel (top entry nodes) = some dom) {b : ι}
    (hb : Reachable preds entry b) :
    (∀ d, d ∈ dom b ↔ Dominates preds entry d b) ↔ Sealed preds entry b := by
  have hmem : b ∈ nodes := hb.mem hentry fun b p hp => (hnodes b p hp).2
  have hsome : ∃ w, OpenWalk preds entry (b :: w) := by
    obtain ⟨w, hw⟩ := hb
    exact ⟨w, hw.openWalk⟩
  have hiff := fun d => mem_solution_iff_openWalk (d := d) hnodes h hmem hsome
  constructor
  · intro hexact
    exact (hiff entry).mp ((hexact entry).mpr dominates_root)
  · intro hsealed d
    rw [hiff d]
    exact ⟨fun hd w hw => hd w hw.openWalk, fun hd w hw => hd.mem_openWalk hw (hsealed w hw)⟩

/-- Where no unreachable node leads to a reachable one, a solution below the top has
exactly the dominators of every reachable node. -/
theorem mem_solution_iff (hentry : entry ∈ nodes)
    (hnodes : ∀ b, ∀ p ∈ preds b, p ∈ nodes ∧ b ∈ nodes)
    (hclosed : ∀ b, Reachable preds entry b → ∀ p ∈ preds b, Reachable preds entry p)
    {fuel : ℕ} {dom : ι → Finset ι}
    (h : solve preds entry nodes fuel (top entry nodes) = some dom) {d b : ι}
    (hb : Reachable preds entry b) : d ∈ dom b ↔ Dominates preds entry d b := by
  refine (solution_iff_sealed hentry hnodes h hb).mpr (fun w hw => ?_) d
  generalize hwalk : b :: w = walk at hw
  induction hw generalizing b w with
  | @start c hc =>
      obtain ⟨rfl, rfl⟩ := List.cons.inj hwalk
      by_cases hbe : b = entry
      · exact List.mem_singleton.mpr hbe.symm
      · exact absurd (hc.resolve_left hbe) (hb.preds_ne_nil hbe)
  | @step p c u _ hp ih =>
      obtain ⟨rfl, rfl⟩ := List.cons.inj hwalk
      exact List.mem_cons_of_mem b (ih (hclosed b hb p hp) u rfl)

end Solution

/-! ## Strict dominators -/

section Strict

variable {preds : ι → List ι} {entry : ι} {dom : ι → Finset ι}

theorem card_lt_card
    (hdom : ∀ b, Reachable preds entry b → ∀ d, d ∈ dom b ↔ Dominates preds entry d b)
    {d b : ι} (hb : Reachable preds entry b) (hd : d ∈ dom b) (hne : d ≠ b) :
    (dom d).card < (dom b).card := by
  have hdb := (hdom b hb d).mp hd
  have hreach := hdb.reachable hb
  apply Finset.card_lt_card
  refine Finset.ssubset_iff_of_subset ?_ |>.mpr ⟨b, ?_, ?_⟩
  · intro e he
    exact (hdom b hb e).mpr (((hdom d hreach e).mp he).trans hdb)
  · exact (hdom b hb b).mpr (dominates_self b)
  · intro hbd
    exact hne (hdb.antisymm ((hdom d hreach b).mp hbd) hb)

/-- Some strict dominator of a reachable node dominates no other one. -/
theorem exists_immediate [DecidableEq ι]
    (hdom : ∀ b, Reachable preds entry b → ∀ d, d ∈ dom b ↔ Dominates preds entry d b)
    {b : ι} (hb : Reachable preds entry b) (hentry : entry ∈ dom b) (hne : b ≠ entry) :
    ∃ c ∈ dom b, c ≠ b ∧ ∀ d ∈ dom b, d ≠ b → d ≠ c → c ∉ dom d := by
  obtain ⟨c, hc, hmax⟩ := Finset.exists_max_image ((dom b).erase b) (fun d => (dom d).card)
    ⟨entry, Finset.mem_erase.mpr ⟨Ne.symm hne, hentry⟩⟩
  obtain ⟨hcb, hcmem⟩ := Finset.mem_erase.mp hc
  refine ⟨c, hcmem, hcb, fun d hd hdb hdc hcd => ?_⟩
  have hreach := ((hdom b hb d).mp hd).reachable hb
  have hlt := card_lt_card hdom hreach hcd (Ne.symm hdc)
  have hle := hmax d (Finset.mem_erase.mpr ⟨hdb, hd⟩)
  omega

end Strict

end Dominators
