import Mathlib.Data.List.Basic
import Mathlib.Tactic.Ring

/-!
# Round-robin fixpoint iteration

A dataflow solver keeps one fact for each node, recomputes the facts in place in
a fixed order, and repeats such rounds until one changes nothing.  For monotone
equations started below their own images the facts only grow, so a size bound
on facts bounds the number of rounds, and what is left at the end solves the
equations.
-/

namespace RoundRobin

/-! ## Iterating until nothing changes -/

section Iterate

variable {σ : Type} [DecidableEq σ]

/-- Repeat `round` until it changes nothing, within the given fuel. -/
def iterate (round : σ → σ) : ℕ → σ → Option σ
  | 0, _ => none
  | fuel + 1, s => if round s = s then some s else iterate round fuel (round s)

theorem iterate_fixed
    {round : σ → σ} {fuel : ℕ} {s r : σ}
    (h : iterate round fuel s = some r) : round r = r := by
  induction fuel generalizing s with
  | zero => cases h
  | succ fuel ih =>
      by_cases hs : round s = s
      · rw [iterate, if_pos hs] at h
        cases h
        exact hs
      · rw [iterate, if_neg hs] at h
        exact ih h

/-- What every round preserves holds at the end. -/
theorem iterate_invariant
    {round : σ → σ} {P : σ → Prop} (hround : ∀ s, P s → P (round s))
    {fuel : ℕ} {s r : σ} (hs : P s) (h : iterate round fuel s = some r) :
    P r := by
  induction fuel generalizing s with
  | zero => cases h
  | succ fuel ih =>
      by_cases hfix : round s = s
      · rw [iterate, if_pos hfix] at h
        cases h
        exact hs
      · rw [iterate, if_neg hfix] at h
        exact ih (hround s hs) h

/-- A measure that every changing round raises, and that is bounded, bounds the
number of rounds. -/
theorem iterate_isSome
    {round : σ → σ} {P : σ → Prop} (measure : σ → ℕ) {bound : ℕ}
    (hround : ∀ s, P s → P (round s))
    (hbound : ∀ s, P s → measure s ≤ bound)
    (hraise : ∀ s, P s → round s ≠ s → measure s < measure (round s))
    {fuel : ℕ} {s : σ} (hs : P s) (hfuel : bound < measure s + fuel) :
    ∃ r, iterate round fuel s = some r := by
  induction fuel generalizing s with
  | zero =>
      have hle := hbound s hs
      omega
  | succ fuel ih =>
      by_cases hfix : round s = s
      · exact ⟨s, by rw [iterate, if_pos hfix]⟩
      · have hlt := hraise s hs hfix
        obtain ⟨r, hr⟩ := ih (hround s hs) (by omega)
        exact ⟨r, by rw [iterate, if_neg hfix, hr]⟩

end Iterate

/-! ## Facts recomputed in place -/

section Sweep

variable {α : Type} [Inhabited α]

/-- The fact of node `i`. -/
def fact (s : List α) (i : ℕ) : α :=
  s.getD i default

/-- Recompute the fact of node `i`. -/
def updateAt (F : ℕ → List α → α) (s : List α) (i : ℕ) : List α :=
  s.set i (F i s)

/-- Recompute the facts of the nodes of `order`, one after the other. -/
def sweep (F : ℕ → List α → α) (order : List ℕ) (s : List α) : List α :=
  order.foldl (updateAt F) s

@[simp]
theorem updateAt_length (F : ℕ → List α → α) (s : List α) (i : ℕ) :
    (updateAt F s i).length = s.length := by
  simp [updateAt]

@[simp]
theorem sweep_length (F : ℕ → List α → α) (order : List ℕ) (s : List α) :
    (sweep F order s).length = s.length := by
  induction order generalizing s with
  | nil => rfl
  | cons i order ih =>
      rw [sweep, List.foldl_cons]
      exact (ih (updateAt F s i)).trans (updateAt_length F s i)

theorem fact_updateAt_self
    (F : ℕ → List α → α) {s : List α} {i : ℕ} (hi : i < s.length) :
    fact (updateAt F s i) i = F i s := by
  simp [fact, updateAt, hi]

theorem fact_updateAt_of_ne
    (F : ℕ → List α → α) (s : List α) {i j : ℕ} (hne : i ≠ j) :
    fact (updateAt F s i) j = fact s j := by
  simp [fact, updateAt, List.getElem?_set_ne hne]

theorem ext_fact
    {s t : List α} (hlen : s.length = t.length)
    (h : ∀ i, i < s.length → fact s i = fact t i) : s = t := by
  refine List.ext_getElem hlen fun i hs ht => ?_
  have hi := h i hs
  simpa [fact, hs, ht] using hi

variable [PartialOrder α]

/-- Pointwise order on fact lists of one length. -/
def Below (s t : List α) : Prop :=
  s.length = t.length ∧ ∀ i, fact s i ≤ fact t i

theorem Below.refl (s : List α) : Below s s :=
  ⟨rfl, fun _ => le_rfl⟩

theorem Below.trans {s t u : List α} (hst : Below s t) (htu : Below t u) :
    Below s u :=
  ⟨hst.1.trans htu.1, fun i => (hst.2 i).trans (htu.2 i)⟩

theorem Below.antisymm {s t : List α} (hst : Below s t) (hts : Below t s) :
    s = t :=
  ext_fact hst.1 fun i _ => le_antisymm (hst.2 i) (hts.2 i)

/-- Larger facts give larger recomputed facts. -/
def MonotoneEqs (F : ℕ → List α → α) : Prop :=
  ∀ i s t, Below s t → F i s ≤ F i t

/-- No fact exceeds its recomputed value. -/
def Increasing (F : ℕ → List α → α) (s : List α) : Prop :=
  ∀ i, i < s.length → fact s i ≤ F i s

theorem Increasing.below_updateAt
    {F : ℕ → List α → α} {s : List α} (h : Increasing F s) (i : ℕ) :
    Below s (updateAt F s i) := by
  refine ⟨(updateAt_length F s i).symm, fun j => ?_⟩
  by_cases hij : i = j
  · subst hij
    by_cases hi : i < s.length
    · rw [fact_updateAt_self F hi]
      exact h i hi
    · rw [updateAt, List.set_eq_of_length_le (by omega)]
  · rw [fact_updateAt_of_ne F s hij]

theorem Increasing.updateAt
    {F : ℕ → List α → α} (hF : MonotoneEqs F) {s : List α}
    (h : Increasing F s) (i : ℕ) : Increasing F (updateAt F s i) := by
  intro j hj
  rw [updateAt_length] at hj
  have hgrow := hF j s _ (h.below_updateAt i)
  by_cases hij : i = j
  · subst hij
    rw [fact_updateAt_self F hj]
    exact hgrow
  · rw [fact_updateAt_of_ne F s hij]
    exact (h j hj).trans hgrow

theorem Increasing.sweep_and_below
    {F : ℕ → List α → α} (hF : MonotoneEqs F) (order : List ℕ) :
    ∀ {s : List α}, Increasing F s →
      Increasing F (sweep F order s) ∧ Below s (sweep F order s) := by
  induction order with
  | nil => exact fun {s} h => ⟨h, Below.refl s⟩
  | cons i order ih =>
      intro s h
      obtain ⟨hinc, hbelow⟩ := ih (h.updateAt hF i)
      exact ⟨hinc, (h.below_updateAt i).trans hbelow⟩

/-- A sweep that changes nothing leaves a solution of the equations. -/
theorem Increasing.solves_of_fixed
    {F : ℕ → List α → α} (hF : MonotoneEqs F) (order : List ℕ) :
    ∀ {s : List α}, Increasing F s → RoundRobin.sweep F order s = s →
      ∀ i ∈ order, i < s.length → fact s i = F i s := by
  induction order with
  | nil => exact fun _ _ i hi => by cases hi
  | cons i order ih =>
      intro s h hfix j hj hlt
      have hstep : Below (RoundRobin.updateAt F s i) s := by
        have hbelow := ((h.updateAt hF i).sweep_and_below hF order).2
        rw [RoundRobin.sweep, List.foldl_cons] at hfix
        have hrest : RoundRobin.sweep F order (RoundRobin.updateAt F s i) = s :=
          hfix
        rwa [hrest] at hbelow
      have hsame : RoundRobin.updateAt F s i = s :=
        hstep.antisymm (h.below_updateAt i)
      rcases List.mem_cons.mp hj with rfl | hj
      · rw [← fact_updateAt_self F hlt, hsame]
      · have hrest : RoundRobin.sweep F order s = s := by
          rw [RoundRobin.sweep, List.foldl_cons, hsame] at hfix
          exact hfix
        exact ih h hrest j hj hlt

/-- Facts that start below a solution stay below it. -/
theorem sweep_below_of_closed
    {F : ℕ → List α → α} (hF : MonotoneEqs F) {t : List α}
    (ht : ∀ i, i < t.length → F i t ≤ fact t i) (order : List ℕ) :
    ∀ {s : List α}, Below s t → Below (sweep F order s) t := by
  induction order with
  | nil => exact fun h => h
  | cons i order ih =>
      intro s h
      refine ih ⟨(updateAt_length F s i).trans h.1, fun j => ?_⟩
      by_cases hij : i = j
      · subst hij
        by_cases hi : i < s.length
        · rw [fact_updateAt_self F hi]
          exact (hF i s t h).trans (ht i (h.1 ▸ hi))
        · rw [updateAt, List.set_eq_of_length_le (by omega)]
          exact h.2 i
      · rw [fact_updateAt_of_ne F s hij]
        exact h.2 j

/-! ## Termination -/

/-- The sum of the sizes of all facts. -/
def totalSize (size : α → ℕ) (s : List α) : ℕ :=
  (s.map size).sum

theorem totalSize_le
    {size : α → ℕ} {bound : ℕ} (hsize : ∀ a, size a ≤ bound) (s : List α) :
    totalSize size s ≤ bound * s.length := by
  induction s with
  | nil => simp [totalSize]
  | cons a s ih =>
      have ha := hsize a
      simp only [totalSize, List.map_cons, List.sum_cons, List.length_cons] at ih ⊢
      calc
        size a + (s.map size).sum ≤ bound + bound * s.length := by omega
        _ = bound * (s.length + 1) := by ring

theorem totalSize_le_of_below
    {size : α → ℕ} (hmono : ∀ a b, a < b → size a < size b) :
    ∀ {s t : List α}, Below s t →
      totalSize size s ≤ totalSize size t ∧
        (s ≠ t → totalSize size s < totalSize size t) := by
  intro s
  induction s with
  | nil =>
      intro t h
      have hnil : t = [] := List.length_eq_zero_iff.mp h.1.symm
      subst hnil
      exact ⟨le_rfl, fun hne => absurd rfl hne⟩
  | cons a s ih =>
      intro t h
      cases t with
      | nil => exact absurd h.1 (by simp)
      | cons b t =>
          have hhead : a ≤ b := by simpa [fact] using h.2 0
          have htail : Below s t := by
            refine ⟨by simpa using h.1, fun i => ?_⟩
            simpa [fact] using h.2 (i + 1)
          obtain ⟨hle, hlt⟩ := ih htail
          simp only [totalSize, List.map_cons, List.sum_cons] at hle hlt ⊢
          rcases hhead.eq_or_lt with rfl | hab
          · refine ⟨by omega, fun hne => ?_⟩
            have hst : s ≠ t := fun hst => hne (by rw [hst])
            have := hlt hst
            omega
          · have := hmono a b hab
            exact ⟨by omega, fun _ => by omega⟩

/-- The rounds end, and what they leave solves the equations. -/
theorem iterate_sweep_solves
    [DecidableEq α] {F : ℕ → List α → α} (hF : MonotoneEqs F)
    {size : α → ℕ} {bound : ℕ} (hsize : ∀ a, size a ≤ bound)
    (hmono : ∀ a b, a < b → size a < size b)
    {order : List ℕ} {s : List α} (hs : Increasing F s)
    (horder : ∀ i, i < s.length → i ∈ order)
    {fuel : ℕ} (hfuel : bound * s.length < fuel) :
    ∃ r, iterate (sweep F order) fuel s = some r ∧
      r.length = s.length ∧ Below s r ∧
      ∀ i, i < s.length → fact r i = F i r := by
  have hkeeps : ∀ t, Increasing F t ∧ t.length = s.length ∧ Below s t →
      Increasing F (sweep F order t) ∧ (sweep F order t).length = s.length ∧
        Below s (sweep F order t) := by
    rintro t ⟨hinc, hlen, hbelow⟩
    obtain ⟨hinc', hbelow'⟩ := hinc.sweep_and_below hF order
    exact ⟨hinc', (sweep_length F order t).trans hlen, hbelow.trans hbelow'⟩
  have hstart : Increasing F s ∧ s.length = s.length ∧ Below s s :=
    ⟨hs, rfl, Below.refl s⟩
  have hend : ∃ r, iterate (sweep F order) fuel s = some r := by
    refine iterate_isSome (totalSize size) hkeeps ?_ ?_ hstart
      (Nat.lt_of_lt_of_le hfuel (Nat.le_add_left _ _))
    · intro t ht
      rw [← ht.2.1]
      exact totalSize_le hsize t
    · intro t ht hne
      have hbelow := (ht.1.sweep_and_below hF order).2
      exact (totalSize_le_of_below hmono hbelow).2 (Ne.symm hne)
  obtain ⟨r, hr⟩ := hend
  obtain ⟨hinc, hlen, hbelow⟩ := iterate_invariant hkeeps hstart hr
  refine ⟨r, hr, hlen, hbelow, fun i hi => ?_⟩
  exact hinc.solves_of_fixed hF order (iterate_fixed hr) i (horder i hi)
    (hlen.symm ▸ hi)

theorem iterate_sweep_from_bottom
    [DecidableEq α] {F : ℕ → List α → α} (hF : MonotoneEqs F)
    {size : α → ℕ} {bound : ℕ} (hsize : ∀ a, size a ≤ bound)
    (hmono : ∀ a b, a < b → size a < size b)
    {bottom : α} (hbottom : ∀ a, bottom ≤ a)
    {order : List ℕ} {n : ℕ} (horder : ∀ i, i < n → i ∈ order)
    {fuel : ℕ} (hfuel : bound * n < fuel) :
    ∃ r, iterate (sweep F order) fuel (List.replicate n bottom) = some r ∧
      ∀ i, i < n → fact r i = F i r := by
  have hlen : (List.replicate n bottom).length = n := List.length_replicate
  have hstart : Increasing F (List.replicate n bottom) := by
    intro i hi
    rw [hlen] at hi
    have hfact : fact (List.replicate n bottom) i = bottom := by
      simp [fact, hi]
    rw [hfact]
    exact hbottom _
  obtain ⟨r, hr, -, -, hsolves⟩ := iterate_sweep_solves hF hsize hmono hstart
    (fun i hi => horder i (hlen ▸ hi)) (hlen.symm ▸ hfuel)
  exact ⟨r, hr, fun i hi => hsolves i (hlen.symm ▸ hi)⟩

theorem iterate_sweep_length
    [DecidableEq α] {F : ℕ → List α → α} {order : List ℕ} {fuel : ℕ} {s r : List α}
    (h : iterate (sweep F order) fuel s = some r) : r.length = s.length := by
  have hround : ∀ t : List α, t.length = s.length →
      (sweep F order t).length = s.length :=
    fun t ht => (sweep_length F order t).trans ht
  exact iterate_invariant hround rfl h

/-- Smaller equations have smaller solutions, when both are reached from the
least facts. -/
theorem iterate_sweep_below
    [DecidableEq α] {F F' : ℕ → List α → α} (hF : MonotoneEqs F)
    {bottom : α} (hbottom : ∀ a, bottom ≤ a) {order order' : List ℕ}
    {fuel fuel' n : ℕ} {r r' : List α}
    (hle : ∀ i, i < n → F i r' ≤ F' i r')
    (hr : iterate (sweep F order) fuel (List.replicate n bottom) = some r)
    (hr' : iterate (sweep F' order') fuel' (List.replicate n bottom) = some r')
    (hsolves : ∀ i, i < n → fact r' i = F' i r') : Below r r' := by
  have hlen : r'.length = n := by
    rw [iterate_sweep_length hr', List.length_replicate]
  have hstart : Below (List.replicate n bottom) r' := by
    constructor
    · rw [List.length_replicate, hlen]
    · intro i
      by_cases hi : i < n
      · have hfact : fact (List.replicate n bottom) i = bottom := by
          simp [fact, hi]
        rw [hfact]
        exact hbottom _
      · have hnone : fact (List.replicate n bottom) i = fact r' i := by
          simp [fact, Nat.le_of_not_lt hi, hlen]
        exact le_of_eq hnone
  have hclosed : ∀ i, i < r'.length → F i r' ≤ fact r' i := by
    intro i hi
    rw [hlen] at hi
    rw [hsolves i hi]
    exact hle i hi
  have hround : ∀ s, Below s r' → Below (sweep F order s) r' :=
    fun _ h => sweep_below_of_closed hF hclosed order h
  exact iterate_invariant hround hstart hr

end Sweep

end RoundRobin
