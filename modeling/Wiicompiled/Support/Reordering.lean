import Mathlib.Data.List.Sort
import Wiicompiled.Support.PartialMaps

/-!
# Stable sorting of effects

A stable sort keeps the order of equal keys, so it commutes with the selection of
elements, and it may be applied to a list of effects when every two of them that it
exchanges commute.
-/

namespace Reordering

variable {α σ : Type*} {r : α → α → Prop} [DecidableRel r]

/-- Selecting before or after an ordered insertion makes no difference. -/
theorem filter_orderedInsert [IsTrans α r] (p : α → Bool) (a : α) {l : List α}
    (hl : l.Pairwise r) :
    (l.orderedInsert r a).filter p =
      if p a then (l.filter p).orderedInsert r a else l.filter p := by
  induction l with
  | nil => cases h : p a <;> simp [h]
  | cons b l ih =>
      have htail := ih (List.pairwise_cons.mp hl).2
      by_cases hab : r a b
      · rw [List.orderedInsert_cons_of_le r l hab]
        cases ha : p a
        · simp [ha]
        · rw [List.filter_cons_of_pos ha, if_pos rfl]
          -- `a` comes before everything that is selected
          have hbefore : ∀ c ∈ (b :: l).filter p, r a c := by
            intro c hc
            rcases List.mem_cons.mp (List.mem_filter.mp hc).1 with rfl | hc
            · exact hab
            · exact IsTrans.trans _ _ _ hab ((List.pairwise_cons.mp hl).1 c hc)
          rcases hfilter : (b :: l).filter p with _ | ⟨c, rest⟩
          · rfl
          · rw [List.orderedInsert_cons_of_le r rest
              (hbefore c (by rw [hfilter]; exact List.mem_cons_self))]
      · rw [List.orderedInsert_of_not_le r l hab]
        cases hb : p b
        · rw [List.filter_cons_of_neg (by simp [hb]), htail,
            List.filter_cons_of_neg (by simp [hb])]
        · rw [List.filter_cons_of_pos hb, htail, List.filter_cons_of_pos hb,
            List.orderedInsert_of_not_le r _ hab]
          split <;> rfl

/-- Selecting before or after a stable sort makes no difference. -/
theorem filter_insertionSort [IsTrans α r] [Std.Total r] (p : α → Bool) (l : List α) :
    (l.insertionSort r).filter p = (l.filter p).insertionSort r := by
  induction l with
  | nil => rfl
  | cons a l ih =>
      rw [List.insertionSort_cons, filter_orderedInsert p a (List.pairwise_insertionSort r l),
        ih]
      cases ha : p a
      · rw [List.filter_cons_of_neg (by simp [ha])]
        rfl
      · rw [List.filter_cons_of_pos ha, List.insertionSort_cons]
        rfl

/-- A list whose elements with `p` all come first is cut where they end. -/
theorem filter_append_filter_not {p : α → Bool} {l : List α}
    (h : l.Pairwise fun a b => p b → p a) : l.filter p ++ l.filter (fun a => !p a) = l := by
  induction l with
  | nil => rfl
  | cons a l ih =>
      obtain ⟨hhead, htail⟩ := List.pairwise_cons.mp h
      cases ha : p a
      · have hnone : ∀ b ∈ l, ¬p b = true := by
          intro b hb hpb
          exact absurd (hhead b hb hpb) (by simp [ha])
        rw [List.filter_cons_of_neg (by simp [ha]), List.filter_eq_nil_iff.mpr hnone,
          List.nil_append, List.filter_eq_self.mpr]
        intro b hb
        rcases List.mem_cons.mp hb with rfl | hb
        · simp [ha]
        · simpa using hnone b hb
      · rw [List.filter_cons_of_pos ha, List.filter_cons_of_neg (by simp [ha]),
          List.cons_append, ih htail]

/-- A sort depends on the relation between the elements of the list only. -/
theorem insertionSort_congr {s : α → α → Prop} [DecidableRel s] {l : List α}
    (h : ∀ a ∈ l, ∀ b ∈ l, r a b ↔ s a b) : l.insertionSort r = l.insertionSort s := by
  simpa using List.map_insertionSort r s id l h

/-! ## Effects -/

/-- The effects of a list, one after the other, up to the first failure. -/
def runAll (effect : α → σ → Option σ) (l : List α) (state : σ) : Option σ :=
  l.foldlM (fun state a => effect a state) state

variable {effect : α → σ → Option σ}

@[simp]
theorem runAll_cons (a : α) (l : List α) (state : σ) :
    runAll effect (a :: l) state = (effect a state).bind (runAll effect l) :=
  rfl

theorem runAll_append (l l' : List α) (state : σ) :
    runAll effect (l ++ l') state = (runAll effect l state).bind (runAll effect l') := by
  rw [runAll, List.foldlM_append]
  rfl

theorem runAll_congr {effect' : α → σ → Option σ} {l : List α}
    (h : ∀ a ∈ l, effect a = effect' a) (state : σ) :
    runAll effect l state = runAll effect' l state := by
  induction l generalizing state with
  | nil => rfl
  | cons a l ih =>
      rw [runAll_cons, runAll_cons, h a List.mem_cons_self]
      congr 1
      funext state'
      exact ih (fun b hb => h b (List.mem_cons_of_mem a hb)) state'

/-- Running what a translation emits is running the translated effects. -/
theorem runAll_of_mapM {β : Type*} {emit : α → Option β} {run : β → σ → Option σ}
    {l : List α} {l' : List β} (h : l.mapM emit = some l') (state : σ) :
    runAll run l' state = runAll (fun a state => (emit a).bind (run · state)) l state := by
  have hforall := PartialMaps.forall₂_of_mapM h
  clear h
  induction hforall generalizing state with
  | nil => rfl
  | cons hb _ ih =>
      rw [runAll_cons, runAll_cons, hb, Option.bind_some]
      congr 1
      funext state'
      exact ih state'

/-- Two effects that give the same result in both orders. -/
def Commute (effect : α → σ → Option σ) (a b : α) : Prop :=
  ∀ state, (effect a state).bind (effect b) = (effect b state).bind (effect a)

/-- An effect may be inserted at its place if it commutes with those before it. -/
theorem runAll_orderedInsert {a : α} {l : List α}
    (h : ∀ b ∈ l, ¬r a b → Commute effect a b) (state : σ) :
    runAll effect (l.orderedInsert r a) state = runAll effect (a :: l) state := by
  induction l generalizing state with
  | nil => rfl
  | cons b l ih =>
      by_cases hab : r a b
      · rw [List.orderedInsert_cons_of_le r l hab]
      · rw [List.orderedInsert_of_not_le r l hab, runAll_cons, runAll_cons]
        have htail := ih fun c hc => h c (List.mem_cons_of_mem b hc)
        calc
          (effect b state).bind (runAll effect (l.orderedInsert r a))
            = (effect b state).bind (runAll effect (a :: l)) := by
              congr 1
              funext state'
              exact htail state'
          _ = ((effect b state).bind (effect a)).bind (runAll effect l) := by
              rw [Option.bind_assoc]
              rfl
          _ = ((effect a state).bind (effect b)).bind (runAll effect l) := by
              rw [h b List.mem_cons_self hab state]
          _ = (effect a state).bind (runAll effect (b :: l)) := by
              rw [Option.bind_assoc]
              rfl

/-- A stable sort of effects changes nothing if those it exchanges commute. -/
theorem runAll_insertionSort {l : List α}
    (h : l.Pairwise fun a b => ¬r a b → Commute effect a b) (state : σ) :
    runAll effect (l.insertionSort r) state = runAll effect l state := by
  induction l generalizing state with
  | nil => rfl
  | cons a l ih =>
      obtain ⟨hhead, htail⟩ := List.pairwise_cons.mp h
      rw [List.insertionSort_cons, runAll_orderedInsert, runAll_cons, runAll_cons]
      · congr 1
        funext state'
        exact ih htail state'
      · intro b hb
        exact hhead b ((List.mem_insertionSort r).mp hb)

end Reordering
