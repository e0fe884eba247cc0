import Mathlib.Data.List.Basic
import Mathlib.Data.List.Induction

/-!
# Last matches

The last entry of a list with a property, by its index.
-/

namespace LastMatch

variable {α β : Type*}

/-- An entry has the property, and none behind it does. -/
structure IsLast (P : α → Prop) (entries : List α) (index : ℕ) (entry : α) : Prop where
  getElem? : entries[index]? = some entry
  holds : P entry
  last : ∀ later other, index < later → entries[later]? = some other → ¬P other

variable {P : α → Prop} {entries : List α} {index : ℕ} {entry new : α}

theorem IsLast.lt (h : IsLast P entries index entry) : index < entries.length :=
  (List.getElem?_eq_some_iff.mp h.getElem?).1

theorem isLast_append_singleton_of_pos (hnew : P new) :
    IsLast P (entries ++ [new]) index entry ↔ index = entries.length ∧ entry = new := by
  have hend : (entries ++ [new])[entries.length]? = some new := by simp
  constructor
  · intro h
    have hlt := h.lt
    rw [List.length_append, List.length_singleton] at hlt
    by_cases hindex : index < entries.length
    · exact absurd hnew (h.last _ _ hindex hend)
    · have heq : index = entries.length := by omega
      have hentry := h.getElem?
      rw [heq, hend] at hentry
      exact ⟨heq, (Option.some.inj hentry).symm⟩
  · rintro ⟨rfl, rfl⟩
    refine ⟨hend, hnew, fun later other hlater hother => ?_⟩
    obtain ⟨hlt, -⟩ := List.getElem?_eq_some_iff.mp hother
    rw [List.length_append, List.length_singleton] at hlt
    omega

theorem isLast_append_singleton_of_neg (hnew : ¬P new) :
    IsLast P (entries ++ [new]) index entry ↔ IsLast P entries index entry := by
  have hend : (entries ++ [new])[entries.length]? = some new := by simp
  constructor
  · intro h
    have hlt := h.lt
    rw [List.length_append, List.length_singleton] at hlt
    have hindex : index < entries.length := by
      by_contra hge
      have hentry := h.getElem?
      rw [show index = entries.length by omega, hend] at hentry
      exact hnew (Option.some.inj hentry ▸ h.holds)
    have hentry := h.getElem?
    rw [List.getElem?_append_left hindex] at hentry
    refine ⟨hentry, h.holds, fun later other hlater hother => ?_⟩
    obtain ⟨hlt, -⟩ := List.getElem?_eq_some_iff.mp hother
    exact h.last later other hlater (by rw [List.getElem?_append_left hlt, hother])
  · intro h
    refine ⟨by rw [List.getElem?_append_left h.lt, h.getElem?], h.holds,
      fun later other hlater hother => ?_⟩
    by_cases hlt : later < entries.length
    · rw [List.getElem?_append_left hlt] at hother
      exact h.last later other hlater hother
    · obtain ⟨hlt', -⟩ := List.getElem?_eq_some_iff.mp hother
      rw [List.length_append, List.length_singleton] at hlt'
      rw [show later = entries.length by omega, hend] at hother
      exact Option.some.inj hother ▸ hnew

/-- The last entry of a filter is the last match. -/
theorem getLast?_filter_eq_some_iff [DecidablePred P] :
    (entries.filter fun entry => P entry).getLast? = some entry ↔
      ∃ index, IsLast P entries index entry := by
  induction entries using List.reverseRecOn with
  | nil =>
      constructor
      · intro h
        cases h
      · rintro ⟨index, h⟩
        cases h.getElem?
  | append_singleton entries new ih =>
      rw [List.filter_append]
      by_cases hnew : P new
      · have hfilter : [new].filter (fun entry => P entry) = [new] := by simp [hnew]
        rw [hfilter, List.getLast?_append, List.getLast?_singleton, Option.some_or,
          Option.some_inj]
        simp only [isLast_append_singleton_of_pos hnew, exists_eq_left]
        exact eq_comm
      · have hfilter : [new].filter (fun entry => P entry) = [] := by simp [hnew]
        rw [hfilter, List.append_nil, ih]
        simp only [isLast_append_singleton_of_neg hnew]

/-- Lists that have the properties at the same indices have the last matches there. -/
theorem IsLast.transfer {Q : β → Prop} {others : List β} {image : β}
    (h : IsLast P entries index entry) (himage : others[index]? = some image)
    (hrelated : ∀ (place : ℕ) other, others[place]? = some other →
      ∃ source, entries[place]? = some source ∧ (Q other ↔ P source)) :
    IsLast Q others index image := by
  refine ⟨himage, ?_, fun later other hlater hother => ?_⟩
  · obtain ⟨source, hsource, hiff⟩ := hrelated index image himage
    rw [h.getElem?] at hsource
    cases hsource
    exact hiff.mpr h.holds
  · obtain ⟨source, hsource, hiff⟩ := hrelated later other hother
    exact fun hQ => h.last later source hlater hsource (hiff.mp hQ)

end LastMatch
