import Mathlib.Algebra.Ring.Nat
import Mathlib.Algebra.BigOperators.Group.List.Basic

/-!
# Parts between separators

The parts of a list that is split at a separator do not have the separator, have entries of
the list only, and are together with the separators as long as the list.
-/

namespace SplitParts

variable {α : Type*} [DecidableEq α] {part text : List α} {special : α}

theorem mem_splitOn (h : part ∈ text.splitOn special) :
    special ∉ part ∧ ∀ a ∈ part, a ∈ text := by
  induction text generalizing part with
  | nil =>
      rw [List.splitOn_nil, List.mem_singleton] at h
      rw [h]
      simp
  | cons first text ih =>
      obtain ⟨head, rest, hparts⟩ := List.exists_cons_of_ne_nil (List.splitOn_ne_nil special text)
      rw [List.splitOn_cons_eq_if_modifyHead, hparts] at h
      rw [hparts] at ih
      split_ifs at h with heq
      · rcases List.mem_cons.mp h with rfl | hmem
        · simp
        · obtain ⟨hnot, hsub⟩ := ih hmem
          exact ⟨hnot, fun a ha => List.mem_cons_of_mem _ (hsub a ha)⟩
      · rw [List.modifyHead_cons, List.mem_cons] at h
        have hfirst : special ≠ first := fun h => heq (beq_iff_eq.mpr h.symm)
        rcases h with rfl | hmem
        · obtain ⟨hnot, hsub⟩ := ih List.mem_cons_self
          refine ⟨List.not_mem_cons_of_ne_of_not_mem hfirst hnot, fun a ha => ?_⟩
          rcases List.mem_cons.mp ha with rfl | ha
          · exact List.mem_cons_self
          · exact List.mem_cons_of_mem _ (hsub a ha)
        · obtain ⟨hnot, hsub⟩ := ih (List.mem_cons_of_mem _ hmem)
          exact ⟨hnot, fun a ha => List.mem_cons_of_mem _ (hsub a ha)⟩

/-- Every part but the last is followed by a separator. -/
theorem sum_length_splitOn (text : List α) (special : α) :
    ((text.splitOn special).map fun part => part.length + 1).sum = text.length + 1 := by
  induction text with
  | nil => rfl
  | cons first text ih =>
      obtain ⟨head, rest, hparts⟩ := List.exists_cons_of_ne_nil (List.splitOn_ne_nil special text)
      rw [List.splitOn_cons_eq_if_modifyHead, hparts]
      rw [hparts, List.map_cons, List.sum_cons] at ih
      split_ifs with heq
      · simp only [List.map_cons, List.sum_cons, List.length_nil, List.length_cons]
        omega
      · simp only [List.modifyHead_cons, List.map_cons, List.sum_cons, List.length_cons]
        omega

end SplitParts
