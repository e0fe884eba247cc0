import Mathlib.Data.List.Perm.Basic
import Mathlib.Data.List.TakeWhile
import Mathlib.Order.Lattice

/-!
# Lookups in sorted lists

A list is sorted by a key, and the last entry whose key is not above a bound is looked up.
The order of entries with one key is left open, so an entry can only be relied on when no
other entry has its key.
-/

namespace SortedLookup

variable {α κ : Type*} [LinearOrder κ] {key : α → κ}

/-- An arrangement of a list with increasing keys; entries with one key are in any order. -/
structure Arranged (key : α → κ) (entries sorted : List α) : Prop where
  perm : sorted.Perm entries
  sorted : sorted.Pairwise fun a b => key a ≤ key b

/-- The last entry before the first whose key is above the bound. -/
def lastUpTo (key : α → κ) (bound : κ) (sorted : List α) : Option α :=
  (sorted.takeWhile fun entry => key entry ≤ bound).getLast?

variable {entries sorted : List α} {entry other : α} {bound : κ}

/-- In a sorted list the entries up to a bound come first. -/
theorem takeWhile_eq_filter (h : sorted.Pairwise fun a b => key a ≤ key b) :
    (sorted.takeWhile fun entry => key entry ≤ bound) =
      sorted.filter fun entry => key entry ≤ bound := by
  induction sorted with
  | nil => rfl
  | cons first rest ih =>
      rw [List.pairwise_cons] at h
      by_cases hfirst : key first ≤ bound
      · rw [List.takeWhile_cons_of_pos (by simpa using hfirst),
          List.filter_cons_of_pos (by simpa using hfirst), ih h.2]
      · rw [List.takeWhile_cons_of_neg (by simpa using hfirst), eq_comm,
          List.filter_eq_nil_iff]
        intro other hother
        rcases List.mem_cons.mp hother with rfl | hrest
        · simpa using hfirst
        · simpa using lt_of_lt_of_le (not_le.mp hfirst) (h.1 other hrest)

/-- What is found is an entry up to the bound, with the greatest key. -/
theorem lastUpTo_eq_some (h : Arranged key entries sorted)
    (hfound : lastUpTo key bound sorted = some entry) :
    entry ∈ entries ∧ key entry ≤ bound ∧
      ∀ other ∈ entries, key other ≤ bound → key other ≤ key entry := by
  rw [lastUpTo, takeWhile_eq_filter h.sorted] at hfound
  have hmem := List.mem_of_getLast? hfound
  rw [List.mem_filter, decide_eq_true_iff] at hmem
  refine ⟨h.perm.mem_iff.mp hmem.1, hmem.2, fun other hother hbound => ?_⟩
  have hfilter : other ∈ sorted.filter fun entry => key entry ≤ bound :=
    List.mem_filter.mpr ⟨h.perm.mem_iff.mpr hother, by simpa using hbound⟩
  have hsorted : (sorted.filter fun entry => key entry ≤ bound).Pairwise
      fun a b => key a ≤ key b := h.sorted.filter _
  obtain ⟨before, hbefore⟩ := List.getLast?_eq_some_iff.mp hfound
  rw [hbefore] at hfilter hsorted
  rcases List.mem_append.mp hfilter with hold | hlast
  · exact (List.pairwise_append.mp hsorted).2.2 other hold entry (List.mem_singleton_self _)
  · rw [List.mem_singleton.mp hlast]

/-- An entry whose key is above those of all others up to the bound is found. -/
theorem lastUpTo_of_unique (h : Arranged key entries sorted) (hmem : entry ∈ entries)
    (hbound : key entry ≤ bound)
    (hunique : ∀ other ∈ entries, other ≠ entry → key other ≤ bound → key other < key entry) :
    lastUpTo key bound sorted = some entry := by
  cases hfound : lastUpTo key bound sorted with
  | none =>
      rw [lastUpTo, takeWhile_eq_filter h.sorted, List.getLast?_eq_none_iff,
        List.filter_eq_nil_iff] at hfound
      exact absurd (by simpa using hbound) (hfound entry (h.perm.mem_iff.mpr hmem))
  | some found =>
      obtain ⟨hfoundMem, hfoundBound, hgreatest⟩ := lastUpTo_eq_some h hfound
      by_contra hne
      exact absurd (hgreatest entry hmem hbound) (not_le.mpr
        (hunique found hfoundMem (fun heq => hne (by rw [heq])) hfoundBound))

theorem exists_arranged (key : α → κ) (entries : List α) : ∃ sorted, Arranged key entries sorted := by
  have hsorted := @List.pairwise_mergeSort _ (fun a b => decide (key a ≤ key b))
    (fun a b c hab hbc => by
      rw [decide_eq_true_iff] at hab hbc ⊢
      exact le_trans hab hbc)
    (fun a b => by simpa using le_total (key a) (key b)) entries
  exact ⟨_, List.mergeSort_perm _ _, hsorted.imp fun h => by simpa using h⟩

/-- An entry with the greatest key up to the bound is found in some arrangement. -/
theorem exists_lastUpTo (hmem : entry ∈ entries) (hbound : key entry ≤ bound)
    (hgreatest : ∀ other ∈ entries, key other ≤ bound → key other ≤ key entry) :
    ∃ sorted, Arranged key entries sorted ∧ lastUpTo key bound sorted = some entry := by
  obtain ⟨before, after, rfl⟩ := List.append_of_mem hmem
  -- the entry goes behind all others with a key up to the bound
  obtain ⟨low, hlow⟩ := exists_arranged key
    ((before ++ after).filter fun entry => key entry ≤ bound)
  obtain ⟨high, hhigh⟩ := exists_arranged key
    ((before ++ after).filter fun entry => !decide (key entry ≤ bound))
  have hlowMem : ∀ other ∈ low, other ∈ before ++ after ∧ key other ≤ bound := by
    intro other hother
    have hfilter := hlow.perm.mem_iff.mp hother
    rw [List.mem_filter, decide_eq_true_iff] at hfilter
    exact hfilter
  have hhighMem : ∀ other ∈ high, bound < key other := by
    intro other hother
    have hfilter := hhigh.perm.mem_iff.mp hother
    simpa using (List.mem_filter.mp hfilter).2
  have hlowLe : ∀ other ∈ low, key other ≤ key entry := by
    intro other hother
    obtain ⟨hmem', hle⟩ := hlowMem other hother
    rw [List.mem_append] at hmem'
    refine hgreatest other ?_ hle
    rw [List.mem_append, List.mem_cons]
    exact hmem'.imp_right Or.inr
  have hsorted : Arranged key (before ++ entry :: after) (low ++ entry :: high) := by
    refine ⟨?_, ?_⟩
    · calc
        (low ++ entry :: high).Perm (entry :: (low ++ high)) := List.perm_middle
        _ |>.Perm (entry :: (before ++ after)) :=
          ((hlow.perm.append hhigh.perm).trans (List.filter_append_perm _ _)).cons entry
        _ |>.Perm (before ++ entry :: after) := List.perm_middle.symm
    · rw [List.pairwise_append, List.pairwise_cons]
      refine ⟨hlow.sorted, ⟨fun other hother => ?_, hhigh.sorted⟩, fun first hfirst => ?_⟩
      · exact le_trans hbound (le_of_lt (hhighMem other hother))
      · intro other hother
        rcases List.mem_cons.mp hother with rfl | hother
        · exact hlowLe first hfirst
        · exact le_trans (hlowMem first hfirst).2 (le_of_lt (hhighMem other hother))
  refine ⟨_, hsorted, ?_⟩
  have hlowFilter : low.filter (fun entry => key entry ≤ bound) = low :=
    List.filter_eq_self.mpr fun other hother => by simpa using (hlowMem other hother).2
  have hhighFilter : high.filter (fun entry => key entry ≤ bound) = [] :=
    List.filter_eq_nil_iff.mpr fun other hother => by simpa using hhighMem other hother
  rw [lastUpTo, takeWhile_eq_filter hsorted.sorted, List.filter_append,
    List.filter_cons_of_pos (by simpa using hbound), hlowFilter, hhighFilter,
    List.getLast?_append, List.getLast?_singleton]
  rfl

end SortedLookup
