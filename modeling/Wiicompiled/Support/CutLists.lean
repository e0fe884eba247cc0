import Wiicompiled.Support.SortedLookup

/-!
# Lists cut at keys

A list with ascending keys is cut at given keys: each element belongs to the greatest cut
that is not above its key.  The pieces, in the order of the cuts, are the list again, and
no piece goes on over a cut.
-/

namespace CutLists

variable {α κ : Type*} [LinearOrder κ]

/-- The elements that belong to a cut. -/
def piece (key : α → κ) (cuts : List κ) (xs : List α) (cut : κ) : List α :=
  xs.filter fun x => SortedLookup.lastUpTo id (key x) cuts = some cut

variable {key : α → κ} {cuts : List κ} {xs : List α} {k cut : κ} {x y : α}

theorem lastUpTo_eq_some_iff (hcuts : cuts.Pairwise (· < ·)) :
    SortedLookup.lastUpTo id k cuts = some cut ↔
      cut ∈ cuts ∧ cut ≤ k ∧ ∀ other ∈ cuts, other ≤ k → other ≤ cut := by
  have harranged : SortedLookup.Arranged id cuts cuts :=
    ⟨List.Perm.refl _, hcuts.imp le_of_lt⟩
  refine ⟨SortedLookup.lastUpTo_eq_some harranged, ?_⟩
  rintro ⟨hmem, hle, hgreatest⟩
  exact SortedLookup.lastUpTo_of_unique harranged hmem hle fun other hother hne hbelow =>
    lt_of_le_of_ne (hgreatest other hother hbelow) hne

theorem mem_piece (hcuts : cuts.Pairwise (· < ·)) :
    x ∈ piece key cuts xs cut ↔
      x ∈ xs ∧ cut ∈ cuts ∧ cut ≤ key x ∧ ∀ other ∈ cuts, other ≤ key x → other ≤ cut := by
  rw [piece, List.mem_filter, decide_eq_true_iff, lastUpTo_eq_some_iff hcuts]

/-- Elements whose property is passed on to what is before them come first. -/
theorem filter_append_filter_not {p : α → Bool}
    (h : xs.Pairwise fun x y => p y = true → p x = true) :
    xs.filter p ++ xs.filter (fun x => !p x) = xs := by
  induction xs with
  | nil => rfl
  | cons x xs ih =>
      rw [List.pairwise_cons] at h
      by_cases hx : p x = true
      · rw [List.filter_cons_of_pos hx, List.filter_cons_of_neg (by simp [hx]),
          List.cons_append, ih h.2]
      · have hnone : ∀ y ∈ xs, ¬p y = true := fun y hy hpy => hx (h.1 y hy hpy)
        rw [List.filter_cons_of_neg hx, List.filter_eq_nil_iff.mpr hnone, List.nil_append,
          List.filter_eq_self]
        intro y hy
        rcases List.mem_cons.mp hy with rfl | hy
        · simpa using hx
        · simpa using hnone y hy

/-- Elements that are classified in ascending order are the classes one after the other. -/
theorem flatMap_classes {classes : List κ} {classify : α → Option κ}
    (hclasses : classes.Pairwise (· < ·))
    (hordered : xs.Pairwise fun x y => ∀ a ∈ classify x, ∀ b ∈ classify y, a ≤ b)
    (hmem : ∀ x ∈ xs, ∃ c ∈ classes, classify x = some c) :
    classes.flatMap (fun c => xs.filter fun x => classify x = some c) = xs := by
  induction classes generalizing xs with
  | nil =>
      rcases xs with _ | ⟨x, xs⟩
      · rfl
      · obtain ⟨c, hc, -⟩ := hmem x List.mem_cons_self
        exact absurd hc List.not_mem_nil
  | cons c classes ih =>
      rw [List.pairwise_cons] at hclasses
      have hrest : classes.flatMap (fun c => xs.filter fun x => classify x = some c) =
          xs.filter fun x => !decide (classify x = some c) := by
        refine Eq.trans ?_ (ih hclasses.2 (hordered.filter _) fun x hx => ?_)
        · refine List.flatMap_congr fun d hd => ?_
          rw [List.filter_filter]
          refine List.filter_congr fun x _ => ?_
          by_cases hxd : classify x = some d
          · have hne : d ≠ c := ne_of_gt (hclasses.1 d hd)
            simp [hxd, hne]
          · simp [hxd]
        · obtain ⟨hx, hxc⟩ := List.mem_filter.mp hx
          obtain ⟨d, hd, hxd⟩ := hmem x hx
          rcases List.mem_cons.mp hd with rfl | hd
          · simp [hxd] at hxc
          · exact ⟨d, hd, hxd⟩
      rw [List.flatMap_cons, hrest]
      refine filter_append_filter_not (hordered.imp_of_mem fun hx hy hle hyc => ?_)
      rename_i x y
      rw [decide_eq_true_iff] at hyc ⊢
      obtain ⟨d, hd, hxd⟩ := hmem x hx
      rcases List.mem_cons.mp hd with rfl | hd
      · exact hxd
      · exact absurd (hle d hxd c hyc) (not_le.mpr (hclasses.1 d hd))

/-- **The pieces.**  A list is its pieces one after the other. -/
theorem flatMap_piece (hcuts : cuts.Pairwise (· < ·))
    (hxs : xs.Pairwise fun x y => key x < key y)
    (hfirst : ∀ x ∈ xs, ∃ cut ∈ cuts, cut ≤ key x) :
    cuts.flatMap (piece key cuts xs) = xs := by
  refine flatMap_classes hcuts (hxs.imp fun hlt a ha b hb => ?_) fun x hx => ?_
  · obtain ⟨hmem, hle, -⟩ := (lastUpTo_eq_some_iff hcuts).mp ha
    exact ((lastUpTo_eq_some_iff hcuts).mp hb).2.2 a hmem (hle.trans (le_of_lt hlt))
  · cases hfound : SortedLookup.lastUpTo id (key x) cuts with
    | some cut => exact ⟨cut, ((lastUpTo_eq_some_iff hcuts).mp hfound).1, rfl⟩
    | none =>
        obtain ⟨cut, hcut, hle⟩ := hfirst x hx
        have hsorted : cuts.Pairwise fun a b => id a ≤ id b := hcuts.imp le_of_lt
        rw [SortedLookup.lastUpTo, SortedLookup.takeWhile_eq_filter hsorted,
          List.getLast?_eq_none_iff, List.filter_eq_nil_iff] at hfound
        exact absurd (decide_eq_true hle) (hfound cut hcut)

/-- A cut behind an element begins another piece. -/
theorem not_mem_cuts_of_piece (hcuts : cuts.Pairwise (· < ·))
    (hx : x ∈ piece key cuts xs cut) (hy : y ∈ piece key cuts xs cut)
    (hlt : key x < key y) : key y ∉ cuts := by
  intro hmem
  obtain ⟨-, -, hle, -⟩ := (mem_piece hcuts).mp hx
  have hself : key y ≤ cut := ((mem_piece hcuts).mp hy).2.2.2 (key y) hmem (le_refl _)
  exact absurd (hself.trans hle) (not_le.mpr hlt)

/-- An element at a cut is the first of its piece. -/
theorem head?_piece (hcuts : cuts.Pairwise (· < ·))
    (hxs : xs.Pairwise fun x y => key x < key y) (hy : y ∈ xs) (hcut : key y ∈ cuts) :
    (piece key cuts xs (key y)).head? = some y := by
  have hmem : y ∈ piece key cuts xs (key y) :=
    (mem_piece hcuts).mpr ⟨hy, hcut, le_refl _, fun _ _ hle => hle⟩
  have hsorted : (piece key cuts xs (key y)).Pairwise fun x y => key x < key y :=
    hxs.filter _
  have hle : ∀ x ∈ piece key cuts xs (key y), key y ≤ key x := fun x hx =>
    ((mem_piece hcuts).mp hx).2.2.1
  generalize piece key cuts xs (key y) = ys at hmem hsorted hle
  rcases ys with _ | ⟨x, ys⟩
  · exact absurd hmem List.not_mem_nil
  · rcases List.mem_cons.mp hmem with rfl | hrest
    · rfl
    · exact absurd ((List.pairwise_cons.mp hsorted).1 y hrest)
        (not_lt.mpr (hle x List.mem_cons_self))

end CutLists
