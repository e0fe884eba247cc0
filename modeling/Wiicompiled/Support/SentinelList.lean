import Mathlib.Data.List.Chain
import Mathlib.Data.List.Nodup

/-!
# Doubly linked lists with a sentinel

A doubly linked list is a ring of links through a sentinel, which stands for the slots of
the first and the last element.  Insertion and removal change the links of two neighbours;
what they do is stated by the new links, so that any sequence of stores that leaves these
links will do.
-/

namespace SentinelList

variable {A : Type*}

/-- Successors and predecessors.  The successor of the sentinel is the first element, its
predecessor the last one. -/
structure Links (A : Type*) where
  succ : A → A
  pred : A → A

variable {links links' : Links A} {s a x : A} {l front back : List A}

/-- Two elements that follow each other. -/
def Links.Linked (links : Links A) (x y : A) : Prop :=
  links.succ x = y ∧ links.pred y = x

/-- The links lead from the sentinel through `l` and back to the sentinel. -/
structure IsRing (links : Links A) (s : A) (l : List A) : Prop where
  chain : (s :: (l ++ [s])).IsChain links.Linked
  nodup : (s :: l).Nodup

theorem IsRing.notMem (h : IsRing links s l) : s ∉ l :=
  (List.nodup_cons.mp h.nodup).1

theorem IsRing.nodup_list (h : IsRing links s l) : l.Nodup :=
  (List.nodup_cons.mp h.nodup).2

theorem isRing_nil_iff : IsRing links s [] ↔ links.succ s = s ∧ links.pred s = s := by
  constructor
  · intro h
    simpa [Links.Linked] using h.chain
  · intro h
    exact ⟨by simpa [Links.Linked] using h, by simp⟩

/-- A chain depends on the successors of all but its last element, and on the predecessors
of all but its first. -/
theorem isChain_congr
    (h : l.IsChain links.Linked) (hsucc : ∀ x ∈ l.dropLast, links'.succ x = links.succ x)
    (hpred : ∀ y ∈ l.tail, links'.pred y = links.pred y) :
    l.IsChain links'.Linked := by
  induction l with
  | nil => exact List.IsChain.nil
  | cons x l ih =>
      rcases l with - | ⟨y, rest⟩
      · exact List.IsChain.singleton x
      · obtain ⟨hlinked, hrest⟩ := List.isChain_cons_cons.mp h
        refine List.isChain_cons_cons.mpr ⟨⟨?_, ?_⟩, ih hrest ?_ ?_⟩
        · rw [hsucc x (by simp), hlinked.1]
        · rw [hpred y (by simp), hlinked.2]
        · intro z hz
          exact hsucc z (by simp [List.dropLast, hz])
        · intro z hz
          exact hpred z (by simpa using Or.inr hz)

/-- The links of elements that are not changed keep a ring. -/
theorem IsRing.congr
    (h : IsRing links s l) (hsucc : ∀ x ∈ s :: l, links'.succ x = links.succ x)
    (hpred : ∀ y ∈ s :: l, links'.pred y = links.pred y) : IsRing links' s l := by
  refine ⟨isChain_congr h.chain ?_ ?_, h.nodup⟩
  · intro x hx
    rw [← List.cons_append, List.dropLast_concat] at hx
    exact hsucc x hx
  · intro y hy
    apply hpred y
    simpa [or_comm] using hy

/-! ## Neighbours -/

/-- The element before a position, or the sentinel. -/
def lastOr (s : A) (front : List A) : A :=
  front.getLastD s

/-- The element from a position on, or the sentinel. -/
def headOr (s : A) (back : List A) : A :=
  back.headD s

theorem exists_lastOr (s : A) (front : List A) :
    ∃ before, s :: front = before ++ [lastOr s front] := by
  rcases List.eq_nil_or_concat front with rfl | ⟨before, y, rfl⟩
  · exact ⟨[], rfl⟩
  · exact ⟨s :: before, by simp [lastOr]⟩

theorem exists_headOr (s : A) (back : List A) :
    ∃ after, back ++ [s] = headOr s back :: after := by
  rcases back with - | ⟨y, rest⟩
  · exact ⟨[], rfl⟩
  · exact ⟨rest ++ [s], rfl⟩

theorem lastOr_mem (s : A) (front : List A) : lastOr s front ∈ s :: front := by
  obtain ⟨before, h⟩ := exists_lastOr s front
  rw [h]
  simp

theorem headOr_mem (s : A) (back : List A) : headOr s back ∈ back ++ [s] := by
  obtain ⟨after, h⟩ := exists_headOr s back
  rw [h]
  exact List.mem_cons_self

theorem IsRing.linked_at (h : IsRing links s (front ++ back)) :
    links.Linked (lastOr s front) (headOr s back) := by
  obtain ⟨before, hbefore⟩ := exists_lastOr s front
  obtain ⟨after, hafter⟩ := exists_headOr s back
  have hchain := h.chain
  rw [List.append_assoc, hafter, ← List.cons_append, hbefore, List.append_assoc,
    List.singleton_append, List.isChain_append_cons_cons] at hchain
  exact hchain.2.1

theorem IsRing.succ_sentinel (h : IsRing links s l) : links.succ s = headOr s l :=
  (@IsRing.linked_at A links s [] l h).1

/-- The two parts of a ring at a position, when links are changed at the position only. -/
theorem isChain_parts
    (hfrontChain : (s :: front).IsChain links.Linked)
    (hbackChain : (back ++ [s]).IsChain links.Linked) (hnodup : (s :: (front ++ back)).Nodup)
    (hsucc : ∀ x ∈ s :: (front ++ back), x ≠ lastOr s front → links'.succ x = links.succ x)
    (hpred : ∀ y ∈ s :: (front ++ back), y ≠ headOr s back → links'.pred y = links.pred y) :
    (s :: front).IsChain links'.Linked ∧ (back ++ [s]).IsChain links'.Linked := by
  obtain ⟨before, hbefore⟩ := exists_lastOr s front
  obtain ⟨after, hafter⟩ := exists_headOr s back
  rw [← List.cons_append, List.nodup_append] at hnodup
  obtain ⟨hfront, hback, hdisjoint⟩ := hnodup
  have hs : s ∉ back := fun hmem => hdisjoint s List.mem_cons_self s hmem rfl
  constructor
  · refine isChain_congr hfrontChain ?_ ?_
    · intro x hx
      have hmem : x ∈ s :: front := List.dropLast_subset _ hx
      refine hsucc x (by rw [← List.cons_append]; exact List.mem_append_left _ hmem) ?_
      rintro rfl
      rw [hbefore, List.dropLast_concat] at hx
      rw [hbefore, List.nodup_append] at hfront
      exact hfront.2.2 _ hx _ (List.mem_singleton.mpr rfl) rfl
    · intro y hy
      refine hpred y (List.mem_cons_of_mem _ (List.mem_append_left _ hy)) ?_
      rintro rfl
      rcases List.mem_append.mp (headOr_mem s back) with hmem | hmem
      · exact hdisjoint _ (List.mem_cons_of_mem _ hy) _ hmem rfl
      · rw [List.mem_singleton.mp hmem] at hy
        exact (List.nodup_cons.mp hfront).1 hy
  · refine isChain_congr hbackChain ?_ ?_
    · intro x hx
      rw [List.dropLast_concat] at hx
      refine hsucc x (List.mem_cons_of_mem _ (List.mem_append_right _ hx)) ?_
      rintro rfl
      exact hdisjoint _ (lastOr_mem s front) _ hx rfl
    · intro y hy
      have hmem : y ∈ back ++ [s] := List.mem_of_mem_tail hy
      refine hpred y ?_ ?_
      · rcases List.mem_append.mp hmem with hmem | hmem
        · exact List.mem_cons_of_mem _ (List.mem_append_right _ hmem)
        · rw [List.mem_singleton.mp hmem]
          exact List.mem_cons_self
      · rintro rfl
        have hnodup : (back ++ [s]).Nodup := by
          refine List.nodup_append.mpr ⟨hback, List.nodup_singleton s, ?_⟩
          intro x hx z hz hxz
          rw [List.mem_singleton] at hz
          exact hs (by rwa [hxz, hz] at hx)
        rw [hafter] at hnodup hy
        exact (List.nodup_cons.mp hnodup).1 hy

/-- Two parts that are linked to each other are a ring. -/
theorem isRing_append
    (hfront : (s :: front).IsChain links.Linked) (hback : (back ++ [s]).IsChain links.Linked)
    (hnodup : (s :: (front ++ back)).Nodup)
    (hlinked : links.Linked (lastOr s front) (headOr s back)) :
    IsRing links s (front ++ back) := by
  obtain ⟨before, hlast⟩ := exists_lastOr s front
  obtain ⟨after, hhead⟩ := exists_headOr s back
  refine ⟨?_, hnodup⟩
  rw [List.append_assoc, ← List.cons_append, List.isChain_append]
  refine ⟨hfront, hback, ?_⟩
  intro x hx y hy
  rw [hlast, List.getLast?_concat, Option.mem_some_iff] at hx
  rw [hhead, List.head?_cons, Option.mem_some_iff] at hy
  rwa [← hx, ← hy]

theorem IsRing.chain_parts (h : IsRing links s (front ++ back)) :
    (s :: front).IsChain links.Linked ∧ (back ++ [s]).IsChain links.Linked := by
  have hchain := h.chain
  rw [List.append_assoc, ← List.cons_append, List.isChain_append] at hchain
  exact ⟨hchain.1, hchain.2.1⟩

/-! ## Insertion and removal -/

theorem perm_insert (s a : A) (front back : List A) :
    (s :: (front ++ a :: back)).Perm (a :: s :: (front ++ back)) :=
  (List.perm_middle.cons s).trans (List.Perm.swap a s _)

theorem IsRing.insert
    (h : IsRing links s (front ++ back)) (ha : a ∉ s :: (front ++ back))
    (hsucc : ∀ x ∈ s :: (front ++ back), x ≠ lastOr s front → links'.succ x = links.succ x)
    (hpred : ∀ y ∈ s :: (front ++ back), y ≠ headOr s back → links'.pred y = links.pred y)
    (hbefore : links'.Linked (lastOr s front) a) (hafter : links'.Linked a (headOr s back)) :
    IsRing links' s (front ++ a :: back) := by
  obtain ⟨hfront, hback⟩ :=
    isChain_parts h.chain_parts.1 h.chain_parts.2 h.nodup hsucc hpred
  obtain ⟨after, hhead⟩ := exists_headOr s back
  refine isRing_append hfront ?_ ?_ hbefore
  · rw [hhead] at hback
    rw [List.cons_append, hhead]
    exact List.isChain_cons_cons.mpr ⟨hafter, hback⟩
  · exact (perm_insert s a front back).nodup_iff.mpr (List.nodup_cons.mpr ⟨ha, h.nodup⟩)

/-- The neighbours of an element that is taken out. -/
theorem IsRing.remove
    (h : IsRing links s (front ++ a :: back))
    (hsucc : ∀ x ∈ s :: (front ++ back), x ≠ lastOr s front → links'.succ x = links.succ x)
    (hpred : ∀ y ∈ s :: (front ++ back), y ≠ headOr s back → links'.pred y = links.pred y)
    (hlinked : links'.Linked (lastOr s front) (headOr s back)) :
    IsRing links' s (front ++ back) := by
  have hnodup : (s :: (front ++ back)).Nodup :=
    (List.nodup_cons.mp ((perm_insert s a front back).nodup_iff.mp h.nodup)).2
  have hrest : (back ++ [s]).IsChain links.Linked := by
    have hchain := h.chain_parts.2
    rw [List.cons_append] at hchain
    exact hchain.tail
  obtain ⟨hfront, hback⟩ := isChain_parts h.chain_parts.1 hrest hnodup hsucc hpred
  exact isRing_append hfront hback hnodup hlinked

end SentinelList
