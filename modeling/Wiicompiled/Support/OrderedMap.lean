import Mathlib.Data.List.Basic
import Mathlib.Order.Lattice

/-!
# Ordered maps

A map is a list of entries with increasing keys.  Assigning keys in a row leaves for each
key the value that came last.
-/

namespace OrderedMap

variable {κ β : Type*} [LinearOrder κ]

/-- Assign a value to a key, which keeps its place when it is there. -/
def assign (key : κ) (value : β) : List (κ × β) → List (κ × β)
  | [] => [(key, value)]
  | entry :: rest =>
      if key < entry.1 then (key, value) :: entry :: rest
      else if key = entry.1 then (entry.1, value) :: rest
      else entry :: assign key value rest

/-- Assign the entries of a list in order. -/
def assignAll (entries : List (κ × β)) : List (κ × β) :=
  entries.foldl (fun map entry => assign entry.1 entry.2 map) []

/-- The keys increase. -/
def Increasing (map : List (κ × β)) : Prop :=
  (map.map Prod.fst).Pairwise (· < ·)

variable {key other : κ} {value result : β} {map entries : List (κ × β)}

theorem Increasing.nodup (h : Increasing map) : (map.map Prod.fst).Nodup :=
  h.imp fun hlt => ne_of_lt hlt

theorem mem_keys_assign (h : other ∈ (assign key value map).map Prod.fst) :
    other = key ∨ other ∈ map.map Prod.fst := by
  induction map with
  | nil => exact Or.inl (List.mem_singleton.mp h)
  | cons entry rest ih =>
      rw [assign] at h
      split_ifs at h
      · rwa [List.map_cons, List.mem_cons] at h
      · exact Or.inr h
      · rw [List.map_cons, List.mem_cons] at h ⊢
        rcases h with heq | hmem
        · exact Or.inr (Or.inl heq)
        · rcases ih hmem with hkey | hrest
          · exact Or.inl hkey
          · exact Or.inr (Or.inr hrest)

theorem Increasing.assign (h : Increasing map) : Increasing (assign key value map) := by
  induction map with
  | nil => exact List.pairwise_singleton _ _
  | cons entry rest ih =>
      rw [Increasing, List.map_cons, List.pairwise_cons] at h
      obtain ⟨hentry, hrest⟩ := h
      rw [OrderedMap.assign]
      split_ifs with hlt heq
      · refine List.pairwise_cons.mpr ⟨fun other hother => ?_,
          List.pairwise_cons.mpr ⟨hentry, hrest⟩⟩
        rcases List.mem_cons.mp hother with rfl | hmem
        · exact hlt
        · exact lt_trans hlt (hentry other hmem)
      · exact List.pairwise_cons.mpr ⟨hentry, hrest⟩
      · refine List.pairwise_cons.mpr ⟨fun other hother => ?_, ih hrest⟩
        rcases mem_keys_assign hother with rfl | hmem
        · exact lt_of_le_of_ne (not_lt.mp hlt) (Ne.symm heq)
        · exact hentry other hmem

theorem mem_assign_iff (h : Increasing map) :
    (other, result) ∈ assign key value map ↔
      other = key ∧ result = value ∨ other ≠ key ∧ (other, result) ∈ map := by
  induction map with
  | nil => simp [assign]
  | cons entry rest ih =>
      rw [Increasing, List.map_cons, List.pairwise_cons] at h
      obtain ⟨hentry, hrest⟩ := h
      obtain ⟨first, old⟩ := entry
      have hkey : ∀ {other result}, (other, result) ∈ rest → first < other :=
        fun hmem => hentry _ (List.mem_map.mpr ⟨_, hmem, rfl⟩)
      rw [assign]
      split_ifs with hlt heq
      · have hne : ∀ result, (key, result) ∉ (first, old) :: rest := by
          intro result hmem
          rcases List.mem_cons.mp hmem with heq | hmem
          · exact lt_irrefl _ (congrArg Prod.fst heq ▸ hlt)
          · exact lt_irrefl _ (lt_trans hlt (hkey hmem))
        rw [List.mem_cons, Prod.mk.injEq]
        constructor
        · rintro (hnew | hmem)
          · exact Or.inl hnew
          · exact Or.inr ⟨fun heq => hne result (heq ▸ hmem), hmem⟩
        · rintro (hnew | ⟨-, hmem⟩)
          · exact Or.inl hnew
          · exact Or.inr hmem
      · dsimp only at heq ⊢
        subst heq
        rw [List.mem_cons, List.mem_cons, Prod.mk.injEq, Prod.mk.injEq]
        constructor
        · rintro (hnew | hmem)
          · exact Or.inl hnew
          · exact Or.inr ⟨ne_of_gt (hkey hmem), Or.inr hmem⟩
        · rintro (hnew | ⟨hne, ⟨heq, -⟩ | hmem⟩)
          · exact Or.inl hnew
          · exact absurd heq hne
          · exact Or.inr hmem
      · rw [List.mem_cons, ih hrest, List.mem_cons, Prod.mk.injEq]
        constructor
        · rintro (⟨rfl, rfl⟩ | hnew | ⟨hne, hmem⟩)
          · exact Or.inr ⟨fun h => heq h.symm, Or.inl ⟨rfl, rfl⟩⟩
          · exact Or.inl hnew
          · exact Or.inr ⟨hne, Or.inr hmem⟩
        · rintro (hnew | ⟨hne, hfirst | hmem⟩)
          · exact Or.inr (Or.inl hnew)
          · exact Or.inl hfirst
          · exact Or.inr (Or.inr ⟨hne, hmem⟩)

theorem increasing_assignAll : Increasing (assignAll entries) := by
  have h : ∀ map : List (κ × β), Increasing map →
      Increasing (entries.foldl (fun map entry => assign entry.1 entry.2 map) map) := by
    induction entries with
    | nil => exact fun _ h => h
    | cons entry entries ih => exact fun map h => ih _ h.assign
  exact h [] List.Pairwise.nil

/-- Each key has the value that came last for it. -/
theorem mem_assignAll_iff :
    (key, value) ∈ assignAll entries ↔
      (entries.filter fun entry => entry.1 = key).getLast? = some (key, value) := by
  have h : ∀ map : List (κ × β), Increasing map →
      ((key, value) ∈ entries.foldl (fun map entry => assign entry.1 entry.2 map) map ↔
        (entries.filter fun entry => entry.1 = key).getLast? = some (key, value) ∨
          (∀ entry ∈ entries, entry.1 ≠ key) ∧ (key, value) ∈ map) := by
    induction entries with
    | nil => simp
    | cons entry entries ih =>
        intro map hmap
        obtain ⟨other, result⟩ := entry
        rw [List.foldl_cons, ih _ hmap.assign, mem_assign_iff hmap]
        by_cases heq : other = key
        · subst heq
          rw [List.filter_cons_of_pos (by simp), List.getLast?_cons]
          by_cases hnone : ∀ entry ∈ entries, entry.1 ≠ other
          · have hfilter : entries.filter (fun entry => entry.1 = other) = [] :=
              List.filter_eq_nil_iff.mpr fun entry hentry => by simpa using hnone entry hentry
            rw [hfilter, List.getLast?_nil, Option.getD_none, Option.some.injEq,
              Prod.mk.injEq]
            constructor
            · rintro (hlast | ⟨-, ⟨-, rfl⟩ | ⟨hne, -⟩⟩)
              · cases hlast
              · exact Or.inl ⟨rfl, rfl⟩
              · exact absurd rfl hne
            · rintro (⟨-, rfl⟩ | ⟨hall, -⟩)
              · exact Or.inr ⟨hnone, Or.inl ⟨rfl, rfl⟩⟩
              · exact absurd rfl (hall _ List.mem_cons_self)
          · have hfilter : entries.filter (fun entry => entry.1 = other) ≠ [] := by
              rw [ne_eq, List.filter_eq_nil_iff]
              simpa using hnone
            obtain ⟨last, hlast⟩ := Option.ne_none_iff_exists'.mp
              (fun h => hfilter (List.getLast?_eq_none_iff.mp h))
            rw [hlast, Option.getD_some]
            constructor
            · rintro (hlast' | ⟨hall, -⟩)
              · exact Or.inl hlast'
              · exact absurd hall hnone
            · rintro (hlast' | ⟨hall, -⟩)
              · exact Or.inl hlast'
              · exact absurd (fun entry hentry => hall entry (List.mem_cons_of_mem _ hentry))
                  hnone
        · have hfilter : (⟨other, result⟩ :: entries).filter (fun entry => entry.1 = key) =
              entries.filter fun entry => entry.1 = key :=
            List.filter_cons_of_neg (by simpa using heq)
          rw [hfilter, List.forall_mem_cons]
          have hne : key ≠ other := fun h => heq h.symm
          simp [hne, heq]
  rw [assignAll, h [] List.Pairwise.nil]
  simp

end OrderedMap
