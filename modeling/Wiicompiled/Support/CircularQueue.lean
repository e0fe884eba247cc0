import Mathlib.Data.List.Range

/-!
# Circular queues

A queue of bounded length is kept in an array of slots: its entries are in
consecutive slots from a first one on, and the slot after the last is slot zero.
An entry is put at either end by writing one slot, and taken from the front by
moving the first slot.
-/

namespace CircularQueue

variable {α : Type*} {slot slot' : ℕ → α} {n first used i j : ℕ} {a : α}

/-- The slot of entry `i`. -/
def place (n first i : ℕ) : ℕ :=
  (first + i) % n

/-- The slot after `first`. -/
def next (n first : ℕ) : ℕ :=
  (first + 1) % n

/-- The slot before `first`. -/
def previous (n first : ℕ) : ℕ :=
  if first = 0 then n - 1 else first - 1

/-- The entries in their order. -/
def entries (slot : ℕ → α) (n first used : ℕ) : List α :=
  (List.range used).map fun i => slot (place n first i)

/-! ## Slots -/

theorem place_eq_ite (hfirst : first < n) (hi : i ≤ n) :
    place n first i = if first + i < n then first + i else first + i - n := by
  rw [place]
  split_ifs with hlt
  · exact Nat.mod_eq_of_lt hlt
  · rw [Nat.mod_eq_sub_mod (by omega), Nat.mod_eq_of_lt (by omega)]

theorem place_lt (hpos : 0 < n) : place n first i < n :=
  Nat.mod_lt _ hpos

@[simp]
theorem place_zero (hfirst : first < n) : place n first 0 = first :=
  Nat.mod_eq_of_lt hfirst

/-- Different entries are in different slots. -/
theorem place_injective (hfirst : first < n) (hi : i < n) (hj : j < n)
    (h : place n first i = place n first j) : i = j := by
  rw [place_eq_ite hfirst hi.le, place_eq_ite hfirst hj.le] at h
  split_ifs at h <;> omega

theorem next_lt (hpos : 0 < n) : next n first < n :=
  Nat.mod_lt _ hpos

theorem previous_lt (hfirst : first < n) : previous n first < n := by
  unfold previous
  split_ifs <;> omega

/-- Entry `i` from the next slot on is entry `i + 1`. -/
theorem place_next : place n (next n first) i = place n first (i + 1) := by
  rw [place, place, next, Nat.mod_add_mod]
  congr 1
  omega

/-- Entry `i + 1` from the previous slot on is entry `i`. -/
theorem place_previous (hfirst : first < n) (hi : i < n) :
    place n (previous n first) (i + 1) = place n first i := by
  have hback : previous n first < n := previous_lt hfirst
  rw [place_eq_ite hback (by omega), place_eq_ite hfirst hi.le]
  unfold previous at *
  split_ifs <;> omega

/-! ## Entries -/

@[simp]
theorem length_entries : (entries slot n first used).length = used := by
  simp [entries]

@[simp]
theorem entries_zero : entries slot n first 0 = [] :=
  rfl

/-- The entries depend on their own slots only. -/
theorem entries_congr (h : ∀ i < used, slot' (place n first i) = slot (place n first i)) :
    entries slot' n first used = entries slot n first used := by
  apply List.map_congr_left
  intro i hi
  exact h i (List.mem_range.mp hi)

/-- An entry written behind the last one is appended. -/
theorem entries_append (hnew : slot' (place n first used) = a)
    (hold : ∀ i < used, slot' (place n first i) = slot (place n first i)) :
    entries slot' n first (used + 1) = entries slot n first used ++ [a] := by
  rw [entries, List.range_succ, List.map_append, List.map_singleton, hnew]
  congr 1
  exact entries_congr hold

/-- An entry written before the first one is prepended. -/
theorem entries_jam (hfirst : first < n) (hroom : used < n)
    (hnew : slot' (previous n first) = a)
    (hold : ∀ i < used, slot' (place n first i) = slot (place n first i)) :
    entries slot' n (previous n first) (used + 1) = a :: entries slot n first used := by
  rw [entries, List.range_succ_eq_map, List.map_cons, List.map_map,
    place_zero (previous_lt hfirst), hnew]
  congr 1
  apply List.map_congr_left
  intro i hi
  have hlt : i < used := List.mem_range.mp hi
  calc
    slot' (place n (previous n first) (i + 1)) = slot' (place n first i) := by
      rw [place_previous hfirst (by omega)]
    _ = slot (place n first i) := hold i hlt

/-- The first entry is in the first slot, and the others follow the next one. -/
theorem entries_succ (hfirst : first < n) :
    entries slot n first (used + 1) =
      slot first :: entries slot n (next n first) used := by
  rw [entries, List.range_succ_eq_map, List.map_cons, List.map_map, place_zero hfirst]
  congr 1
  apply List.map_congr_left
  intro i _
  rw [Function.comp_apply, place_next]

end CircularQueue
