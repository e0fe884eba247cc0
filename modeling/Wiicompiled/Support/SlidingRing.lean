import Mathlib.Data.BitVec

/-!
# Rings as sliding windows

A ring has a slot for every number of `k` bits.  Seen from a start on, it is a window of its
last entries: an entry put at the start leaves the window at one end and enters it at the
other, and a whole turn of the start changes nothing.
-/

namespace SlidingRing

variable {α : Type*} {k : ℕ}

/-- The entries from `start` on. -/
def view (ring : BitVec k → α) (start : BitVec k) : BitVec k → α :=
  fun i => ring (start + i)

/-- A window moved on by one entry. -/
def slide (window : BitVec k → α) (a : α) : BitVec k → α :=
  fun i => if i + 1 = 0 then a else window (i + 1)

/-- An entry put in the place of the oldest one is the newest one. -/
theorem view_update (ring : BitVec k → α) (start : BitVec k) (a : α) :
    view (Function.update ring start a) (start + 1) = slide (view ring start) a := by
  funext i
  have hplace : start + 1 + i = start + (i + 1) := by
    rw [add_assoc, add_comm 1 i]
  rw [view, slide, hplace]
  by_cases hlast : i + 1 = 0
  · rw [if_pos hlast, hlast, add_zero, Function.update_self]
  · have hne : start + (i + 1) ≠ start := fun heq => hlast (add_eq_left.mp heq)
    rw [if_neg hlast, Function.update_of_ne hne, view]

end SlidingRing
