import Mathlib.Data.BitVec
import Mathlib.Data.List.AList

/-!
# Windows of serial numbers

Serial numbers are words of `w` bits and wrap.  A window of a size starts at a serial
number; when its start is passed over, it moves on by one and keeps its other members.
A map whose keys lie in a window is no larger than the window.
-/

namespace SerialWindow

variable {w : ℕ}

/-- The signed difference of two serial numbers. -/
def distance (start n : BitVec w) : ℤ :=
  (n - start).toInt

/-- `n` is one of the `size` serial numbers from `start` on. -/
def InWindow (start : BitVec w) (size : ℕ) (n : BitVec w) : Prop :=
  (n - start).toNat < size

/-- A number that is no further ahead than the size, and not behind. -/
theorem inWindow_of_distance
    {start n : BitVec w} {size : ℕ} (hnonneg : 0 ≤ distance start n)
    (hlt : distance start n < size) : InWindow start size n := by
  unfold distance at hnonneg hlt
  unfold InWindow
  rw [BitVec.toInt_eq_toNat_cond] at hnonneg hlt
  split at hlt
  · omega
  · rename_i hhigh
    rw [if_neg hhigh] at hnonneg
    omega

/-- A member of a window of less than half of all numbers is not behind its start. -/
theorem distance_of_inWindow
    {start n : BitVec w} {size : ℕ} (h : InWindow start size n)
    (hsize : 2 * size ≤ 2 ^ w) : 0 ≤ distance start n ∧ distance start n < size := by
  unfold InWindow at h
  unfold distance
  rw [BitVec.toInt_eq_toNat_of_lt (by omega)]
  omega

/-- The start of a window of at least one number. -/
theorem inWindow_start {start : BitVec w} {size : ℕ} (hsize : 0 < size) :
    InWindow start size start := by
  simpa [InWindow] using hsize

/-- Past its start, a window keeps its other members. -/
theorem InWindow.advance
    {start n : BitVec w} {size : ℕ} (h : InWindow start size n) (hne : n ≠ start) :
    InWindow (start + 1) size n := by
  unfold InWindow at h ⊢
  have hpos : (n - start).toNat ≠ 0 := by
    intro hzero
    exact hne (sub_eq_zero.mp (BitVec.eq_of_toNat_eq (by simpa using hzero)))
  have hsub : n - (start + 1) = n - start - 1 := by
    rw [sub_add_eq_sub_sub]
  have hone : (1 : BitVec w).toNat ≤ 1 := Nat.mod_le _ _
  have hle : (1 : BitVec w) ≤ n - start := by
    rw [BitVec.le_def]
    omega
  rw [hsub, BitVec.toNat_sub_of_le hle]
  omega

theorem length_le
    {start : BitVec w} {size : ℕ} {l : List (BitVec w)} (hnodup : l.Nodup)
    (hwindow : ∀ n ∈ l, InWindow start size n) : l.length ≤ size := by
  have hinj : (l.map fun n => (n - start).toNat).Nodup := by
    refine List.Nodup.map ?_ hnodup
    intro n m heq
    exact sub_left_injective (BitVec.eq_of_toNat_eq heq)
  have hsubset : (l.map fun n => (n - start).toNat) ⊆ List.range size := by
    intro k hk
    obtain ⟨n, hn, rfl⟩ := List.mem_map.mp hk
    exact List.mem_range.mpr (hwindow n hn)
  have hle := (List.subperm_of_subset hinj hsubset).length_le
  simpa using hle

/-- The `count` numbers from `first` on, in order. -/
def run (first : BitVec w) (count : ℕ) : List (BitVec w) :=
  (List.range count).map fun i => first + BitVec.ofNat w i

theorem run_succ (first : BitVec w) (count : ℕ) :
    run first (count + 1) = run first count ++ [first + BitVec.ofNat w count] := by
  simp [run, List.range_succ]

end SerialWindow
