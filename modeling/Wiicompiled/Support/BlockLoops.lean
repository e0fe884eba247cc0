import Mathlib.Tactic.Ring

/-!
# Loops over blocks of an array

A loop over single entries, and a loop that takes a block of entries in each turn and leaves
the rest to the first one.  The index of the loop over blocks is a machine word, so that its
guard may wrap around and the loop never end.
-/

namespace BlockLoops

variable {σ α ρ : Type*}

/-! ## Single entries -/

/-- The turns of a loop at the indices from `i` on, of which there are `left`. -/
def forLoop (step : ℕ → σ → σ) : ℕ → ℕ → σ → σ
  | 0, _, s => s
  | left + 1, i, s => forLoop step left (i + 1) (step i s)

section ForLoop

variable {step : ℕ → σ → σ}

theorem forLoop_add (n m i : ℕ) (s : σ) :
    forLoop step (n + m) i s = forLoop step m (i + n) (forLoop step n i s) := by
  induction n generalizing i s with
  | zero => rw [Nat.zero_add, Nat.add_zero, forLoop]
  | succ n ih =>
      rw [Nat.succ_add, forLoop, ih, forLoop, Nat.succ_add_eq_add_succ]

theorem forLoop_succ (n i : ℕ) (s : σ) :
    forLoop step (n + 1) i s = step (i + n) (forLoop step n i s) := by
  rw [forLoop_add, forLoop, forLoop]

theorem forLoop_shift (n i k : ℕ) (s : σ) :
    forLoop (fun j => step (i + j)) n k s = forLoop step n (i + k) s := by
  induction n generalizing k s with
  | zero => rfl
  | succ n ih =>
      rw [forLoop, forLoop, ih, Nat.add_assoc]

end ForLoop

/-- A turn that changes the entry at its index, by a value that is carried along. -/
def pointStep (emit : ℕ → ρ → α → α) (next : ℕ → ρ → ρ) (i : ℕ) (s : (ℕ → α) × ρ) :
    (ℕ → α) × ρ :=
  (Function.update s.1 i (emit i s.2 (s.1 i)), next i s.2)

/-- Each entry is changed once, by what is carried when its turn comes. -/
theorem forLoop_pointStep
    (emit : ℕ → ρ → α → α) (next : ℕ → ρ → ρ) (n i : ℕ) (array : ℕ → α) (carried : ρ) :
    forLoop (pointStep emit next) n i (array, carried) =
      (fun j => if i ≤ j ∧ j < i + n then emit j (forLoop next (j - i) i carried) (array j)
        else array j, forLoop next n i carried) := by
  induction n with
  | zero =>
      refine Prod.ext (funext fun j => ?_) rfl
      exact (if_neg (by omega)).symm
  | succ n ih =>
      rw [forLoop_succ, ih, pointStep, forLoop_succ]
      refine Prod.ext (funext fun j => ?_) rfl
      simp only
      by_cases hj : j = i + n
      · subst hj
        rw [Function.update_self, if_neg (by omega), if_pos (by omega), Nat.add_sub_cancel_left]
      · rw [Function.update_of_ne hj]
        by_cases hin : i ≤ j ∧ j < i + n
        · rw [if_pos hin, if_pos (by omega)]
        · rw [if_neg hin, if_neg (by omega)]

/-! ## Blocks -/

/-- The entries from `i` on. -/
def loadBlock {n : ℕ} (array : ℕ → α) (i : ℕ) : Fin n → α :=
  fun lane => array (i + lane)

/-- Replace the entries from `i` on. -/
def storeBlock {n : ℕ} (array : ℕ → α) (i : ℕ) (values : Fin n → α) : ℕ → α :=
  fun j => if h : i ≤ j ∧ j < i + n then values ⟨j - i, by omega⟩ else array j

/-- A block that stores what the single turns emit. -/
theorem storeBlock_eq_forLoop {n i : ℕ} {emit : ℕ → ρ → α → α} {next : ℕ → ρ → ρ}
    {array : ℕ → α} {carried : ρ} {values : Fin n → α}
    (h : ∀ lane : Fin n,
      values lane = emit (i + lane) (forLoop next lane i carried) (array (i + lane))) :
    storeBlock array i values =
      (forLoop (pointStep emit next) n i (array, carried)).1 := by
  rw [forLoop_pointStep]
  funext j
  rw [storeBlock]
  by_cases hin : i ≤ j ∧ j < i + n
  · have hj : i + (j - i) = j := by omega
    rw [dif_pos hin, h]
    simp only [hj]
    exact (if_pos hin).symm
  · rw [dif_neg hin]
    exact (if_neg hin).symm

/-- Turns that carry nothing along. -/
def updateStep (emit : ℕ → α → α) (i : ℕ) (array : ℕ → α) : ℕ → α :=
  Function.update array i (emit i (array i))

theorem storeBlock_eq_forLoop_updateStep {n i : ℕ} {emit : ℕ → α → α} {array : ℕ → α}
    {values : Fin n → α} (h : ∀ lane : Fin n, values lane = emit (i + lane) (array (i + lane))) :
    storeBlock array i values = forLoop (updateStep emit) n i array := by
  have hfst (n i : ℕ) (s : (ℕ → α) × Unit) :
      (forLoop (pointStep (fun j _ => emit j) fun _ => id) n i s).1 =
        forLoop (updateStep emit) n i s.1 := by
    induction n generalizing i s with
    | zero => rfl
    | succ n ih => exact ih (i + 1) _
  exact (storeBlock_eq_forLoop h).trans (hfst n i (array, ()))

theorem forLoop_updateStep_of_le {n i j : ℕ} {emit : ℕ → α → α} {array : ℕ → α} (hj : i + n ≤ j) :
    forLoop (updateStep emit) n i array j = array j := by
  induction n with
  | zero => rfl
  | succ n ih =>
      rw [forLoop_succ, updateStep, Function.update_of_ne (by omega), ih (by omega)]

/-- `for (; i + width <= count; i += width)` with an index that wraps around at `bound`, for
as many turns as there is fuel.  The index and the state at its end. -/
def blockLoop (bound width count : ℕ) (block : ℕ → σ → σ) : ℕ → ℕ → σ → Option (ℕ × σ)
  | 0, _, _ => none
  | fuel + 1, i, s =>
      if (i + width) % bound ≤ count then
        blockLoop bound width count block fuel ((i + width) % bound) (block i s)
      else some (i, s)

/-- A run that ends with a value, whatever fuel is left. -/
def Returns (run : ℕ → Option α) (value : α) : Prop :=
  ∃ fuel, ∀ more, run (fuel + more) = some value

section BlockLoop

variable {bound width count : ℕ} {block : ℕ → σ → σ}

/-- A loop whose guard does not wrap ends less than a block before the count, and keeps an
invariant of its turns. -/
theorem exists_returns_blockLoop {Inv : ℕ → σ → Prop} (hbound : count + width < bound)
    (hwidth : 0 < width)
    (hblock : ∀ i s, i + width ≤ count → Inv i s → Inv (i + width) (block i s))
    {i : ℕ} {s : σ} (hi : i ≤ count) (hinv : Inv i s) :
    ∃ i' s', Inv i' s' ∧ i' ≤ count ∧ count < i' + width ∧
      Returns (fun fuel => blockLoop bound width count block fuel i s) (i', s') := by
  induction hleft : count - i using Nat.strong_induction_on generalizing i s with
  | _ left ih =>
      have hmod : (i + width) % bound = i + width := Nat.mod_eq_of_lt (by omega)
      by_cases hguard : i + width ≤ count
      · obtain ⟨i', s', hinv', hi', hlast, fuel, hfuel⟩ :=
          ih (count - (i + width)) (by omega) hguard (hblock i s hguard hinv) rfl
        refine ⟨i', s', hinv', hi', hlast, fuel + 1, fun more => ?_⟩
        simp only
        rw [Nat.add_right_comm, blockLoop, hmod, if_pos hguard]
        exact hfuel more
      · refine ⟨i, s, hinv, hi, by omega, 1, fun more => ?_⟩
        simp only
        rw [Nat.add_comm, blockLoop, hmod, if_neg hguard]

/-- Blocks that keep up with the single turns, and the single turns for the rest, are the
loop over all entries. -/
theorem returns_blockLoop {τ : Type*} {step : ℕ → τ → τ} {start : τ} {R : ℕ → σ → Prop}
    {finish : ℕ × σ → τ} {s : σ} (hbound : count + width < bound) (hwidth : 0 < width)
    (hblock : ∀ i s, i + width ≤ count → R i s → R (i + width) (block i s)) (hstart : R 0 s)
    (hfinish : ∀ i s, R i s → count < i + width →
      finish (i, s) = forLoop step (count - i) i (forLoop step i 0 start)) :
    Returns (fun fuel => (blockLoop bound width count block fuel 0 s).map finish)
      (forLoop step count 0 start) := by
  obtain ⟨i, s', hR, hi, hlast, fuel, hfuel⟩ :=
    exists_returns_blockLoop hbound hwidth hblock (Nat.zero_le count) hstart
  refine ⟨fuel, fun more => ?_⟩
  have hsplit : forLoop step count 0 start =
      forLoop step (count - i) i (forLoop step i 0 start) := by
    rw [← Nat.add_sub_of_le hi, forLoop_add, Nat.zero_add, Nat.add_sub_cancel_left]
  simp only at hfuel ⊢
  rw [hfuel more, Option.map_some, hfinish i s' hR hlast, hsplit]

/-- A loop whose guard wraps at its last block does not end. -/
theorem blockLoop_eq_none (hbound : bound ≤ count + width) (hcount : count < bound)
    (hdvd : width ∣ bound) (fuel : ℕ) {i : ℕ} (hi : width ∣ i) (s : σ) :
    blockLoop bound width count block fuel i s = none := by
  induction fuel generalizing i s with
  | zero => rfl
  | succ fuel ih =>
      have hnext : width ∣ (i + width) % bound :=
        (Nat.dvd_mod_iff hdvd).mpr (Nat.dvd_add hi (Nat.dvd_refl width))
      have hlt : (i + width) % bound < bound := Nat.mod_lt _ (by omega)
      have hle : (i + width) % bound + width ≤ bound := by
        obtain ⟨a, ha⟩ := hnext
        obtain ⟨b, hb⟩ := hdvd
        rw [ha, hb] at hlt ⊢
        rw [← Nat.mul_succ]
        exact Nat.mul_le_mul_left width (Nat.lt_of_mul_lt_mul_left hlt)
      rw [blockLoop, if_pos (by omega)]
      exact ih hnext (block i s)

end BlockLoop

end BlockLoops
