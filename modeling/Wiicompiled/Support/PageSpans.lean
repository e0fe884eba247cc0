import Mathlib.Tactic.Ring

/-!
# Ranges of bytes and their pages

A range of bytes touches pages of a fixed size.  Rounding its ends outwards gives the
span of these pages, and another range meets the span if and only if both touch a
common page.
-/

namespace PageSpans

variable {size start length start' length' page byte : ℕ}

/-- The largest multiple of `size` that is not above `value`. -/
def roundDown (size value : ℕ) : ℕ :=
  value / size * size

/-- The smallest multiple of `size` that is not below `value`. -/
def roundUp (size value : ℕ) : ℕ :=
  (value + (size - 1)) / size * size

/-- The range touches the page. -/
def Touches (size start length page : ℕ) : Prop :=
  start < (page + 1) * size ∧ page * size < start + length

instance : Decidable (Touches size start length page) :=
  inferInstanceAs (Decidable (_ ∧ _))

/-- Two ranges have a byte in common. -/
def Overlaps (start length start' length' : ℕ) : Prop :=
  start < start' + length' ∧ start' < start + length

instance : Decidable (Overlaps start length start' length') :=
  inferInstanceAs (Decidable (_ ∧ _))

theorem roundDown_le : roundDown size value ≤ value :=
  Nat.div_mul_le_self value size

theorem le_roundUp (hsize : 0 < size) : value ≤ roundUp size value := by
  have hlt := Nat.lt_div_mul_add (a := value + (size - 1)) hsize
  unfold roundUp
  omega

/-- A multiple is below the value rounded up if and only if it is below the value. -/
theorem mul_lt_roundUp_iff (hsize : 0 < size) :
    page * size < roundUp size value ↔ page * size < value := by
  refine ⟨fun h => ?_, fun h => h.trans_le (le_roundUp hsize)⟩
  have hpage : page < (value + (size - 1)) / size := Nat.lt_of_mul_lt_mul_right h
  have hle : (page + 1) * size ≤ value + (size - 1) :=
    (Nat.le_div_iff_mul_le hsize).mp hpage
  rw [Nat.add_mul] at hle
  omega

/-- A value rounded down is below a multiple if and only if the value is. -/
theorem roundDown_lt_mul_iff (hsize : 0 < size) :
    roundDown size value < page * size ↔ value < page * size := by
  unfold roundDown
  rw [Nat.mul_lt_mul_right hsize, Nat.div_lt_iff_lt_mul hsize]

/-- The span of a range has the pages that the range touches. -/
theorem mem_span_iff (hsize : 0 < size) :
    roundDown size start < (page + 1) * size ∧
      page * size < roundUp size (start + length) ↔ Touches size start length page := by
  rw [roundDown_lt_mul_iff hsize, mul_lt_roundUp_iff hsize]
  rfl

/-- The span of a range has every byte of the pages that the range touches. -/
theorem mem_span_of_touches (hsize : 0 < size) (h : Touches size start length (byte / size)) :
    roundDown size start ≤ byte ∧ byte < roundUp size (start + length) := by
  obtain ⟨hleft, hright⟩ := (mem_span_iff hsize).mpr h
  have hfirst : roundDown size start ≤ byte / size * size :=
    Nat.mul_le_mul_right size (Nat.lt_succ_iff.mp (Nat.lt_of_mul_lt_mul_right hleft))
  have hlast : (byte / size + 1) * size ≤ roundUp size (start + length) :=
    Nat.mul_le_mul_right size (Nat.succ_le_of_lt (Nat.lt_of_mul_lt_mul_right hright))
  have hle := Nat.div_mul_le_self byte size
  have hlt := Nat.lt_div_mul_add (a := byte) hsize
  rw [Nat.add_mul] at hlast
  omega

/-- A byte of a range is on a page that the range touches. -/
theorem touches_of_mem (hsize : 0 < size) (hstart : start ≤ byte) (hend : byte < start + length) :
    Touches size start length (byte / size) := by
  have hle := Nat.div_mul_le_self byte size
  have hlt := Nat.lt_div_mul_add (a := byte) hsize
  rw [Touches, Nat.add_mul]
  omega

/-- A range meets the span of another if and only if both touch a common page. -/
theorem overlaps_span_iff (hsize : 0 < size) (hlength : 0 < length) (hlength' : 0 < length') :
    Overlaps (roundDown size start) (roundUp size (start + length) - roundDown size start)
        start' length' ↔
      ∃ page, Touches size start length page ∧ Touches size start' length' page := by
  have hdown : roundDown size start ≤ start := roundDown_le
  have hup : start + length ≤ roundUp size (start + length) := le_roundUp hsize
  constructor
  · rintro ⟨hleft, hright⟩
    -- the first byte of both is on the page
    let byte := max (roundDown size start) start'
    have hbyte : byte < start' + length' ∧ byte < roundUp size (start + length) := by
      omega
    have hle : byte / size * size ≤ byte := Nat.div_mul_le_self byte size
    have hlt : byte < (byte / size + 1) * size := by
      rw [Nat.add_mul, one_mul]
      exact Nat.lt_div_mul_add hsize
    refine ⟨byte / size, (mem_span_iff hsize).mp ⟨?_, ?_⟩, touches_of_mem hsize ?_ hbyte.1⟩
    · exact lt_of_le_of_lt (le_max_left _ _) hlt
    · exact lt_of_le_of_lt hle hbyte.2
    · exact le_max_right _ _
  · rintro ⟨page, htouches, hstart', hend'⟩
    obtain ⟨hleft, hright⟩ := (mem_span_iff hsize).mpr htouches
    have hfirst : roundDown size start ≤ page * size :=
      Nat.mul_le_mul_right size (Nat.lt_succ_iff.mp (Nat.lt_of_mul_lt_mul_right hleft))
    have hlast : (page + 1) * size ≤ roundUp size (start + length) :=
      Nat.mul_le_mul_right size (Nat.succ_le_of_lt (Nat.lt_of_mul_lt_mul_right hright))
    exact ⟨by omega, by omega⟩

end PageSpans
