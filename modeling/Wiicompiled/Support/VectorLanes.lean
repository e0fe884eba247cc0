import Mathlib.Data.BitVec
import Mathlib.Data.Fin.VecNotation

/-!
# Lanes of vector registers

A register of 256 bits is seen as eight lanes of 32 bits, which are taken in pairs or as four
bytes each where an instruction does so; one of 128 bits is seen as eight lanes of 16 bits,
and half a register as four lanes of 32 bits.  The least significant lane is the first.  The
operations are those of the AVX2 instructions of their names.
-/

namespace VectorLanes

abbrev M256i := Fin 8 → BitVec 32

abbrev M128i := Fin 8 → BitVec 16

abbrev Half := Fin 4 → BitVec 32

abbrev Bytes256 := Fin 32 → BitVec 8

/-! ## Lanes of 32 bits -/

def setzero_si256 : M256i :=
  fun _ => 0

def set1_epi32 (a : BitVec 32) : M256i :=
  fun _ => a

def add_epi32 (a b : M256i) : M256i :=
  fun lane => a lane + b lane

/-- The low halves of the products. -/
def mullo_epi32 (a b : M256i) : M256i :=
  fun lane => a lane * b lane

def and_si256 (a b : M256i) : M256i :=
  fun lane => a lane &&& b lane

def srai_epi32 (a : M256i) (count : ℕ) : M256i :=
  fun lane => (a lane).sshiftRight count

def min_epi32 (a b : M256i) : M256i :=
  fun lane => if (a lane).toInt ≤ (b lane).toInt then a lane else b lane

def max_epi32 (a b : M256i) : M256i :=
  fun lane => if (a lane).toInt ≤ (b lane).toInt then b lane else a lane

def cvtepi16_epi32 (a : M128i) : M256i :=
  fun lane => (a lane).signExtend 32

def cvtepu16_epi32 (a : M128i) : M256i :=
  fun lane => (a lane).setWidth 32

def extract_epi32 (a : M256i) (index : Fin 8) : BitVec 32 :=
  a index

/-- The lanes whose bits are set in the mask come from the second register. -/
def blend_epi32 (a b : M256i) (mask : ℕ) : M256i :=
  fun lane => if mask.testBit lane then b lane else a lane

/-! ## Saturation -/

def castsi256_si128 (a : M256i) : Half :=
  fun lane => a ⟨lane, by omega⟩

/-- One half of a register. -/
def extracti128_si256 (a : M256i) (half : Fin 2) : Half :=
  fun lane => a ⟨4 * half + lane, by omega⟩

/-- A signed number in 16 bits, or the nearest one. -/
def saturate (a : BitVec 32) : BitVec 16 :=
  if a.toInt < -0x8000 then BitVec.ofInt 16 (-0x8000)
  else if 0x7fff < a.toInt then BitVec.ofInt 16 0x7fff
  else a.setWidth 16

def packs_epi32 (a b : Half) : M128i :=
  fun lane => saturate (if h : (lane : ℕ) < 4 then a ⟨lane, h⟩ else b ⟨lane - 4, by omega⟩)

/-! ## Lanes of 64 bits -/

/-- A pair of lanes. -/
def quad (a : M256i) (pair : Fin 4) : BitVec 64 :=
  a ⟨2 * pair + 1, by omega⟩ ++ a ⟨2 * pair, by omega⟩

/-- A register of pairs. -/
def ofQuads (quads : Fin 4 → BitVec 64) : M256i :=
  fun lane =>
    let pair := quads ⟨lane / 2, by omega⟩
    if (lane : ℕ) % 2 = 0 then pair.setWidth 32 else pair.extractLsb' 32 32

def srli_epi64 (a : M256i) (count : ℕ) : M256i :=
  ofQuads fun pair => quad a pair >>> count

def slli_epi64 (a : M256i) (count : ℕ) : M256i :=
  ofQuads fun pair => quad a pair <<< count

/-- The signed products of the low lanes of the pairs. -/
def mul_epi32 (a b : M256i) : M256i :=
  ofQuads fun pair =>
    (a ⟨2 * pair, by omega⟩).signExtend 64 * (b ⟨2 * pair, by omega⟩).signExtend 64

/-! ## Bytes -/

def bytesOf (a : M256i) : Bytes256 :=
  fun byte => (a ⟨byte / 4, by omega⟩).extractLsb' (8 * (byte % 4)) 8

def ofBytes (bytes : Bytes256) : M256i :=
  fun lane =>
    bytes ⟨4 * lane + 3, by omega⟩ ++ bytes ⟨4 * lane + 2, by omega⟩ ++
      bytes ⟨4 * lane + 1, by omega⟩ ++ bytes ⟨4 * lane, by omega⟩

/-- Each byte is picked from its half by the low bits of the mask, or cleared by its sign. -/
def shuffle_epi8 (a : M256i) (mask : Bytes256) : M256i :=
  ofBytes fun byte =>
    if (mask byte).msb then 0
    else bytesOf a ⟨16 * (byte / 16) + (mask byte).toNat % 16, by omega⟩

/-! ## Pairs and bytes of lanes -/

theorem toNat_append (a : BitVec 32) (b : BitVec 32) :
    (a ++ b).toNat = a.toNat * 2 ^ 32 + b.toNat := by
  rw [BitVec.toNat_append, ← Nat.shiftLeft_add_eq_or_of_lt b.isLt, Nat.shiftLeft_eq]

theorem toNat_quad (a : M256i) (pair : Fin 4) :
    (quad a pair).toNat =
      (a ⟨2 * pair + 1, by omega⟩).toNat * 2 ^ 32 + (a ⟨2 * pair, by omega⟩).toNat :=
  toNat_append _ _

theorem ofQuads_even (quads : Fin 4 → BitVec 64) (pair : Fin 4) :
    ofQuads quads ⟨2 * pair, by omega⟩ = (quads pair).setWidth 32 := by
  have hpair : (⟨2 * pair / 2, by omega⟩ : Fin 4) = pair := Fin.ext (by simp)
  rw [ofQuads]
  simp only [Nat.mul_mod_right, if_true, hpair]

theorem ofQuads_odd (quads : Fin 4 → BitVec 64) (pair : Fin 4) :
    ofQuads quads ⟨2 * pair + 1, by omega⟩ = (quads pair).extractLsb' 32 32 := by
  have hpair : (⟨(2 * pair + 1) / 2, by omega⟩ : Fin 4) = pair := Fin.ext (by simp; omega)
  rw [ofQuads]
  simp only [hpair]
  exact if_neg (by omega)

theorem quad_ofQuads (quads : Fin 4 → BitVec 64) (pair : Fin 4) :
    quad (ofQuads quads) pair = quads pair := by
  apply BitVec.eq_of_toNat_eq
  rw [toNat_quad, ofQuads_odd, ofQuads_even, BitVec.extractLsb'_toNat, BitVec.toNat_setWidth,
    Nat.shiftRight_eq_div_pow]
  have := (quads pair).isLt
  omega

theorem srli_epi64_even (a : M256i) (count : ℕ) (pair : Fin 4) :
    srli_epi64 a count ⟨2 * pair, by omega⟩ = (quad a pair >>> count).setWidth 32 :=
  ofQuads_even _ pair

/-- A shift by half a pair moves the odd lanes down. -/
theorem srli_epi64_half (a : M256i) (pair : Fin 4) :
    srli_epi64 a 32 ⟨2 * pair, by omega⟩ = a ⟨2 * pair + 1, by omega⟩ := by
  apply BitVec.eq_of_toNat_eq
  rw [srli_epi64_even, BitVec.toNat_setWidth, BitVec.toNat_ushiftRight, toNat_quad,
    Nat.shiftRight_eq_div_pow]
  have hlow := (a ⟨2 * pair, by omega⟩).isLt
  have hhigh := (a ⟨2 * pair + 1, by omega⟩).isLt
  omega

/-- A shift by half a pair moves the even lanes up. -/
theorem slli_epi64_half (a : M256i) (pair : Fin 4) :
    slli_epi64 a 32 ⟨2 * pair + 1, by omega⟩ = a ⟨2 * pair, by omega⟩ := by
  apply BitVec.eq_of_toNat_eq
  rw [slli_epi64, ofQuads_odd, BitVec.extractLsb'_toNat, BitVec.toNat_shiftLeft, toNat_quad,
    Nat.shiftRight_eq_div_pow, Nat.shiftLeft_eq]
  have hlow := (a ⟨2 * pair, by omega⟩).isLt
  omega

theorem toNat_append4 (a b c d : BitVec 8) :
    (a ++ b ++ c ++ d).toNat =
      a.toNat * 2 ^ 24 + b.toNat * 2 ^ 16 + c.toNat * 2 ^ 8 + d.toNat := by
  rw [BitVec.toNat_append, BitVec.toNat_append, BitVec.toNat_append,
    ← Nat.shiftLeft_add_eq_or_of_lt b.isLt, ← Nat.shiftLeft_add_eq_or_of_lt c.isLt,
    ← Nat.shiftLeft_add_eq_or_of_lt d.isLt, Nat.shiftLeft_eq, Nat.shiftLeft_eq, Nat.shiftLeft_eq]
  omega

theorem toNat_ofBytes (bytes : Bytes256) (lane : Fin 8) :
    (ofBytes bytes lane).toNat =
      (bytes ⟨4 * lane + 3, by omega⟩).toNat * 2 ^ 24 +
        (bytes ⟨4 * lane + 2, by omega⟩).toNat * 2 ^ 16 +
        (bytes ⟨4 * lane + 1, by omega⟩).toNat * 2 ^ 8 + (bytes ⟨4 * lane, by omega⟩).toNat :=
  toNat_append4 _ _ _ _

theorem toNat_bytesOf (a : M256i) (byte : Fin 32) :
    (bytesOf a byte).toNat =
      (a ⟨byte / 4, by omega⟩).toNat / 2 ^ (8 * ((byte : ℕ) % 4)) % 2 ^ 8 := by
  rw [bytesOf, BitVec.extractLsb'_toNat, Nat.shiftRight_eq_div_pow]

theorem bytesOf_ofBytes (bytes : Bytes256) (byte : Fin 32) :
    bytesOf (ofBytes bytes) byte = bytes byte := by
  apply BitVec.eq_of_toNat_eq
  rw [toNat_bytesOf, toNat_ofBytes]
  obtain ⟨lane, r, hr, hbyte⟩ : ∃ lane r, r < 4 ∧ (byte : ℕ) = 4 * lane + r :=
    ⟨byte / 4, byte % 4, Nat.mod_lt _ (by omega), (Nat.div_add_mod _ 4).symm⟩
  have hlane : (byte : ℕ) / 4 = lane := by omega
  have hmod : (byte : ℕ) % 4 = r := by omega
  have hlt : lane < 8 := by omega
  have hself : bytes byte = bytes ⟨4 * lane + r, by omega⟩ := congrArg bytes (Fin.ext hbyte)
  rw [hself]
  simp only [hlane, hmod]
  have h0 := (bytes ⟨4 * lane, by omega⟩).isLt
  have h1 := (bytes ⟨4 * lane + 1, by omega⟩).isLt
  have h2 := (bytes ⟨4 * lane + 2, by omega⟩).isLt
  have h3 := (bytes ⟨4 * lane + 3, by omega⟩).isLt
  obtain rfl | rfl | rfl | rfl : r = 0 ∨ r = 1 ∨ r = 2 ∨ r = 3 := by omega
  · simp only [Nat.add_zero]
    omega
  all_goals omega

/-- Four bytes in their places make up the word of them. -/
theorem or_eq_append (a b c d : BitVec 8) :
    a.setWidth 32 <<< 24 ||| b.setWidth 32 <<< 16 ||| c.setWidth 32 <<< 8 ||| d.setWidth 32 =
      a ++ b ++ c ++ d := by
  apply BitVec.eq_of_toNat_eq
  have hb := b.isLt
  have hc := c.isLt
  have hd := d.isLt
  have place (x : BitVec 8) (k : ℕ) (hk : k ≤ 24) :
      (x.setWidth 32 <<< k).toNat = x.toNat * 2 ^ k := by
    have hle : 2 ^ k ≤ 2 ^ 24 := Nat.pow_le_pow_right (by omega) hk
    have hlt : x.toNat * 2 ^ k < 2 ^ 8 * 2 ^ 24 :=
      Nat.mul_lt_mul_of_lt_of_le x.isLt hle (by omega)
    have hx : x.toNat % 2 ^ 32 = x.toNat := Nat.mod_eq_of_lt (by have := x.isLt; omega)
    rw [BitVec.toNat_shiftLeft, BitVec.toNat_setWidth, hx, Nat.shiftLeft_eq]
    exact Nat.mod_eq_of_lt (by omega)
  have join (x y k : ℕ) (hy : y < 2 ^ k) : x * 2 ^ k ||| y = x * 2 ^ k + y := by
    rw [← Nat.shiftLeft_eq, Nat.shiftLeft_add_eq_or_of_lt hy]
  have hlast : (d.setWidth 32).toNat = d.toNat := by
    rw [BitVec.toNat_setWidth, Nat.mod_eq_of_lt (by omega)]
  rw [toNat_append4, BitVec.or_assoc, BitVec.or_assoc, BitVec.toNat_or, BitVec.toNat_or,
    BitVec.toNat_or, place a 24 le_rfl, place b 16 (by omega), place c 8 (by omega), hlast,
    join _ _ 8 hd, join _ _ 16 (by omega), join _ _ 24 (by omega)]
  omega

end VectorLanes
