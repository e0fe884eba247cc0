import Wiicompiled.Egg.DecodeSZS

/-!
# Decoding is expansion

After `k` tokens the decoder has the expansion of the first `k` tokens in its
buffer: guest memory is the memory at the start with that text stored at the
destination.  One iteration adds one token to it, or stops at a token that the
grammar cannot place in the expanded size.
-/

namespace Wiicompiled.Egg

open BackReferences FlatMemory

/-! ## Words -/

theorem toNat_word
    {n : Nat} (hn : n < 2 ^ 32) :
    (BitVec.ofNat 32 n).toNat = n := by
  rw [BitVec.toNat_ofNat, Nat.mod_eq_of_lt hn]

theorem shiftLeft_word
    (n shift : Nat) :
    BitVec.ofNat 32 n <<< shift = BitVec.ofNat 32 (n * 2 ^ shift) := by
  apply BitVec.eq_of_toNat_eq
  rw [BitVec.toNat_shiftLeft, BitVec.toNat_ofNat, BitVec.toNat_ofNat, Nat.shiftLeft_eq,
    Nat.mod_mul_mod]

theorem or_word
    (high : Nat) {low shift : Nat} (hlow : low < 2 ^ shift) :
    BitVec.ofNat 32 (high * 2 ^ shift) ||| BitVec.ofNat 32 low =
      BitVec.ofNat 32 (high * 2 ^ shift + low) := by
  rw [← BitVec.ofNat_or, ← Nat.shiftLeft_eq, Nat.shiftLeft_add_eq_or_of_lt hlow]

theorem byte_lt
    (b : UInt8) :
    b.toNat < 256 :=
  b.toNat_lt

theorem rep_eq
    (high low : UInt8) :
    BitVec.ofNat 32 high.toNat <<< 8 ||| BitVec.ofNat 32 low.toNat =
      BitVec.ofNat 32 (high.toNat * 256 + low.toNat) := by
  rw [shiftLeft_word]
  exact or_word high.toNat (byte_lt low)

theorem distance_eq
    (rep : Nat) :
    (BitVec.ofNat 32 rep &&& 0xFFF) + 1 = BitVec.ofNat 32 (rep % 4096 + 1) := by
  have hmask : (0xFFF : BitVec 32) = BitVec.ofNat 32 (2 ^ 12 - 1) := rfl
  rw [hmask, ← BitVec.ofNat_and, Nat.and_two_pow_sub_one_eq_mod, BitVec.ofNat_add]
  rfl

theorem count_eq
    {rep : Nat} (hrep : rep < 65536) :
    BitVec.ofNat 32 rep >>> 12 = BitVec.ofNat 32 (rep / 4096) := by
  apply BitVec.eq_of_toNat_eq
  rw [BitVec.toNat_ushiftRight, toNat_word (by omega), toNat_word (by omega),
    Nat.shiftRight_eq_div_pow]

theorem slt_word_iff
    {a b : Nat} (ha : a < 2 ^ 31) (hb : b < 2 ^ 31) :
    (BitVec.ofNat 32 a).slt (BitVec.ofNat 32 b) = true ↔ a < b := by
  have ha' : (BitVec.ofNat 32 a).toInt = a := by
    rw [BitVec.toInt_eq_toNat_of_lt (by rw [toNat_word (by omega)]; omega), toNat_word (by omega)]
  have hb' : (BitVec.ofNat 32 b).toInt = b := by
    rw [BitVec.toInt_eq_toNat_of_lt (by rw [toNat_word (by omega)]; omega), toNat_word (by omega)]
  rw [BitVec.slt_iff_toInt_lt, ha', hb', Nat.cast_lt]

theorem lt_word_iff
    {a b : Nat} (ha : a < 2 ^ 32) (hb : b < 2 ^ 32) :
    BitVec.ofNat 32 a < BitVec.ofNat 32 b ↔ a < b := by
  rw [BitVec.lt_def, toNat_word ha, toNat_word hb]

theorem le_word_iff
    {a b : Nat} (ha : a < 2 ^ 32) (hb : b < 2 ^ 32) :
    BitVec.ofNat 32 a ≤ BitVec.ofNat 32 b ↔ a ≤ b := by
  rw [BitVec.le_def, toNat_word ha, toNat_word hb]

/-- The mask before the token of number `k`; it is empty before a group. -/
def maskBefore (k : Nat) : BitVec 32 :=
  if k % 8 = 0 then 0 else 0x80#32 >>> (k % 8)

theorem maskBefore_eq_zero_iff
    (k : Nat) :
    maskBefore k = 0 ↔ k % 8 = 0 := by
  have hmasks : ∀ bit : Fin 8, bit.val ≠ 0 → 0x80#32 >>> bit.val ≠ 0 := by
    decide
  unfold maskBefore
  constructor
  · intro hzero
    by_contra hne
    rw [if_neg hne] at hzero
    exact hmasks ⟨k % 8, Nat.mod_lt k (by omega)⟩ hne hzero
  · intro hzero
    rw [if_pos hzero]

theorem shiftRight_mask
    (k : Nat) :
    0x80#32 >>> (k % 8) >>> 1 = maskBefore (k + 1) := by
  have hmasks : ∀ bit : Fin 8, 0x80#32 >>> bit.val >>> 1 =
      if (bit.val + 1) % 8 = 0 then 0#32 else 0x80#32 >>> ((bit.val + 1) % 8) := by
    decide
  have hnext : (k % 8 + 1) % 8 = (k + 1) % 8 := by
    omega
  have hmask := hmasks ⟨k % 8, Nat.mod_lt k (by omega)⟩
  simp only [hnext] at hmask
  exact hmask

theorem and_mask_ne_zero_iff
    (flags : UInt8) (k : Nat) :
    BitVec.ofNat 32 flags.toNat &&& 0x80#32 >>> (k % 8) ≠ 0 ↔
      flags.toNat.testBit (7 - k % 8) = true := by
  have hall : ∀ flags : Fin 256, ∀ bit : Fin 8,
      BitVec.ofNat 32 flags.val &&& 0x80#32 >>> bit.val ≠ 0 ↔
        flags.val.testBit (7 - bit.val) = true := by
    decide +kernel
  exact hall ⟨flags.toNat, byte_lt flags⟩ ⟨k % 8, Nat.mod_lt k (by omega)⟩

theorem word_of_bytes
    (a b c d : UInt8) :
    BitVec.ofNat 32 a.toNat <<< 24 ||| BitVec.ofNat 32 b.toNat <<< 16 |||
        BitVec.ofNat 32 c.toNat <<< 8 ||| BitVec.ofNat 32 d.toNat =
      BitVec.ofNat 32 (a.toNat * 2 ^ 24 + b.toNat * 2 ^ 16 + c.toNat * 2 ^ 8 + d.toNat) := by
  have hfirst : ∀ a b : Nat, a * 2 ^ 24 + b * 2 ^ 16 = (a * 2 ^ 8 + b) * 2 ^ 16 := by
    intro a b
    omega
  have hsecond : ∀ a b : Nat, a * 2 ^ 16 + b * 2 ^ 8 = (a * 2 ^ 8 + b) * 2 ^ 8 := by
    intro a b
    omega
  have hlow : ∀ b : UInt8, ∀ shift : Nat, b.toNat * 2 ^ shift < 2 ^ (8 + shift) := by
    intro b shift
    rw [Nat.pow_add]
    exact Nat.mul_lt_mul_of_pos_right (byte_lt b) (Nat.two_pow_pos shift)
  rw [shiftLeft_word, shiftLeft_word, shiftLeft_word, or_word a.toNat (hlow b 16), hfirst,
    or_word _ (hlow c 8), hsecond, or_word _ (byte_lt d)]

theorem readExpandSize_eq
    (mem : GuestMemory) (src : BitVec 32) :
    readExpandSize mem src = BitVec.ofNat 32 (expandedSize (streamAt mem src)) :=
  word_of_bytes (mem (src + 4)) (mem (src + 5)) (mem (src + 6)) (mem (src + 7))

/-! ## The buffer -/

/-- What the decoder has touched lies in its buffer of `size` bytes. -/
structure Contained (mem : GuestMemory) (dst : BitVec 32) (size : Nat) (s : DecodeState) :
    Prop where
  written : ∀ address ∈ s.written, address ∈ range dst size
  copied : ∀ address ∈ s.copied, address ∈ range dst size
  frame : ∀ address, address ∉ range dst size → s.mem address = mem address

/-- The buffer holds `out`, and the rest of memory is as at the start. -/
structure Holds (mem : GuestMemory) (dst : BitVec 32) (out : List UInt8) (s : DecodeState) :
    Prop where
  mem_eq : s.mem = store mem dst out
  dstIdx_eq : s.dstIdx = BitVec.ofNat 32 out.length

/-- The grammar state that a state shares with others. -/
structure SameInput (s t : DecodeState) : Prop where
  srcIdx : t.srcIdx = s.srcIdx
  mask : t.mask = s.mask
  flags : t.flags = s.flags

section

variable {mem : GuestMemory} {src dst : BitVec 32} {size : Nat}

theorem mem_range_of_lt
    (dst : BitVec 32) {n : Nat} (hn : n < size) (hsize : size < 2 ^ 32) :
    dst + BitVec.ofNat 32 n ∈ range dst size := by
  have hoffset : dst + BitVec.ofNat 32 n - dst = BitVec.ofNat 32 n := by
    exact add_sub_cancel_left dst (BitVec.ofNat 32 n)
  rw [mem_range_iff, hoffset, toNat_word (by omega)]
  exact hn

theorem Holds.read
    {out : List UInt8} {s : DecodeState} (hholds : Holds mem dst out s)
    {n : Nat} (hn : n < out.length) (hlength : out.length < 2 ^ 32) :
    some (s.mem (dst + BitVec.ofNat 32 n)) = out[n]? := by
  have hoffset : dst + BitVec.ofNat 32 n - dst = BitVec.ofNat 32 n := by
    exact add_sub_cancel_left dst (BitVec.ofNat 32 n)
  rw [hholds.mem_eq, store_of_mem (mem_range_of_lt dst hn hlength), hoffset,
    toNat_word (by omega)]

theorem holds_writeByte
    {out : List UInt8} {s : DecodeState} (hholds : Holds mem dst out s)
    (hlt : out.length < 2 ^ 31) (value : UInt8) :
    Holds mem dst (out ++ [value]) (writeByte dst value s) := by
  refine ⟨?_, ?_⟩
  · simp only [writeByte, hholds.mem_eq, hholds.dstIdx_eq]
    exact store_store_append (by simp; omega)
  · simp only [writeByte, hholds.dstIdx_eq, List.length_append, List.length_singleton]
    exact (BitVec.ofNat_add out.length 1).symm

theorem contained_writeByte
    {out : List UInt8} {s : DecodeState} (hcontained : Contained mem dst size s)
    (hholds : Holds mem dst out s) (hlt : out.length < size) (hsize : size < 2 ^ 31)
    (value : UInt8) :
    Contained mem dst size (writeByte dst value s) := by
  have hplace : dst + s.dstIdx ∈ range dst size := by
    rw [hholds.dstIdx_eq]
    exact mem_range_of_lt dst hlt (by omega)
  refine ⟨?_, hcontained.copied, ?_⟩
  · intro address hmem
    rcases List.mem_append.mp hmem with hold | hnew
    · exact hcontained.written address hold
    · rw [List.mem_singleton.mp hnew]
      exact hplace
  · intro address haddress
    have hne : address ∉ range (dst + s.dstIdx) [value].length := by
      intro hmem
      rw [mem_range_iff, List.length_singleton, Nat.lt_one_iff] at hmem
      have heq : address = dst + s.dstIdx := by
        have hzero : address - (dst + s.dstIdx) = 0 := BitVec.eq_of_toNat_eq hmem
        exact sub_eq_zero.mp hzero
      exact haddress (heq ▸ hplace)
    simp only [writeByte]
    rw [store_of_notMem hne]
    exact hcontained.frame address haddress

theorem contained_noteCopied
    {s : DecodeState} (hcontained : Contained mem dst size s) {address : BitVec 32}
    (haddress : address ∈ range dst size) :
    Contained mem dst size (noteCopied address s) := by
  refine ⟨hcontained.written, ?_, hcontained.frame⟩
  intro other hmem
  rcases List.mem_append.mp hmem with hold | hnew
  · exact hcontained.copied other hold
  · rw [List.mem_singleton.mp hnew]
    exact haddress

/-! ## A copy -/

/-- The copy appends the repetition of the grammar, or stops where the output
would pass the expanded size. -/
theorem copyLoop_spec
    {distance n : Nat} {out : List UInt8} {s : DecodeState}
    (hsize : size < 2 ^ 31) (hpos : 0 < distance) (hdistance : distance ≤ out.length)
    (hle : out.length ≤ size) (hholds : Holds mem dst out s)
    (hcontained : Contained mem dst size s) :
    ∃ t, Contained mem dst size t ∧
      ((out.length + n ≤ size ∧
          copyLoop dst (BitVec.ofNat 32 size) n
            (BitVec.ofNat 32 (out.length - distance)) s = .done t ∧
          Holds mem dst (copyBack distance n out) t ∧ SameInput s t) ∨
        (size < out.length + n ∧
          copyLoop dst (BitVec.ofNat 32 size) n
            (BitVec.ofNat 32 (out.length - distance)) s = .malformed t)) := by
  induction n generalizing out s with
  | zero =>
      exact ⟨s, hcontained, Or.inl ⟨by omega, rfl, hholds, ⟨rfl, rfl, rfl⟩⟩⟩
  | succ n ih =>
      have hguard : BitVec.ofNat 32 size ≤ s.dstIdx ↔ size ≤ out.length := by
        rw [hholds.dstIdx_eq]
        exact le_word_iff (by omega) (by omega)
      rw [copyLoop]
      by_cases hfull : size ≤ out.length
      · rw [if_pos (hguard.mpr hfull)]
        exact ⟨s, hcontained, Or.inr ⟨by omega, rfl⟩⟩
      · rw [if_neg (fun h => hfull (hguard.mp h))]
        obtain ⟨a, ha, hcopy⟩ := copyBack_succ hpos hdistance n
        have hread := hholds.read (by omega : out.length - distance < out.length) (by omega)
        rw [ha] at hread
        have hnoted := contained_noteCopied hcontained
          (mem_range_of_lt dst (by omega : out.length - distance < size) (by omega))
        have hholds' : Holds mem dst out
            (noteCopied (dst + BitVec.ofNat 32 (out.length - distance)) s) :=
          ⟨hholds.mem_eq, hholds.dstIdx_eq⟩
        have hlength : (out ++ [a]).length = out.length + 1 := by
          simp
        have hnext : BitVec.ofNat 32 (out.length - distance) + 1 =
            BitVec.ofNat 32 ((out ++ [a]).length - distance) := by
          rw [hlength, Nat.sub_add_comm hdistance]
          exact (BitVec.ofNat_add (out.length - distance) 1).symm
        rw [Option.some.inj hread, hnext, hcopy]
        obtain ⟨t, ht, hdone | hmalformed⟩ := @ih (out ++ [a]) _ (by omega) (by omega)
          (holds_writeByte hholds' (by omega) a)
          (contained_writeByte hnoted hholds' (by omega) hsize a)
        · obtain ⟨hfits, hloop, hout, hsame⟩ := hdone
          exact ⟨t, ht, Or.inl ⟨by omega, hloop, hout, ⟨hsame.srcIdx, hsame.mask, hsame.flags⟩⟩⟩
        · exact ⟨t, ht, Or.inr ⟨by omega, hmalformed.2⟩⟩

/-! ## A token -/

/-- What the decoder does with a token of the grammar: it emits it, or stops
where the grammar cannot emit it within the expanded size. -/
def Follows (mem : GuestMemory) (dst : BitVec 32) (size : Nat) (out : List UInt8)
    (token : Token UInt8) (pos : Nat) (s : DecodeState) (decoded : Decoded) : Prop :=
  ∃ t, Contained mem dst size t ∧
    ((∃ next, emit out token = some next ∧ next.length ≤ size ∧ decoded = .done t ∧
        Holds mem dst next t ∧ t.srcIdx = BitVec.ofNat 32 pos ∧ t.mask = s.mask ∧
        t.flags = s.flags) ∨
      (decoded = .malformed t ∧ ∀ next, emit out token = some next → size < next.length))

theorem follows_literal
    {out : List UInt8} {s : DecodeState} {stream : Nat → UInt8} {pos : Nat}
    (hsize : size < 2 ^ 31) (hlt : out.length < size) (hholds : Holds mem dst out s)
    (hcontained : Contained mem dst size s) (hsrc : s.srcIdx = BitVec.ofNat 32 pos)
    (hread : s.mem (src + BitVec.ofNat 32 pos) = stream pos) :
    Follows mem dst size out (.literal (stream pos)) (pos + 1) s
      (.done (writeByte dst (s.mem (src + s.srcIdx)) { s with srcIdx := s.srcIdx + 1 })) := by
  have hholds' : Holds mem dst out { s with srcIdx := s.srcIdx + 1 } :=
    ⟨hholds.mem_eq, hholds.dstIdx_eq⟩
  have hcontained' : Contained mem dst size { s with srcIdx := s.srcIdx + 1 } :=
    ⟨hcontained.written, hcontained.copied, hcontained.frame⟩
  have hvalue : s.mem (src + s.srcIdx) = stream pos := by
    rw [hsrc, hread]
  rw [hvalue]
  refine ⟨_, contained_writeByte hcontained' hholds' hlt hsize (stream pos), Or.inl ?_⟩
  refine ⟨out ++ [stream pos], rfl, ?_, rfl, holds_writeByte hholds' (by omega) _, ?_, rfl,
    rfl⟩
  · simp
    omega
  · simp only [writeByte, hsrc]
    exact (BitVec.ofNat_add pos 1).symm

/-- A copy whose distance and length are those of a back-reference follows it. -/
theorem follows_copyLoop
    {out : List UInt8} {s : DecodeState} {pos distance count : Nat}
    (hsize : size < 2 ^ 31) (hlt : out.length < size) (hpos : 0 < distance)
    (hdistance : distance ≤ out.length) (hholds : Holds mem dst out s)
    (hcontained : Contained mem dst size s) (hsrc : s.srcIdx = BitVec.ofNat 32 pos) :
    Follows mem dst size out (.backReference distance count) pos s
      (copyLoop dst (BitVec.ofNat 32 size) count
        (s.dstIdx - BitVec.ofNat 32 distance) s) := by
  have hcopyIdx : s.dstIdx - BitVec.ofNat 32 distance =
      BitVec.ofNat 32 (out.length - distance) := by
    rw [hholds.dstIdx_eq]
    exact BitVec.ofNat_sub_ofNat_of_le out.length distance (by omega) hdistance
  have hemit : emit out (.backReference distance count) = some (copyBack distance count out) :=
    if_pos ⟨hpos, hdistance⟩
  have hlength := length_copyBack hpos hdistance count
  rw [hcopyIdx]
  obtain ⟨t, ht, hdone | hmalformed⟩ :=
    copyLoop_spec hsize hpos hdistance (Nat.le_of_lt hlt) hholds hcontained
  · obtain ⟨hfits, hloop, hout, hsame⟩ := hdone
    refine ⟨t, ht, Or.inl ⟨copyBack distance count out, hemit, by omega, hloop, hout, ?_,
      hsame.mask, hsame.flags⟩⟩
    rw [hsame.srcIdx, hsrc]
  · refine ⟨t, ht, Or.inr ⟨hmalformed.2, ?_⟩⟩
    intro next hnext
    rw [hemit] at hnext
    rw [← Option.some.inj hnext, hlength]
    exact hmalformed.1

theorem follows_copyStep
    {out : List UInt8} {s : DecodeState} {stream : Nat → UInt8} {pos : Nat}
    (hsize : size < 2 ^ 31) (hlt : out.length < size) (hholds : Holds mem dst out s)
    (hcontained : Contained mem dst size s) (hsrc : s.srcIdx = BitVec.ofNat 32 pos)
    (hread : ∀ n, pos ≤ n → n < (readBackReference stream pos).2 →
      s.mem (src + BitVec.ofNat 32 n) = stream n) :
    Follows mem dst size out (readBackReference stream pos).1
      (readBackReference stream pos).2 s
      (copyStep src dst (BitVec.ofNat 32 size) s) := by
  have hhighLt := byte_lt (stream pos)
  have hlowLt := byte_lt (stream (pos + 1))
  have hextra := byte_lt (stream (pos + 2))
  generalize hrep : (stream pos).toNat * 256 + (stream (pos + 1)).toNat = rep at *
  have hrepLt : rep < 65536 := by
    omega
  have hend : pos + 2 ≤ (readBackReference stream pos).2 := by
    simp only [readBackReference]
    split_ifs <;> simp
  have hhigh : flatRead8 s.mem (src + s.srcIdx) = BitVec.ofNat 32 (stream pos).toNat := by
    rw [flatRead8, hsrc, hread pos (Nat.le_refl _) (by omega)]
  have hlow : flatRead8 s.mem (src + s.srcIdx + 1) =
      BitVec.ofNat 32 (stream (pos + 1)).toNat := by
    rw [flatRead8, hsrc, BitVec.add_assoc]
    exact congrArg (fun b : UInt8 => BitVec.ofNat 32 b.toNat)
      ((congrArg (fun n => s.mem (src + n)) (BitVec.ofNat_add pos 1).symm).trans
        (hread (pos + 1) (by omega) (by omega)))
  have hstep : copyStep src dst (BitVec.ofNat 32 size) s =
      if s.dstIdx < BitVec.ofNat 32 (rep % 4096 + 1) then
        .malformed { s with srcIdx := s.srcIdx + 2 }
      else if BitVec.ofNat 32 (rep / 4096) ≠ 0 then
        copyLoop dst (BitVec.ofNat 32 size) (BitVec.ofNat 32 (rep / 4096) + 2).toNat
          (s.dstIdx - BitVec.ofNat 32 (rep % 4096 + 1)) { s with srcIdx := s.srcIdx + 2 }
      else
        copyLoop dst (BitVec.ofNat 32 size)
          (flatRead8 s.mem (src + (s.srcIdx + 2)) + 18).toNat
          (s.dstIdx - BitVec.ofNat 32 (rep % 4096 + 1))
          { s with srcIdx := s.srcIdx + 2 + 1 } := by
    simp only [copyStep, hhigh, hlow, rep_eq, hrep, distance_eq, count_eq hrepLt]
  have hguard : s.dstIdx < BitVec.ofNat 32 (rep % 4096 + 1) ↔ out.length < rep % 4096 + 1 := by
    rw [hholds.dstIdx_eq]
    exact lt_word_iff (by omega) (by omega)
  have hcount : BitVec.ofNat 32 (rep / 4096) = 0 ↔ rep / 4096 = 0 := by
    rw [← BitVec.toNat_inj, toNat_word (by omega)]
    rfl
  have hsrc' : s.srcIdx + 2 = BitVec.ofNat 32 (pos + 2) := by
    rw [hsrc]
    exact (BitVec.ofNat_add pos 2).symm
  rw [hstep]
  by_cases hback : out.length < rep % 4096 + 1
  · -- the reference leads to before the output
    rw [if_pos (hguard.mpr hback)]
    refine ⟨{ s with srcIdx := s.srcIdx + 2 },
      ⟨hcontained.written, hcontained.copied, hcontained.frame⟩, Or.inr ⟨rfl, ?_⟩⟩
    intro next hnext
    have hnone : emit out (readBackReference stream pos).1 = none := by
      simp only [readBackReference, hrep]
      split_ifs
      · exact if_neg (by omega)
      · exact if_neg (by omega)
    rw [hnone] at hnext
    cases hnext
  rw [if_neg (fun h => hback (hguard.mp h))]
  by_cases hzero : rep / 4096 = 0
  · have htoken : readBackReference stream pos =
        (.backReference (rep % 4096 + 1) ((stream (pos + 2)).toNat + 18), pos + 3) := by
      simp only [readBackReference, hrep, if_pos hzero]
    have hlength : (flatRead8 s.mem (src + (s.srcIdx + 2)) + 18).toNat =
        (stream (pos + 2)).toNat + 18 := by
      have hbyte := hread (pos + 2) (by omega) (by rw [htoken]; omega)
      rw [flatRead8, hsrc', hbyte, BitVec.toNat_add, toNat_word (by omega)]
      exact Nat.mod_eq_of_lt (by simp; omega)
    have hsrc'' : s.srcIdx + 2 + 1 = BitVec.ofNat 32 (pos + 3) := by
      rw [hsrc']
      exact (BitVec.ofNat_add (pos + 2) 1).symm
    rw [if_neg (not_not_intro (hcount.mpr hzero)), hlength, htoken]
    exact follows_copyLoop (s := { s with srcIdx := s.srcIdx + 2 + 1 }) hsize hlt
      (Nat.succ_pos _) (by omega) ⟨hholds.mem_eq, hholds.dstIdx_eq⟩
      ⟨hcontained.written, hcontained.copied, hcontained.frame⟩ hsrc''
  · have htoken : readBackReference stream pos =
        (.backReference (rep % 4096 + 1) (rep / 4096 + 2), pos + 2) := by
      simp only [readBackReference, hrep, if_neg hzero]
    have hlength : (BitVec.ofNat 32 (rep / 4096) + 2).toNat = rep / 4096 + 2 := by
      rw [BitVec.toNat_add, toNat_word (by omega)]
      exact Nat.mod_eq_of_lt (by simp; omega)
    rw [if_pos (fun h => hzero (hcount.mp h)), hlength, htoken]
    exact follows_copyLoop (s := { s with srcIdx := s.srcIdx + 2 }) hsize hlt
      (Nat.succ_pos _) (by omega) ⟨hholds.mem_eq, hholds.dstIdx_eq⟩
      ⟨hcontained.written, hcontained.copied, hcontained.frame⟩ hsrc'

/-! ## The loop -/

/-- The bytes of the file that the decoder needs lie outside its buffer. -/
def DisjointSource (mem : GuestMemory) (src dst : BitVec 32) : Prop :=
  ∀ k out, expand (tokens (streamAt mem src) k) = some out →
    out.length < expandedSize (streamAt mem src) →
    ∀ n < (cursorAt (streamAt mem src) (k + 1)).pos,
      src + BitVec.ofNat 32 n ∉ range dst (expandedSize (streamAt mem src))

/-- The decoder stands before the token of number `k`. -/
structure Progress (mem : GuestMemory) (src dst : BitVec 32) (k : Nat) (out : List UInt8)
    (s : DecodeState) : Prop where
  expands : expand (tokens (streamAt mem src) k) = some out
  holds : Holds mem dst out s
  srcIdx_eq : s.srcIdx = BitVec.ofNat 32 (cursorAt (streamAt mem src) k).pos
  mask_eq : s.mask = maskBefore k
  flags_eq : s.flags = BitVec.ofNat 32 (cursorAt (streamAt mem src) k).flags.toNat

theorem openGroup_pos_lt
    (stream : Nat → UInt8) (k : Nat) (cursor : Cursor) :
    (openGroup stream k cursor).pos < (readToken stream k cursor).2.pos := by
  simp only [readToken]
  split_ifs
  · exact Nat.lt_succ_self _
  · simp only [readBackReference]
    split_ifs <;> simp

theorem readToken_flags
    (stream : Nat → UInt8) (k : Nat) (cursor : Cursor) :
    (readToken stream k cursor).2.flags = (openGroup stream k cursor).flags := by
  simp only [readToken]
  split_ifs <;> rfl

theorem tokenAt_size_pos
    (stream : Nat → UInt8) (k : Nat) :
    0 < (tokenAt stream k).size := by
  simp only [tokenAt, readToken]
  split_ifs
  · exact Nat.one_pos
  · simp only [readBackReference]
    split_ifs <;> simp [Token.size]

theorem DisjointSource.read
    (hdisjoint : DisjointSource mem src dst) {k : Nat} {out : List UInt8} {s : DecodeState}
    (hout : expand (tokens (streamAt mem src) k) = some out)
    (hlt : out.length < expandedSize (streamAt mem src)) (hholds : Holds mem dst out s)
    {n : Nat} (hn : n < (cursorAt (streamAt mem src) (k + 1)).pos) :
    s.mem (src + BitVec.ofNat 32 n) = streamAt mem src n := by
  have hout' := hdisjoint k out hout hlt n hn
  have hbuffer : src + BitVec.ofNat 32 n ∉ range dst out.length := by
    intro hmem
    rw [mem_range_iff] at hmem hout'
    omega
  rw [hholds.mem_eq, store_of_notMem hbuffer, streamAt]

theorem loadFlags_eq
    {k : Nat} {out : List UInt8} {s : DecodeState} (hprogress : Progress mem src dst k out s)
    (hread : ∀ n < (cursorAt (streamAt mem src) (k + 1)).pos,
      s.mem (src + BitVec.ofNat 32 n) = streamAt mem src n) :
    loadFlags src s =
      { s with
        srcIdx := BitVec.ofNat 32
          (openGroup (streamAt mem src) k (cursorAt (streamAt mem src) k)).pos
        flags := BitVec.ofNat 32
          (openGroup (streamAt mem src) k (cursorAt (streamAt mem src) k)).flags.toNat
        mask := 0x80#32 >>> (k % 8) } := by
  unfold loadFlags
  by_cases hgroup : k % 8 = 0
  · have hmask : s.mask = 0 := by
      rw [hprogress.mask_eq, maskBefore_eq_zero_iff]
      exact hgroup
    have hpos := openGroup_pos_lt (streamAt mem src) k (cursorAt (streamAt mem src) k)
    rw [← cursorAt_succ] at hpos
    have hflags := hread (cursorAt (streamAt mem src) k).pos (by
      simp only [openGroup, if_pos hgroup] at hpos
      omega)
    have hopen : openGroup (streamAt mem src) k (cursorAt (streamAt mem src) k) =
        { pos := (cursorAt (streamAt mem src) k).pos + 1
          flags := streamAt mem src (cursorAt (streamAt mem src) k).pos } :=
      if_pos hgroup
    simp only [if_pos hmask, hopen, flatRead8, hprogress.srcIdx_eq, hflags, hgroup,
      BitVec.ofNat_add]
    rfl
  · have hmask : ¬ s.mask = 0 := by
      rw [hprogress.mask_eq, maskBefore_eq_zero_iff]
      exact hgroup
    have hbit : s.mask = 0x80#32 >>> (k % 8) := by
      rw [hprogress.mask_eq, maskBefore, if_neg hgroup]
    simp only [if_neg hmask, openGroup, if_neg hgroup]
    rw [← hprogress.srcIdx_eq, ← hprogress.flags_eq, ← hbit]

theorem decodeStep_spec
    {k : Nat} {out : List UInt8} {s : DecodeState}
    (hsize : expandedSize (streamAt mem src) < 2 ^ 31)
    (hdisjoint : DisjointSource mem src dst)
    (hlt : out.length < expandedSize (streamAt mem src))
    (hprogress : Progress mem src dst k out s)
    (hcontained : Contained mem dst (expandedSize (streamAt mem src)) s) :
    ∃ t, Contained mem dst (expandedSize (streamAt mem src)) t ∧
      ((∃ next, decodeStep src dst (BitVec.ofNat 32 (expandedSize (streamAt mem src))) s =
            .done t ∧ next.length ≤ expandedSize (streamAt mem src) ∧
          out.length < next.length ∧ Progress mem src dst (k + 1) next t) ∨
        (decodeStep src dst (BitVec.ofNat 32 (expandedSize (streamAt mem src))) s =
            .malformed t ∧
          ∀ next, emit out (tokenAt (streamAt mem src) k) = some next →
            expandedSize (streamAt mem src) < next.length)) := by
  have hread : ∀ n < (cursorAt (streamAt mem src) (k + 1)).pos,
      s.mem (src + BitVec.ofNat 32 n) = streamAt mem src n :=
    fun n hn => hdisjoint.read hprogress.expands hlt hprogress.holds hn
  have hload := loadFlags_eq hprogress hread
  generalize hopen : openGroup (streamAt mem src) k (cursorAt (streamAt mem src) k) = cursor
    at hload
  generalize hs' : loadFlags src s = s' at hload
  have hholds : Holds mem dst out s' := by
    rw [hload]
    exact ⟨hprogress.holds.mem_eq, hprogress.holds.dstIdx_eq⟩
  have hcontained' : Contained mem dst (expandedSize (streamAt mem src)) s' := by
    rw [hload]
    exact ⟨hcontained.written, hcontained.copied, hcontained.frame⟩
  have hsrc : s'.srcIdx = BitVec.ofNat 32 cursor.pos := by
    rw [hload]
  have hmem : s'.mem = s.mem := by
    rw [hload]
  have hflag : (s'.flags &&& s'.mask ≠ 0) ↔ cursor.flags.toNat.testBit (7 - k % 8) = true := by
    rw [hload]
    exact and_mask_ne_zero_iff cursor.flags k
  -- the token, followed by the decoder
  have hfollows : Follows mem dst (expandedSize (streamAt mem src)) out
      (tokenAt (streamAt mem src) k) (cursorAt (streamAt mem src) (k + 1)).pos s'
      (if s'.flags &&& s'.mask ≠ 0 then
        .done (writeByte dst (s'.mem (src + s'.srcIdx)) { s' with srcIdx := s'.srcIdx + 1 })
      else copyStep src dst (BitVec.ofNat 32 (expandedSize (streamAt mem src))) s') := by
    have htoken : tokenAt (streamAt mem src) k =
        (readToken (streamAt mem src) k (cursorAt (streamAt mem src) k)).1 :=
      rfl
    rw [cursorAt_succ] at hread ⊢
    rw [htoken]
    by_cases hliteral : cursor.flags.toNat.testBit (7 - k % 8) = true
    · simp only [readToken, hopen, if_pos hliteral] at hread ⊢
      rw [if_pos (hflag.mpr hliteral)]
      refine follows_literal hsize hlt hholds hcontained' hsrc ?_
      rw [hmem]
      exact hread cursor.pos (Nat.lt_succ_self _)
    · simp only [readToken, hopen, if_neg hliteral] at hread ⊢
      rw [if_neg (fun h => hliteral (hflag.mp h))]
      refine follows_copyStep hsize hlt hholds hcontained' hsrc ?_
      intro n _ hn
      rw [hmem]
      exact hread n hn
  obtain ⟨t, ht, hdone | hmalformed⟩ := hfollows
  · obtain ⟨next, hemit, hle, hstep, hnext, hpos, hmask, hflags⟩ := hdone
    have hgrows := length_emit hemit
    have htokenPos := tokenAt_size_pos (streamAt mem src) k
    refine ⟨{ t with mask := t.mask >>> 1 }, ⟨ht.written, ht.copied, ht.frame⟩,
      Or.inl ⟨next, ?_, hle, by omega, ?_⟩⟩
    · simp only [decodeStep, hs', hstep]
    · refine ⟨?_, ⟨hnext.mem_eq, hnext.dstIdx_eq⟩, hpos, ?_, ?_⟩
      · rw [tokens_succ, expand_concat, hprogress.expands, Option.bind_some, hemit]
      · simp only [hmask, hload]
        exact shiftRight_mask k
      · simp only [hflags, hload]
        rw [cursorAt_succ, readToken_flags, hopen]
  · refine ⟨t, ht, Or.inr ⟨?_, hmalformed.2⟩⟩
    simp only [decodeStep, hs', hmalformed.1]

/-- The loop ends after at most one iteration for each byte of the output. -/
theorem decodeLoop_spec
    {k fuel : Nat} {out : List UInt8} {s : DecodeState}
    (hsize : expandedSize (streamAt mem src) < 2 ^ 31)
    (hdisjoint : DisjointSource mem src dst)
    (hle : out.length ≤ expandedSize (streamAt mem src))
    (hfuel : expandedSize (streamAt mem src) ≤ out.length + fuel)
    (hprogress : Progress mem src dst k out s)
    (hcontained : Contained mem dst (expandedSize (streamAt mem src)) s) :
    ∃ t, Contained mem dst (expandedSize (streamAt mem src)) t ∧
      ((∃ all, decodeLoop src dst (BitVec.ofNat 32 (expandedSize (streamAt mem src))) fuel s =
            some (.done t) ∧ Expansion (streamAt mem src) all ∧ t.mem = store mem dst all) ∨
        (decodeLoop src dst (BitVec.ofNat 32 (expandedSize (streamAt mem src))) fuel s =
            some (.malformed t) ∧ ¬ ∃ all, Expansion (streamAt mem src) all)) := by
  have hguard : s.dstIdx.slt (BitVec.ofNat 32 (expandedSize (streamAt mem src))) = true ↔
      out.length < expandedSize (streamAt mem src) := by
    rw [hprogress.holds.dstIdx_eq]
    exact slt_word_iff (by omega) hsize
  induction fuel generalizing k out s with
  | zero =>
      have hall : out.length = expandedSize (streamAt mem src) := by
        omega
      have hstop : ¬ s.dstIdx.slt (BitVec.ofNat 32 (expandedSize (streamAt mem src))) =
          true := by
        rw [hguard]
        omega
      refine ⟨s, hcontained, Or.inl ⟨out, ?_, ⟨k, hprogress.expands, hall⟩,
        hprogress.holds.mem_eq⟩⟩
      rw [decodeLoop, if_neg hstop]
  | succ fuel ih =>
      rw [decodeLoop]
      by_cases hlt : out.length < expandedSize (streamAt mem src)
      · rw [if_pos (hguard.mpr hlt)]
        obtain ⟨t, ht, hdone | hmalformed⟩ :=
          decodeStep_spec hsize hdisjoint hlt hprogress hcontained
        · obtain ⟨next, hstep, hnextLe, hgrows, hnext⟩ := hdone
          rw [hstep]
          refine ih hnextLe (by omega) hnext ht ?_
          rw [hnext.holds.dstIdx_eq]
          exact slt_word_iff (by omega) hsize
        · rw [hmalformed.1]
          exact ⟨t, ht, Or.inr ⟨rfl, not_expansion_of_token hprogress.expands hlt
            hmalformed.2⟩⟩
      · rw [if_neg (fun h => hlt (hguard.mp h))]
        exact ⟨s, hcontained, Or.inl ⟨out, rfl, ⟨k, hprogress.expands, by omega⟩,
          hprogress.holds.mem_eq⟩⟩

end

/-! ## Files apart from the buffer -/

theorem cursorAt_pos_le
    (stream : Nat → UInt8) (k : Nat) :
    (cursorAt stream k).pos ≤ 16 + 4 * k := by
  induction k with
  | zero => exact Nat.le_refl _
  | succ k ih =>
      have hopen : (openGroup stream k (cursorAt stream k)).pos ≤
          (cursorAt stream k).pos + 1 := by
        simp only [openGroup]
        split_ifs <;> simp
      have htoken : (cursorAt stream (k + 1)).pos ≤
          (openGroup stream k (cursorAt stream k)).pos + 3 := by
        rw [cursorAt_succ]
        simp only [readToken]
        split_ifs
        · simp
        · simp only [readBackReference]
          split_ifs <;> simp
      omega

theorem le_length_of_expand
    {stream : Nat → UInt8} {k : Nat} {out : List UInt8}
    (hout : expand (tokens stream k) = some out) :
    k ≤ out.length := by
  induction k generalizing out with
  | zero => exact Nat.zero_le _
  | succ k ih =>
      rw [tokens_succ, expand_concat] at hout
      obtain ⟨before, hbefore, hemit⟩ := Option.bind_eq_some_iff.mp hout
      have hlength := length_emit hemit
      have hpos := tokenAt_size_pos stream k
      have hle := ih hbefore
      omega

/-- A buffer that is four times its size away from the file is apart from all
that the decoder needs of it. -/
theorem disjointSource_of_far
    {mem : GuestMemory} {src dst : BitVec 32}
    (hfar : ∀ n < 16 + 4 * expandedSize (streamAt mem src),
      src + BitVec.ofNat 32 n ∉ range dst (expandedSize (streamAt mem src))) :
    DisjointSource mem src dst := by
  intro k out hout hlt n hn
  have hk := le_length_of_expand hout
  have hpos := cursorAt_pos_le (streamAt mem src) (k + 1)
  exact hfar n (by omega)

/-! ## The decoder -/

/-- The decoder ends.  It touches nothing but the expanded size at the
destination, copies from there only, and either leaves the expansion of the file
there or stops at a file that has none. -/
theorem decodeSZS_spec
    (mem : GuestMemory) (src dst : BitVec 32) (fuel : Nat)
    (hsize : expandedSize (streamAt mem src) < 2 ^ 31)
    (hdisjoint : DisjointSource mem src dst)
    (hfuel : expandedSize (streamAt mem src) ≤ fuel) :
    ∃ s, ((∃ out, decodeSZS fuel mem src dst = some (.done s) ∧
          Expansion (streamAt mem src) out ∧
          load s.mem dst (expandedSize (streamAt mem src)) = out) ∨
        (decodeSZS fuel mem src dst = some (.malformed s) ∧
          ¬ ∃ out, Expansion (streamAt mem src) out)) ∧
      (∀ address ∈ s.written, address ∈ range dst (expandedSize (streamAt mem src))) ∧
      (∀ address ∈ s.copied, address ∈ range dst (expandedSize (streamAt mem src))) ∧
      ∀ address, address ∉ range dst (expandedSize (streamAt mem src)) →
        s.mem address = mem address := by
  have hempty : store mem dst [] = mem := by
    funext address
    exact store_of_notMem (by simp [mem_range_iff])
  have hprogress : Progress mem src dst 0 [] (startState mem) :=
    ⟨rfl, ⟨hempty.symm, rfl⟩, rfl, rfl, rfl⟩
  have hcontained : Contained mem dst (expandedSize (streamAt mem src)) (startState mem) :=
    ⟨by simp [startState], by simp [startState], fun _ _ => rfl⟩
  obtain ⟨s, hs, hresult⟩ := decodeLoop_spec hsize hdisjoint (Nat.zero_le _)
    (by simpa using hfuel) hprogress hcontained
  rw [← readExpandSize_eq] at hresult
  refine ⟨s, ?_, hs.written, hs.copied, hs.frame⟩
  rcases hresult with ⟨all, hdone, hall, hmem⟩ | hmalformed
  · refine Or.inl ⟨all, hdone, hall, ?_⟩
    obtain ⟨k, hexpand, hlength⟩ := hall
    rw [hmem, ← hlength]
    exact load_store_self (by omega)
  · exact Or.inr hmalformed

/-- The file of four equal bytes: a literal, and a copy of it that runs into
itself. -/
def repeatedFile : List UInt8 :=
  [89, 97, 122, 48, 0, 0, 0, 4, 0, 0, 0, 0, 0, 0, 0, 0, 0x80, 7, 0x10, 0x00]

def repeatedMemory : GuestMemory := fun address => (repeatedFile[address.toNat]?).getD 0

theorem decodeSZS_repeatedFile :
    (expandedSize (streamAt repeatedMemory 0) < 2 ^ 31 ∧
        DisjointSource repeatedMemory 0 0x1000 ∧
        expandedSize (streamAt repeatedMemory 0) ≤ 4) ∧
      ∃ s, ((∃ out, decodeSZS 4 repeatedMemory 0 0x1000 = some (.done s) ∧
            Expansion (streamAt repeatedMemory 0) out ∧
            load s.mem 0x1000 (expandedSize (streamAt repeatedMemory 0)) = out) ∨
          (decodeSZS 4 repeatedMemory 0 0x1000 = some (.malformed s) ∧
            ¬ ∃ out, Expansion (streamAt repeatedMemory 0) out)) ∧
        (∀ address ∈ s.written,
          address ∈ range 0x1000 (expandedSize (streamAt repeatedMemory 0))) ∧
        (∀ address ∈ s.copied,
          address ∈ range 0x1000 (expandedSize (streamAt repeatedMemory 0))) ∧
        ∀ address, address ∉ range 0x1000 (expandedSize (streamAt repeatedMemory 0)) →
          s.mem address = repeatedMemory address := by
  have hsize : expandedSize (streamAt repeatedMemory 0) = 4 := by
    decide +kernel
  have hdisjoint : DisjointSource repeatedMemory 0 0x1000 := by
    refine disjointSource_of_far ?_
    simp only [hsize, mem_range_iff]
    decide +kernel
  exact ⟨⟨by omega, hdisjoint, by omega⟩,
    decodeSZS_spec repeatedMemory 0 0x1000 4 (by omega) hdisjoint (by omega)⟩

end Wiicompiled.Egg
