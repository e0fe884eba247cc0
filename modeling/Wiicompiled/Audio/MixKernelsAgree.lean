import Wiicompiled.Audio.MixKernels
import Mathlib.Tactic.Linarith

/-!
# The vector kernels do what the scalar ones do

The lanes of a block are what eight turns of the scalar loop do one after the other: the ramp
wraps when it is masked, the products are exact, and the shifts and the saturation give the
same bits.  All kernels agree for every count for which the guard of the loop over blocks does
not wrap around.
-/

namespace Wiicompiled.Audio.MixKernels

open BlockLoops VectorLanes

/-! ## Samples in lanes -/

section Samples

theorem toInt_ClampToS16 (value : ℤ) :
    (ClampToS16 value).toInt =
      if value < -0x8000 then -0x8000 else if value > 0x7fff then 0x7fff else value := by
  rw [ClampToS16]
  split_ifs with hlow hhigh
  · decide
  · decide
  · rw [BitVec.toInt_ofInt, Int.bmod_def]
    split_ifs <;> omega

theorem clampLanes (a : M256i) (lane : Fin 8) :
    min_epi32 (max_epi32 a (set1_epi32 (BitVec.ofInt 32 (-0x8000)))) (set1_epi32 0x7FFF) lane =
      (ClampToS16 (a lane).toInt).signExtend 32 := by
  have hlow : (BitVec.ofInt 32 (-0x8000)).toInt = -0x8000 := by decide
  have hhigh : (0x7FFF : BitVec 32).toInt = 0x7FFF := by decide
  apply BitVec.eq_of_toInt_eq
  rw [BitVec.toInt_signExtend_of_le (by omega), toInt_ClampToS16, min_epi32, max_epi32,
    set1_epi32, set1_epi32, hlow, hhigh]
  split_ifs <;> omega

theorem setWidth_signExtend (sample : BitVec 16) :
    (sample.signExtend 32).setWidth 16 = sample := by
  ext k hk
  rw [BitVec.getElem_setWidth, BitVec.getLsbD_signExtend, if_pos hk,
    decide_eq_true (by omega : k < 32), Bool.true_and, BitVec.getLsbD_eq_getElem hk]

theorem saturate_eq (a : BitVec 32) : saturate a = ClampToS16 a.toInt := by
  rw [saturate, ClampToS16]
  split_ifs with hlow hhigh
  · rfl
  · rfl
  · apply BitVec.eq_of_toNat_eq
    rw [BitVec.toNat_setWidth, BitVec.toNat_ofInt, BitVec.toInt_eq_toNat_cond]
    have := a.isLt
    split_ifs <;> omega

theorem product_bounds {x v : ℤ} (hmin : -0x8000 ≤ x) (hmax : x ≤ 0x7fff) (hv : 0 ≤ v)
    (hv' : v ≤ 0xffff) : -(2 ^ 31) ≤ x * v ∧ x * v < 2 ^ 31 := by
  constructor <;> nlinarith

/-- A lane of the ramp counts by its low bits only, and its product is exact. -/
theorem toInt_scaleLanes {samples : M128i} {ramp : M256i} {volume : BitVec 16} {lane : Fin 8}
    (h : (ramp lane).setWidth 16 = volume) :
    (scaleLanes samples ramp lane).toInt = scaled (samples lane) volume := by
  have hmask : (ramp lane &&& 0xFFFF).toInt = volume.toNat := by
    have hnat : (ramp lane &&& 0xFFFF).toNat = volume.toNat := by
      rw [← h, BitVec.toNat_setWidth, BitVec.toNat_and]
      exact Nat.and_two_pow_sub_one_eq_mod _ 16
    rw [BitVec.toInt_eq_toNat_of_lt (by omega), hnat]
  have hlow := BitVec.le_toInt (samples lane)
  have hhigh := BitVec.toInt_lt (x := samples lane)
  have hexact : ((samples lane).signExtend 32 * (ramp lane &&& 0xFFFF)).toInt =
      (samples lane).toInt * volume.toNat := by
    obtain ⟨hmin, hmax⟩ := product_bounds (x := (samples lane).toInt) (v := volume.toNat)
      (by omega) (by omega) (by omega) (by omega)
    rw [BitVec.toInt_mul, BitVec.toInt_signExtend_of_le (by omega), hmask]
    exact Int.bmod_eq_of_le (by omega) (by omega)
  change (((samples lane).signExtend 32 * (ramp lane &&& 0xFFFF)).sshiftRight 15).toInt = _
  rw [BitVec.toInt_sshiftRight, hexact, scaled]

end Samples

/-! ## The ramp -/

section Ramp

variable {volume delta : BitVec 16}

/-- The lanes of a ramp that has reached a volume, but for their high bits. -/
def RampAt (volume delta : BitVec 16) (ramp : M256i) : Prop :=
  ∀ lane : Fin 8, (ramp lane).setWidth 16 = volume + BitVec.ofNat 16 lane * delta

theorem rampAt_start : RampAt volume delta (startRamp volume delta) := by
  intro lane
  change (volume.setWidth 32 + BitVec.ofNat 32 lane * delta.setWidth 32).setWidth 16 = _
  rw [BitVec.setWidth_add _ _ (by omega), BitVec.setWidth_mul _ _ (by omega),
    BitVec.setWidth_setWidth_of_le _ (by omega), BitVec.setWidth_setWidth_of_le _ (by omega),
    BitVec.setWidth_eq, BitVec.setWidth_eq, BitVec.setWidth_ofNat_of_le (by omega)]

theorem RampAt.add {ramp : M256i} (h : RampAt volume delta ramp) :
    RampAt (volume + BitVec.ofNat 16 8 * delta) delta (add_epi32 ramp (blockStep delta)) := by
  intro lane
  change (ramp lane + delta.setWidth 32 * 8).setWidth 16 = _
  rw [BitVec.setWidth_add _ _ (by omega), BitVec.setWidth_mul _ _ (by omega), h lane,
    BitVec.setWidth_setWidth_of_le _ (by omega), BitVec.setWidth_eq, BitVec.add_assoc,
    BitVec.add_assoc, BitVec.add_comm (BitVec.ofNat 16 lane * delta), BitVec.mul_comm delta]
  rfl

theorem RampAt.extract {ramp : M256i} (h : RampAt volume delta ramp) :
    (extract_epi32 ramp ⟨0, Nat.succ_pos 7⟩).setWidth 16 = volume := by
  have hfirst : (extract_epi32 ramp ⟨0, _⟩).setWidth 16 = volume + 0#16 * delta := h 0
  rwa [BitVec.zero_mul, BitVec.add_zero] at hfirst

end Ramp

/-! ## A voice into a bus -/

section MixAdd

variable {input : ℕ → BitVec 16} {volume delta dpop : BitVec 16} {i n count : ℕ}

def mixSample (input : ℕ → BitVec 16) (i : ℕ) (volume : BitVec 16) : BitVec 16 :=
  ClampToS16 (scaled (input i) volume)

def mixEmit (input : ℕ → BitVec 16) (i : ℕ) (carry : MixCarry) (acc : BitVec 32) : BitVec 32 :=
  acc + (mixSample input i carry.volume).signExtend 32

def mixNext (input : ℕ → BitVec 16) (delta : BitVec 16) (i : ℕ) (carry : MixCarry) : MixCarry :=
  ⟨carry.volume + delta, mixSample input i carry.volume⟩

theorem mixAddTurn_eq : mixAddTurn input delta = pointStep (mixEmit input) (mixNext input delta) :=
  rfl

theorem volume_mixNext (n i : ℕ) (carry : MixCarry) :
    (forLoop (mixNext input delta) n i carry).volume = carry.volume + BitVec.ofNat 16 n * delta := by
  induction n with
  | zero => rw [forLoop, BitVec.zero_mul, BitVec.add_zero]
  | succ n ih =>
      rw [forLoop_succ, mixNext, ih, BitVec.ofNat_add, BitVec.add_mul, BitVec.add_assoc,
        BitVec.one_mul]

/-- What the state of the blocks stands for. -/
structure MixAt (delta : BitVec 16) (i : ℕ) (s : (ℕ → BitVec 32) × MixCarry) (b : MixBlocks) :
    Prop where
  out : b.out = s.1
  ramp : RampAt s.2.volume delta b.ramp
  last : i ≠ 0 → (extract_epi32 b.lastBlock (Fin.last 7)).setWidth 16 = s.2.last

theorem mixAddBlock_spec {s : (ℕ → BitVec 32) × MixCarry} {b : MixBlocks}
    (h : MixAt delta i s b) :
    MixAt delta (i + 8) (forLoop (mixAddTurn input delta) 8 i s) (mixAddBlock input delta i b) := by
  have hlanes (lane : Fin 8) :
      min_epi32 (max_epi32 (scaleLanes (loadBlock input i) b.ramp)
          (set1_epi32 (BitVec.ofInt 32 (-0x8000)))) (set1_epi32 0x7FFF) lane =
        (mixSample input (i + lane)
          (s.2.volume + BitVec.ofNat 16 lane * delta)).signExtend 32 := by
    rw [clampLanes, toInt_scaleLanes (h.ramp lane)]
    rfl
  have hcarry : (forLoop (mixAddTurn input delta) 8 i s).2 =
      forLoop (mixNext input delta) 8 i s.2 := by
    rw [mixAddTurn_eq, ← Prod.mk.eta (p := s), forLoop_pointStep]
  refine ⟨?_, ?_, fun _ => ?_⟩
  · rw [mixAddTurn_eq, ← Prod.mk.eta (p := s), ← h.out]
    refine storeBlock_eq_forLoop fun lane => ?_
    rw [mixEmit, volume_mixNext, ← hlanes lane]
    rfl
  · rw [hcarry, volume_mixNext]
    exact h.ramp.add
  · rw [hcarry, forLoop_succ]
    change (min_epi32 _ _ 7).setWidth 16 = mixSample input (i + 7) _
    rw [hlanes 7, volume_mixNext]
    exact setWidth_signExtend _

theorem returns_MixAddRampAvx2 (out : ℕ → BitVec 32) (hcount : count + 8 < 2 ^ 32) :
    Returns (MixAddRampAvx2 out input count volume delta dpop)
      (MixAddRampScalar out input count volume delta dpop) := by
  by_cases height : 8 ≤ count
  · have hrun : MixAddRampAvx2 out input count volume delta dpop = fun fuel =>
        (blockLoop (2 ^ 32) 8 count (mixAddBlock input delta) fuel 0
          ⟨out, startRamp volume delta, setzero_si256⟩).map _ := funext fun fuel => if_pos height
    rw [hrun]
    refine returns_blockLoop (R := fun i b => MixAt delta i
        (forLoop (mixAddTurn input delta) i 0 (out, ⟨volume, dpop⟩)) b) hcount (by omega)
      (fun i b _ h => ?_) ⟨rfl, rampAt_start, fun h => absurd rfl h⟩ (fun i b h hlast => ?_)
    · rw [forLoop_add, Nat.zero_add]
      exact mixAddBlock_spec h
    · have hne : i ≠ 0 := by omega
      simp only [if_pos hne, h.ramp.extract, h.last hne, h.out]
  · exact ⟨0, fun _ => if_neg height⟩

end MixAdd

/-! ## The envelope of a voice -/

section Scale

variable {volume delta : BitVec 16} {i n count : ℕ}

def scaleEmit (_ : ℕ) (volume sample : BitVec 16) : BitVec 16 :=
  ClampToS16 (scaled sample volume)

def scaleNext (delta : BitVec 16) (_ : ℕ) (volume : BitVec 16) : BitVec 16 :=
  volume + delta

theorem scaleTurn_eq : scaleTurn delta = pointStep scaleEmit (scaleNext delta) :=
  rfl

theorem forLoop_scaleNext (n i : ℕ) (volume : BitVec 16) :
    forLoop (scaleNext delta) n i volume = volume + BitVec.ofNat 16 n * delta := by
  induction n with
  | zero => rw [forLoop, BitVec.zero_mul, BitVec.add_zero]
  | succ n ih =>
      rw [forLoop_succ, scaleNext, ih, BitVec.ofNat_add, BitVec.add_mul, BitVec.add_assoc,
        BitVec.one_mul]

theorem packs_halves (a : M256i) (lane : Fin 8) :
    packs_epi32 (castsi256_si128 a) (extracti128_si256 a 1) lane = saturate (a lane) := by
  rw [packs_epi32]
  by_cases hlow : (lane : ℕ) < 4
  · rw [dif_pos hlow]
    rfl
  · rw [dif_neg hlow, extracti128_si256]
    congr 2
    apply Fin.ext
    change 4 * 1 + ((lane : ℕ) - 4) = lane
    omega

def ScaleAt (delta : BitVec 16) (s : (ℕ → BitVec 16) × BitVec 16)
    (b : (ℕ → BitVec 16) × M256i) : Prop :=
  b.1 = s.1 ∧ RampAt s.2 delta b.2

theorem scaleBlock_spec {s : (ℕ → BitVec 16) × BitVec 16} {b : (ℕ → BitVec 16) × M256i}
    (h : ScaleAt delta s b) :
    ScaleAt delta (forLoop (scaleTurn delta) 8 i s) (scaleBlock delta i b) := by
  obtain ⟨hsamples, hramp⟩ := h
  rw [scaleTurn_eq, ← Prod.mk.eta (p := s)]
  refine ⟨?_, ?_⟩
  · rw [← hsamples]
    refine storeBlock_eq_forLoop fun lane => ?_
    rw [packs_halves, saturate_eq, toInt_scaleLanes (hramp lane), scaleEmit, forLoop_scaleNext]
    rfl
  · rw [forLoop_pointStep, forLoop_scaleNext]
    exact hramp.add

theorem returns_ScaleRampAvx2 (samples : ℕ → BitVec 16) (hcount : count + 8 < 2 ^ 32) :
    Returns (ScaleRampAvx2 samples count volume delta)
      (ScaleRampScalar samples count volume delta) := by
  by_cases height : 8 ≤ count
  · have hrun : ScaleRampAvx2 samples count volume delta = fun fuel =>
        (blockLoop (2 ^ 32) 8 count (scaleBlock delta) fuel 0
          (samples, startRamp volume delta)).map _ := funext fun fuel => if_pos height
    rw [hrun]
    refine returns_blockLoop (R := fun i b => ScaleAt delta
        (forLoop (scaleTurn delta) i 0 (samples, volume)) b) hcount (by omega)
      (fun i b _ h => ?_) ⟨rfl, rampAt_start⟩ (fun i b h hlast => ?_)
    · rw [forLoop_add, Nat.zero_add]
      exact scaleBlock_spec h
    · have hne : i ≠ 0 := by omega
      simp only [if_pos hne, h.2.extract, h.1]
  · exact ⟨0, fun _ => if_neg height⟩

end Scale

/-! ## An auxiliary bus into a main bus -/

section Accum

variable {src : ℕ → BitVec 32} {ramp : ℕ → BitVec 16} {i count : ℕ}

def accumSample (src : ℕ → BitVec 32) (ramp : ℕ → BitVec 16) (i : ℕ) : BitVec 32 :=
  BitVec.ofInt 32 (((src i).toInt * ((ramp i).toNat : ℤ)) >>> (15 : ℕ))

/-- The low word of a product that is shifted as 64 bits without a sign is that of the
arithmetic shift. -/
theorem shifted_product (a : BitVec 32) (gain : BitVec 16) :
    ((a.signExtend 64 * (gain.setWidth 32).signExtend 64) >>> 15).setWidth 32 =
      BitVec.ofInt 32 ((a.toInt * (gain.toNat : ℤ)) >>> (15 : ℕ)) := by
  have hgain : (gain.setWidth 32).toInt = gain.toNat := by
    have hlt := gain.isLt
    have hnat : (gain.setWidth 32).toNat = gain.toNat := by
      rw [BitVec.toNat_setWidth, Nat.mod_eq_of_lt (by omega)]
    rw [BitVec.toInt_eq_toNat_of_lt (by omega), hnat]
  have hproduct : a.signExtend 64 * (gain.setWidth 32).signExtend 64 =
      BitVec.ofInt 64 (a.toInt * gain.toNat) := by
    apply BitVec.eq_of_toInt_eq
    rw [BitVec.toInt_mul, BitVec.toInt_ofInt, BitVec.toInt_signExtend_of_le (by omega),
      BitVec.toInt_signExtend_of_le (by omega), hgain]
  apply BitVec.eq_of_toNat_eq
  rw [hproduct, BitVec.toNat_setWidth, BitVec.toNat_ushiftRight, BitVec.toNat_ofInt,
    BitVec.toNat_ofInt, Nat.shiftRight_eq_div_pow, Int.shiftRight_eq_div_pow]
  generalize a.toInt * (gain.toNat : ℤ) = product
  push_cast
  omega

theorem accumLanes (lane : Fin 8) :
    blend_epi32
        (srli_epi64 (mul_epi32 (loadBlock src i) (cvtepu16_epi32 (loadBlock ramp i))) 15)
        (slli_epi64 (srli_epi64 (mul_epi32 (srli_epi64 (loadBlock src i) 32)
          (srli_epi64 (cvtepu16_epi32 (loadBlock ramp i)) 32)) 15) 32) 0xAA lane =
      accumSample src ramp (i + lane) := by
  have hmask : ∀ pair : Fin 4, Nat.testBit 0xAA (2 * pair) = false ∧
      Nat.testBit 0xAA (2 * pair + 1) = true := by decide
  rw [blend_epi32]
  obtain ⟨pair, heven | hodd⟩ :
      ∃ pair : Fin 4, (lane : ℕ) = 2 * pair ∨ (lane : ℕ) = 2 * pair + 1 :=
    ⟨⟨lane / 2, by omega⟩, by simp only; omega⟩
  · have hlane : lane = ⟨2 * pair, by omega⟩ := Fin.ext heven
    rw [heven, (hmask pair).1, if_neg Bool.false_ne_true, hlane, srli_epi64_even, mul_epi32, quad_ofQuads]
    exact shifted_product _ _
  · have hlane : lane = ⟨2 * pair + 1, by omega⟩ := Fin.ext hodd
    rw [hodd, (hmask pair).2, if_pos rfl, hlane, slli_epi64_half, srli_epi64_even, mul_epi32, quad_ofQuads,
      srli_epi64_half, srli_epi64_half]
    exact shifted_product _ _

theorem accumTurn_eq :
    accumTurn src ramp = updateStep fun j acc => acc + accumSample src ramp j :=
  rfl

theorem accumBlock_eq (dst : ℕ → BitVec 32) :
    accumBlock src ramp i dst = forLoop (accumTurn src ramp) 8 i dst := by
  rw [accumTurn_eq]
  refine storeBlock_eq_forLoop_updateStep fun lane => ?_
  rw [add_epi32, accumLanes]
  rfl

theorem returns_MixAccumRamp32Avx2 (dst : ℕ → BitVec 32) (hcount : count + 8 < 2 ^ 32) :
    Returns (MixAccumRamp32Avx2 dst src ramp count) (MixAccumRamp32Scalar dst src ramp count) := by
  refine returns_blockLoop (R := fun i b => b = forLoop (accumTurn src ramp) i 0 dst) hcount
    (by omega) (fun i b _ h => ?_) rfl (fun i b h _ => ?_)
  · rw [accumBlock_eq, h, forLoop_add, Nat.zero_add]
  · simp only [h]

end Accum

/-! ## Big-endian words -/

section Words

variable {i n count : ℕ}

theorem shuffle_ByteSwapMask32 (a : M256i) :
    shuffle_epi8 a ByteSwapMask32 =
      ofBytes fun byte => bytesOf a ⟨4 * (byte / 4) + (3 - byte % 4), by omega⟩ := by
  have hmask : ∀ byte : Fin 32, (ByteSwapMask32 byte).msb = false ∧
      16 * ((byte : ℕ) / 16) + (ByteSwapMask32 byte).toNat % 16 =
        4 * (byte / 4) + (3 - byte % 4) := by decide
  rw [shuffle_epi8]
  congr 1
  funext byte
  rw [(hmask byte).1, if_neg Bool.false_ne_true]
  exact congrArg (bytesOf a) (Fin.ext (hmask byte).2)

/-- A byte of a word that is written with the most significant byte first. -/
def wordByte (value : BitVec 32) (k : ℕ) : BitVec 8 :=
  (value >>> (24 - 8 * k)).setWidth 8

theorem bytesOf_word (a : M256i) (byte : Fin 32) (hword : (byte : ℕ) / 4 < 8) :
    bytesOf a ⟨4 * (byte / 4) + (3 - byte % 4), by omega⟩ =
      wordByte (a ⟨byte / 4, hword⟩) (byte % 4) := by
  apply BitVec.eq_of_toNat_eq
  have hlane : (4 * ((byte : ℕ) / 4) + (3 - byte % 4)) / 4 = byte / 4 := by omega
  have hbyte : 8 * ((4 * ((byte : ℕ) / 4) + (3 - byte % 4)) % 4) = 24 - 8 * (byte % 4) := by omega
  rw [toNat_bytesOf, wordByte, BitVec.toNat_setWidth, BitVec.toNat_ushiftRight,
    Nat.shiftRight_eq_div_pow]
  simp only [hlane, hbyte]

theorem Write32_eq (dst : ℕ → BitVec 8) (offset : ℕ) (value : BitVec 32) :
    Write32 dst offset value = storeBlock dst offset fun k : Fin 4 => wordByte value k := by
  rw [Write32]
  congr 1
  funext ⟨k, hk⟩
  obtain rfl | rfl | rfl | rfl : k = 0 ∨ k = 1 ∨ k = 2 ∨ k = 3 := by omega
  all_goals rfl

/-- One word of a block. -/
def writeTurn (src : ℕ → BitVec 32) (i : ℕ) (dst : ℕ → BitVec 8) : ℕ → BitVec 8 :=
  Write32 dst (i * 4) (src i)

theorem forLoop_writeTurn (dst : ℕ → BitVec 8) (src : ℕ → BitVec 32) (n i : ℕ) :
    forLoop (writeTurn src) n i dst =
      fun j => if i * 4 ≤ j ∧ j < (i + n) * 4 then wordByte (src (j / 4)) (j % 4) else dst j := by
  induction n with
  | zero => funext j; exact (if_neg (by omega)).symm
  | succ n ih =>
      rw [forLoop_succ, ih, writeTurn, Write32_eq]
      funext j
      rw [storeBlock]
      by_cases hlast : (i + n) * 4 ≤ j ∧ j < (i + n) * 4 + 4
      · have hword : j / 4 = i + n := by omega
        have hbyte : j - (i + n) * 4 = j % 4 := by omega
        rw [dif_pos hlast, if_pos (by omega), hword]
        simp only [hbyte]
      · rw [dif_neg hlast]
        by_cases hin : i * 4 ≤ j ∧ j < (i + n) * 4
        · rw [if_pos hin, if_pos (by omega)]
        · rw [if_neg hin, if_neg (by omega)]

theorem storeBytesBlock_eq (src : ℕ → BitVec 32) (dst : ℕ → BitVec 8) :
    storeBytesBlock src i dst = forLoop (writeTurn src) 8 i dst := by
  rw [forLoop_writeTurn]
  funext j
  rw [storeBytesBlock, storeBlock]
  by_cases hin : i * 4 ≤ j ∧ j < i * 4 + 32
  · rw [dif_pos hin, if_pos (by omega), shuffle_ByteSwapMask32, bytesOf_ofBytes]
    have hword : j / 4 = i + (j - i * 4) / 4 := by omega
    have hbyte : j % 4 = (j - i * 4) % 4 := by omega
    rw [hword, hbyte]
    exact bytesOf_word _ _ (by dsimp only; omega)
  · rw [dif_neg hin, if_neg (by omega)]

theorem StoreBigEndian32Scalar_eq (dst : ℕ → BitVec 8) (src : ℕ → BitVec 32) (i n : ℕ) :
    StoreBigEndian32Scalar dst (i * 4) src i n =
      forLoop (writeTurn src) n i dst := by
  have hstep : (fun k dst => Write32 dst (i * 4 + k * 4) (src (i + k))) =
      fun k => writeTurn src (i + k) := by
    funext k dst
    rw [writeTurn, Nat.add_mul]
  rw [StoreBigEndian32Scalar, hstep]
  exact forLoop_shift n i 0 dst

theorem returns_StoreBigEndian32Avx2 (dst : ℕ → BitVec 8) (src : ℕ → BitVec 32)
    (hcount : count + 8 < 2 ^ 64) :
    Returns (StoreBigEndian32Avx2 dst src count) (StoreBigEndian32Scalar dst 0 src 0 count) := by
  have hscalar := StoreBigEndian32Scalar_eq dst src 0 count
  rw [Nat.zero_mul] at hscalar
  rw [hscalar]
  refine returns_blockLoop
    (R := fun i b => b = forLoop (writeTurn src) i 0 dst) hcount
    (by omega) (fun i b _ h => ?_) rfl (fun i b h _ => ?_)
  · rw [storeBytesBlock_eq, h, forLoop_add, Nat.zero_add]
  · simp only [StoreBigEndian32Scalar_eq, h]

theorem shuffle_ofBytes (src : ℕ → BitVec 8) (i : ℕ) (lane : Fin 8) :
    shuffle_epi8 (ofBytes (loadBlock src (i * 4))) ByteSwapMask32 lane =
      Read32 src ((i + lane) * 4) := by
  have hswap (k : ℕ) (hk : k < 4) :
      bytesOf (ofBytes (loadBlock src (i * 4)))
          ⟨4 * ((4 * lane + k) / 4) + (3 - (4 * lane + k) % 4), by omega⟩ =
        src ((i + lane) * 4 + (3 - k)) := by
    rw [bytesOf_ofBytes, loadBlock]
    congr 1
    simp only
    omega
  rw [shuffle_ByteSwapMask32, Read32, or_eq_append, ofBytes, hswap 3 (by omega),
    hswap 2 (by omega), hswap 1 (by omega)]
  congr 1
  exact hswap 0 (by omega)

theorem loadBytesBlock_eq (src : ℕ → BitVec 8) (dst : ℕ → BitVec 32) :
    loadBytesBlock src i dst = forLoop (updateStep fun j _ => Read32 src (j * 4)) 8 i dst :=
  storeBlock_eq_forLoop_updateStep fun lane => shuffle_ofBytes src i lane

theorem LoadBigEndian32Scalar_eq (dst : ℕ → BitVec 32) (src : ℕ → BitVec 8) (i n : ℕ) :
    LoadBigEndian32Scalar dst i src (i * 4) n =
      forLoop (updateStep fun j _ => Read32 src (j * 4)) n i dst := by
  have hstep : (fun k dst => Function.update dst (i + k) (Read32 src (i * 4 + k * 4))) =
      fun k => updateStep (fun j _ => Read32 src (j * 4)) (i + k) := by
    funext k dst
    rw [updateStep, Nat.add_mul]
  rw [LoadBigEndian32Scalar, hstep]
  exact forLoop_shift n i 0 dst

theorem returns_LoadBigEndian32Avx2 (dst : ℕ → BitVec 32) (src : ℕ → BitVec 8)
    (hcount : count + 8 < 2 ^ 64) :
    Returns (LoadBigEndian32Avx2 dst src count) (LoadBigEndian32Scalar dst 0 src 0 count) := by
  have hscalar := LoadBigEndian32Scalar_eq dst src 0 count
  rw [Nat.zero_mul] at hscalar
  rw [hscalar]
  refine returns_blockLoop
    (R := fun i b => b = forLoop (updateStep fun j _ => Read32 src (j * 4)) i 0 dst) hcount
    (by omega) (fun i b _ h => ?_) rfl (fun i b h _ => ?_)
  · rw [loadBytesBlock_eq, h, forLoop_add, Nat.zero_add]
  · simp only [LoadBigEndian32Scalar_eq, h]

end Words

/-! ## All kernels -/

section Kernels

structure MixKernelsAgree (count : ℕ) : Prop where
  mixAdd : ∀ out input volume delta dpop,
    Returns (MixAddRampAvx2 out input count volume delta dpop)
        (MixAddRampScalar out input count volume delta dpop) ∧
      ∀ j, count ≤ j → (MixAddRampScalar out input count volume delta dpop).1 j = out j
  scale : ∀ samples volume delta,
    Returns (ScaleRampAvx2 samples count volume delta)
        (ScaleRampScalar samples count volume delta) ∧
      ∀ j, count ≤ j → (ScaleRampScalar samples count volume delta).1 j = samples j
  accum : ∀ dst src ramp,
    Returns (MixAccumRamp32Avx2 dst src ramp count) (MixAccumRamp32Scalar dst src ramp count) ∧
      ∀ j, count ≤ j → MixAccumRamp32Scalar dst src ramp count j = dst j

/-- So do those of the guest's words. -/
structure BlocksAgree (count : ℕ) : Prop where
  store : ∀ dst src,
    Returns (StoreBigEndian32Avx2 dst src count) (StoreBigEndian32Scalar dst 0 src 0 count) ∧
      ∀ j, count * 4 ≤ j → StoreBigEndian32Scalar dst 0 src 0 count j = dst j
  load : ∀ dst src,
    Returns (LoadBigEndian32Avx2 dst src count) (LoadBigEndian32Scalar dst 0 src 0 count) ∧
      ∀ j, count ≤ j → LoadBigEndian32Scalar dst 0 src 0 count j = dst j

theorem mixKernelsAgree_of_lt {count : ℕ} (hcount : count + 8 < 2 ^ 32) :
    MixKernelsAgree count where
  mixAdd out input volume delta dpop := by
    refine ⟨returns_MixAddRampAvx2 out hcount, fun j hj => ?_⟩
    rw [MixAddRampScalar, mixAddTurn_eq, forLoop_pointStep]
    exact if_neg (by omega)
  scale samples volume delta := by
    refine ⟨returns_ScaleRampAvx2 samples hcount, fun j hj => ?_⟩
    rw [ScaleRampScalar, scaleTurn_eq, forLoop_pointStep]
    exact if_neg (by omega)
  accum dst src ramp := by
    refine ⟨returns_MixAccumRamp32Avx2 dst hcount, fun j hj => ?_⟩
    rw [MixAccumRamp32Scalar, accumTurn_eq]
    exact forLoop_updateStep_of_le (by omega)

theorem blocksAgree_of_lt {count : ℕ} (hcount : count + 8 < 2 ^ 64) : BlocksAgree count where
  store dst src := by
    refine ⟨returns_StoreBigEndian32Avx2 dst src hcount, fun j hj => ?_⟩
    have hscalar := StoreBigEndian32Scalar_eq dst src 0 count
    rw [Nat.zero_mul] at hscalar
    rw [hscalar, forLoop_writeTurn]
    exact if_neg (by omega)
  load dst src := by
    refine ⟨returns_LoadBigEndian32Avx2 dst src hcount, fun j hj => ?_⟩
    have hscalar := LoadBigEndian32Scalar_eq dst src 0 count
    rw [Nat.zero_mul] at hscalar
    rw [hscalar]
    exact forLoop_updateStep_of_le (by omega)

/-- The vector kernels are the scalar ones for every count whose last guard does not wrap. -/
theorem vectorKernels_agree :
    (∀ count : ℕ, count + 8 < 2 ^ 32 → MixKernelsAgree count) ∧
      ∀ count : ℕ, count + 8 < 2 ^ 64 → BlocksAgree count :=
  ⟨fun _ => mixKernelsAgree_of_lt, fun _ => blocksAgree_of_lt⟩

/-- A frame of the mix. -/
theorem vectorKernels_frame : MixKernelsAgree 96 ∧ BlocksAgree 96 :=
  ⟨vectorKernels_agree.1 96 (by decide), vectorKernels_agree.2 96 (by decide)⟩

/-- With a count of eight less than 2 ^ 32 the loop over blocks does not end. -/
theorem wrappingGuard_disagrees : ¬MixKernelsAgree (2 ^ 32 - 8) := by
  intro h
  obtain ⟨fuel, hfuel⟩ := (h.accum (fun _ => 0) (fun _ => 0) (fun _ => 0)).1
  have hnone : blockLoop (2 ^ 32) 8 (2 ^ 32 - 8) (accumBlock (fun _ => 0) (fun _ => 0))
      (fuel + 0) 0 (fun _ => 0) = none :=
    blockLoop_eq_none (by omega) (by omega) (by decide) _ (dvd_zero 8) _
  have hrun := hfuel 0
  rw [MixAccumRamp32Avx2, hnone] at hrun
  cases hrun

end Kernels

end Wiicompiled.Audio.MixKernels
