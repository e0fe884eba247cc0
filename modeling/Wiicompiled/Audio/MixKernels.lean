import Wiicompiled.Support.BlockLoops
import Wiicompiled.Support.VectorLanes

/-!
# Mix kernels

The inner loops of the mix exist twice: over single samples, and over blocks of eight samples
in vector registers with the single loop for the rest.  Arrays are functions of the index; the
loops over blocks have fuel, as the guard of their 32-bit index may wrap around.
-/

namespace Wiicompiled.Audio.MixKernels

open BlockLoops VectorLanes

def ClampToS16 (value : ℤ) : BitVec 16 :=
  if value < -0x8000 then BitVec.ofInt 16 (-0x8000)
  else if value > 0x7fff then BitVec.ofInt 16 0x7fff
  else BitVec.ofInt 16 value

/-- A sample times a volume, by an arithmetic shift. -/
def scaled (sample volume : BitVec 16) : ℤ :=
  (sample.toInt * (volume.toNat : ℤ)) >>> (15 : ℕ)

/-! ## A voice into a bus -/

/-- The volume of the ramp and the sample that was last mixed. -/
structure MixCarry where
  volume : BitVec 16
  last : BitVec 16
deriving DecidableEq

def mixAddTurn (input : ℕ → BitVec 16) (delta : BitVec 16) (i : ℕ)
    (s : (ℕ → BitVec 32) × MixCarry) : (ℕ → BitVec 32) × MixCarry :=
  let sample := ClampToS16 (scaled (input i) s.2.volume)
  (Function.update s.1 i (s.1 i + sample.signExtend 32), ⟨s.2.volume + delta, sample⟩)

/-- The bus, the ramp after `count` steps, and the de-pop value. -/
def MixAddRampScalar (out : ℕ → BitVec 32) (input : ℕ → BitVec 16) (count : ℕ)
    (volume delta dpop : BitVec 16) : (ℕ → BitVec 32) × MixCarry :=
  forLoop (mixAddTurn input delta) count 0 (out, ⟨volume, dpop⟩)

structure MixBlocks where
  out : ℕ → BitVec 32
  ramp : M256i
  lastBlock : M256i

/-- `volume + k * delta` in lane `k`. -/
def startRamp (volume delta : BitVec 16) : M256i :=
  let lanes : M256i := fun lane => BitVec.ofNat 32 lane
  add_epi32 (set1_epi32 (volume.setWidth 32))
    (mullo_epi32 lanes (set1_epi32 (delta.setWidth 32)))

def blockStep (delta : BitVec 16) : M256i :=
  set1_epi32 (delta.setWidth 32 * 8)

/-- Samples times the ramp, which wraps at 16 bits. -/
def scaleLanes (samples : M128i) (ramp : M256i) : M256i :=
  let vol := and_si256 ramp (set1_epi32 0xFFFF)
  srai_epi32 (mullo_epi32 (cvtepi16_epi32 samples) vol) 15

def mixAddBlock (input : ℕ → BitVec 16) (delta : BitVec 16) (i : ℕ) (b : MixBlocks) :
    MixBlocks :=
  let clampLow := set1_epi32 (BitVec.ofInt 32 (-0x8000))
  let clampHigh := set1_epi32 0x7FFF
  let scaled := scaleLanes (loadBlock input i) b.ramp
  let scaled := min_epi32 (max_epi32 scaled clampLow) clampHigh
  let acc : M256i := loadBlock b.out i
  { out := storeBlock b.out i (add_epi32 acc scaled)
    ramp := add_epi32 b.ramp (blockStep delta)
    lastBlock := scaled }

def MixAddRampAvx2 (out : ℕ → BitVec 32) (input : ℕ → BitVec 16) (count : ℕ)
    (volume delta dpop : BitVec 16) (fuel : ℕ) : Option ((ℕ → BitVec 32) × MixCarry) :=
  if 8 ≤ count then
    (blockLoop (2 ^ 32) 8 count (mixAddBlock input delta) fuel 0
      ⟨out, startRamp volume delta, setzero_si256⟩).map fun (i, b) =>
        let carry : MixCarry :=
          if i ≠ 0 then
            ⟨(extract_epi32 b.ramp ⟨0, Nat.succ_pos 7⟩).setWidth 16,
              (extract_epi32 b.lastBlock (Fin.last 7)).setWidth 16⟩
          else ⟨volume, dpop⟩
        forLoop (mixAddTurn input delta) (count - i) i (b.out, carry)
  else some (forLoop (mixAddTurn input delta) count 0 (out, ⟨volume, dpop⟩))

/-! ## The envelope of a voice -/

def scaleTurn (delta : BitVec 16) (i : ℕ) (s : (ℕ → BitVec 16) × BitVec 16) :
    (ℕ → BitVec 16) × BitVec 16 :=
  (Function.update s.1 i (ClampToS16 (scaled (s.1 i) s.2)), s.2 + delta)

/-- The samples, and the ramp after `count` steps. -/
def ScaleRampScalar (samples : ℕ → BitVec 16) (count : ℕ) (volume delta : BitVec 16) :
    (ℕ → BitVec 16) × BitVec 16 :=
  forLoop (scaleTurn delta) count 0 (samples, volume)

def scaleBlock (delta : BitVec 16) (i : ℕ) (b : (ℕ → BitVec 16) × M256i) :
    (ℕ → BitVec 16) × M256i :=
  let scaled := scaleLanes (loadBlock b.1 i) b.2
  let packed := packs_epi32 (castsi256_si128 scaled) (extracti128_si256 scaled 1)
  (storeBlock b.1 i packed, add_epi32 b.2 (blockStep delta))

def ScaleRampAvx2 (samples : ℕ → BitVec 16) (count : ℕ) (volume delta : BitVec 16) (fuel : ℕ) :
    Option ((ℕ → BitVec 16) × BitVec 16) :=
  if 8 ≤ count then
    (blockLoop (2 ^ 32) 8 count (scaleBlock delta) fuel 0
      (samples, startRamp volume delta)).map fun (i, b) =>
        let volume := if i ≠ 0 then (extract_epi32 b.2 ⟨0, Nat.succ_pos 7⟩).setWidth 16 else volume
        forLoop (scaleTurn delta) (count - i) i (b.1, volume)
  else some (forLoop (scaleTurn delta) count 0 (samples, volume))

/-! ## An auxiliary bus into a main bus -/

def accumTurn (src : ℕ → BitVec 32) (ramp : ℕ → BitVec 16) (i : ℕ) (dst : ℕ → BitVec 32) :
    ℕ → BitVec 32 :=
  Function.update dst i
    (dst i + BitVec.ofInt 32 (((src i).toInt * ((ramp i).toNat : ℤ)) >>> (15 : ℕ)))

def MixAccumRamp32Scalar (dst src : ℕ → BitVec 32) (ramp : ℕ → BitVec 16) (count : ℕ) :
    ℕ → BitVec 32 :=
  forLoop (accumTurn src ramp) count 0 dst

def accumBlock (src : ℕ → BitVec 32) (ramp : ℕ → BitVec 16) (i : ℕ) (dst : ℕ → BitVec 32) :
    ℕ → BitVec 32 :=
  let source : M256i := loadBlock src i
  let gain := cvtepu16_epi32 (loadBlock ramp i)
  let even := srli_epi64 (mul_epi32 source gain) 15
  let odd := srli_epi64 (mul_epi32 (srli_epi64 source 32) (srli_epi64 gain 32)) 15
  let result := blend_epi32 even (slli_epi64 odd 32) 0xAA
  let acc : M256i := loadBlock dst i
  storeBlock dst i (add_epi32 acc result)

def MixAccumRamp32Avx2 (dst src : ℕ → BitVec 32) (ramp : ℕ → BitVec 16) (count fuel : ℕ) :
    Option (ℕ → BitVec 32) :=
  (blockLoop (2 ^ 32) 8 count (accumBlock src ramp) fuel 0 dst).map fun (i, dst) =>
    forLoop (accumTurn src ramp) (count - i) i dst

/-! ## Big-endian words of the guest -/

/-- `BigEndian::Write32` -/
def Write32 (dst : ℕ → BitVec 8) (offset : ℕ) (value : BitVec 32) : ℕ → BitVec 8 :=
  storeBlock dst offset
    ![(value >>> 24).setWidth 8, (value >>> 16).setWidth 8, (value >>> 8).setWidth 8,
      value.setWidth 8]

/-- `BigEndian::Read32` -/
def Read32 (src : ℕ → BitVec 8) (offset : ℕ) : BitVec 32 :=
  (src offset).setWidth 32 <<< 24 ||| (src (offset + 1)).setWidth 32 <<< 16 |||
    (src (offset + 2)).setWidth 32 <<< 8 ||| (src (offset + 3)).setWidth 32

/-- The arrays are used from an offset on. -/
def StoreBigEndian32Scalar (dst : ℕ → BitVec 8) (dstOffset : ℕ) (src : ℕ → BitVec 32)
    (srcOffset count : ℕ) : ℕ → BitVec 8 :=
  forLoop (fun i dst => Write32 dst (dstOffset + i * 4) (src (srcOffset + i))) count 0 dst

def LoadBigEndian32Scalar (dst : ℕ → BitVec 32) (dstOffset : ℕ) (src : ℕ → BitVec 8)
    (srcOffset count : ℕ) : ℕ → BitVec 32 :=
  forLoop (fun i dst => Function.update dst (dstOffset + i) (Read32 src (srcOffset + i * 4)))
    count 0 dst

def ByteSwapMask32 : Bytes256 :=
  ![3, 2, 1, 0, 7, 6, 5, 4, 11, 10, 9, 8, 15, 14, 13, 12,
    3, 2, 1, 0, 7, 6, 5, 4, 11, 10, 9, 8, 15, 14, 13, 12]

def storeBytesBlock (src : ℕ → BitVec 32) (i : ℕ) (dst : ℕ → BitVec 8) : ℕ → BitVec 8 :=
  let value : M256i := loadBlock src i
  storeBlock dst (i * 4) (bytesOf (shuffle_epi8 value ByteSwapMask32))

def StoreBigEndian32Avx2 (dst : ℕ → BitVec 8) (src : ℕ → BitVec 32) (count fuel : ℕ) :
    Option (ℕ → BitVec 8) :=
  (blockLoop (2 ^ 64) 8 count (storeBytesBlock src) fuel 0 dst).map fun (i, dst) =>
    StoreBigEndian32Scalar dst (i * 4) src i (count - i)

def loadBytesBlock (src : ℕ → BitVec 8) (i : ℕ) (dst : ℕ → BitVec 32) : ℕ → BitVec 32 :=
  let value := ofBytes (loadBlock src (i * 4))
  storeBlock dst i (shuffle_epi8 value ByteSwapMask32)

def LoadBigEndian32Avx2 (dst : ℕ → BitVec 32) (src : ℕ → BitVec 8) (count fuel : ℕ) :
    Option (ℕ → BitVec 32) :=
  (blockLoop (2 ^ 64) 8 count (loadBytesBlock src) fuel 0 dst).map fun (i, dst) =>
    LoadBigEndian32Scalar dst i src (i * 4) (count - i)

end Wiicompiled.Audio.MixKernels
