import Mathlib.Data.BitVec

/-!
# The voice resampler

`ResampleAudio` reads samples of a source and puts out interpolated ones.  Its history is a
ring of four samples behind a counter; the position is a word with 16 fraction bits, and may
wrap when the ratio is added.  A source is a state with a function that reads the next
sample; the read gets the number of the sample within the call, as the callers' readers do.
-/

namespace Wiicompiled.Audio.AxDsp

/-- The local variables of a resampling.  The samples read so far are kept beside them. -/
structure ResampleState (σ : Type*) where
  temp : BitVec 2 → Int16
  idx : BitVec 32
  readSamples : BitVec 32
  pos : BitVec 32
  source : σ
  samples : List Int16

/-- What a resampling gives back. -/
structure Resampled (σ : Type*) where
  out : List Int16
  lastSamples : BitVec 2 → Int16
  pos : BitVec 32
  source : σ
  samples : List Int16
  readSamples : BitVec 32

section

variable {σ : Type*}

/-- `temp[(idx + offset) & 3]`. -/
def ResampleState.tap (st : ResampleState σ) (offset : BitVec 32) : Int16 :=
  st.temp ((st.idx + offset).setWidth 2)

/-- `temp[idx++ & 3] = readSample(readSamples++)`, with the position moved back. -/
def readHistory (readSample : BitVec 32 → σ → Int16 × σ) (st : ResampleState σ) :
    ResampleState σ where
  temp := Function.update st.temp (st.idx.setWidth 2) (readSample st.readSamples st.source).1
  idx := st.idx + 1
  readSamples := st.readSamples + 1
  pos := st.pos - 0x10000
  source := (readSample st.readSamples st.source).2
  samples := st.samples ++ [(readSample st.readSamples st.source).1]

/-- The loop over the whole samples that the position has passed. -/
def fillHistory (readSample : BitVec 32 → σ → Int16 × σ) (st : ResampleState σ) :
    ResampleState σ :=
  if 0x10000 ≤ st.pos then fillHistory readSample (readHistory readSample st) else st
termination_by st.pos.toNat
decreasing_by
  simp only [readHistory]
  rename_i hpos
  rw [BitVec.le_def] at hpos
  rw [BitVec.toNat_sub_of_le (BitVec.le_def.mpr hpos)]
  have hword : (0x10000 : BitVec 32).toNat = 0x10000 := rfl
  omega

def clampS16 (sample : ℤ) : Int16 :=
  Int16.ofInt (max (-0x8000) (min sample 0x7fff))

/-- The polyphase sum of the four taps. -/
def polyphaseSample (coeffs : ℕ → Int16) (st : ResampleState σ) : Int16 × ResampleState σ :=
  let fracIndex := ((st.pos &&& 0xffff) >>> 9 <<< 2).toNat
  let t0 := st.tap 0
  let t1 := st.tap 1
  let t2 := st.tap 2
  let t3 := st.tap 3
  (clampS16 ((t0.toInt * (coeffs fracIndex).toInt + t1.toInt * (coeffs (fracIndex + 1)).toInt +
      t2.toInt * (coeffs (fracIndex + 2)).toInt + t3.toInt * (coeffs (fracIndex + 3)).toInt) >>> (15 : ℕ)),
    { st with idx := st.idx + 1 + 1 + 1 + 1 })

/-- The linear interpolation of the first two taps. -/
def linearSample (st : ResampleState σ) : Int16 × ResampleState σ :=
  let frac : BitVec 16 := (st.pos &&& 0xffff).setWidth 16
  if frac = 0 then (st.tap 0, { st with idx := st.idx + 1 + 3 })
  else
    let s0 := st.tap 0
    let s1 := st.tap 1
    (Int16.ofInt ((s0.toInt * (-frac).toNat + s1.toInt * frac.toNat) >>> (16 : ℕ)),
      { st with idx := st.idx + 1 + 1 + 2 })

def resampleLoop (readSample : BitVec 32 → σ → Int16 × σ)
    (interpolate : ResampleState σ → Int16 × ResampleState σ) (ratio : BitVec 32) :
    ℕ → ResampleState σ → List Int16 × ResampleState σ
  | 0, st => ([], st)
  | count + 1, st =>
      let st := fillHistory readSample { st with pos := st.pos + ratio }
      let (sample, st) := interpolate st
      let (out, st) := resampleLoop readSample interpolate ratio count st
      (sample :: out, st)

/-- The state before the first output. -/
def ResampleState.start (lastSamples : BitVec 2 → Int16) (pos : BitVec 32) (source : σ) :
    ResampleState σ where
  temp := lastSamples
  idx := 4
  readSamples := 0
  pos := pos
  source := source
  samples := []

/-- The history is written back from its last sample to its first. -/
def ResampleState.lastSamples (st : ResampleState σ) : BitVec 2 → Int16 := fun i =>
  if i = 3 then st.temp ((st.idx - 1).setWidth 2)
  else if i = 2 then st.temp ((st.idx - 1 - 1).setWidth 2)
  else if i = 1 then st.temp ((st.idx - 1 - 1 - 1).setWidth 2)
  else st.temp ((st.idx - 1 - 1 - 1 - 1).setWidth 2)

/-- Run the loop and write the history back. -/
def resampleWith (readSample : BitVec 32 → σ → Int16 × σ)
    (interpolate : ResampleState σ → Int16 × ResampleState σ) (count : ℕ)
    (lastSamples : BitVec 2 → Int16) (pos ratio : BitVec 32) (source : σ) : Resampled σ :=
  let (out, st) := resampleLoop readSample interpolate ratio count
    (ResampleState.start lastSamples pos source)
  { out, lastSamples := st.lastSamples, pos := st.pos &&& 0xffff, source := st.source,
    samples := st.samples, readSamples := st.readSamples }

def readDirect (readSample : BitVec 32 → σ → Int16 × σ) :
    ℕ → BitVec 32 → σ → List Int16 × σ
  | 0, _, source => ([], source)
  | count + 1, i, source =>
      let (sample, source) := readSample i source
      let (out, source) := readDirect readSample count (i + 1) source
      (sample :: out, source)

def resampleDirect (readSample : BitVec 32 → σ → Int16 × σ) (count : ℕ)
    (lastSamples : BitVec 2 → Int16) (pos : BitVec 32) (source : σ) : Resampled σ :=
  let (out, source) := readDirect readSample count 0 source
  { out, pos, source, samples := out, readSamples := BitVec.ofNat 32 count,
    lastSamples :=
      if 4 ≤ count then fun i => (out[count - 4 + i.toNat]?).getD 0 else lastSamples }

def resampleAudio (readSample : BitVec 32 → σ → Int16 × σ) (count : ℕ)
    (lastSamples : BitVec 2 → Int16) (pos ratio : BitVec 32) (srcType : BitVec 16)
    (coeffs : Option (ℕ → Int16)) (source : σ) : Resampled σ :=
  match coeffs, decide (srcType = 0) with
  | some coeffs, true =>
      resampleWith readSample (polyphaseSample coeffs) count lastSamples pos ratio source
  | _, _ =>
      if srcType ≠ 0 ∧ srcType ≠ 1 then
        resampleDirect readSample count lastSamples pos source
      else resampleWith readSample linearSample count lastSamples pos ratio source

end

end Wiicompiled.Audio.AxDsp
