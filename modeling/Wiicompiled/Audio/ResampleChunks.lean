import Wiicompiled.Audio.VoiceResampler
import Wiicompiled.Support.SlidingRing

/-!
# Resampling in chunks

The outputs depend on the ring and its counter only through the window of the last four
samples.  The history that a call writes back is this window, so a second call goes on where
the first one stopped.
-/

namespace Wiicompiled.Audio.AxDsp

open SlidingRing

variable {σ : Type*}

namespace ResampleState

/-- The last four samples, the oldest first. -/
def window (st : ResampleState σ) : BitVec 2 → Int16 :=
  view st.temp (st.idx.setWidth 2)

theorem tap_eq_window (st : ResampleState σ) (offset : BitVec 32) :
    st.tap offset = st.window (offset.setWidth 2) := by
  rw [tap, window, view, BitVec.setWidth_add _ _ (by decide)]

theorem lastSamples_eq_window (st : ResampleState σ) : st.lastSamples = st.window := by
  have hback : ∀ idx : BitVec 32, (idx - 1).setWidth 2 = idx.setWidth 2 + 3 := by
    intro idx
    rw [sub_eq_add_neg, BitVec.setWidth_add _ _ (by decide)]
    rfl
  funext i
  rw [lastSamples, window, view]
  simp only [hback, add_assoc]
  have hcases : i = 0 ∨ i = 1 ∨ i = 2 ∨ i = 3 := by
    revert i
    decide
  rcases hcases with rfl | rfl | rfl | rfl <;> rfl

end ResampleState

/-! ## Interpolation -/

/-- An interpolation that puts out a function of the window and the position, and turns the
counter by whole turns of the ring. -/
structure Interpolates (interpolate : ResampleState σ → Int16 × ResampleState σ) : Prop where
  sample : ∀ a b : ResampleState σ, a.window = b.window → a.pos = b.pos →
    (interpolate a).1 = (interpolate b).1
  state : ∀ st, ∃ idx : BitVec 32, idx.setWidth 2 = st.idx.setWidth 2 ∧
    (interpolate st).2 = { st with idx }

theorem setWidth_turn (idx : BitVec 32) : (idx + 4).setWidth 2 = idx.setWidth 2 := by
  rw [BitVec.setWidth_add _ _ (by decide)]
  exact add_zero _

theorem interpolates_polyphaseSample (coeffs : ℕ → Int16) :
    Interpolates (@polyphaseSample σ coeffs) where
  sample a b hwindow hpos := by
    simp only [polyphaseSample, ResampleState.tap_eq_window, hwindow, hpos]
  state st := ⟨st.idx + 1 + 1 + 1 + 1, by
    simp only [add_assoc]
    exact setWidth_turn st.idx, rfl⟩

theorem interpolates_linearSample : Interpolates (@linearSample σ) where
  sample a b hwindow hpos := by
    simp only [linearSample, ResampleState.tap_eq_window, hwindow, hpos]
    split <;> rfl
  state st := by
    rw [linearSample]
    split
    · refine ⟨st.idx + 1 + 3, ?_, rfl⟩
      rw [add_assoc]
      exact setWidth_turn st.idx
    · refine ⟨st.idx + 1 + 1 + 2, ?_, rfl⟩
      simp only [add_assoc]
      exact setWidth_turn st.idx

/-! ## Two runs side by side -/

/-- A state of a later call beside the state of a call that has already read `before`. -/
structure Continues (base : BitVec 32) (before : List Int16) (a b : ResampleState σ) : Prop where
  window : a.window = b.window
  pos : a.pos = b.pos
  source : a.source = b.source
  readSamples : b.readSamples = base + a.readSamples
  samples : b.samples = before ++ a.samples

section

variable {readSample : BitVec 32 → σ → Int16 × σ} {base : BitVec 32} {before : List Int16}
  {a b : ResampleState σ} {interpolate : ResampleState σ → Int16 × ResampleState σ}
  {ratio : BitVec 32}

theorem window_readHistory (st : ResampleState σ) : (readHistory readSample st).window =
    slide st.window (readSample st.readSamples st.source).1 := by
  have hnext : (st.idx + 1).setWidth 2 = st.idx.setWidth 2 + 1 := by
    rw [BitVec.setWidth_add _ _ (by decide)]
    rfl
  rw [ResampleState.window, ResampleState.window, readHistory, hnext, view_update]

theorem Continues.readHistory (h : Continues base before a b) :
    Continues base before (readHistory (fun i => readSample (base + i)) a)
      (readHistory readSample b) where
  window := by
    rw [window_readHistory, window_readHistory, h.window, h.source, h.readSamples]
  pos := by
    simp only [AxDsp.readHistory, h.pos]
  source := by
    simp only [AxDsp.readHistory, h.source, h.readSamples]
  readSamples := by
    simp only [AxDsp.readHistory, h.readSamples, add_assoc]
  samples := by
    simp only [AxDsp.readHistory, h.samples, h.source, h.readSamples, List.append_assoc]

theorem Continues.fillHistory (h : Continues base before a b) :
    Continues base before (fillHistory (fun i => readSample (base + i)) a)
      (fillHistory readSample b) := by
  induction b using AxDsp.fillHistory.induct readSample generalizing a with
  | case1 b hpos ih =>
      have hposA : 0x10000 ≤ a.pos := by rwa [h.pos]
      rw [AxDsp.fillHistory, if_pos hposA, @AxDsp.fillHistory.eq_def _ readSample b, if_pos hpos]
      exact ih h.readHistory
  | case2 b hpos =>
      have hposA : ¬ 0x10000 ≤ a.pos := by rwa [h.pos]
      rw [AxDsp.fillHistory, if_neg hposA, @AxDsp.fillHistory.eq_def _ readSample b, if_neg hpos]
      exact h

theorem Continues.output (hinterpolates : Interpolates interpolate)
    (h : Continues base before a b) :
    (interpolate a).1 = (interpolate b).1 ∧
      Continues base before (interpolate a).2 (interpolate b).2 := by
  obtain ⟨idxA, hidxA, hstateA⟩ := hinterpolates.state a
  obtain ⟨idxB, hidxB, hstateB⟩ := hinterpolates.state b
  refine ⟨hinterpolates.sample a b h.window h.pos, ?_⟩
  rw [hstateA, hstateB]
  refine ⟨?_, h.pos, h.source, h.readSamples, h.samples⟩
  have hwindow := h.window
  rw [ResampleState.window, ResampleState.window] at hwindow ⊢
  rw [hidxA, hidxB]
  exact hwindow

theorem Continues.resampleLoop (readSample : BitVec 32 → σ → Int16 × σ) (ratio : BitVec 32)
    (hinterpolates : Interpolates interpolate) (count : ℕ) (h : Continues base before a b) :
    (resampleLoop (fun i => readSample (base + i)) interpolate ratio count a).1 =
        (resampleLoop readSample interpolate ratio count b).1 ∧
      Continues base before
        (resampleLoop (fun i => readSample (base + i)) interpolate ratio count a).2
        (resampleLoop readSample interpolate ratio count b).2 := by
  induction count generalizing a b with
  | zero => exact ⟨rfl, h⟩
  | succ count ih =>
      have hmoved : Continues base before { a with pos := a.pos + ratio }
          { b with pos := b.pos + ratio } :=
        ⟨h.window, by rw [h.pos], h.source, h.readSamples, h.samples⟩
      obtain ⟨hsample, hnext⟩ := hmoved.fillHistory.output hinterpolates
      obtain ⟨hout, hend⟩ := ih hnext
      exact ⟨congrArg₂ List.cons hsample hout, hend⟩

theorem resampleLoop_add (n m : ℕ) (st : ResampleState σ) :
    resampleLoop readSample interpolate ratio (n + m) st =
      ((resampleLoop readSample interpolate ratio n st).1 ++
          (resampleLoop readSample interpolate ratio m
            (resampleLoop readSample interpolate ratio n st).2).1,
        (resampleLoop readSample interpolate ratio m
          (resampleLoop readSample interpolate ratio n st).2).2) := by
  induction n generalizing st with
  | zero => rw [Nat.zero_add]; rfl
  | succ n ih =>
      rw [Nat.add_right_comm]
      simp only [resampleLoop, ih, List.cons_append]

theorem pos_fillHistory_lt (st : ResampleState σ) :
    (fillHistory readSample st).pos < 0x10000 := by
  induction st using fillHistory.induct readSample with
  | case1 st hpos ih =>
      rw [fillHistory, if_pos hpos]
      exact ih
  | case2 st hpos =>
      rw [fillHistory, if_neg hpos]
      exact BitVec.not_le.mp hpos

theorem pos_resampleLoop_lt (hinterpolates : Interpolates interpolate) (count : ℕ)
    {st : ResampleState σ} (hpos : st.pos < 0x10000) :
    (resampleLoop readSample interpolate ratio count st).2.pos < 0x10000 := by
  induction count generalizing st with
  | zero => exact hpos
  | succ count ih =>
      apply ih
      obtain ⟨idx, _, hstate⟩ := hinterpolates.state
        (fillHistory readSample { st with pos := st.pos + ratio })
      rw [hstate]
      exact pos_fillHistory_lt _

/-! ## Chunks -/

/-- The history and the position that are carried over give the state back. -/
theorem continues_start {st : ResampleState σ} (hpos : st.pos < 0x10000) :
    Continues st.readSamples st.samples
      (ResampleState.start st.lastSamples (st.pos &&& 0xffff) st.source) st where
  window := by
    rw [ResampleState.lastSamples_eq_window]
    funext i
    have hzero : ((4 : BitVec 32).setWidth 2) = 0 := by decide
    rw [ResampleState.window, ResampleState.start, view, hzero, zero_add]
  pos := by
    apply BitVec.eq_of_toNat_eq
    have hlow : (0xffff : BitVec 32).toNat = 2 ^ 16 - 1 := rfl
    rw [ResampleState.start, BitVec.toNat_and, hlow, Nat.and_two_pow_sub_one_eq_mod]
    exact Nat.mod_eq_of_lt hpos
  source := rfl
  readSamples := (add_zero _).symm
  samples := (List.append_nil _).symm

theorem resampleWith_eq (count : ℕ) (lastSamples : BitVec 2 → Int16) (pos : BitVec 32)
    (source : σ) {run : List Int16 × ResampleState σ}
    (hrun : resampleLoop readSample interpolate ratio count
      (ResampleState.start lastSamples pos source) = run) :
    resampleWith readSample interpolate count lastSamples pos ratio source =
      ⟨run.1, run.2.window, run.2.pos &&& 0xffff, run.2.source, run.2.samples,
        run.2.readSamples⟩ := by
  rw [resampleWith, hrun, ← ResampleState.lastSamples_eq_window]

/-- Two calls, one after the other. -/
def Resampled.append (first second : Resampled σ) : Resampled σ where
  out := first.out ++ second.out
  lastSamples := second.lastSamples
  pos := second.pos
  source := second.source
  samples := first.samples ++ second.samples
  readSamples := first.readSamples + second.readSamples

theorem resampleWith_add (hinterpolates : Interpolates interpolate) (n m : ℕ)
    (lastSamples : BitVec 2 → Int16) {pos : BitVec 32} (hpos : pos < 0x10000) (source : σ)
    {first : Resampled σ}
    (hfirst : resampleWith readSample interpolate n lastSamples pos ratio source = first) :
    resampleWith readSample interpolate (n + m) lastSamples pos ratio source =
      first.append (resampleWith (fun i => readSample (first.readSamples + i)) interpolate m
        first.lastSamples first.pos ratio first.source) := by
  have hstop : (resampleLoop readSample interpolate ratio n
      (ResampleState.start lastSamples pos source)).2.pos < 0x10000 :=
    pos_resampleLoop_lt hinterpolates n hpos
  obtain ⟨hout, hend⟩ :=
    (continues_start hstop).resampleLoop readSample ratio hinterpolates m
  rw [resampleWith_eq n lastSamples pos source rfl, ← ResampleState.lastSamples_eq_window]
    at hfirst
  subst hfirst
  rw [resampleWith_eq (n + m) lastSamples pos source (resampleLoop_add n m _),
    resampleWith_eq m _ _ _ rfl, Resampled.append]
  simp only [hout, hend.window, hend.pos, hend.source, hend.samples, hend.readSamples]

end

/-- Resampling in two chunks, with the history and the position carried over and the second
reader going on where the first one stopped, puts out, reads and leaves the same as
resampling at once. -/
theorem resampleAudio_add (readSample : BitVec 32 → σ → Int16 × σ) (n m : ℕ)
    (lastSamples : BitVec 2 → Int16) {pos : BitVec 32} (ratio : BitVec 32) {srcType : BitVec 16}
    (coeffs : Option (ℕ → Int16)) (source : σ)
    (hpos : pos < 0x10000) (htype : srcType = 0 ∨ srcType = 1) :
    let first := resampleAudio readSample n lastSamples pos ratio srcType coeffs source
    let second := resampleAudio (fun i => readSample (first.readSamples + i)) m
      first.lastSamples first.pos ratio srcType coeffs first.source
    resampleAudio readSample (n + m) lastSamples pos ratio srcType coeffs source =
      first.append second := by
  have hlinear : ¬ (srcType ≠ 0 ∧ srcType ≠ 1) := fun hother => htype.elim hother.1 hother.2
  cases coeffs with
  | none =>
      simp only [resampleAudio, if_neg hlinear]
      exact resampleWith_add interpolates_linearSample n m lastSamples hpos source rfl
  | some coeffs =>
      by_cases hzero : srcType = 0
      · simp only [resampleAudio, hzero, decide_true]
        exact resampleWith_add (interpolates_polyphaseSample coeffs) n m lastSamples hpos source
          rfl
      · simp only [resampleAudio, hzero, decide_false, if_neg hlinear]
        exact resampleWith_add interpolates_linearSample n m lastSamples hpos source rfl

def countingSource (_ : BitVec 32) (next : Int16) : Int16 × Int16 :=
  (next, next + 1)

theorem resampleAudio_two_three :
    let first := resampleAudio countingSource 2 (fun _ => 0) 0x8000 0x18000 1 none 100
    let second := resampleAudio (fun i => countingSource (first.readSamples + i)) 3
      first.lastSamples first.pos 0x18000 1 none first.source
    resampleAudio countingSource 5 (fun _ => 0) 0x8000 0x18000 1 none 100 =
      first.append second :=
  resampleAudio_add countingSource 2 3 (fun _ => 0) 0x18000 none 100 (by decide) (.inr rfl)

/-! ## What is consumed -/

section

variable {readSample : BitVec 32 → σ → Int16 × σ}
  {interpolate : ResampleState σ → Int16 × ResampleState σ} {ratio : BitVec 32}

/-- The samples that were read and the position that is left, in fractions of a sample. -/
def ResampleState.passed (st : ResampleState σ) : ℕ :=
  0x10000 * st.samples.length + st.pos.toNat

theorem passed_fillHistory (st : ResampleState σ) :
    (fillHistory readSample st).passed = st.passed := by
  induction st using fillHistory.induct readSample with
  | case1 st hpos ih =>
      rw [fillHistory, if_pos hpos, ih]
      have hsub := BitVec.toNat_sub_of_le hpos
      have hle := BitVec.le_def.mp hpos
      simp only [ResampleState.passed, readHistory, List.length_append, List.length_singleton]
      have hword : (0x10000 : BitVec 32).toNat = 0x10000 := rfl
      omega
  | case2 st hpos => rw [fillHistory, if_neg hpos]

theorem passed_resampleLoop (hinterpolates : Interpolates interpolate)
    (hratio : ratio.toNat + 0x10000 ≤ 2 ^ 32) (count : ℕ) {st : ResampleState σ}
    (hpos : st.pos < 0x10000) :
    (resampleLoop readSample interpolate ratio count st).2.passed =
      st.passed + count * ratio.toNat := by
  induction count generalizing st with
  | zero => simp [resampleLoop]
  | succ count ih =>
      obtain ⟨idx, _, hstate⟩ := hinterpolates.state
        (fillHistory readSample { st with pos := st.pos + ratio })
      refine (ih ?_).trans ?_
      · rw [hstate]
        exact pos_fillHistory_lt _
      · rw [hstate]
        have hmoved : ({ st with pos := st.pos + ratio } : ResampleState σ).passed =
            st.passed + ratio.toNat := by
          have hlt : st.pos.toNat < 0x10000 := BitVec.lt_def.mp hpos
          simp only [ResampleState.passed, BitVec.toNat_add]
          omega
        rw [Nat.succ_mul, add_comm (count * _), ← add_assoc, ← hmoved]
        exact congrArg (· + count * ratio.toNat) (passed_fillHistory _)

theorem resampleWith_consumes (hinterpolates : Interpolates interpolate) (count : ℕ)
    (lastSamples : BitVec 2 → Int16) {pos : BitVec 32} (source : σ) (hpos : pos < 0x10000)
    (hratio : ratio.toNat + 0x10000 ≤ 2 ^ 32) {result : Resampled σ}
    (hresult : resampleWith readSample interpolate count lastSamples pos ratio source =
      result) :
    result.samples.length = (pos.toNat + count * ratio.toNat) / 0x10000 ∧
      result.pos.toNat = (pos.toNat + count * ratio.toNat) % 0x10000 := by
  obtain ⟨st, hst⟩ : ∃ st, st = (resampleLoop readSample interpolate ratio count
    (ResampleState.start lastSamples pos source)).2 := ⟨_, rfl⟩
  have hpassed : st.passed = pos.toNat + count * ratio.toNat := by
    rw [hst, passed_resampleLoop hinterpolates hratio count hpos]
    simp [ResampleState.passed, ResampleState.start]
  have hstop : st.pos.toNat < 0x10000 := by
    rw [hst]
    exact BitVec.lt_def.mp (pos_resampleLoop_lt hinterpolates count hpos)
  subst hresult
  rw [resampleWith_eq count lastSamples pos source rfl, ← hst]
  have hlow : (0xffff : BitVec 32).toNat = 2 ^ 16 - 1 := rfl
  simp only [BitVec.toNat_and, hlow, Nat.and_two_pow_sub_one_eq_mod]
  rw [ResampleState.passed] at hpassed
  omega

end

/-- A resampling reads exactly the samples that the position passes, and leaves the
fraction that it has not passed. -/
theorem resampleAudio_consumes (readSample : BitVec 32 → σ → Int16 × σ) (count : ℕ)
    (lastSamples : BitVec 2 → Int16) {pos ratio : BitVec 32} {srcType : BitVec 16}
    (coeffs : Option (ℕ → Int16)) (source : σ) (hpos : pos < 0x10000)
    (hratio : ratio.toNat + 0x10000 ≤ 2 ^ 32) (htype : srcType = 0 ∨ srcType = 1) :
    let result := resampleAudio readSample count lastSamples pos ratio srcType coeffs source
    result.samples.length = (pos.toNat + count * ratio.toNat) / 0x10000 ∧
      result.pos.toNat = (pos.toNat + count * ratio.toNat) % 0x10000 := by
  have hlinear : ¬ (srcType ≠ 0 ∧ srcType ≠ 1) := fun hother => htype.elim hother.1 hother.2
  cases coeffs with
  | none =>
      simp only [resampleAudio, if_neg hlinear]
      exact resampleWith_consumes interpolates_linearSample count _ source hpos hratio rfl
  | some coeffs =>
      by_cases hzero : srcType = 0
      · simp only [resampleAudio, hzero, decide_true]
        exact resampleWith_consumes (interpolates_polyphaseSample coeffs) count _ source hpos
          hratio rfl
      · simp only [resampleAudio, hzero, decide_false, if_neg hlinear]
        exact resampleWith_consumes interpolates_linearSample count _ source hpos hratio rfl

theorem resampleAudio_five :
    let result := resampleAudio countingSource 5 (fun _ => 0) 0x8000 0x18000 1 none 100
    result.samples.length = 8 ∧ result.pos.toNat = 0 :=
  resampleAudio_consumes countingSource 5 (fun _ => 0) none 100 (by decide) (by decide)
    (.inr rfl)

end Wiicompiled.Audio.AxDsp
