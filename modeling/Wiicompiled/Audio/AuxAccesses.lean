import Wiicompiled.Audio.AxMix

/-!
# The aux accesses of the mix

Which blocks of aux input and output an operation reads and writes is known before it is
mixed: it depends neither on the samples that are read nor on the mixer.  So the addresses
of the blocks that a deferred mix shadows are known too.
-/

namespace Wiicompiled.Audio.AxDsp

inductive Mix.Makes {α : Type} : Mix α → List AuxAccess → Prop
  | done (value : α) : Makes (.done value) []
  | read (addr : UInt32) (bytes : ℕ) {next : List UInt8 → Mix α} {accesses : List AuxAccess}
      (h : ∀ data, Makes (next data) accesses) : Makes (.read addr bytes next) accesses
  | write (addr : UInt32) (data : List UInt8) {next : Mix α} {accesses : List AuxAccess}
      (h : Makes next accesses) : Makes (.write addr data next) accesses
  | contains (addr : UInt32) (bytes : ℕ) {next : Bool → Mix α} {accesses : List AuxAccess}
      (h : ∀ found, Makes (next found) accesses) : Makes (.contains addr bytes next) accesses
  | readAuxIn (addr : UInt32) {next : AuxBlock → Mix α} {accesses : List AuxAccess}
      (h : ∀ block, Makes (next block) accesses) :
      Makes (.readAuxIn addr next) (.read addr :: accesses)
  | writeAuxOut (addr : UInt32) (block : AuxBlock) {next : Mix α} {accesses : List AuxAccess}
      (h : Makes next accesses) :
      Makes (.writeAuxOut addr block next) (.write addr :: accesses)

namespace Mix.Makes

variable {α β γ : Type}

theorem bind
    {program : Mix α} {next : α → Mix β} {xs ys : List AuxAccess}
    (h : Makes program xs) (hnext : ∀ value, Makes (next value) ys) :
    Makes (program >>= next) (xs ++ ys) := by
  induction h with
  | done value => exact hnext value
  | read addr bytes _ ih => exact .read addr bytes ih
  | write addr data _ ih => exact .write addr data ih
  | contains addr bytes _ ih => exact .contains addr bytes ih
  | readAuxIn addr _ ih => exact .readAuxIn addr ih
  | writeAuxOut addr block _ ih => exact .writeAuxOut addr block ih

theorem bind_of_nil
    {program : Mix α} {next : α → Mix β} {ys : List AuxAccess}
    (h : Makes program []) (hnext : ∀ value, Makes (next value) ys) :
    Makes (program >>= next) ys :=
  h.bind hnext

theorem foldlM
    {f : β → γ → Mix β} {g : γ → List AuxAccess} (xs : List γ)
    (h : ∀ value x, Makes (f value x) (g x)) (value : β) :
    Makes (xs.foldlM f value) (xs.flatMap g) := by
  induction xs generalizing value with
  | nil => exact .done value
  | cons x xs ih =>
      rw [List.foldlM_cons, List.flatMap_cons]
      exact (h value x).bind ih

theorem foldlM_map
    {f : β → γ → Mix β} {g : γ → AuxAccess} (xs : List γ)
    (h : ∀ value x, Makes (f value x) [g x]) (value : β) :
    Makes (xs.foldlM f value) (xs.map g) := by
  rw [List.map_eq_flatMap]
  exact foldlM xs h value

theorem foldlM_nil
    {f : β → γ → Mix β} (xs : List γ) (h : ∀ value x, Makes (f value x) []) (value : β) :
    Makes (xs.foldlM f value) [] := by
  induction xs generalizing value with
  | nil => exact .done value
  | cons x xs ih =>
      rw [List.foldlM_cons]
      exact (h value x).bind_of_nil ih

theorem forM_map
    {f : γ → Mix PUnit} {g : γ → AuxAccess} (xs : List γ)
    (h : ∀ x, Makes (f x) [g x]) : Makes (xs.forM f) (xs.map g) := by
  induction xs with
  | nil => exact .done _
  | cons x xs ih => exact (h x).bind fun _ => ih

theorem forM_nil {f : γ → Mix PUnit} (xs : List γ) (h : ∀ x, Makes (f x) []) :
    Makes (xs.forM f) [] := by
  induction xs with
  | nil => exact .done _
  | cons x xs ih => exact (h x).bind_of_nil fun _ => ih

/-- The addresses that a deferred mix shadows are those that it writes, as far as there is
room. -/
theorem map_fst_auxOut
    {program : Mix α} {accesses : List AuxAccess} (h : Makes program accesses) (map : MixMap)
    (turns : List (List GuestWrite)) (s : WorkerState) :
    (program.runDeferred map turns s).2.2.auxOut.map Prod.fst =
      shadowAddrs (s.auxOut.map Prod.fst) accesses := by
  induction h generalizing turns s with
  | done value => rfl
  | read addr bytes _ ih => exact ih _ _ _
  | write addr data _ ih =>
      refine (ih _ _).trans (congrArg
        (fun auxOut : List (UInt32 × AuxBlock) => shadowAddrs (auxOut.map Prod.fst) _) ?_)
      unfold WorkerState.write
      split
      · rfl
      · rfl
  | contains addr bytes _ ih => exact ih _ _ _
  | readAuxIn addr _ ih => exact ih _ _ _
  | writeAuxOut addr block _ ih =>
      refine (ih _ _).trans (congrArg (fun auxOut => shadowAddrs auxOut _) ?_)
      change _ = WriteAuxOutBuffer (s.auxOut.map Prod.fst) addr
      unfold WorkerState.writeAuxOut WriteAuxOutBuffer
      rw [List.length_map]
      by_cases haddr : addr = 0
      · rw [if_pos haddr, if_pos haddr]
        rfl
      · rw [if_neg haddr, if_neg haddr]
        by_cases hroom : auxBlocks ≤ s.auxOut.length
        · rw [if_pos hroom]
          simp only [WorkerState.guestWrites, hroom, if_true]
        · rw [if_neg hroom]
          simp [WorkerState.guestWrites, hroom]

end Mix.Makes

/-! ## The operations -/

section Operations

open Mix.Makes

theorem MixRead16_makes (addr : UInt32) : (MixRead16 addr).Makes [] :=
  .read addr 2 fun _ => .done _

theorem MixRead32_makes (addr : UInt32) : (MixRead32 addr).Makes [] :=
  .read addr 4 fun _ => .done _

theorem MixWrite16_makes (addr : UInt32) (value : UInt16) : (MixWrite16 addr value).Makes [] :=
  .write addr _ (.done _)

theorem ReadAuxIn_makes (addr : UInt32) : (ReadAuxIn addr).Makes [.read addr] :=
  .readAuxIn addr fun _ => .done _

theorem WriteAuxOut_makes (addr : UInt32) (block : AuxBlock) :
    (WriteAuxOut addr block).Makes [.write addr] :=
  .writeAuxOut addr block (.done _)

theorem WriteGuestS32Buffer_makes (addr : UInt32) (block : AuxBlock) :
    (WriteGuestS32Buffer addr block).Makes [] := by
  unfold WriteGuestS32Buffer
  split
  · exact .done _
  · exact .write addr _ (.done _)

theorem SetupProcessing_makes (initAddr : UInt32) (mixer : Mixer) :
    (SetupProcessing initAddr mixer).Makes [] :=
  foldlM_nil _ (fun _ _ => (MixRead16_makes _).bind_of_nil fun _ =>
    (MixRead16_makes _).bind_of_nil fun _ =>
      (MixRead16_makes _).bind_of_nil fun _ => .done _) mixer

theorem AddToLR_makes (addr : UInt32) (neg : Bool) (mixer : Mixer) :
    (AddToLR addr neg mixer).Makes [] :=
  foldlM_nil _ (fun _ _ => (MixRead32_makes _).bind_of_nil fun _ => .done _) mixer

theorem AddSubToLR_makes (addr : UInt32) (mixer : Mixer) :
    (AddSubToLR addr mixer).Makes [] :=
  (foldlM_nil _ (fun _ _ => (MixRead32_makes _).bind_of_nil fun _ => .done _) mixer).bind_of_nil
    (foldlM_nil _ fun _ _ => (MixRead32_makes _).bind_of_nil fun _ => .done _)

theorem MixAUXSamples_makes
    (env : MixEnv) (auxId : ℕ) (writeAddr readAddr : UInt32) (volume : UInt16)
    (mixer : Mixer) :
    (MixAUXSamples env auxId writeAddr readAddr volume mixer).Makes
      (Operation.mixAUXSamples auxId writeAddr readAddr volume).auxAccesses := by
  have hreads : ∀ ramp mixer, Mix.Makes ((List.range 3).foldlM (fun mixer k => do
      let aux ← ReadAuxIn (blockAddr readAddr k)
      pure (Mixer.setBus mixer (kBusMainL + k)
        (MixAccumRamp32 (mixer.bus (kBusMainL + k)) aux ramp))) mixer)
      ((List.range 3).map fun block => .read (blockAddr readAddr block)) :=
    fun ramp => Mix.Makes.foldlM_map _ fun _ _ => (ReadAuxIn_makes _).bind fun _ => .done _
  unfold MixAUXSamples Operation.auxAccesses
  by_cases haddr : writeAddr ≠ 0
  · simp only [haddr, if_true, ne_eq, not_false_eq_true]
    exact (Mix.Makes.forM_map _ fun _ => WriteAuxOut_makes _ _).bind fun _ => hreads _ _
  · simp only [haddr, if_false]
    exact hreads _ _

theorem UploadAUXMixLRSC_makes
    (env : MixEnv) (auxId : ℕ) (addresses : List UInt32) (volume : UInt16) (mixer : Mixer) :
    (UploadAUXMixLRSC env auxId addresses volume mixer).Makes
      (Operation.uploadAUXMixLRSC auxId addresses volume).auxAccesses := by
  unfold UploadAUXMixLRSC
  refine (WriteAuxOut_makes _ _).bind fun _ => (WriteAuxOut_makes _ _).bind fun _ =>
    (WriteAuxOut_makes _ _).bind fun _ => (WriteAuxOut_makes _ _).bind fun _ => ?_
  refine Mix.Makes.foldlM_map _ (fun _ _ => ?_) _
  exact (ReadAuxIn_makes _).bind fun _ => .done _

theorem RunCompressor_makes
    (threshold releaseFrames : UInt16) (tableAddr : UInt32) (mixer : Mixer) :
    (RunCompressor threshold releaseFrames tableAddr mixer).Makes [] := by
  unfold RunCompressor
  simp only
  split
  · exact foldlM_nil _ (fun _ _ => (MixRead16_makes _).bind_of_nil fun _ => .done _) _
  · split
    · exact foldlM_nil _ (fun _ _ => (MixRead16_makes _).bind_of_nil fun _ => .done _) _
    · exact .done _

theorem OutputSamples_makes
    (env : MixEnv) (lrAddr surroundAddr : UInt32) (volume : UInt16) (uploadAuxC : Bool)
    (mixer : Mixer) :
    (OutputSamples env lrAddr surroundAddr volume uploadAuxC mixer).Makes [] := by
  unfold OutputSamples
  refine (WriteGuestS32Buffer_makes _ _).bind_of_nil fun _ => ?_
  have houtput : ∀ (bytes : List UInt8) (pcm : ℕ → UInt16) (mixer : Mixer),
      Mix.Makes (do
        if (MixResolveRange env.map lrAddr (kAxSamplesPerFrame * 4)).isSome then
          .write lrAddr bytes (.done ())
        else
          (List.range (kAxSamplesPerFrame * 2)).forM fun i =>
            MixWrite16 (lrAddr + UInt32.ofNat (i * 2)) (pcm i)
        pure mixer) [] := by
    intro bytes pcm mixer
    split
    · exact .write lrAddr bytes (.done _)
    · exact (forM_nil _ fun _ => MixWrite16_makes _ _).bind_of_nil fun _ => .done _
  cases uploadAuxC with
  | true => exact (WriteGuestS32Buffer_makes _ _).bind_of_nil fun _ => houtput _ _ _
  | false => exact houtput _ _ _

theorem OutputWMSamples_makes (addresses : List UInt32) (mixer : Mixer) :
    (OutputWMSamples addresses mixer).Makes [] := by
  unfold OutputWMSamples
  exact (forM_nil _ fun _ => forM_nil _ fun _ => MixWrite16_makes _ _).bind_of_nil
    fun _ => .done _

/-- A list makes the aux accesses of its operations, as long as its voices make none. -/
theorem mixOperations_makes
    {env : MixEnv}
    (hvoices : ∀ pbAddr newFilter oldAxLayout mixer,
      (env.processPBList pbAddr newFilter oldAxLayout mixer).Makes [])
    (operations : List Operation) (mixer : Mixer) :
    (mixOperations env operations mixer).Makes (operations.flatMap Operation.auxAccesses) := by
  refine Mix.Makes.foldlM operations (fun mixer operation => ?_) mixer
  cases operation with
  | setupProcessing initAddr => exact SetupProcessing_makes initAddr mixer
  | addToLR addr neg => exact AddToLR_makes addr neg mixer
  | addSubToLR addr => exact AddSubToLR_makes addr mixer
  | processPBList pbAddr newFilter oldAxLayout => exact hvoices _ _ _ mixer
  | mixAUXSamples auxId writeAddr readAddr volume =>
      exact MixAUXSamples_makes env auxId writeAddr readAddr volume mixer
  | uploadAUXMixLRSC auxId addresses volume =>
      exact UploadAUXMixLRSC_makes env auxId addresses volume mixer
  | runCompressor threshold releaseFrames tableAddr =>
      exact RunCompressor_makes threshold releaseFrames tableAddr mixer
  | outputSamples lrAddr surroundAddr volume uploadAuxC =>
      exact OutputSamples_makes env lrAddr surroundAddr volume uploadAuxC mixer
  | outputWMSamples addresses => exact OutputWMSamples_makes addresses mixer

end Operations

end Wiicompiled.Audio.AxDsp
