import Wiicompiled.Voice.AdaptiveJitterBuffer

/-!
# Runs of the jitter buffer

A session is a buffer with what happened to it since its last reset: the packets that
were accepted and the frames that were returned.  The bookkeeping of delays does not
touch the queue, so a push adds at most its own packet, and a pop takes at most the
expected one and passes over its number.
-/

namespace Wiicompiled.Voice.AdaptiveJitterBuffer

open SerialWindow

variable {F : Type} {arithmetic : JitterArithmetic F}

/-! ## Sessions -/

structure Session (F : Type) where
  buffer : Buffer F
  accepted : List (Sequence × Payload)
  frames : List Frame

inductive Call where
  | push (now : Time) (sequence : Sequence) (payload : Payload)
  | popReady (now : Time)
  | reset (preserveAdaptation : Bool)

def PushResult.isAccepted : PushResult → Bool
  | .accepted | .acceptedReordered => true
  | .duplicate | .late | .tooFarAhead => false

def Session.start (arithmetic : JitterArithmetic F) : Session F :=
  ⟨empty arithmetic, [], []⟩

def Session.step (arithmetic : JitterArithmetic F) (s : Session F) : Call → Session F
  | .push now sequence payload =>
      let (result, buffer) := AdaptiveJitterBuffer.push arithmetic now sequence payload s.buffer
      { s with
        buffer := buffer
        accepted :=
          if result.isAccepted then s.accepted ++ [(sequence, payload)] else s.accepted }
  | .popReady now =>
      let (frame, buffer) := AdaptiveJitterBuffer.popReady now s.buffer
      { s with buffer := buffer, frames := s.frames ++ frame.toList }
  | .reset preserveAdaptation =>
      ⟨AdaptiveJitterBuffer.reset arithmetic preserveAdaptation s.buffer, [], []⟩

def Session.run (arithmetic : JitterArithmetic F) (calls : List Call) : Session F :=
  calls.foldl (Session.step arithmetic) (.start arithmetic)

def Frame.number? (frame : Frame) : Option Sequence :=
  if frame.kind = .hold then none else some frame.sequence

def Frame.packet? (frame : Frame) : Option (Sequence × Payload) :=
  if frame.kind = .packet then some (frame.sequence, frame.payload) else none

/-- The numbers of the packet and concealment frames, in order. -/
def Session.numbers (s : Session F) : List Sequence :=
  s.frames.filterMap Frame.number?

def Session.played (s : Session F) : List (Sequence × Payload) :=
  s.frames.filterMap Frame.packet?

def Buffer.queued (b : Buffer F) : List (Sequence × Payload) :=
  b.packets.entries.map fun entry => (entry.1, entry.2)

/-! ## The bookkeeping of delays -/

/-- What the order of packets depends on is the same. -/
structure SameQueue (b b' : Buffer F) : Prop where
  packets : b'.packets = b.packets
  expectedSequence : b'.expectedSequence = b.expectedSequence
  initialized : b'.initialized = b.initialized
  suspended : b'.suspended = b.suspended

theorem SameQueue.refl (b : Buffer F) : SameQueue b b :=
  ⟨rfl, rfl, rfl, rfl⟩

theorem SameQueue.trans
    {b b' b'' : Buffer F} (h : SameQueue b b') (h' : SameQueue b' b'') : SameQueue b b'' :=
  ⟨h'.packets.trans h.packets, h'.expectedSequence.trans h.expectedSequence,
    h'.initialized.trans h.initialized, h'.suspended.trans h.suspended⟩

theorem sameQueue_updateJitter
    (arithmetic : JitterArithmetic F) (sequence : Sequence) (now : Time) (b : Buffer F) :
    SameQueue b (updateJitter arithmetic sequence now b) := by
  unfold updateJitter
  split
  · exact ⟨rfl, rfl, rfl, rfl⟩
  · dsimp only
    split <;> exact ⟨rfl, rfl, rfl, rfl⟩

theorem sameQueue_updateTarget
    (arithmetic : JitterArithmetic F) (now : Time) (allowDecrease : Bool) (b : Buffer F) :
    SameQueue b (updateTarget arithmetic now allowDecrease b) := by
  unfold updateTarget
  dsimp only
  split
  · exact ⟨rfl, rfl, rfl, rfl⟩
  · split <;> exact ⟨rfl, rfl, rfl, rfl⟩

theorem sameQueue_countStable
    (arithmetic : JitterArithmetic F) (now : Time) (b : Buffer F) :
    SameQueue b (countStable arithmetic now b) := by
  unfold countStable
  dsimp only
  split
  · refine SameQueue.trans ?_ (sameQueue_updateTarget arithmetic now true _)
    exact ⟨rfl, rfl, rfl, rfl⟩
  · refine SameQueue.trans ?_ (sameQueue_updateTarget arithmetic now false _)
    exact ⟨rfl, rfl, rfl, rfl⟩

theorem sameQueue_recordLate
    (arithmetic : JitterArithmetic F) (now : Time) (b : Buffer F) :
    SameQueue b (recordLate arithmetic now b) := by
  unfold recordLate
  refine SameQueue.trans ?_ (sameQueue_updateTarget arithmetic now false _)
  exact ⟨rfl, rfl, rfl, rfl⟩

theorem restart_spec (now : Time) (b : Buffer F) :
    (restart now b).packets = b.packets ∧
      (restart now b).expectedSequence = b.expectedSequence ∧
      (restart now b).initialized = b.initialized ∧ (restart now b).suspended = false := by
  unfold restart
  by_cases hsuspended : b.suspended = true
  · simp [hsuspended]
  · simp [hsuspended]

/-! ## What a push and a pop do -/

/-- The buffer in which a push looks for the place of its packet. -/
def Buffer.begun (b : Buffer F) (now : Time) (sequence : Sequence) : Buffer F :=
  if !b.initialized then initializeAt sequence now b else b

/-- A push is refused and keeps the queue, or its packet lies in the window, is not
queued yet and is queued. -/
theorem push_cases
    (arithmetic : JitterArithmetic F) (now : Time) (sequence : Sequence) (payload : Payload)
    (b : Buffer F) :
    ((push arithmetic now sequence payload b).1.isAccepted = false ∧
      (SameQueue b (push arithmetic now sequence payload b).2 ∨
        SameQueue (b.begun now sequence) (push arithmetic now sequence payload b).2 ∧
          (sequence ∈ (b.begun now sequence).packets ∨
            ¬ InWindow (b.begun now sequence).expectedSequence 11 sequence))) ∨
    ((push arithmetic now sequence payload b).1.isAccepted = true ∧
      InWindow (b.begun now sequence).expectedSequence 11 sequence ∧
      sequence ∉ (b.begun now sequence).packets ∧
      (push arithmetic now sequence payload b).2.packets =
        (b.begun now sequence).packets.insert sequence payload ∧
      (push arithmetic now sequence payload b).2.expectedSequence =
        (b.begun now sequence).expectedSequence ∧
      (push arithmetic now sequence payload b).2.initialized = true ∧
      (push arithmetic now sequence payload b).2.suspended = false) := by
  have hbegun : (if (!b.initialized) = true then initializeAt sequence now b else b) =
      b.begun now sequence := rfl
  have hinitialized : (b.begun now sequence).initialized = true := by
    unfold Buffer.begun
    cases hb : b.initialized with
    | false => rfl
    | true => exact hb
  unfold push
  by_cases hpayload : payload = [] ∨ maxOpusPacketBytes < payload.length
  · rw [if_pos hpayload]
    exact .inl ⟨rfl, .inl (.refl b)⟩
  rw [if_neg hpayload]
  dsimp only
  rw [hbegun]
  generalize b.begun now sequence = c at hinitialized ⊢
  by_cases hlate : distance c.expectedSequence sequence < 0
  · rw [if_pos hlate]
    refine .inl ⟨rfl, .inr ⟨sameQueue_recordLate arithmetic now c, .inr fun hwindow => ?_⟩⟩
    have := distance_of_inWindow hwindow (by decide)
    omega
  rw [if_neg hlate]
  have hgap : maxRecoverableGap.toInt = 10 := rfl
  by_cases hfar : maxRecoverableGap.toInt < distance c.expectedSequence sequence
  · rw [if_pos hfar]
    refine .inl ⟨rfl, .inr ⟨.refl c, .inr fun hwindow => ?_⟩⟩
    have := distance_of_inWindow hwindow (by decide)
    omega
  rw [if_neg hfar]
  by_cases hqueued : sequence ∈ c.packets
  · rw [if_pos hqueued]
    exact .inl ⟨rfl, .inr ⟨.refl c, .inl hqueued⟩⟩
  rw [if_neg hqueued]
  have hwindow : InWindow c.expectedSequence 11 sequence :=
    inWindow_of_distance (by omega) (by push_cast; omega)
  obtain ⟨d, hd, hdqueue⟩ : ∃ d : Buffer F,
      d = (if 0 < distance c.highestSequence sequence then
        { c with highestSequence := sequence } else c) ∧ SameQueue c d := by
    refine ⟨_, rfl, ?_⟩
    split <;> exact ⟨rfl, rfl, rfl, rfl⟩
  rw [← hd]
  have hkept := (sameQueue_updateJitter arithmetic sequence now
    { d with packets := d.packets.insert sequence payload }).trans
      (sameQueue_countStable arithmetic now _)
  obtain ⟨hpackets, hexpected, hinit, hsuspended⟩ := restart_spec now
    (countStable arithmetic now (updateJitter arithmetic sequence now
      { d with packets := d.packets.insert sequence payload }))
  refine .inr ⟨?_, hwindow, hqueued, ?_, ?_, ?_, hsuspended⟩
  · split <;> rfl
  · rw [hpackets, hkept.packets, ← hdqueue.packets]
  · rw [hexpected, hkept.expectedSequence, ← hdqueue.expectedSequence]
  · rw [hinit, hkept.initialized, ← hinitialized, ← hdqueue.initialized]

theorem suspendIfEmpty_spec (b : Buffer F) :
    (suspendIfEmpty b).packets = b.packets ∧
      (suspendIfEmpty b).expectedSequence = b.expectedSequence ∧
      (suspendIfEmpty b).initialized = b.initialized ∧
      ((suspendIfEmpty b).suspended = true →
        b.suspended = true ∨ b.packets.entries = []) := by
  unfold suspendIfEmpty
  split
  · rename_i hempty
    exact ⟨rfl, rfl, rfl, fun _ => .inr hempty.2⟩
  · exact ⟨rfl, rfl, rfl, fun hsuspended => .inl hsuspended⟩

/-- A pop returns no frame or a hold and keeps the queue, or it returns the frame of the
expected number, with its packet if that is queued, and passes over the number. -/
theorem popReady_cases (now : Time) (b : Buffer F) :
    (SameQueue b (popReady now b).2 ∧
      ((popReady now b).1 = none ∨
        ∃ frame, (popReady now b).1 = some frame ∧ frame.kind = .hold)) ∨
    (b.initialized = true ∧ b.suspended = false ∧
      (popReady now b).2.initialized = true ∧
      (popReady now b).2.expectedSequence = b.expectedSequence + 1#32 ∧
      ((popReady now b).2.suspended = true → (popReady now b).2.packets.entries = []) ∧
      ((∃ payload, b.packets.lookup b.expectedSequence = some payload ∧
        (popReady now b).1 = some ⟨.packet, b.expectedSequence, payload, []⟩ ∧
        (popReady now b).2.packets = b.packets.erase b.expectedSequence) ∨
      (b.expectedSequence ∉ b.packets ∧
        (∃ fec, (popReady now b).1 = some ⟨.missing, b.expectedSequence, [], fec⟩) ∧
        (popReady now b).2.packets = b.packets))) := by
  unfold popReady
  by_cases hidle : (!b.initialized || b.suspended) = true
  · rw [if_pos hidle]
    exact .inl ⟨.refl b, .inl rfl⟩
  rw [if_neg hidle]
  obtain ⟨hinitialized, hsuspended⟩ : b.initialized = true ∧ b.suspended = false := by
    simpa using hidle
  by_cases hstartup : (!b.playoutStarted && decide (now < b.startupDeadline)) = true
  · rw [if_pos hstartup]
    exact .inl ⟨.refl b, .inl rfl⟩
  rw [if_neg hstartup]
  obtain ⟨c, hc, hcqueue⟩ : ∃ c : Buffer F,
      c = (if (!b.playoutStarted) = true then
        { b with playoutStarted := true, nextPlayout := b.startupDeadline } else b) ∧
      SameQueue b c := by
    refine ⟨_, rfl, ?_⟩
    split <;> exact ⟨rfl, rfl, rfl, rfl⟩
  dsimp only
  rw [← hc]
  by_cases hwait : now < c.nextPlayout
  · rw [if_pos hwait]
    exact .inl ⟨hcqueue, .inl rfl⟩
  rw [if_neg hwait]
  by_cases hhold : c.currentDelayFrames < c.targetDelayFrames ∧
      delayExpansionInterval ≤ now - c.lastDelayExpansion
  · rw [if_pos hhold]
    exact .inl ⟨hcqueue.trans ⟨rfl, rfl, rfl, rfl⟩, .inr ⟨_, rfl, rfl⟩⟩
  rw [if_neg hhold]
  refine .inr ⟨hinitialized, hsuspended, ?_⟩
  have hcsuspended : c.suspended = false := hcqueue.suspended.trans hsuspended
  have hcinitialized : c.initialized = true := hcqueue.initialized.trans hinitialized
  rw [← hcqueue.expectedSequence, ← hcqueue.packets]
  unfold takeExpected
  cases hlookup : c.packets.lookup c.expectedSequence with
  | some payload =>
      obtain ⟨hpackets, hexpected, hinit, hempty⟩ := suspendIfEmpty_spec
        { c with
          packets := c.packets.erase c.expectedSequence
          consecutiveMissing := 0#32
          expectedSequence := c.expectedSequence + 1#32
          nextPlayout := c.nextPlayout + delay 1#32 }
      refine ⟨hinit.trans hcinitialized, hexpected, fun hs => ?_,
        .inl ⟨payload, rfl, rfl, hpackets⟩⟩
      exact (congrArg AList.entries hpackets).trans
        ((hempty hs).resolve_left (by simp [hcsuspended]))
  | none =>
      obtain ⟨hpackets, hexpected, hinit, hempty⟩ := suspendIfEmpty_spec
        { c with
          consecutiveMissing := c.consecutiveMissing + 1#32
          expectedSequence := c.expectedSequence + 1#32
          nextPlayout := c.nextPlayout + delay 1#32 }
      refine ⟨hinit.trans hcinitialized, hexpected, fun hs => ?_,
        .inr ⟨AList.lookup_eq_none.mp hlookup, ⟨_, rfl⟩, hpackets⟩⟩
      exact (congrArg AList.entries hpackets).trans
        ((hempty hs).resolve_left (by simp [hcsuspended]))

/-! ## The invariant -/

/-- The numbers that were played follow each other up to the expected one; what was
accepted was played or is queued; the queue lies in the window, and is empty before the
first packet and in a suspension. -/
structure Orderly (s : Session F) : Prop where
  numbered : s.buffer.initialized = true → ∃ first,
    s.numbers = SerialWindow.run first s.numbers.length ∧
      s.buffer.expectedSequence = first + BitVec.ofNat 32 s.numbers.length
  fresh : s.buffer.initialized = false → s.numbers = [] ∧ s.buffer.packets.entries = []
  conserved : s.accepted.Perm (s.played ++ s.buffer.queued)
  window : ∀ n ∈ s.buffer.packets, InWindow s.buffer.expectedSequence 11 n
  suspended : s.buffer.suspended = true → s.buffer.packets.entries = []

theorem orderly_start (arithmetic : JitterArithmetic F) :
    Orderly (Session.start arithmetic) where
  numbered hinitialized := by cases hinitialized
  fresh _ := ⟨rfl, rfl⟩
  conserved := .nil
  window n hn := absurd hn (AList.notMem_empty n)
  suspended hsuspended := by cases hsuspended

theorem Orderly.of_sameQueue
    {s : Session F} (h : Orderly s) {b : Buffer F} (hb : SameQueue s.buffer b)
    {frames : List Frame} (hnumbers : frames.filterMap Frame.number? = s.numbers)
    (hplayed : frames.filterMap Frame.packet? = s.played) :
    Orderly ⟨b, s.accepted, frames⟩ where
  numbered := by
    simp only [Session.numbers, hnumbers, hb.initialized, hb.expectedSequence]
    exact h.numbered
  fresh := by
    simp only [Session.numbers, hnumbers, hb.initialized, hb.packets]
    exact h.fresh
  conserved := by
    simp only [Session.played, hplayed, Buffer.queued, hb.packets]
    exact h.conserved
  window := by
    simp only [hb.packets, hb.expectedSequence]
    exact h.window
  suspended := by
    simp only [hb.packets, hb.suspended]
    exact h.suspended

/-- The place of a push is known to the invariant, the first packet's too. -/
theorem Orderly.begun
    {s : Session F} (h : Orderly s) (now : Time) (sequence : Sequence) :
    (∃ first, s.numbers = SerialWindow.run first s.numbers.length ∧
      (s.buffer.begun now sequence).expectedSequence =
        first + BitVec.ofNat 32 s.numbers.length) ∧
    (s.buffer.begun now sequence).packets = s.buffer.packets ∧
    (∀ n ∈ (s.buffer.begun now sequence).packets,
      InWindow (s.buffer.begun now sequence).expectedSequence 11 n) := by
  unfold Buffer.begun
  cases hinitialized : s.buffer.initialized with
  | false =>
      obtain ⟨hnumbers, hempty⟩ := h.fresh hinitialized
      refine ⟨⟨sequence, by rw [hnumbers]; rfl, by simp [hnumbers, initializeAt]⟩, rfl, ?_⟩
      intro n hn
      change n ∈ s.buffer.packets at hn
      rw [AList.mem_keys, AList.keys, hempty] at hn
      exact absurd hn List.not_mem_nil
  | true => exact ⟨h.numbered hinitialized, rfl, h.window⟩

theorem Orderly.sameQueue_begun
    {s : Session F} (h : Orderly s) {now : Time} {sequence : Sequence}
    (hrefused : sequence ∈ (s.buffer.begun now sequence).packets ∨
      ¬ InWindow (s.buffer.begun now sequence).expectedSequence 11 sequence) :
    s.buffer.begun now sequence = s.buffer := by
  unfold Buffer.begun at hrefused ⊢
  cases hinitialized : s.buffer.initialized with
  | true => rfl
  | false =>
      rw [hinitialized] at hrefused
      rcases hrefused with hqueued | hwindow
      · change sequence ∈ s.buffer.packets at hqueued
        rw [AList.mem_keys, AList.keys, (h.fresh hinitialized).2] at hqueued
        exact absurd hqueued List.not_mem_nil
      · exact absurd (inWindow_start (by decide)) hwindow

theorem Orderly.push
    {s : Session F} (h : Orderly s) (arithmetic : JitterArithmetic F) (now : Time)
    (sequence : Sequence) (payload : Payload) :
    Orderly (s.step arithmetic (.push now sequence payload)) := by
  simp only [Session.step]
  rcases push_cases arithmetic now sequence payload s.buffer with
    ⟨hrefused, hkept⟩ | ⟨haccepted, hwindow, hnew, hpackets, hexpected, hinit, hsuspended⟩
  · rw [hrefused]
    have hsame : SameQueue s.buffer
        (AdaptiveJitterBuffer.push arithmetic now sequence payload s.buffer).2 := by
      rcases hkept with hkept | ⟨hkept, hreason⟩
      · exact hkept
      · rwa [h.sameQueue_begun hreason] at hkept
    exact h.of_sameQueue hsame rfl rfl
  · rw [haccepted]
    obtain ⟨⟨first, hnumbers, hfirst⟩, hsamePackets, hwindows⟩ := h.begun now sequence
    refine ⟨fun _ => ⟨first, hnumbers, hexpected.trans hfirst⟩, ?_, ?_, ?_, ?_⟩
    · intro hnot
      rw [hinit] at hnot
      cases hnot
    · simp only [Session.played, Buffer.queued, hpackets]
      rw [AList.entries_insert_of_notMem hnew, hsamePackets, List.map_cons]
      refine (List.perm_append_singleton _ _).trans ?_
      exact (h.conserved.cons _).trans List.perm_middle.symm
    · intro n hn
      simp only [hpackets, hexpected] at hn ⊢
      rcases (AList.mem_insert _).mp hn with rfl | hn
      · exact hwindow
      · exact hwindows n hn
    · intro hs
      rw [hsuspended] at hs
      cases hs

theorem queued_perm_erase
    {b : Buffer F} {n : Sequence} {payload : Payload}
    (hlookup : b.packets.lookup n = some payload) :
    b.queued.Perm ((n, payload) ::
      (b.packets.erase n).entries.map fun entry => (entry.1, entry.2)) := by
  have hmem := AList.lookup_isSome.mp (Option.isSome_of_eq_some hlookup)
  obtain ⟨payload', l₁, l₂, hnot, hentries, herase⟩ :=
    List.exists_of_kerase (AList.mem_keys.mp hmem)
  have hpayload : payload' = payload := by
    have hfound := (AList.mem_lookup_iff (s := b.packets)).mpr
      (show Sigma.mk n payload' ∈ b.packets.entries by rw [hentries]; simp)
    rw [hlookup] at hfound
    exact (Option.some.inj hfound).symm
  unfold Buffer.queued
  change (b.packets.entries.map _).Perm (_ :: (List.kerase n b.packets.entries).map _)
  rw [herase, hentries, hpayload, List.map_append, List.map_append, List.map_cons]
  exact List.perm_middle

/-- The frame of the expected number continues the numbers that were played. -/
theorem Orderly.played_next
    {s : Session F} (h : Orderly s) (hinitialized : s.buffer.initialized = true)
    {numbers : List Sequence}
    (hnumbers : numbers = s.numbers ++ [s.buffer.expectedSequence]) :
    ∃ first, numbers = SerialWindow.run first numbers.length ∧
      s.buffer.expectedSequence + 1#32 = first + BitVec.ofNat 32 numbers.length := by
  obtain ⟨first, hrun, hexpected⟩ := h.numbered hinitialized
  refine ⟨first, ?_, ?_⟩
  · rw [hnumbers, List.length_append, List.length_singleton, run_succ, ← hrun,
      ← hexpected]
  · rw [hnumbers, List.length_append, List.length_singleton, hexpected, BitVec.add_assoc,
      BitVec.ofNat_add]

theorem Orderly.popReady
    {s : Session F} (h : Orderly s) (arithmetic : JitterArithmetic F) (now : Time) :
    Orderly (s.step arithmetic (.popReady now)) := by
  simp only [Session.step]
  rcases popReady_cases now s.buffer with
    ⟨hsame, hnone | ⟨frame, hframe, hhold⟩⟩ |
    ⟨hinitialized, -, hinit, hexpected, hempty, ⟨payload, hlookup, hframe, hpackets⟩ |
      ⟨hmissing, ⟨fec, hframe⟩, hpackets⟩⟩
  · rw [hnone]
    refine h.of_sameQueue hsame ?_ ?_ <;> simp [Session.numbers, Session.played]
  · rw [hframe]
    refine h.of_sameQueue hsame ?_ ?_ <;>
      simp [Session.numbers, Session.played, Frame.number?, Frame.packet?, hhold]
  · rw [hframe]
    have hplayed : List.filterMap Frame.number?
        (s.frames ++ [⟨.packet, s.buffer.expectedSequence, payload, []⟩]) =
          s.numbers ++ [s.buffer.expectedSequence] := List.filterMap_append
    have hnumbers := h.played_next hinitialized hplayed
    refine ⟨fun _ => ?_, fun hnot => ?_, ?_, ?_, hempty⟩
    · rw [hexpected]
      exact hnumbers
    · rw [hinit] at hnot
      cases hnot
    · simp only [Session.played, Option.toList_some, List.filterMap_append]
      refine h.conserved.trans ?_
      rw [List.append_assoc]
      refine List.Perm.append_left _ ?_
      simp only [Buffer.queued, hpackets]
      exact queued_perm_erase hlookup
    · intro n hn
      simp only [hpackets, hexpected] at hn ⊢
      obtain ⟨hne, hn⟩ := AList.mem_erase.mp hn
      exact (h.window n hn).advance hne
  · rw [hframe]
    have hplayed : List.filterMap Frame.number?
        (s.frames ++ [⟨.missing, s.buffer.expectedSequence, [], fec⟩]) =
          s.numbers ++ [s.buffer.expectedSequence] := List.filterMap_append
    have hnumbers := h.played_next hinitialized hplayed
    refine ⟨fun _ => ?_, fun hnot => ?_, ?_, ?_, hempty⟩
    · rw [hexpected]
      exact hnumbers
    · rw [hinit] at hnot
      cases hnot
    · simp only [Session.played, Option.toList_some, List.filterMap_append, Buffer.queued,
        hpackets]
      have hconcealed : List.filterMap Frame.packet?
          [⟨.missing, s.buffer.expectedSequence, [], fec⟩] = [] := rfl
      rw [hconcealed, List.append_nil]
      exact h.conserved
    · intro n hn
      simp only [hpackets, hexpected] at hn ⊢
      refine (h.window n hn).advance ?_
      rintro rfl
      exact hmissing hn

theorem Orderly.step
    {s : Session F} (h : Orderly s) (arithmetic : JitterArithmetic F) (call : Call) :
    Orderly (s.step arithmetic call) := by
  cases call with
  | push now sequence payload => exact h.push arithmetic now sequence payload
  | popReady now => exact h.popReady arithmetic now
  | reset preserveAdaptation =>
      exact
        { numbered := fun hinitialized => by cases hinitialized
          fresh := fun _ => ⟨rfl, rfl⟩
          conserved := .nil
          window := fun n hn => absurd hn (AList.notMem_empty n)
          suspended := fun hsuspended => by cases hsuspended }

theorem orderly_run (arithmetic : JitterArithmetic F) (calls : List Call) :
    Orderly (Session.run arithmetic calls) := by
  unfold Session.run
  have hstep : ∀ s : Session F, Orderly s →
      Orderly (calls.foldl (Session.step arithmetic) s) := by
    induction calls with
    | nil => exact fun s hs => hs
    | cons call calls ih => exact fun s hs => ih _ (hs.step arithmetic call)
  exact hstep _ (orderly_start arithmetic)

/-- After any calls, and since the last reset: the packet and concealment frames play
consecutive numbers; every accepted packet was played once, with its number and payload,
or is queued; the queue lies in the window of eleven numbers from the expected one, so
it holds at most eleven packets; a suspended playout has an empty queue; and a push that
is refused leaves the queue as it is. -/
theorem jitter_buffer_orderly (arithmetic : JitterArithmetic F) (calls : List Call) :
    (∃ first, (Session.run arithmetic calls).numbers =
      SerialWindow.run first (Session.run arithmetic calls).numbers.length) ∧
    (Session.run arithmetic calls).accepted.Perm
      ((Session.run arithmetic calls).played ++
        (Session.run arithmetic calls).buffer.queued) ∧
    (∀ n ∈ (Session.run arithmetic calls).buffer.packets,
      InWindow (Session.run arithmetic calls).buffer.expectedSequence 11 n) ∧
    (Session.run arithmetic calls).buffer.packets.entries.length ≤ 11 ∧
    ((Session.run arithmetic calls).buffer.suspended = true →
      (Session.run arithmetic calls).buffer.packets.entries = []) ∧
    ∀ now sequence payload,
      (AdaptiveJitterBuffer.push arithmetic now sequence payload
        (Session.run arithmetic calls).buffer).1.isAccepted = false →
      (AdaptiveJitterBuffer.push arithmetic now sequence payload
        (Session.run arithmetic calls).buffer).2.packets =
          (Session.run arithmetic calls).buffer.packets := by
  have h := orderly_run arithmetic calls
  refine ⟨?_, h.conserved, h.window, ?_, h.suspended, ?_⟩
  · cases hinitialized : (Session.run arithmetic calls).buffer.initialized with
    | true =>
        obtain ⟨first, hnumbers, -⟩ := h.numbered hinitialized
        exact ⟨first, hnumbers⟩
    | false => exact ⟨0#32, by rw [(h.fresh hinitialized).1]; rfl⟩
  · have hlength := length_le (Session.run arithmetic calls).buffer.packets.keys_nodup
      h.window
    simpa [AList.keys, List.keys] using hlength
  · intro now sequence payload hrefused
    rcases push_cases arithmetic now sequence payload
        (Session.run arithmetic calls).buffer with
      ⟨-, hkept | ⟨hkept, hreason⟩⟩ | ⟨haccepted, -⟩
    · exact hkept.packets
    · rw [h.sameQueue_begun hreason] at hkept
      exact hkept.packets
    · rw [haccepted] at hrefused
      cases hrefused

/-! ## The delays -/

/-- The delays stay within their bounds, and so do the counters that move them. -/
structure Bounded (b : Buffer F) : Prop where
  target : minDelayFrames ≤ b.targetDelayFrames ∧ b.targetDelayFrames ≤ maxDelayFrames
  current : minDelayFrames ≤ b.currentDelayFrames ∧ b.currentDelayFrames ≤ maxDelayFrames
  lateBoost : b.lateBoostFrames ≤ 4#32
  stable : b.stablePackets < stablePacketsPerDecay

theorem zero_lt_stablePacketsPerDecay : 0#32 < stablePacketsPerDecay := by
  decide

namespace Bounded

variable {b : Buffer F} (h : Bounded b)

include h

theorem updateTarget (now : Time) (allowDecrease : Bool) :
    Bounded (updateTarget arithmetic now allowDecrease b) := by
  have hdesired : minDelayFrames ≤ desiredDelayFrames arithmetic b ∧
      desiredDelayFrames arithmetic b ≤ maxDelayFrames := by
    unfold desiredDelayFrames
    dsimp only
    split_ifs with hlow hhigh
    · exact ⟨by decide, by decide⟩
    · exact ⟨by decide, by decide⟩
    · exact ⟨BitVec.not_lt.mp hlow, BitVec.not_lt.mp hhigh⟩
  have htarget := h.target
  unfold AdaptiveJitterBuffer.updateTarget
  dsimp only
  split_ifs with hup hdown
  · exact { h with target := hdesired }
  · refine { h with target := ?_ }
    have hlt := hdown.2.1
    simp only [minDelayFrames, maxDelayFrames] at hdesired htarget ⊢
    constructor <;> bv_omega
  · exact h

theorem countStable (now : Time) : Bounded (countStable arithmetic now b) := by
  have hboost := h.lateBoost
  unfold AdaptiveJitterBuffer.countStable
  dsimp only
  split_ifs with hfull hboosted
  · apply updateTarget
    refine ⟨h.target, h.current, ?_, zero_lt_stablePacketsPerDecay⟩
    dsimp only
    bv_omega
  · apply updateTarget
    exact ⟨h.target, h.current, h.lateBoost, zero_lt_stablePacketsPerDecay⟩
  · apply updateTarget
    exact ⟨h.target, h.current, h.lateBoost, BitVec.not_le.mp hfull⟩

theorem updateJitter (sequence : Sequence) (now : Time) :
    Bounded (updateJitter arithmetic sequence now b) := by
  unfold AdaptiveJitterBuffer.updateJitter
  dsimp only
  split_ifs
  · exact { h with }
  · exact h
  · exact { h with }

theorem restart (now : Time) : Bounded (restart now b) := by
  unfold AdaptiveJitterBuffer.restart
  split
  · exact { h with current := h.target }
  · exact h

theorem push (now : Time) (sequence : Sequence) (payload : Payload) :
    Bounded (push arithmetic now sequence payload b).2 := by
  have hbegun : Bounded (b.begun now sequence) := by
    unfold Buffer.begun
    split
    · exact { h with current := h.target }
    · exact h
  have hbuffer : (if (!b.initialized) = true then initializeAt sequence now b else b) =
      b.begun now sequence := rfl
  unfold AdaptiveJitterBuffer.push recordLate
  rw [hbuffer]
  generalize b.begun now sequence = c at hbegun
  dsimp only
  split_ifs with hpayload hlate hmax
  · exact h
  · apply updateTarget
    exact ⟨hbegun.target, hbegun.current, BitVec.le_refl _, zero_lt_stablePacketsPerDecay⟩
  · apply updateTarget
    exact ⟨hbegun.target, hbegun.current, BitVec.not_lt.mp hmax, zero_lt_stablePacketsPerDecay⟩
  · exact hbegun
  · exact hbegun
  all_goals
    apply restart
    apply countStable
    apply updateJitter
    exact { hbegun with }

theorem popReady (now : Time) : Bounded (popReady now b).2 := by
  have hstarted : Bounded (if (!b.playoutStarted) = true then
      { b with playoutStarted := true, nextPlayout := b.startupDeadline } else b) := by
    split
    · exact { h with }
    · exact h
  unfold AdaptiveJitterBuffer.popReady
  generalize (if (!b.playoutStarted) = true then
      { b with playoutStarted := true, nextPlayout := b.startupDeadline } else b) = c at hstarted
  dsimp only
  split_ifs with _ _ _ hhold
  · exact h
  · exact h
  · exact hstarted
  · refine { hstarted with current := ?_ }
    have hcurrent := hstarted.current
    have htarget := hstarted.target
    have hlt := hhold.1
    simp only [minDelayFrames, maxDelayFrames] at hcurrent htarget ⊢
    constructor <;> bv_omega
  · unfold suspendIfEmpty takeExpected
    split <;> split <;> exact { hstarted with }

end Bounded

/-- After any calls the target and the current delay are two to ten frames, late packets
boost the target by at most four frames, and at most 99 packets in time are counted
towards taking a frame of the boost back. -/
theorem bounded_run (arithmetic : JitterArithmetic F) (calls : List Call) :
    Bounded (Session.run arithmetic calls).buffer := by
  have hmin : minDelayFrames ≤ minDelayFrames ∧ minDelayFrames ≤ maxDelayFrames := by decide
  have hboost : 0#32 ≤ 4#32 := by decide
  have hstep : ∀ s : Session F, Bounded s.buffer →
      Bounded (calls.foldl (Session.step arithmetic) s).buffer := by
    induction calls with
    | nil => exact fun s h => h
    | cons call calls ih =>
        refine fun s h => ih _ ?_
        cases call with
        | push now sequence payload => exact h.push now sequence payload
        | popReady now => exact h.popReady now
        | reset preserveAdaptation =>
            cases preserveAdaptation
            · exact ⟨hmin, hmin, hboost, zero_lt_stablePacketsPerDecay⟩
            · exact { h with current := h.target }
  exact hstep _ ⟨hmin, hmin, hboost, zero_lt_stablePacketsPerDecay⟩

end Wiicompiled.Voice.AdaptiveJitterBuffer
