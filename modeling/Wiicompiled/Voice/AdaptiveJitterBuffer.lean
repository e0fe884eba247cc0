import Wiicompiled.Support.SerialWindow

/-!
# The adaptive jitter buffer

Voice packets carry a sequence number of 32 bits that wraps.  A push queues a packet that
is at most ten numbers ahead of the expected one; a pop returns one frame for the expected
number when its time has come, with the packet, or without it for concealment, or holds
the playout for one frame when the delay has to grow.

Times are nanoseconds.  The estimate of the jitter is a floating-point number; its
arithmetic is a parameter, and decides only how long the playout waits.
-/

namespace Wiicompiled.Voice.AdaptiveJitterBuffer

open SerialWindow

abbrev Sequence := BitVec 32

abbrev Payload := List UInt8

abbrev Time := ℤ

def maxOpusPacketBytes : ℕ := 1275

def frameMs : BitVec 32 := 20#32

def minDelayFrames : BitVec 32 := 2#32

def maxDelayFrames : BitVec 32 := 10#32

def maxRecoverableGap : BitVec 32 := 10#32

def maxConcealmentFrames : BitVec 32 := 10#32

def stablePacketsPerDecay : BitVec 32 := 100#32

def milliseconds (count : ℕ) : Time :=
  count * 1000000

def targetDecayInterval : Time := milliseconds 2000

def delayExpansionInterval : Time := milliseconds 500

/-- The arithmetic of the estimate: its value at rest, a step towards the variation
between the time that elapsed and the milliseconds that were expected, and the number of
frames that four times the estimate fills. -/
structure JitterArithmetic (F : Type) where
  zero : F
  smooth : F → Time → BitVec 32 → F
  frames : F → BitVec 32

inductive PushResult where
  | accepted
  | acceptedReordered
  | duplicate
  | late
  | tooFarAhead
deriving DecidableEq, Repr

inductive FrameKind where
  | packet
  | missing
  | hold
deriving DecidableEq, Repr

structure Frame where
  kind : FrameKind
  sequence : Sequence
  payload : Payload
  fecPayload : Payload
deriving DecidableEq, Repr

structure Buffer (F : Type) where
  packets : AList fun _ : Sequence => Payload
  expectedSequence : Sequence
  highestSequence : Sequence
  lastArrivalSequence : Sequence
  lastArrival : Time
  startupDeadline : Time
  nextPlayout : Time
  lastTargetChange : Time
  lastDelayExpansion : Time
  estimatedJitter : F
  targetDelayFrames : BitVec 32
  currentDelayFrames : BitVec 32
  lateBoostFrames : BitVec 32
  stablePackets : BitVec 32
  consecutiveMissing : BitVec 32
  initialized : Bool
  haveArrivalReference : Bool
  playoutStarted : Bool
  suspended : Bool

variable {F : Type}

def delay (frames : BitVec 32) : Time :=
  milliseconds (frames * frameMs).toNat

def initializeAt (sequence : Sequence) (now : Time) (b : Buffer F) : Buffer F :=
  { b with
    expectedSequence := sequence
    highestSequence := sequence
    lastArrivalSequence := sequence
    lastArrival := now
    startupDeadline := now + delay b.targetDelayFrames
    nextPlayout := now + delay b.targetDelayFrames
    currentDelayFrames := b.targetDelayFrames
    consecutiveMissing := 0#32
    initialized := true
    haveArrivalReference := true
    playoutStarted := false
    suspended := false
    lastDelayExpansion := now - delayExpansionInterval
    lastTargetChange := if b.lastTargetChange = 0 then now else b.lastTargetChange }

section Arithmetic

variable (arithmetic : JitterArithmetic F)

def updateJitter (sequence : Sequence) (now : Time) (b : Buffer F) : Buffer F :=
  if !b.haveArrivalReference then
    { b with
      lastArrivalSequence := sequence
      lastArrival := now
      haveArrivalReference := true }
  else
    let sequenceDelta := distance b.lastArrivalSequence sequence
    if sequenceDelta ≤ 0 ∨ maxRecoverableGap.toInt < sequenceDelta then b
    else
      { b with
        estimatedJitter := arithmetic.smooth b.estimatedJitter (now - b.lastArrival)
          (BitVec.ofInt 32 sequenceDelta * frameMs)
        lastArrivalSequence := sequence
        lastArrival := now }

/-- The delay that the estimate and the late packets ask for, within its bounds. -/
def desiredDelayFrames (b : Buffer F) : BitVec 32 :=
  let asked := minDelayFrames + arithmetic.frames b.estimatedJitter + b.lateBoostFrames
  if asked < minDelayFrames then minDelayFrames
  else if maxDelayFrames < asked then maxDelayFrames
  else asked

def updateTarget (now : Time) (allowDecrease : Bool) (b : Buffer F) : Buffer F :=
  let desired := desiredDelayFrames arithmetic b
  if b.targetDelayFrames < desired then
    { b with targetDelayFrames := desired, lastTargetChange := now }
  else if allowDecrease ∧ desired < b.targetDelayFrames ∧
      targetDecayInterval ≤ now - b.lastTargetChange then
    { b with targetDelayFrames := b.targetDelayFrames - 1#32, lastTargetChange := now }
  else b

/-- A packet in time counts as stable; a hundred of them take back one frame of the
boost that late packets gave. -/
def countStable (now : Time) (b : Buffer F) : Buffer F :=
  let b := { b with stablePackets := b.stablePackets + 1#32 }
  if stablePacketsPerDecay ≤ b.stablePackets then
    updateTarget arithmetic now true
      { b with
        stablePackets := 0#32
        lateBoostFrames :=
          if 0#32 < b.lateBoostFrames then b.lateBoostFrames - 1#32
          else b.lateBoostFrames }
  else updateTarget arithmetic now false b

/-- The first packet after a suspension starts the playout anew. -/
def restart (now : Time) (b : Buffer F) : Buffer F :=
  if b.suspended then
    { b with
      suspended := false
      playoutStarted := false
      startupDeadline := now + delay b.targetDelayFrames
      nextPlayout := now + delay b.targetDelayFrames
      currentDelayFrames := b.targetDelayFrames
      consecutiveMissing := 0#32 }
  else b

def recordLate (now : Time) (b : Buffer F) : Buffer F :=
  updateTarget arithmetic now false
    { b with
      lateBoostFrames :=
        if 4#32 < b.lateBoostFrames + 1#32 then 4#32 else b.lateBoostFrames + 1#32
      stablePackets := 0#32 }

def push (now : Time) (sequence : Sequence) (payload : Payload) (b : Buffer F) :
    PushResult × Buffer F :=
  if payload = [] ∨ maxOpusPacketBytes < payload.length then (.tooFarAhead, b)
  else
    let b := if !b.initialized then initializeAt sequence now b else b
    let ahead := distance b.expectedSequence sequence
    if ahead < 0 then (.late, recordLate arithmetic now b)
    else if maxRecoverableGap.toInt < ahead then (.tooFarAhead, b)
    else if sequence ∈ b.packets then (.duplicate, b)
    else
      let reordered := 0 < distance sequence b.highestSequence
      let b :=
        if 0 < distance b.highestSequence sequence then
          { b with highestSequence := sequence }
        else b
      let b := { b with packets := b.packets.insert sequence payload }
      let b := updateJitter arithmetic sequence now b
      let b := restart now (countStable arithmetic now b)
      (if reordered then .acceptedReordered else .accepted, b)

end Arithmetic

/-- The frame of the expected number: its packet, or the next one for concealment. -/
def takeExpected (b : Buffer F) : Frame × Buffer F :=
  match b.packets.lookup b.expectedSequence with
  | some payload =>
      (⟨.packet, b.expectedSequence, payload, []⟩,
        { b with
          packets := b.packets.erase b.expectedSequence
          consecutiveMissing := 0#32 })
  | none =>
      (⟨.missing, b.expectedSequence, [],
          (b.packets.lookup (b.expectedSequence + 1#32)).getD []⟩,
        { b with consecutiveMissing := b.consecutiveMissing + 1#32 })

/-- The playout suspends after ten frames of concealment with nothing queued. -/
def suspendIfEmpty (b : Buffer F) : Buffer F :=
  if maxConcealmentFrames ≤ b.consecutiveMissing ∧ b.packets.entries = [] then
    { b with suspended := true, playoutStarted := false }
  else b

def popReady (now : Time) (b : Buffer F) : Option Frame × Buffer F :=
  if !b.initialized || b.suspended then (none, b)
  else if !b.playoutStarted && decide (now < b.startupDeadline) then (none, b)
  else
    let b :=
      if !b.playoutStarted then
        { b with playoutStarted := true, nextPlayout := b.startupDeadline }
      else b
    if now < b.nextPlayout then (none, b)
    else if b.currentDelayFrames < b.targetDelayFrames ∧
        delayExpansionInterval ≤ now - b.lastDelayExpansion then
      (some ⟨.hold, b.expectedSequence, [], []⟩,
        { b with
          currentDelayFrames := b.currentDelayFrames + 1#32
          lastDelayExpansion := now
          nextPlayout := b.nextPlayout + delay 1#32 })
    else
      let (frame, b) := takeExpected b
      (some frame, suspendIfEmpty
        { b with
          expectedSequence := b.expectedSequence + 1#32
          nextPlayout := b.nextPlayout + delay 1#32 })

def reset (arithmetic : JitterArithmetic F) (preserveAdaptation : Bool) (b : Buffer F) :
    Buffer F :=
  let b :=
    if preserveAdaptation then b
    else
      { b with
        estimatedJitter := arithmetic.zero
        targetDelayFrames := minDelayFrames
        lateBoostFrames := 0#32
        stablePackets := 0#32
        lastTargetChange := 0 }
  { b with
    packets := ∅
    expectedSequence := 0#32
    highestSequence := 0#32
    lastArrivalSequence := 0#32
    lastArrival := 0
    startupDeadline := 0
    nextPlayout := 0
    lastDelayExpansion := 0
    consecutiveMissing := 0#32
    initialized := false
    haveArrivalReference := false
    playoutStarted := false
    suspended := false
    currentDelayFrames := b.targetDelayFrames }

/-- A buffer before its first packet. -/
def empty (arithmetic : JitterArithmetic F) : Buffer F where
  packets := ∅
  expectedSequence := 0#32
  highestSequence := 0#32
  lastArrivalSequence := 0#32
  lastArrival := 0
  startupDeadline := 0
  nextPlayout := 0
  lastTargetChange := 0
  lastDelayExpansion := 0
  estimatedJitter := arithmetic.zero
  targetDelayFrames := minDelayFrames
  currentDelayFrames := minDelayFrames
  lateBoostFrames := 0#32
  stablePackets := 0#32
  consecutiveMissing := 0#32
  initialized := false
  haveArrivalReference := false
  playoutStarted := false
  suspended := false

end Wiicompiled.Voice.AdaptiveJitterBuffer
