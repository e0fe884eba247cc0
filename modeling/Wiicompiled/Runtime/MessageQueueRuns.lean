import Wiicompiled.Runtime.MessageQueue
import Wiicompiled.Support.BoundedDeque

/-!
# Runs over a message queue

The threads of the guest send, jam and receive in any order, and between two passes
the scheduler and the rest of the guest change memory that is not of the queue.  As
long as no access of a pass is refused after the queue is changed, and no message is
put on top of the queue itself, the queue is a bounded deque.
-/

namespace Wiicompiled.Runtime

open FlatMemory OsMessage

inductive MessageCall where
  | send (msg flags : BitVec 32)
  | jam (msg flags : BitVec 32)
  | receive (outMsgPtr flags : BitVec 32)
deriving DecidableEq, Repr

namespace MessageCall

/-- One pass of the operation. -/
def perform (regions : List Region) (wakeupThread : BitVec 32 → GuestM Unit)
    (queuePtr : BitVec 32) : MessageCall → HostMemory → Outcome × HostMemory
  | .send msg flags => sendMessage regions wakeupThread queuePtr msg flags
  | .jam msg flags => jamMessage regions wakeupThread queuePtr msg flags
  | .receive outMsgPtr flags => receiveMessage regions wakeupThread queuePtr outMsgPtr flags

/-- The operation sleeps when it cannot go on. -/
def blocks : MessageCall → Bool
  | .send _ flags | .jam _ flags | .receive _ flags => flags &&& 1#32 != 0#32

/-- The test of the operation. -/
def ready (regions : List Region) : MessageCall → BitVec 32 → GuestM Bool
  | .send .. | .jam .. => fun queue => do return !(← msgQueueIsFull regions queue)
  | .receive .. => fun queue => do return !(← msgQueueIsEmpty regions queue)

/-- The change that the operation makes. -/
def apply (regions : List Region) : MessageCall → BitVec 32 → GuestM Unit
  | .send msg _ => fun queue => msgQueueEnqueue regions queue msg
  | .jam msg _ => fun queue => msgQueueJam regions queue msg
  | .receive outMsgPtr _ => fun queue => do
      let msg ← msgQueueDequeue regions queue
      if outMsgPtr ≠ 0#32 then
        write32 regions outMsgPtr msg

/-- The threads that the operation wakes. -/
def wakeOffset : MessageCall → BitVec 32
  | .send .. | .jam .. => msgQueueRecvOffset
  | .receive .. => msgQueueSendOffset

/-- The threads that it sleeps with. -/
def blockOffset : MessageCall → BitVec 32
  | .send .. | .jam .. => msgQueueSendOffset
  | .receive .. => msgQueueRecvOffset

theorem perform_eq {regions : List Region} {wakeupThread : BitVec 32 → GuestM Unit}
    {queuePtr : BitVec 32} {host : HostMemory} (hqueue : queuePtr ≠ 0#32)
    (call : MessageCall) :
    call.perform regions wakeupThread queuePtr host =
      msgQueueOp wakeupThread queuePtr call.blocks (call.ready regions)
        (call.apply regions) call.wakeOffset call.blockOffset host := by
  cases call <;> exact if_neg hqueue

/-- The operation can go on when `length` of `capacity` messages are in the queue. -/
def Ready (length capacity : ℕ) : MessageCall → Prop
  | .send .. | .jam .. => length < capacity
  | .receive .. => 0 < length

/-- Memory after a pass, before any thread is woken. -/
def changed (regions : List Region) (queuePtr : BitVec 32) (call : MessageCall)
    (host : HostMemory) : HostMemory :=
  (call.perform regions (fun _ => pure ()) queuePtr host).2

/-- The word that a receiver finds, when it is a word of memory. -/
def received (regions : List Region) (queuePtr : BitVec 32) (call : MessageCall)
    (host : HostMemory) : Option (BitVec 32) :=
  match call with
  | .receive outMsgPtr _ =>
      (ramPointer regions outMsgPtr).map (loadWord (call.changed regions queuePtr host))
  | _ => none

end MessageCall

/-- What happens in a run: a pass of an operation by a thread, with the wake-up it
meets, how it ends and what its receiver finds; or anything else. -/
inductive MessageEvent where
  | pass (thread : BitVec 32) (call : MessageCall) (wakeupThread : BitVec 32 → GuestM Unit)
      (outcome : Outcome) (received : Option (BitVec 32))
  | elsewhere

/-- Memory after a computation, ended or not. -/
def finalMemory {α : Type} : EStateM.Result AccessViolation HostMemory α → HostMemory
  | .ok _ host => host
  | .error _ host => host

namespace MessageQueue

variable {regions : List Region} (queue : MessageQueue regions)

/-- One event.  The wake-up and the rest of the guest keep what the queue holds. -/
inductive Step : HostMemory → MessageEvent → HostMemory → Prop
  | pass (host : HostMemory) (thread : BitVec 32) (call : MessageCall)
      (wakeupThread : BitVec 32 → GuestM Unit)
      (hkeeps : queue.Keeps (call.changed regions queue.queuePtr host)
        (finalMemory (wakeupThread (queue.queuePtr + call.wakeOffset)
          (call.changed regions queue.queuePtr host)))) :
      Step host
        (.pass thread call wakeupThread
          (call.perform regions wakeupThread queue.queuePtr host).1
          (call.received regions queue.queuePtr host))
        (call.perform regions wakeupThread queue.queuePtr host).2
  | elsewhere {host host' : HostMemory} (hkeeps : queue.Keeps host host') :
      Step host .elsewhere host'

inductive Run (Admits : HostMemory → MessageEvent → Prop) :
    HostMemory → List MessageEvent → HostMemory → Prop
  | nil (host : HostMemory) : Run Admits host [] host
  | cons {host middle host' : HostMemory} {event : MessageEvent}
      {events : List MessageEvent} (hadmits : Admits host event)
      (hstep : queue.Step host event middle) (hrun : Run Admits middle events host') :
      Run Admits host (event :: events) host'

/-- A received message has a place: it is dropped or given to the graphics processor,
or its word is in memory and apart from what the queue holds then. -/
def Takes (host : HostMemory) : MessageCall → Prop
  | .receive outMsgPtr _ =>
      outMsgPtr = 0#32 ∨ isGpuFifoAddress outMsgPtr = true ∨
        ∃ pointer, ramPointer regions outMsgPtr = some pointer ∧
          ∀ x ∈ range pointer 4, x ∉ queue.contents host 1
  | _ => True

/-- Nothing fails in a pass once the queue is changed: a received message has a place,
and the threads that wait can be woken. -/
def Admissible (host : HostMemory) : MessageEvent → Prop
  | .pass _ call wakeupThread _ _ =>
      call.Ready (queue.used host) queue.msgCount →
        queue.Takes host call ∧
          ∀ violation host', wakeupThread (queue.queuePtr + call.wakeOffset)
            (call.changed regions queue.queuePtr host) ≠ .error violation host'
  | .elsewhere => True

/-! ## The deque -/

/-- What an event may do to a deque of at most `n` messages, and the change it makes.
A pass that is refused, sleeps or ends in a violation makes none. -/
inductive Performs (regions : List Region) (n : ℕ) :
    List (BitVec 32) → MessageEvent → Option (BoundedDeque.Change (BitVec 32)) →
      List (BitVec 32) → Prop
  | send {messages : List (BitVec 32)} (thread msg flags : BitVec 32)
      (wakeupThread : BitVec 32 → GuestM Unit) (received : Option (BitVec 32))
      (hroom : messages.length < n) :
      Performs regions n messages (.pass thread (.send msg flags) wakeupThread .done received)
        (some (.append msg)) (messages ++ [msg])
  | jam {messages : List (BitVec 32)} (thread msg flags : BitVec 32)
      (wakeupThread : BitVec 32 → GuestM Unit) (received : Option (BitVec 32))
      (hroom : messages.length < n) :
      Performs regions n messages (.pass thread (.jam msg flags) wakeupThread .done received)
        (some (.prepend msg)) (msg :: messages)
  | receive (messages : List (BitVec 32)) (thread msg outMsgPtr flags : BitVec 32)
      (wakeupThread : BitVec 32 → GuestM Unit) (received : Option (BitVec 32))
      (hreceived : outMsgPtr ≠ 0#32 → ∀ pointer, ramPointer regions outMsgPtr = some pointer →
        received = some msg) :
      Performs regions n (msg :: messages)
        (.pass thread (.receive outMsgPtr flags) wakeupThread .done received)
        (some (.take msg)) messages
  | refused {messages : List (BitVec 32)} (thread : BitVec 32) (call : MessageCall)
      (wakeupThread : BitVec 32 → GuestM Unit) (received : Option (BitVec 32))
      (hblocks : call.blocks = false) (hready : ¬call.Ready messages.length n) :
      Performs regions n messages (.pass thread call wakeupThread .refused received)
        none messages
  | asleep {messages : List (BitVec 32)} (thread : BitVec 32) (call : MessageCall)
      (wakeupThread : BitVec 32 → GuestM Unit) (waitQueue : BitVec 32)
      (received : Option (BitVec 32))
      (hblocks : call.blocks = true) (hready : ¬call.Ready messages.length n) :
      Performs regions n messages
        (.pass thread call wakeupThread (.asleep waitQueue) received) none messages
  | violated {messages : List (BitVec 32)} (thread : BitVec 32) (call : MessageCall)
      (wakeupThread : BitVec 32 → GuestM Unit) (violation : AccessViolation)
      (received : Option (BitVec 32)) :
      Performs regions n messages
        (.pass thread call wakeupThread (.violated violation) received) none messages
  | elsewhere {messages : List (BitVec 32)} :
      Performs regions n messages .elsewhere none messages

inductive DequeRun (regions : List Region) (n : ℕ) :
    List (BitVec 32) → List MessageEvent → List (BoundedDeque.Change (BitVec 32)) →
      List (BitVec 32) → Prop
  | nil (messages : List (BitVec 32)) : DequeRun regions n messages [] [] messages
  | cons {messages middle messages' : List (BitVec 32)} {event : MessageEvent}
      {events : List MessageEvent} {change : Option (BoundedDeque.Change (BitVec 32))}
      {changes : List (BoundedDeque.Change (BitVec 32))}
      (hstep : Performs regions n messages event change middle)
      (hrun : DequeRun regions n middle events changes messages') :
      DequeRun regions n messages (event :: events) (change.toList ++ changes) messages'

variable {n : ℕ} {messages messages' : List (BitVec 32)} {event : MessageEvent}
  {events : List MessageEvent} {change : Option (BoundedDeque.Change (BitVec 32))}
  {changes : List (BoundedDeque.Change (BitVec 32))}

theorem Performs.run (h : Performs regions n messages event change messages')
    {messages'' : List (BitVec 32)} (hrun : BoundedDeque.Run n messages' changes messages'') :
    BoundedDeque.Run n messages (change.toList ++ changes) messages'' := by
  cases h with
  | send _ _ _ _ _ hroom => exact .cons (.append _ hroom) hrun
  | jam _ _ _ _ _ hroom => exact .cons (.prepend _ hroom) hrun
  | receive => exact .cons (.take _ _) hrun
  | refused | asleep | violated | elsewhere => exact hrun

theorem DequeRun.run (h : DequeRun regions n messages events changes messages') :
    BoundedDeque.Run n messages changes messages' := by
  induction h with
  | nil messages => exact .nil messages
  | cons hstep _ ih => exact hstep.run ih

/-! ## One pass -/

/-- How a pass ends that has changed the queue and wakes the threads that wait. -/
def woken : EStateM.Result AccessViolation HostMemory Unit → Outcome × HostMemory
  | .ok _ host => (.done, host)
  | .error violation host => (.violated violation, host)

/-- A pass tests the queue; it then ends, or fails without a change, or changes the queue
and wakes threads. -/
theorem msgQueueOp_cases {queuePtr wakeOffset blockOffset : BitVec 32} {block test : Bool}
    {ready : BitVec 32 → GuestM Bool} {apply : BitVec 32 → GuestM Unit} {host : HostMemory}
    {Changed : HostMemory → Prop} (hready : ready queuePtr host = .ok test host)
    (happly : test = true → (∃ violation, apply queuePtr host = .error violation host) ∨
      ∃ host', apply queuePtr host = .ok () host' ∧ Changed host') :
    (test = false ∧ ∀ wakeupThread,
      msgQueueOp wakeupThread queuePtr block ready apply wakeOffset blockOffset host =
        (if !block then (.refused, host) else (.asleep (queuePtr + blockOffset), host))) ∨
    (∃ violation, ∀ wakeupThread,
      msgQueueOp wakeupThread queuePtr block ready apply wakeOffset blockOffset host =
        (.violated violation, host)) ∨
    (test = true ∧ ∃ host', Changed host' ∧ ∀ wakeupThread,
      msgQueueOp wakeupThread queuePtr block ready apply wakeOffset blockOffset host =
        woken (wakeupThread (queuePtr + wakeOffset) host')) := by
  cases test with
  | false =>
      refine Or.inl ⟨rfl, fun wakeupThread => ?_⟩
      simp only [msgQueueOp, bind_of_ok hready]
      rfl
  | true =>
      refine Or.inr ?_
      rcases happly rfl with ⟨violation, happly⟩ | ⟨host', happly, hchanged⟩
      · refine Or.inl ⟨violation, fun wakeupThread => ?_⟩
        simp only [msgQueueOp, bind_of_ok hready, if_true, bind_of_error happly]
      · refine Or.inr ⟨rfl, host', hchanged, fun wakeupThread => ?_⟩
        simp only [msgQueueOp, bind_of_ok hready, if_true, bind_of_ok happly]
        cases hwake : wakeupThread (queuePtr + wakeOffset) host' with
        | ok _ host'' =>
            rw [bind_of_ok hwake]
            rfl
        | error violation host'' =>
            rw [bind_of_error hwake]
            rfl

variable {queue : MessageQueue regions} {host host' : HostMemory}

theorem negated_of_ok {test : GuestM Bool} {b : Bool} (h : test host = .ok b host) :
    (do return !(← test) : GuestM Bool) host = .ok (!b) host := by
  rw [bind_of_ok h]
  rfl

/-- The outcome of a pass that cannot go on. -/
def Idle (call : MessageCall) : Outcome → Prop
  | .refused => call.blocks = false
  | .asleep _ => call.blocks = true
  | _ => False

/-- A pass of a call over a queue that holds `messages`: it cannot go on, or it fails
without a change, or it makes its change and wakes the threads that wait. -/
def Passes (queue : MessageQueue regions) (host : HostMemory)
    (messages : List (BitVec 32)) (call : MessageCall) : Prop :=
  (¬call.Ready messages.length queue.msgCount ∧ ∃ outcome, Idle call outcome ∧
    ∀ wakeupThread, call.perform regions wakeupThread queue.queuePtr host =
      (outcome, host)) ∨
  (∃ violation, ∀ wakeupThread, call.perform regions wakeupThread queue.queuePtr host =
    (.violated violation, host)) ∨
  (call.Ready messages.length queue.msgCount ∧ ∃ host' change messages',
    queue.Holds host' messages' ∧
    (∀ thread wakeupThread, Performs regions queue.msgCount messages
      (.pass thread call wakeupThread .done (call.received regions queue.queuePtr host))
      (some change) messages') ∧
    ∀ wakeupThread, call.perform regions wakeupThread queue.queuePtr host =
      woken (wakeupThread (queue.queuePtr + call.wakeOffset) host'))

/-- A pass is known from the test and the change of its operation. -/
theorem passes_of {call : MessageCall} {test : Bool}
    (hready : call.ready regions queue.queuePtr host = .ok test host)
    (htest : test = true ↔ call.Ready messages.length queue.msgCount)
    (happly : call.Ready messages.length queue.msgCount →
      (∃ violation, call.apply regions queue.queuePtr host = .error violation host) ∨
      ∃ host', call.apply regions queue.queuePtr host = .ok () host' ∧
        ∃ change messages', queue.Holds host' messages' ∧
          (call.changed regions queue.queuePtr host = host' →
            ∀ thread wakeupThread, Performs regions queue.msgCount messages
              (.pass thread call wakeupThread .done
                (call.received regions queue.queuePtr host)) (some change) messages')) :
    queue.Passes host messages call := by
  have hperform : ∀ wakeupThread, call.perform regions wakeupThread queue.queuePtr host = _ :=
    fun wakeupThread => call.perform_eq queue.queuePtr_ne
  rcases msgQueueOp_cases hready fun h => happly (htest.mp h) with
    ⟨hfalse, h⟩ | ⟨violation, h⟩ | ⟨htrue, host', ⟨change, messages', hholds, hdoes⟩, h⟩
  · refine Or.inl ⟨fun hr => ?_, ?_⟩
    · rw [htest.mpr hr] at hfalse
      cases hfalse
    · cases hblocks : call.blocks with
      | false => exact ⟨.refused, hblocks, fun w => by rw [hperform, h, hblocks]; rfl⟩
      | true => exact ⟨.asleep _, hblocks, fun w => by rw [hperform, h, hblocks]; rfl⟩
  · exact Or.inr (Or.inl ⟨violation, fun w => by rw [hperform, h]⟩)
  · have hchanged : call.changed regions queue.queuePtr host = host' := by
      rw [MessageCall.changed, hperform, h]
      rfl
    exact Or.inr (Or.inr ⟨htest.mp htrue, host', change, messages', hholds,
      hdoes hchanged, fun w => by rw [hperform, h]⟩)

theorem passes_send (h : queue.Holds host messages) (msg flags : BitVec 32) :
    queue.Passes host messages (.send msg flags) := by
  refine passes_of (negated_of_ok h.isFull) (by simp [MessageCall.Ready]) fun hroom => ?_
  rcases h.enqueue hroom msg with ⟨-, hfail⟩ | ⟨host', happly, hholds⟩
  · exact Or.inl hfail
  · exact Or.inr ⟨host', happly, _, _, hholds, fun _ _ _ => .send _ _ _ _ _ hroom⟩

theorem passes_jam (h : queue.Holds host messages) (msg flags : BitVec 32) :
    queue.Passes host messages (.jam msg flags) := by
  refine passes_of (negated_of_ok h.isFull) (by simp [MessageCall.Ready]) fun hroom => ?_
  rcases h.jam hroom msg with hfail | ⟨host', happly, hholds⟩
  · exact Or.inl hfail
  · exact Or.inr ⟨host', happly, _, _, hholds, fun _ _ _ => .jam _ _ _ _ _ hroom⟩

theorem passes_receive (h : queue.Holds host messages) (outMsgPtr flags : BitVec 32)
    (htakes : 0 < messages.length → queue.Takes host (.receive outMsgPtr flags)) :
    queue.Passes host messages (.receive outMsgPtr flags) := by
  refine passes_of (negated_of_ok h.isEmpty)
    (by simp [MessageCall.Ready, Nat.pos_iff_ne_zero]) fun hpos => ?_
  obtain ⟨msg, rest, rfl⟩ := List.exists_cons_of_length_pos hpos
  obtain ⟨host₁, hdequeue, hholds, hcontents⟩ := h.dequeue
  have hwrite : (MessageCall.receive outMsgPtr flags).apply regions queue.queuePtr host =
      (if outMsgPtr ≠ 0#32 then write32 regions outMsgPtr msg else pure ()) host₁ :=
    bind_of_ok hdequeue
  refine Or.inr ?_
  rcases htakes hpos with hzero | hfifo | ⟨pointer, hpointer, hapart⟩
  · -- the message is dropped
    refine ⟨host₁, ?_, _, rest, hholds, fun _ _ _ => .receive _ _ _ _ _ _ _ ?_⟩
    · rw [hwrite, if_neg (not_not.mpr hzero)]
      rfl
    · exact fun hne => absurd hzero hne
  · -- the message goes to the graphics processor
    refine ⟨host₁, ?_, _, rest, hholds, fun _ _ _ => .receive _ _ _ _ _ _ _ ?_⟩
    · rw [hwrite]
      split_ifs
      · exact write32_of_isGpuFifoAddress hfifo
      · rfl
    · intro _ pointer hpointer
      rw [ramPointer_of_isGpuFifoAddress hfifo] at hpointer
      cases hpointer
  · by_cases hzero : outMsgPtr = 0#32
    · refine ⟨host₁, ?_, _, rest, hholds, fun _ _ _ => .receive _ _ _ _ _ _ _ ?_⟩
      · rw [hwrite, if_neg (not_not.mpr hzero)]
        rfl
      · exact fun hne => absurd hzero hne
    · refine ⟨storeWord host₁ pointer msg, ?_, _, rest, hholds.of_keeps ?_,
        fun hchanged _ _ => .receive _ _ _ _ _ _ _ ?_⟩
      · rw [hwrite, if_pos hzero]
        exact write32_of_ramPointer hpointer
      · intro x hx
        rw [hcontents] at hx
        exact storeWord_of_notMem fun hrange => hapart x hrange hx
      · intro _ pointer' hpointer'
        obtain rfl : pointer = pointer' := Option.some.inj (hpointer.symm.trans hpointer')
        rw [MessageCall.received, hpointer, hchanged, Option.map_some, loadWord_storeWord]

/-! ## An example -/

/-- The first bank of memory, at its cached addresses. -/
def mem1 : List Region :=
  [⟨0x80000000#32, 0x1800000, 0#64⟩]

/-- A queue of one message at `0x80001000`, with its array behind it. -/
def exampleQueue : MessageQueue mem1 where
  queuePtr := 0x80001000#32
  msgArrayPtr := 0x80001020#32
  msgCount := 1
  queuePtr_ne := by decide
  pos := by decide
  fits := by decide
  cell field := 0x1000#64 + field.offset.setWidth 64
  cell_eq field := by cases field <;> rfl
  cells_apart field field' hne := by
    cases field <;> cases field' <;>
      first
      | exact absurd rfl hne
      | exact apart_of_le (by decide) (by decide)
      | exact (apart_of_le (by decide) (by decide)).symm
  slot_not_fifo i hi := by
    obtain rfl : i = 0 := by omega
    rfl
  slot_apart_cell i hi pointer hpointer field := by
    obtain rfl : i = 0 := by omega
    obtain rfl : 0x1020#64 = pointer := Option.some.inj hpointer
    cases field <;> exact (apart_of_le (by decide) (by decide)).symm
  slots_apart i hi j hj hne := by omega

theorem exampleQueue_holds : ∃ host, exampleQueue.Holds host [7#32] := by
  obtain ⟨host, -, hempty⟩ : ∃ host', initMessageQueue mem1 exampleQueue.queuePtr
      exampleQueue.msgArrayPtr 1#32 (fun _ => 0) = .ok () host' ∧
        exampleQueue.Holds host' [] :=
    holds_initMessageQueue (by rintro start word (rfl | rfl) (rfl | rfl) <;> decide)
  rcases hempty.enqueue (by decide) 7#32 with ⟨hnone, -⟩ | ⟨host', -, hholds⟩
  · have hplace : exampleQueue.place host (exampleQueue.used host) = 0 :=
      Nat.lt_one_iff.mp (CircularQueue.place_lt Nat.one_pos)
    rw [hplace] at hnone
    cases hnone
  · exact ⟨host', hholds⟩

/-! ## Runs -/

theorem Step.performs {event : MessageEvent} (hstep : queue.Step host event host')
    (hadmissible : queue.Admissible host event) (h : queue.Holds host messages) :
    ∃ change messages', Performs regions queue.msgCount messages event change messages' ∧
      queue.Holds host' messages' := by
  cases hstep with
  | elsewhere hkeeps => exact ⟨none, messages, .elsewhere, h.of_keeps hkeeps⟩
  | pass thread call wakeupThread hkeeps =>
      have hpasses : queue.Passes host messages call := by
        cases call with
        | send msg flags => exact passes_send h msg flags
        | jam msg flags => exact passes_jam h msg flags
        | receive outMsgPtr flags =>
            exact passes_receive h outMsgPtr flags fun hpos =>
              (hadmissible (by rwa [← h.length])).1
      rcases hpasses with ⟨hready, outcome, hidle, hperform⟩ | ⟨violation, hperform⟩ |
        ⟨hready, host₁, change, messages', hholds, hdoes, hperform⟩
      · refine ⟨none, messages, ?_, ?_⟩
        · rw [hperform]
          cases outcome with
          | refused => exact .refused _ _ _ _ hidle hready
          | asleep waitQueue => exact .asleep _ _ _ _ _ hidle hready
          | done => exact hidle.elim
          | violated violation => exact hidle.elim
        · rwa [hperform]
      · refine ⟨none, messages, ?_, ?_⟩
        · rw [hperform]
          exact .violated _ _ _ _ _
        · rwa [hperform]
      · have hchanged : call.changed regions queue.queuePtr host = host₁ := by
          rw [MessageCall.changed, hperform]
          rfl
        have hwake := (hadmissible (by rwa [← h.length])).2
        rw [hchanged] at hwake hkeeps
        refine ⟨some change, messages', ?_, ?_⟩
        · rw [hperform]
          cases hresult : wakeupThread (queue.queuePtr + call.wakeOffset) host₁ with
          | ok _ host₂ => exact hdoes thread wakeupThread
          | error violation host₂ => exact absurd hresult (hwake violation host₂)
        · rw [hperform]
          cases hresult : wakeupThread (queue.queuePtr + call.wakeOffset) host₁ with
          | ok _ host₂ =>
              rw [hresult] at hkeeps
              exact hholds.of_keeps hkeeps
          | error violation host₂ => exact absurd hresult (hwake violation host₂)

/-- The events of an admissible run change the queue as they change a deque. -/
theorem Run.dequeRun (hrun : queue.Run queue.Admissible host events host')
    (h : queue.Holds host messages) :
    ∃ changes messages', DequeRun regions queue.msgCount messages events changes messages' ∧
      queue.Holds host' messages' := by
  induction hrun generalizing messages with
  | nil host => exact ⟨[], messages, .nil messages, h⟩
  | cons hadmits hstep _ ih =>
      obtain ⟨change, middle, hperforms, hmiddle⟩ := hstep.performs hadmits h
      obtain ⟨changes, messages', hdeque, hholds⟩ := ih hmiddle
      exact ⟨_, messages', .cons hperforms hdeque, hholds⟩

/-- A message queue is a bounded deque over every admissible run: each event makes the
change that it makes to a deque or, when it is refused, sleeps or fails, none; there are
never more messages than the capacity; and the messages that were there and were put are
those that were taken and are there. -/
theorem run_is_bounded_deque (hrun : queue.Run queue.Admissible host events host')
    (h : queue.Holds host messages) :
    ∃ changes messages', queue.Holds host' messages' ∧
      DequeRun regions queue.msgCount messages events changes messages' ∧
      messages'.length ≤ queue.msgCount ∧
      (messages ++ changes.filterMap BoundedDeque.Change.added).Perm
        (changes.filterMap BoundedDeque.Change.taken ++ messages') := by
  obtain ⟨changes, messages', hdeque, hholds⟩ := hrun.dequeRun h
  exact ⟨changes, messages', hholds, hdeque, hholds.length_le, hdeque.run.accounting⟩

/-- The message of the example is received at `0x80002000`. -/
theorem exampleQueue_run : ∃ host host' event, exampleQueue.Holds host [7#32] ∧
    exampleQueue.Run exampleQueue.Admissible host [event] host' ∧
    ∃ changes messages', exampleQueue.Holds host' messages' ∧
      DequeRun mem1 exampleQueue.msgCount [7#32] [event] changes messages' ∧
      messages'.length ≤ exampleQueue.msgCount ∧
      ([7#32] ++ changes.filterMap BoundedDeque.Change.added).Perm
        (changes.filterMap BoundedDeque.Change.taken ++ messages') := by
  obtain ⟨host, hholds⟩ := exampleQueue_holds
  have hadmits : ∀ outcome received, exampleQueue.Admissible host (.pass 1#32
      (.receive 0x80002000#32 0#32) (fun _ => pure ()) outcome received) := by
    intro outcome received hready
    refine ⟨Or.inr (Or.inr ⟨0x2000#64, rfl, ?_⟩), fun _ _ h => nomatch h⟩
    rintro x hx (⟨name, hname⟩ | ⟨i, hpos, hi, -⟩)
    · have hapart : Apart (exampleQueue.cell name) 0x2000#64 := by
        cases name <;> exact apart_of_le (by decide) (by decide)
      exact hapart x hname hx
    · rw [← hholds.length] at hi
      exact absurd hi (Nat.not_lt.mpr hpos)
  have hstep : exampleQueue.Step host _ _ :=
    .pass host 1#32 (.receive 0x80002000#32 0#32) (fun _ => pure ()) fun _ _ => rfl
  have hrun := Run.cons (hadmits _ _) hstep (.nil _)
  exact ⟨host, _, _, hholds, hrun, run_is_bounded_deque hrun hholds⟩

/-! ## A lost message -/

/-- A receiver whose word is outside of memory is told that it failed, and the message
is taken all the same. -/
theorem perform_receive_of_none {msg outMsgPtr : BitVec 32}
    (h : queue.Holds host (msg :: messages)) (hzero : outMsgPtr ≠ 0#32)
    (hfifo : isGpuFifoAddress outMsgPtr = false) (hnone : ramPointer regions outMsgPtr = none)
    (flags : BitVec 32) :
    ∃ violation host', queue.Holds host' messages ∧ ∀ wakeupThread,
      (MessageCall.receive outMsgPtr flags).perform regions wakeupThread queue.queuePtr host =
        (.violated violation, host') := by
  obtain ⟨host₁, hdequeue, hholds, -⟩ := h.dequeue
  obtain ⟨violation, hwrite⟩ := write32_of_ramPointer_none hfifo hnone
  have hready : (MessageCall.receive outMsgPtr flags).ready regions queue.queuePtr host =
      .ok true host := negated_of_ok h.isEmpty
  have happly : (MessageCall.receive outMsgPtr flags).apply regions queue.queuePtr host =
      .error violation host₁ := by
    refine (bind_of_ok hdequeue).trans ?_
    rw [if_pos hzero]
    exact hwrite
  refine ⟨violation, host₁, hholds, fun wakeupThread => ?_⟩
  rw [MessageCall.perform_eq queue.queuePtr_ne]
  simp only [msgQueueOp, bind_of_ok hready, if_true, bind_of_error happly]

/-- A message is lost: a receiver that gives a word outside of memory is told that it
failed, and the queue no longer holds the message. -/
theorem receive_loses_message :
    ¬∀ (regions : List Region) (queue : MessageQueue regions) (host host' : HostMemory)
      (messages : List (BitVec 32)) (events : List MessageEvent),
      queue.Holds host messages → queue.Run (fun _ _ => True) host events host' →
        ∃ changes messages', queue.Holds host' messages' ∧
          DequeRun regions queue.msgCount messages events changes messages' ∧
          messages'.length ≤ queue.msgCount ∧
          (messages ++ changes.filterMap BoundedDeque.Change.added).Perm
            (changes.filterMap BoundedDeque.Change.taken ++ messages') := by
  intro hclaim
  obtain ⟨host, hholds⟩ := exampleQueue_holds
  obtain ⟨violation, host', hempty, hperform⟩ :=
    perform_receive_of_none hholds (by decide : 0x60000000#32 ≠ 0#32) rfl rfl 0#32
  have hstep : exampleQueue.Step host _ _ :=
    .pass host 1#32 (.receive 0x60000000#32 0#32) (fun _ => pure ()) fun _ _ => rfl
  rw [hperform] at hstep
  obtain ⟨changes, messages', hafter, hdeque, -⟩ := hclaim mem1 exampleQueue host host' [7#32]
    _ hholds (.cons trivial hstep (.nil host'))
  -- a failed pass leaves a deque as it is
  obtain rfl : messages' = [7#32] := by
    cases hdeque with
    | cons hperforms hnil =>
        cases hperforms
        cases hnil
        rfl
  have hlength := hafter.length.trans hempty.length.symm
  cases hlength

end MessageQueue

end Wiicompiled.Runtime
