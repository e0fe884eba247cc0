import Mathlib.Data.BitVec

/-!
# The end of a thread

A thread ends by a call of `OSExitThread`, or by the return of its entry function, which the
fiber cleans up with code of its own.  Threads, thread queues and mutexes are records at
addresses; the zero address ends a list.  The unlocking of all mutexes of a thread is code of
the guest and a parameter here.
-/

namespace Wiicompiled.Runtime.ThreadExit

abbrev Address := BitVec 32

structure OSThread where
  state : BitVec 16
  attributes : BitVec 16
  suspend : BitVec 32
  priority : BitVec 32
  exitValue : BitVec 32
  queue : Address
  next : Address
  prev : Address
  listNext : Address
  listPrev : Address
  mutexHead : Address
  mutexTail : Address
deriving DecidableEq, Repr

structure ThreadQueue where
  head : Address
  tail : Address
deriving DecidableEq, Repr

structure OSMutex where
  waitQueue : ThreadQueue
  owner : Address
  count : BitVec 32
  threadNext : Address
  threadPrev : Address
deriving DecidableEq, Repr

/-- What the scheduler keeps in the memory of the guest. -/
@[ext]
structure Kernel where
  threads : Address → OSThread
  queues : Address → ThreadQueue
  threadList : ThreadQueue
  mutexes : Address → OSMutex
  pendingMask : BitVec 32
  reschedCounter : BitVec 32

def kThreadQueueArrayAddr : Address := 0x803477b0

def kThreadJoinQueueOffset : Address := 0x2E8

def kThreadStateReady : BitVec 16 := 1

def kThreadStateMoribund : BitVec 16 := 8

def runQueue (priority : ℕ) : Address :=
  kThreadQueueArrayAddr + BitVec.ofNat 32 (priority * 8)

def joinQueue (thread : Address) : Address :=
  thread + kThreadJoinQueueOffset

def ThreadStateIsTerminated (state : BitVec 16) : Bool :=
  state = 0 || state = kThreadStateMoribund

/-- Bit 0 of the attributes. -/
def OSThread.detached (thread : OSThread) : Bool :=
  thread.attributes &&& 1 ≠ 0

namespace Kernel

def modifyThread (s : Kernel) (thread : Address) (f : OSThread → OSThread) : Kernel :=
  { s with threads := Function.update s.threads thread (f (s.threads thread)) }

def modifyQueue (s : Kernel) (queue : Address) (f : ThreadQueue → ThreadQueue) : Kernel :=
  { s with queues := Function.update s.queues queue (f (s.queues queue)) }

end Kernel

/-! ## Lists and queues -/

/-- `UnlinkGuestListNode` on the list of all threads. -/
def RemoveThreadFromList (s : Kernel) (threadPtr : Address) : Kernel :=
  let next := (s.threads threadPtr).listNext
  let prev := (s.threads threadPtr).listPrev
  let s :=
    if next ≠ 0 then s.modifyThread next fun node => { node with listPrev := prev }
    else { s with threadList := { s.threadList with tail := prev } }
  let s :=
    if prev ≠ 0 then s.modifyThread prev fun node => { node with listNext := next }
    else { s with threadList := { s.threadList with head := next } }
  s.modifyThread threadPtr fun node => { node with listNext := 0, listPrev := 0 }

def ClearPendingMaskForEmptyGuestQueue (s : Kernel) (queueEntry : Address) : Kernel :=
  if queueEntry < kThreadQueueArrayAddr ∨ (queueEntry - kThreadQueueArrayAddr) % 8 ≠ 0 then s
  else
    let priority := (queueEntry - kThreadQueueArrayAddr).toNat / 8
    if 32 ≤ priority ∨ (s.queues queueEntry).head ≠ 0 then s
    else { s with pendingMask := s.pendingMask &&& ~~~(1#32 <<< (31 - priority)) }

def RemoveGuestThreadFromQueue (s : Kernel) (threadPtr : Address) : Kernel :=
  let queuePtr := (s.threads threadPtr).queue
  if queuePtr = 0 then s
  else
    let next := (s.threads threadPtr).next
    let prev := (s.threads threadPtr).prev
    let s :=
      if next ≠ 0 then s.modifyThread next fun node => { node with prev := prev }
      else s.modifyQueue queuePtr fun queue => { queue with tail := prev }
    let s :=
      if prev ≠ 0 then s.modifyThread prev fun node => { node with next := next }
      else s.modifyQueue queuePtr fun queue => { queue with head := next }
    let s := s.modifyThread threadPtr fun node => { node with queue := 0, next := 0, prev := 0 }
    ClearPendingMaskForEmptyGuestQueue s queuePtr

def PopThreadQueueHead (s : Kernel) (queueAddr head : Address) : Kernel :=
  let next := (s.threads head).next
  let s :=
    if next = 0 then s.modifyQueue queueAddr fun queue => { queue with tail := 0 }
    else s.modifyThread next fun node => { node with prev := 0 }
  s.modifyQueue queueAddr fun queue => { queue with head := next }

def LinkThreadOnRunQueue (s : Kernel) (thread : Address) (priority : ℕ) : Kernel :=
  let queueEntry := runQueue priority
  let tail := (s.queues queueEntry).tail
  let s :=
    if tail = 0 then s.modifyQueue queueEntry fun queue => { queue with head := thread }
    else s.modifyThread tail fun node => { node with next := thread }
  let s := s.modifyThread thread fun node => { node with prev := tail, next := 0 }
  let s := s.modifyQueue queueEntry fun queue => { queue with tail := thread }
  s.modifyThread thread fun node => { node with queue := queueEntry }

def MarkRunQueuePending (s : Kernel) (priority : ℕ) : Kernel :=
  { s with
    pendingMask := s.pendingMask ||| 1#32 <<< (31 - priority)
    reschedCounter := 1 }

/-- The priority between 0 and 31. -/
def clampPriority (priority : BitVec 32) : ℕ :=
  if priority.toInt < 0 then 0 else if priority.toInt > 31 then 31 else priority.toNat

/-! ## Waking the threads of a queue -/

def kMaxWake : ℕ := 256

/-- Both loops take one thread after the other off the queue and wake it. -/
def wakeLoop (wake : Kernel → Address → Kernel) (queueAddr : Address) : ℕ → Kernel → Kernel
  | 0, s => s
  | left + 1, s =>
      let thread := (s.queues queueAddr).head
      if thread = 0 then s
      else wakeLoop wake queueAddr left (wake (PopThreadQueueHead s queueAddr thread) thread)

/-- A turn of `OSWakeupThread`. -/
def wakeupThread (isTerminated : Address → Bool) (s : Kernel) (thread : Address) : Kernel :=
  if ThreadStateIsTerminated (s.threads thread).state || isTerminated thread then
    s.modifyThread thread fun node => { node with queue := 0, next := 0, prev := 0 }
  else
    let s := s.modifyThread thread fun node => { node with state := kThreadStateReady }
    if (s.threads thread).suspend.toInt < 1 then
      let prio := clampPriority (s.threads thread).priority
      MarkRunQueuePending (LinkThreadOnRunQueue s thread prio) prio
    else s

/-- A turn of the fiber's own loop. -/
def wakeGuestThread (s : Kernel) (thread : Address) : Kernel :=
  let s := s.modifyThread thread fun node => { node with next := 0, prev := 0 }
  if (s.threads thread).state = 0 ∨ (s.threads thread).state = 8 then
    s.modifyThread thread fun node => { node with queue := 0 }
  else
    let s := s.modifyThread thread fun node => { node with state := 1 }
    if 1 ≤ (s.threads thread).suspend.toInt then
      s.modifyThread thread fun node => { node with queue := 0 }
    else
      let priority := clampPriority (s.threads thread).priority
      -- the lines of `LinkThreadOnRunQueue` and `MarkRunQueuePending` are written out here
      MarkRunQueuePending (LinkThreadOnRunQueue s thread priority) priority

def OSWakeupThread (isTerminated : Address → Bool) (s : Kernel) (queueAddr : Address) : Kernel :=
  wakeLoop (wakeupThread isTerminated) queueAddr kMaxWake s

def WakeGuestThreadsOnQueueNoSwitch (s : Kernel) (queueAddr : Address) : Kernel :=
  wakeLoop wakeGuestThread queueAddr kMaxWake s

/-! ## The two ends -/

/-- The clean-up of a fiber whose entry function has returned. -/
def cleanUpReturn (s : Kernel) (guestThreadAddr : Address) : Kernel :=
  let s := RemoveGuestThreadFromQueue s guestThreadAddr
  let detached := (s.threads guestThreadAddr).detached
  let finalState := if detached then 0 else kThreadStateMoribund
  let s :=
    if detached then s
    else s.modifyThread guestThreadAddr fun thread => { thread with exitValue := 0 }
  let s := s.modifyThread guestThreadAddr fun thread => { thread with state := finalState }
  let s := WakeGuestThreadsOnQueueNoSwitch s (joinQueue guestThreadAddr)
  { s with reschedCounter := 1 }

/-- `TerminateThreadCommon` as `OSExitThread` calls it; the fiber of the thread counts as
terminated before the joiners are woken. -/
def TerminateThreadCommon (unlockAllMutexes : Kernel → Address → Kernel)
    (isTerminated : Address → Bool) (s : Kernel) (threadPtr : Address) (exitValue : BitVec 32) :
    Kernel :=
  let detached := (s.threads threadPtr).detached
  let finalState := if detached then 0 else kThreadStateMoribund
  let s :=
    if detached then RemoveThreadFromList s threadPtr
    else s.modifyThread threadPtr fun thread => { thread with exitValue := exitValue }
  let s := s.modifyThread threadPtr fun thread => { thread with state := finalState }
  let s := unlockAllMutexes s threadPtr
  OSWakeupThread (fun thread => thread = threadPtr || isTerminated thread) s (joinQueue threadPtr)

/-- `OSExitThread` of the running thread, up to the choice of the next one. -/
def OSExitThread (unlockAllMutexes : Kernel → Address → Kernel) (isTerminated : Address → Bool)
    (s : Kernel) (threadPtr : Address) (r3 : BitVec 32) : Kernel :=
  { TerminateThreadCommon unlockAllMutexes isTerminated s threadPtr r3 with reschedCounter := 1 }

end Wiicompiled.Runtime.ThreadExit
