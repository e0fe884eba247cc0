import Mathlib.Data.BitVec

/-!
# Sleeping by ticks

`OSSleepTicks` parks a thread by a suspension of its own and a timer that takes it back.  The
count of suspensions is shared with `OSSuspendThread` and `OSResumeThread`.  A step is what runs
without a switch of fibers; a thread that sleeps, and a pass that heals, continue in a later step.
-/

namespace Wiicompiled.Runtime.SleepParking

abbrev Address := BitVec 32

/-- The states 0, 1, 2, 4 and 8 of a thread. -/
inductive ThreadState
  | none
  | ready
  | running
  | waiting
  | moribund
deriving DecidableEq, Repr

inductive ThreadQueue
  | none
  | run
  | wait
deriving DecidableEq, Repr

structure OSThread where
  state : ThreadState
  suspend : BitVec 32
  queue : ThreadQueue
deriving DecidableEq, Repr

structure SleepTimerEntry where
  threadPtr : Address
  deadline : ℕ
deriving DecidableEq, Repr

/-- The threads, the tables of the sleep timers, and the clock in milliseconds.  The threads that
the reconciler has collected and not yet resumed are on the stacks of its callers. -/
structure Os where
  threads : Address → OSThread
  gSleepTimers : List SleepTimerEntry
  gOutstandingParks : List Address
  strandScanDueAt : ℕ
  strandFirstSeen : Address → Option ℕ
  toHeal : List Address
  sleeping : Address → Bool
  clock : ℕ

def ThreadState.live : ThreadState → Bool
  | .none | .moribund => false
  | .ready | .running | .waiting => true

namespace Os

def modifyThread (s : Os) (threadPtr : Address) (f : OSThread → OSThread) : Os :=
  { s with threads := Function.update s.threads threadPtr (f (s.threads threadPtr)) }

end Os

/-! ## The timer table and the set of parks -/

def CancelSleepTimer (s : Os) (threadPtr : Address) : Os :=
  { s with gSleepTimers := s.gSleepTimers.filter fun entry => entry.threadPtr ≠ threadPtr }

def SleepTimerIsPending (s : Os) (threadPtr : Address) : Bool :=
  s.gSleepTimers.any fun entry => entry.threadPtr = threadPtr

def MarkParkOutstanding (s : Os) (threadPtr : Address) : Os :=
  { s with gOutstandingParks := s.gOutstandingParks.insert threadPtr }

def ClearOutstandingPark (s : Os) (threadPtr : Address) : Os :=
  { s with gOutstandingParks := s.gOutstandingParks.filter fun other => other ≠ threadPtr }

def ScheduleSleepTimer (s : Os) (threadPtr : Address) (duration : ℕ) : Os :=
  { s with
    gSleepTimers := (CancelSleepTimer s threadPtr).gSleepTimers ++
      [⟨threadPtr, s.clock + duration⟩] }

/-! ## Suspending and resuming -/

/-- The record of a thread whose first suspension this is. -/
def OSThread.stopped (thread : OSThread) : OSThread :=
  match thread.state with
  | .ready => { thread with queue := .none }
  | .running => { thread with state := .ready }
  | .none | .waiting | .moribund => thread

/-- `OSSuspendThread`, up to its call of `SelectThread`. -/
def OSSuspendThread (s : Os) (threadPtr : Address) : Os :=
  if threadPtr = 0 then s
  else
    let suspendCount := (s.threads threadPtr).suspend
    let s := s.modifyThread threadPtr fun thread => { thread with suspend := suspendCount + 1 }
    if suspendCount = 0 then s.modifyThread threadPtr OSThread.stopped else s

/-- The record of a thread without a suspension left. -/
def OSThread.started (thread : OSThread) : OSThread :=
  match thread.state with
  | .ready => { thread with queue := .run }
  | .running => { thread with state := .ready, queue := .run }
  | .none | .waiting | .moribund => thread

/-- `OSResumeThread`, up to its call of `SelectThread`. -/
def OSResumeThread (s : Os) (threadPtr : Address) : Os :=
  if threadPtr = 0 then s
  else
    let newSuspend := (s.threads threadPtr).suspend - 1
    if newSuspend.toInt < 0 then
      s.modifyThread threadPtr fun thread => { thread with suspend := 0 }
    else
      let s := s.modifyThread threadPtr fun thread => { thread with suspend := newSuspend }
      if newSuspend = 0 then
        (ClearOutstandingPark (CancelSleepTimer s threadPtr) threadPtr).modifyThread threadPtr
          OSThread.started
      else s

/-! ## Sleeping -/

/-- `OSSleepTicks`, up to the switch in its call of `OSSuspendThread`. -/
def OSSleepTicks (s : Os) (currentThread : Address) (duration : ℕ) : Os :=
  let s := ScheduleSleepTimer s currentThread duration
  let s := MarkParkOutstanding s currentThread
  let s := OSSuspendThread s currentThread
  { s with sleeping := Function.update s.sleeping currentThread true }

/-- The rest of `OSSleepTicks`.  It reads whether the timer is pending, and does not use it. -/
def OSSleepTicksReturn (s : Os) (currentThread : Address) : Os :=
  let s := { s with sleeping := Function.update s.sleeping currentThread false }
  let suspendCount := (s.threads currentThread).suspend
  if 0 < suspendCount.toInt then
    let s := CancelSleepTimer s currentThread
    let s := ClearOutstandingPark s currentThread
    let s := s.modifyThread currentThread fun thread => { thread with suspend := suspendCount - 1 }
    if suspendCount = 1 ∧ (s.threads currentThread).state = .ready ∧
        (s.threads currentThread).queue = .none then
      s.modifyThread currentThread fun thread => { thread with state := .running }
    else s
  else s

/-! ## Timers -/

def popDue (now : ℕ) : List SleepTimerEntry → Option (SleepTimerEntry × List SleepTimerEntry)
  | [] => none
  | entry :: rest =>
      if entry.deadline ≤ now then some (entry, rest)
      else (popDue now rest).map fun due => (due.1, entry :: due.2)

/-- A timer that has been taken off the table. -/
def fireSleepTimer (s : Os) (threadPtr : Address) (now : ℕ) : Os :=
  if threadPtr = 0 then s
  else if (s.threads threadPtr).state = .running then
    if SleepTimerIsPending s threadPtr then s
    else { s with gSleepTimers := s.gSleepTimers ++ [⟨threadPtr, now + 2⟩] }
  else if (s.threads threadPtr).state = .ready ∧ 1 ≤ (s.threads threadPtr).suspend.toInt then
    OSResumeThread (ClearOutstandingPark s threadPtr) threadPtr
  else ClearOutstandingPark s threadPtr

/-- One turn of the loop of `ProcessSleepTimers`, at the time that the loop began. -/
def processSleepTimer (s : Os) (now : ℕ) : Os :=
  match popDue now s.gSleepTimers with
  | none => s
  | some (timer, rest) => fireSleepTimer { s with gSleepTimers := rest } timer.threadPtr now

/-! ## The reconciler -/

/-- What the reconciler does about a park. -/
def reconcileThread (s : Os) (threadPtr : Address) : Os :=
  let forgotten : Os :=
    { s with strandFirstSeen := Function.update s.strandFirstSeen threadPtr none }
  if SleepTimerIsPending s threadPtr then forgotten
  else if (s.threads threadPtr).state.live = false then ClearOutstandingPark forgotten threadPtr
  else if (s.threads threadPtr).state ≠ .ready ∨ (s.threads threadPtr).suspend.toInt < 1 then
    ClearOutstandingPark forgotten threadPtr
  else
    match s.strandFirstSeen threadPtr with
    | none =>
        { s with strandFirstSeen := Function.update s.strandFirstSeen threadPtr (some s.clock) }
    | some seen =>
        if s.clock - seen < 100 then s
        else
          let s := ClearOutstandingPark forgotten threadPtr
          { s with toHeal := s.toHeal ++ [threadPtr] }

/-- The pass of the reconciler that collects, at most every 50 ms. -/
def reconcile (s : Os) (now : ℕ) : Os :=
  if s.strandScanDueAt ≤ now then
    let s : Os :=
      { s with
        strandScanDueAt := now + 50
        strandFirstSeen := fun threadPtr =>
          if threadPtr ∈ s.gOutstandingParks then s.strandFirstSeen threadPtr else none }
    s.gOutstandingParks.foldl reconcileThread s
  else s

/-- The reconciler resumes a thread that it has collected. -/
def heal (s : Os) (threadPtr : Address) : Os :=
  OSResumeThread { s with toHeal := s.toHeal.erase threadPtr } threadPtr

/-! ## Runs -/

/-- What happens between two switches of fibers.  The scheduler and the thread queues move a
thread between its states. -/
inductive Action
  | sleepTicks (currentThread : Address) (duration : ℕ)
  | sleepTicksReturn (currentThread : Address)
  | suspendThread (threadPtr : Address)
  | resumeThread (threadPtr : Address)
  | sleepTimer (now : ℕ)
  | reconcile (now : ℕ)
  | heal (threadPtr : Address)
  | tick (duration : ℕ)
  | dispatch (threadPtr : Address)
  | preempt (threadPtr : Address)
  | sleepThread (currentThread : Address)
  | sleepThreadReturn (currentThread : Address)
  | wakeupThread (threadPtr : Address)
  | terminate (threadPtr : Address) (detached : Bool)
deriving DecidableEq, Repr

/-- A thread that executes is running, or ready when it was suspended as it ran; inside
`OSSleepTicks` it calls nothing else. -/
def Os.executing (s : Os) (threadPtr : Address) : Bool :=
  ((s.threads threadPtr).state = .running || (s.threads threadPtr).state = .ready) &&
    !s.sleeping threadPtr

def step (s : Os) : Action → Option Os
  | .sleepTicks currentThread duration =>
      if currentThread ≠ 0 ∧ s.executing currentThread then
        some (OSSleepTicks s currentThread duration)
      else none
  | .sleepTicksReturn currentThread =>
      if s.sleeping currentThread ∧ (s.threads currentThread).state.live then
        some (OSSleepTicksReturn s currentThread)
      else none
  | .suspendThread threadPtr => some (OSSuspendThread s threadPtr)
  | .resumeThread threadPtr => some (OSResumeThread s threadPtr)
  | .sleepTimer now => if now ≤ s.clock then some (processSleepTimer s now) else none
  | .reconcile now => if now ≤ s.clock then some (reconcile s now) else none
  | .heal threadPtr => if threadPtr ∈ s.toHeal then some (heal s threadPtr) else none
  | .tick duration => some { s with clock := s.clock + duration }
  | .dispatch threadPtr =>
      if (s.threads threadPtr).queue = .run ∧ (s.threads threadPtr).state.live then
        some (s.modifyThread threadPtr fun thread =>
          { thread with state := .running, queue := .none })
      else none
  | .preempt threadPtr =>
      if (s.threads threadPtr).state = .running then
        some (s.modifyThread threadPtr fun thread => { thread with state := .ready, queue := .run })
      else none
  | .sleepThread currentThread =>
      if s.executing currentThread then
        some (s.modifyThread currentThread fun thread =>
          { thread with state := .waiting, queue := .wait })
      else none
  | .sleepThreadReturn currentThread =>
      if (s.threads currentThread).state = .waiting ∧ (s.threads currentThread).queue = .wait then
        some (s.modifyThread currentThread fun thread =>
          { thread with state := .running, queue := .none })
      else none
  | .wakeupThread threadPtr =>
      if (s.threads threadPtr).state = .waiting then
        some (s.modifyThread threadPtr fun thread =>
          { thread with
            state := .ready
            queue := if thread.suspend.toInt < 1 then .run else thread.queue })
      else none
  | .terminate threadPtr detached =>
      if (s.threads threadPtr).state.live then
        some (s.modifyThread threadPtr fun thread =>
          { thread with state := if detached then .none else .moribund })
      else none

/-! ## The accounts -/

/-- Who has suspended a thread: others, so many times, or the thread itself as it went to
sleep. -/
structure Ledger where
  suspensions : Address → ℕ
  parked : Address → Bool

namespace Ledger

def park (l : Ledger) (threadPtr : Address) : Ledger :=
  { l with parked := Function.update l.parked threadPtr true }

def unpark (l : Ledger) (threadPtr : Address) : Ledger :=
  { l with parked := Function.update l.parked threadPtr false }

def setSuspensions (l : Ledger) (threadPtr : Address) (count : ℕ) : Ledger :=
  { l with suspensions := Function.update l.suspensions threadPtr count }

/-- A timer ends the sleep of a thread that is ready and suspended. -/
def fired (l : Ledger) (s : Os) (threadPtr : Address) : Ledger :=
  if (s.threads threadPtr).state = .ready ∧ 1 ≤ (s.threads threadPtr).suspend.toInt then
    l.unpark threadPtr
  else l

/-- A resumption by another thread takes back a suspension by another thread, and ends the sleep
when there is none.  A timer, the reconciler and the return of `OSSleepTicks` take back what
`OSSleepTicks` did. -/
def next (l : Ledger) (s : Os) : Action → Ledger
  | .sleepTicks currentThread _ => l.park currentThread
  | .sleepTicksReturn currentThread =>
      if 0 < (s.threads currentThread).suspend.toInt then l.unpark currentThread else l
  | .suspendThread threadPtr => l.setSuspensions threadPtr (l.suspensions threadPtr + 1)
  | .resumeThread threadPtr =>
      if (s.threads threadPtr).suspend.toInt < 1 then l
      else if 0 < l.suspensions threadPtr then
        l.setSuspensions threadPtr (l.suspensions threadPtr - 1)
      else l.unpark threadPtr
  | .sleepTimer now =>
      match popDue now s.gSleepTimers with
      | none => l
      | some (timer, _) => l.fired s timer.threadPtr
  | .heal threadPtr =>
      if 1 ≤ (s.threads threadPtr).suspend.toInt then l.unpark threadPtr else l
  | .reconcile _ | .tick _ | .dispatch _ | .preempt _ | .sleepThread _ | .sleepThreadReturn _
  | .wakeupThread _ | .terminate _ _ => l

end Ledger

end Wiicompiled.Runtime.SleepParking
