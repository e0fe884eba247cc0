import Mathlib.Data.BitVec

/-!
# Deferred network operations

A network operation that would block is installed with a route and completed later.
A synchronous route names the guest thread that parks on a wait queue in its own stack
frame, and a token that is also written beside the queue; an asynchronous route names a
callback.  Resolver operations run on host workers, which only append to the queue of
completions; polls and connects are probed by the completion pump itself.

The pump runs on the thread of the scheduler.  Its work on one operation is a function
here, so that workers may publish between two operations of one pump.
-/

namespace Wiicompiled.Runtime.DeferredNetwork

abbrev Address := BitVec 32

abbrev Token := BitVec 64

def soEBadf : Int := 8

def soEInval : Int := 28

def soEIsConn : Int := 30

def soErrorHostNotFound : Int := -305

def defaultThreadContext : Address := 0x80347498#32

/-! ## Guest threads and wait queues -/

inductive ThreadState where
  | inactive
  | ready
  | running
  | waiting
  | moribund
deriving DecidableEq, Repr

/-- What the network layer reads of a guest thread.  `terminated` is the mark of its
fiber.  `parked` is no field of the program: it is the token of the operation the
thread sleeps for, and statements speak about it. -/
structure ThreadRecord where
  state : ThreadState
  queue : Address
  next : Address
  prev : Address
  detached : Bool
  terminated : Bool
  parked : Option Token
deriving DecidableEq, Repr

structure WaitQueue where
  head : Address
  tail : Address
  cookie : Token
deriving DecidableEq, Repr

/-! ## Operations -/

inductive CompletionKind where
  | syncWaitQueue
  | asyncCallback
deriving DecidableEq, Repr

/-- Where a completion goes.  `operation` numbers the submissions, for statements. -/
structure Route where
  kind : CompletionKind
  token : Token
  waitQueue : Address
  expectedThread : Address
  callback : Address
  callbackArg : BitVec 32
  operation : Nat
deriving DecidableEq, Repr

inductive DnsKind where
  | getHostByName
  | getAddrInfo
  | inetAton
deriving DecidableEq, Repr

structure DnsWork where
  kind : DnsKind
  route : Route
deriving DecidableEq, Repr

structure DnsCompletion where
  work : DnsWork
  result : Int
deriving DecidableEq, Repr

structure PollWork where
  route : Route
  outAddress : Address
  outSize : Nat
  descriptors : Nat
deriving DecidableEq, Repr

/-- `initialResult` is the outcome known without a probe: that of the submission, or
of an abort. -/
structure ConnectWork where
  route : Route
  wiiFd : BitVec 32
  initialResult : Option Int
deriving DecidableEq, Repr

/-- One delivered result, for statements: `waiter` is the token the expected thread was
parked with, and `woken` are the threads that the delivery made ready. -/
structure Delivery where
  route : Route
  result : Int
  waiter : Option Token
  woken : List Address
deriving DecidableEq, Repr

/-- The store of deferred operations and the guest threads.  The last six fields are
the history that statements speak about; no function reads them but for the number of
the next submission. -/
structure State where
  workers : List DnsWork
  completed : List DnsCompletion
  ready : List DnsCompletion
  pendingPolls : List PollWork
  pendingConnects : List ConnectWork
  syncResults : Token → Option Int
  nextToken : Token
  callbacks : List (Address × Int × BitVec 32)
  runningContext : Address
  threads : Address → ThreadRecord
  queues : Address → WaitQueue
  submitted : Nat
  allotted : Nat
  deliveries : List Delivery
  taken : List (Token × Int)
  lost : List Route

namespace State

def setThread (s : State) (thread : Address) (r : ThreadRecord) : State :=
  { s with threads := Function.update s.threads thread r }

def setQueue (s : State) (queue : Address) (q : WaitQueue) : State :=
  { s with queues := Function.update s.queues queue q }

end State

/-! ## Queues of threads -/

/-- Append to a queue of equal priorities; an empty queue gets its first thread. -/
def insertThreadIntoQueue (queue thread : Address) (s : State) : State :=
  let s := s.setThread thread { s.threads thread with queue := queue }
  let tail := (s.queues queue).tail
  let s :=
    if tail = 0#32 then s.setQueue queue { s.queues queue with head := thread }
    else s.setThread tail { s.threads tail with next := thread }
  let s := s.setThread thread { s.threads thread with prev := tail, next := 0#32 }
  s.setQueue queue { s.queues queue with tail := thread }

def removeThreadFromQueue (thread : Address) (s : State) : State :=
  let queue := (s.threads thread).queue
  if queue = 0#32 then s
  else
    let next := (s.threads thread).next
    let prev := (s.threads thread).prev
    let s :=
      if next = 0#32 then s.setQueue queue { s.queues queue with tail := prev }
      else s.setThread next { s.threads next with prev := prev }
    let s :=
      if prev = 0#32 then s.setQueue queue { s.queues queue with head := next }
      else s.setThread prev { s.threads prev with next := next }
    s.setThread thread
      { s.threads thread with next := 0#32, prev := 0#32, queue := 0#32 }

def popThreadQueueHead (queue head : Address) (s : State) : State :=
  let next := (s.threads head).next
  let s :=
    if next = 0#32 then s.setQueue queue { s.queues queue with tail := 0#32 }
    else s.setThread next { s.threads next with prev := 0#32 }
  s.setQueue queue { s.queues queue with head := next }

def ThreadState.isTerminated (state : ThreadState) : Bool :=
  state = .inactive ∨ state = .moribund

/-- Drain a queue, at most `fuel` threads, and make its live threads ready. -/
def wakeupThreadQueue (queue : Address) : Nat → State → List Address × State
  | 0, s => ([], s)
  | fuel + 1, s =>
      let thread := (s.queues queue).head
      if thread = 0#32 then ([], s)
      else
        let s := popThreadQueueHead queue thread s
        let r := s.threads thread
        if r.state.isTerminated || r.terminated then
          wakeupThreadQueue queue fuel
            (s.setThread thread { r with queue := 0#32, next := 0#32, prev := 0#32 })
        else
          let (woken, s) := wakeupThreadQueue queue fuel
            (s.setThread thread { r with state := .ready, parked := none })
          (thread :: woken, s)

def maxWake : Nat := 256

/-! ## Submission -/

/-- The running thread, or the default thread while none is set. -/
def currentThread (s : State) : Address :=
  if s.runningContext = 0#32 then defaultThreadContext else s.runningContext

inductive ConnectAttempt where
  | staleSocket
  | connected
  | wouldBlock
  | failed (translated : Int)
deriving DecidableEq, Repr

/-- What the host answers to a submission: whether the socket runtime is there, the
thread and the queue are in guest memory, the worker starts, what the host's connect
says, and whether the scheduler may switch away from the thread. -/
structure SubmissionHost where
  socketRuntime : Bool
  contained : Bool
  launched : Bool
  connectAttempt : ConnectAttempt
  canSwitchAway : Bool
deriving DecidableEq, Repr

inductive Work where
  | dns (work : DnsWork)
  | poll (work : PollWork)
  | connect (work : ConnectWork)
deriving DecidableEq, Repr

def Work.withRoute : Work → Route → Work
  | .dns work, route => .dns { work with route := route }
  | .poll work, route => .poll { work with route := route }
  | .connect work, route => .connect { work with route := route }

inductive Preparation where
  | notApplicable
  | ready (work : Work) (failureResult : Int)
  | error (result : Int)
deriving DecidableEq, Repr

inductive StartOutcome where
  | notApplicable
  | started (token : Token)
  | immediate (result : Int)
deriving DecidableEq, Repr

/-- The next token.  Zero stands for no token and is skipped. -/
def allotToken (s : State) : Token × State :=
  let token := s.nextToken
  if token = 0#64 then
    (1#64, { s with nextToken := 2#64, allotted := s.allotted + 2 })
  else (token, { s with nextToken := token + 1#64, allotted := s.allotted + 1 })

def initializeDeferredSyncRoute (contained : Bool) (waitQueue : Address) (s : State) :
    Option Route × State :=
  if waitQueue = 0#32 then (none, s)
  else
    let (token, s) := allotToken s
    if !contained then (none, s)
    else
      let route : Route :=
        { kind := .syncWaitQueue, token, waitQueue, expectedThread := currentThread s,
          callback := 0#32, callbackArg := 0#32, operation := s.submitted }
      (some route, s.setQueue waitQueue { s.queues waitQueue with cookie := token })

def initializeDeferredAsyncRoute (callback : Address) (callbackArg : BitVec 32)
    (s : State) : Option Route × State :=
  (some
    { kind := .asyncCallback, token := 0#64, waitQueue := 0#32, expectedThread := 0#32,
      callback, callbackArg, operation := s.submitted }, s)

def ConnectAttempt.initialResult : ConnectAttempt → Option Int
  | .staleSocket => some (-soEBadf)
  | .connected => some 0
  | .wouldBlock => none
  | .failed translated => some (if translated = -soEIsConn then 0 else translated)

/-- Install an operation; it is the next submission when it can be installed. -/
def install (host : SubmissionHost) (s : State) : Work → Option State
  | .dns work =>
      if host.launched then
        some { s with workers := s.workers ++ [work], submitted := s.submitted + 1 }
      else none
  | .poll work =>
      some { s with
        pendingPolls := s.pendingPolls ++ [work], submitted := s.submitted + 1 }
  | .connect work =>
      let work := { work with initialResult := host.connectAttempt.initialResult }
      some { s with
        pendingConnects := s.pendingConnects ++ [work], submitted := s.submitted + 1 }

/-- Start a prepared operation.  A failure of any step is the operation's own immediate
error. -/
def startDeferred (host : SubmissionHost) (prepared : Preparation)
    (initializeRoute : State → Option Route × State) (s : State) :
    StartOutcome × State :=
  match prepared with
  | .notApplicable => (.notApplicable, s)
  | .error result => (.immediate result, s)
  | .ready work failureResult =>
      if !host.socketRuntime then (.immediate failureResult, s)
      else
        match initializeRoute s with
        | (none, s) => (.immediate failureResult, s)
        | (some route, s) =>
            match install host s (work.withRoute route) with
            | none => (.immediate failureResult, s)
            | some s => (.started route.token, s)

def startAsync (host : SubmissionHost) (prepared : Preparation) (callback : Address)
    (callbackArg : BitVec 32) (s : State) : StartOutcome × State :=
  startDeferred host prepared (initializeDeferredAsyncRoute callback callbackArg) s

def sleepThread (queue : Address) (token : Token) (s : State) : State :=
  let thread := currentThread s
  let s := { s with runningContext := thread }
  let s := s.setThread thread
    { s.threads thread with state := .waiting, queue := queue, parked := some token }
  insertThreadIntoQueue queue thread s

/-- A synchronous submission: the queue of the new frame is made empty, and a thread
whose operation started parks on it if the scheduler may switch away.  `waitQueue` is
zero when the frame is no guest memory. -/
def startSync (host : SubmissionHost) (prepared : Preparation) (waitQueue : Address)
    (s : State) : StartOutcome × State :=
  let s :=
    if waitQueue = 0#32 then s
    else s.setQueue waitQueue { s.queues waitQueue with head := 0#32, tail := 0#32 }
  match startDeferred host prepared
      (initializeDeferredSyncRoute host.contained waitQueue) s with
  | (.started token, s) =>
      (.started token, if host.canSwitchAway then sleepThread waitQueue token s else s)
  | other => other

/-! ## Workers and aborts -/

def dnsFailureResult : DnsKind → Int
  | .getHostByName => -1
  | .getAddrInfo => soErrorHostNotFound
  | .inetAton => 0

/-- A worker resolves its work and publishes; any failure on the way becomes one attempt
to publish the failure.  The result is what reaches the queue of completions. -/
def runWorker (work : DnsWork) (resolved : Option Int)
    (publishAccepted failureAccepted : Bool) : Option DnsCompletion :=
  let failure : Option DnsCompletion :=
    if failureAccepted then some ⟨work, dnsFailureResult work.kind⟩ else none
  match resolved with
  | some result => if publishAccepted then some ⟨work, result⟩ else failure
  | none => failure

/-- The worker at a position ends. -/
def finishWorker (index : Nat) (resolved : Option Int)
    (publishAccepted failureAccepted : Bool) (s : State) : State :=
  match s.workers[index]? with
  | none => s
  | some work =>
      let s := { s with workers := s.workers.eraseIdx index }
      match runWorker work resolved publishAccepted failureAccepted with
      | some completion => { s with completed := s.completed ++ [completion] }
      | none => { s with lost := s.lost ++ [work.route] }

def abortPendingDeferredConnects (wiiFd : BitVec 32) (result : Int) (s : State) : State :=
  { s with
    pendingConnects := s.pendingConnects.map fun work =>
      if work.wiiFd = wiiFd ∧ work.initialResult = none then
        { work with initialResult := some result }
      else work }

/-! ## Results -/

def takeSyncResult (token : Token) (s : State) : Option Int × State :=
  if token = 0#64 then (none, s)
  else
    match s.syncResults token with
    | none => (none, s)
    | some result =>
        (some result,
          { s with
            syncResults := Function.update s.syncResults token none
            taken := s.taken ++ [(token, result)] })

/-- The thread still sleeps on the queue of the route, alone, and the frame still holds
the token of the route. -/
def waiterIsValid (s : State) (route : Route) : Bool :=
  let thread := s.threads route.expectedThread
  let queue := s.queues route.waitQueue
  route.waitQueue ≠ 0#32 ∧ route.expectedThread ≠ 0#32 ∧ thread.terminated = false ∧
    thread.state = .waiting ∧ thread.queue = route.waitQueue ∧
    queue.head = route.expectedThread ∧ queue.tail = route.expectedThread ∧
    queue.cookie = route.token ∧ thread.next = 0#32 ∧ thread.prev = 0#32

/-- Hand a result over: publish it under its token and wake the queue, or queue the
callback. -/
def deliver (route : Route) (result : Int) (s : State) : State :=
  match route.kind with
  | .syncWaitQueue =>
      let waiter := (s.threads route.expectedThread).parked
      let s := { s with
        syncResults := Function.update s.syncResults route.token (some result) }
      let (woken, s) := wakeupThreadQueue route.waitQueue maxWake s
      { s with deliveries := s.deliveries ++ [⟨route, result, waiter, woken⟩] }
  | .asyncCallback =>
      { s with
        callbacks := s.callbacks ++ [(route.callback, result, route.callbackArg)]
        deliveries := s.deliveries ++ [⟨route, result, none, []⟩] }

/-! ## The completion pump -/

/-- What the host answers to the pump: the result of writing a resolver's addresses
to guest memory and of writing poll results there, where nothing is a fault, and the
probes; a probe without a result leaves the operation pending. -/
structure PumpHost where
  applyDns : DnsCompletion → Option Int
  contains : Address → Nat → Bool
  probePoll : PollWork → Option Int
  writePoll : PollWork → Option Unit
  probeConnect : ConnectWork → Option Int
  socketIsStillValid : ConnectWork → Bool

def dropped (s : State) (route : Route) : Bool :=
  route.kind = .syncWaitQueue ∧ waiterIsValid s route = false

def dnsResult (host : PumpHost) (completion : DnsCompletion) : Int :=
  if completion.result = 0 then (host.applyDns completion).getD (-soEInval)
  else completion.result

/-- Settle one completion of a worker. -/
def settleDns (host : PumpHost) (s : State) : State :=
  match s.ready with
  | [] => s
  | completion :: rest =>
      let s := { s with ready := rest }
      if dropped s completion.work.route then s
      else deliver completion.work.route (dnsResult host completion) s

def applyPollCompletion (host : PumpHost) (work : PollWork) (result : Int) : Int :=
  let outputBytes := work.descriptors * 12
  if work.outAddress = 0#32 ∨ outputBytes = 0 ∨ work.outSize < outputBytes ∨
      host.contains work.outAddress outputBytes = false then -soEInval
  else
    match host.writePoll work with
    | some () => result
    | none => -soEInval

/-- Settle the poll at a position; the flag says whether it left the list. -/
def settlePoll (host : PumpHost) (index : Nat) (s : State) : Bool × State :=
  match s.pendingPolls[index]? with
  | none => (false, s)
  | some work =>
      let erased := { s with pendingPolls := s.pendingPolls.eraseIdx index }
      if dropped s work.route then (true, erased)
      else
        match host.probePoll work with
        | none => (false, s)
        | some probed =>
            (true, deliver work.route (applyPollCompletion host work probed) erased)

def probeDeferredConnect (host : PumpHost) (work : ConnectWork) : Option Int :=
  match work.initialResult with
  | some result => some result
  | none => host.probeConnect work

def connectResult (host : PumpHost) (work : ConnectWork) (probed : Int) : Int :=
  if probed = 0 ∧ host.socketIsStillValid work = false then -soEBadf else probed

/-- Settle the connect at a position; the flag says whether it left the list. -/
def settleConnect (host : PumpHost) (index : Nat) (s : State) : Bool × State :=
  match s.pendingConnects[index]? with
  | none => (false, s)
  | some work =>
      let erased := { s with pendingConnects := s.pendingConnects.eraseIdx index }
      if dropped s work.route then (true, erased)
      else
        match probeDeferredConnect host work with
        | none => (false, s)
        | some probed =>
            (true, deliver work.route (connectResult host work probed) erased)

/-- The pump takes the whole queue of completions for itself. -/
def takeCompleted (s : State) : State :=
  { s with ready := s.ready ++ s.completed, completed := [] }

def pumpDns (host : PumpHost) : Nat → State → State
  | 0, s => s
  | n + 1, s => pumpDns host n (settleDns host s)

/-- A loop over a list that its body may shorten: an element that leaves the list makes
room for its successor at the same position. -/
def pumpList (settle : Nat → State → Bool × State) : Nat → Nat → State → State
  | 0, _, s => s
  | n + 1, index, s =>
      let (left, s) := settle index s
      pumpList settle n (if left then index else index + 1) s

def processCompletions (host : PumpHost) (s : State) : State :=
  let s := takeCompleted s
  let s := pumpDns host s.ready.length s
  let s := pumpList (settlePoll host) s.pendingPolls.length 0 s
  pumpList (settleConnect host) s.pendingConnects.length 0 s

/-! ## Guest threads come and go -/

/-- The end of a thread, by itself or by another. -/
def terminateThread (thread : Address) (s : State) : State :=
  let r := s.threads thread
  s.setThread thread
    { r with
      state := if r.detached then .inactive else .moribund
      terminated := true
      parked := none }

def cancelThread (thread : Address) (s : State) : State :=
  match (s.threads thread).state with
  | .inactive | .moribund => s
  | .waiting => terminateThread thread (removeThreadFromQueue thread s)
  | .ready | .running => terminateThread thread s

def exitThread (s : State) : State :=
  if s.runningContext = 0#32 then s else terminateThread s.runningContext s

/-- A thread structure is used for a new thread.  The links of its queue keep what they
held. -/
def createThread (thread : Address) (detached : Bool) (s : State) : State :=
  s.setThread thread
    { s.threads thread with
      state := .ready, detached := detached, terminated := false, parked := none }

/-- The scheduler switches to a ready thread. -/
def selectThread (thread : Address) (s : State) : State :=
  let running := s.threads s.runningContext
  let s :=
    if running.state = .running then
      s.setThread s.runningContext { running with state := .ready }
    else s
  let s := s.setThread thread { s.threads thread with state := .running, queue := 0#32 }
  { s with runningContext := thread }

/-- A scheduler that came back without a switch: the thread leaves its queue and goes
on, and its operation stays in flight. -/
def unparkThread (thread : Address) (s : State) : State :=
  let s := removeThreadFromQueue thread s
  s.setThread thread { s.threads thread with state := .running, parked := none }

end Wiicompiled.Runtime.DeferredNetwork
