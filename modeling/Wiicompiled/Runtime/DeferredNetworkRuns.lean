import Wiicompiled.Runtime.DeferredNetwork

/-!
# Runs of deferred network operations

Submissions, workers, aborts, the completion pump and the guest's threads take steps in
any order.  A step of the pump settles one operation.

The argument keeps an account of routes.  Every route is in flight, lost or delivered;
the numbers of the submissions tell all of them apart, and their tokens tell the
synchronous ones apart as long as the counter of tokens does not wrap.  Every sleeping
thread is seated: it sleeps alone on the queue of its frame, and a route that was not
delivered carries its token.  A valid waiter is therefore parked with the token of the
route, and a route whose waiter is not valid serves no sleeping thread.
-/

namespace Wiicompiled.Runtime.DeferredNetwork

/-! ## Steps -/

def State.inFlight (s : State) : List Route :=
  s.workers.map DnsWork.route ++ s.completed.map (fun c => c.work.route) ++
    s.ready.map (fun c => c.work.route) ++ s.pendingPolls.map PollWork.route ++
    s.pendingConnects.map ConnectWork.route

/-- The store is empty, no thread sleeps, and a fiber with the mark of the terminated
belongs to a dead thread. -/
structure Initial (s : State) : Prop where
  store : s.inFlight = []
  nextToken : s.nextToken = 1#64
  results : ∀ token, s.syncResults token = none
  submitted : s.submitted = 0
  allotted : s.allotted = 0
  deliveries : s.deliveries = []
  taken : s.taken = []
  lost : s.lost = []
  awake : ∀ thread, (s.threads thread).state ≠ .waiting
  parked : ∀ thread, (s.threads thread).parked = none
  alive : ∀ thread, (s.threads thread).state.isTerminated = false →
    (s.threads thread).terminated = false

/-- One step.  The running thread submits, with a frame on its own stack: no other
thread sleeps there. -/
inductive Step : State → State → Prop where
  | startSync {s : State} (host : SubmissionHost) (prepared : Preparation)
      (waitQueue : Address) (running : (s.threads (currentThread s)).state = .running)
      (own : ∀ thread, (s.threads thread).state = .waiting →
        (s.threads thread).queue ≠ waitQueue) :
      Step s (startSync host prepared waitQueue s).2
  | startAsync {s : State} (host : SubmissionHost) (prepared : Preparation)
      (callback : Address) (callbackArg : BitVec 32) :
      Step s (startAsync host prepared callback callbackArg s).2
  | finishWorker {s : State} (index : Nat) (resolved : Option Int)
      (publishAccepted failureAccepted : Bool) :
      Step s (finishWorker index resolved publishAccepted failureAccepted s)
  | abort {s : State} (wiiFd : BitVec 32) (result : Int) :
      Step s (abortPendingDeferredConnects wiiFd result s)
  | takeCompleted {s : State} : Step s (takeCompleted s)
  | settleDns {s : State} (host : PumpHost) : Step s (settleDns host s)
  | settlePoll {s : State} (host : PumpHost) (index : Nat) :
      Step s (settlePoll host index s).2
  | settleConnect {s : State} (host : PumpHost) (index : Nat) :
      Step s (settleConnect host index s).2
  | takeSyncResult {s : State} (token : Token) : Step s (takeSyncResult token s).2
  | cancel {s : State} (thread : Address) : Step s (cancelThread thread s)
  | exit {s : State} (running : (s.threads s.runningContext).state = .running) :
      Step s (exitThread s)
  | create {s : State} (thread : Address) (detached : Bool)
      (dead : (s.threads thread).state.isTerminated = true) :
      Step s (createThread thread detached s)
  | select {s : State} (thread : Address) (isReady : (s.threads thread).state = .ready) :
      Step s (selectThread thread s)
  | unpark {s : State} (thread : Address)
      (waiting : (s.threads thread).state = .waiting) :
      Step s (unparkThread thread s)

inductive Reachable : State → Prop where
  | init {s : State} (initial : Initial s) : Reachable s
  | step {s s' : State} (h : Reachable s) (hstep : Step s s') : Reachable s'

/-! ## The pump takes steps -/

theorem Reachable.pumpDns {s : State} (h : Reachable s) (host : PumpHost) (n : Nat) :
    Reachable (pumpDns host n s) := by
  induction n generalizing s with
  | zero => exact h
  | succ n ih => exact ih (h.step (.settleDns host))

theorem Reachable.pumpList {s : State} (h : Reachable s)
    {settle : Nat → State → Bool × State}
    (hsettle : ∀ index s, Reachable s → Reachable (settle index s).2) (n index : Nat) :
    Reachable (pumpList settle n index s) := by
  induction n generalizing s index with
  | zero => exact h
  | succ n ih => exact ih (hsettle index s h) _

theorem Reachable.processCompletions {s : State} (h : Reachable s) (host : PumpHost) :
    Reachable (processCompletions host s) := by
  have hdns := (h.step .takeCompleted).pumpDns host (takeCompleted s).ready.length
  have hpoll := hdns.pumpList (fun index s hs => hs.step (.settlePoll host index))
    (DeferredNetwork.pumpDns host (takeCompleted s).ready.length
      (takeCompleted s)).pendingPolls.length 0
  exact hpoll.pumpList (fun index s hs => hs.step (.settleConnect host index)) _ 0

/-! ## The account of routes -/

structure Accounted (submitted allotted : Nat) (routes : List Route) : Prop where
  numbered : ∀ route ∈ routes, route.operation < submitted
  apart : (routes.map Route.operation).Nodup
  allotted : ∀ route ∈ routes, route.kind = .syncWaitQueue →
    0 < route.token.toNat ∧ route.token.toNat ≤ allotted
  tokensApart : ((routes.filter fun route => route.kind = .syncWaitQueue).map
    Route.token).Nodup

theorem Accounted.nil : Accounted 0 0 [] :=
  ⟨List.forall_mem_nil _, List.nodup_nil, List.forall_mem_nil _, List.nodup_nil⟩

theorem Accounted.subperm
    {submitted allotted : Nat} {routes routes' : List Route}
    (h : Accounted submitted allotted routes) (hsub : routes'.Subperm routes) :
    Accounted submitted allotted routes' where
  numbered route hroute := h.numbered route (hsub.subset hroute)
  apart := by
    obtain ⟨l, hl, hsl⟩ := hsub
    exact ((hl.map _).nodup_iff).1 (h.apart.sublist (hsl.map _))
  allotted route hroute := h.allotted route (hsub.subset hroute)
  tokensApart := by
    obtain ⟨l, hl, hsl⟩ := hsub
    exact (((hl.filter _).map _).nodup_iff).1
      (h.tokensApart.sublist ((hsl.filter _).map _))

theorem Accounted.perm
    {submitted allotted : Nat} {routes routes' : List Route}
    (h : Accounted submitted allotted routes) (hperm : routes'.Perm routes) :
    Accounted submitted allotted routes' :=
  h.subperm hperm.subperm

theorem Accounted.mono
    {submitted submitted' allotted allotted' : Nat} {routes : List Route}
    (h : Accounted submitted allotted routes) (hsubmitted : submitted ≤ submitted')
    (hallotted : allotted ≤ allotted') : Accounted submitted' allotted' routes where
  numbered route hroute := Nat.lt_of_lt_of_le (h.numbered route hroute) hsubmitted
  apart := h.apart
  allotted route hroute hkind :=
    ⟨(h.allotted route hroute hkind).1,
      Nat.le_trans (h.allotted route hroute hkind).2 hallotted⟩
  tokensApart := h.tokensApart

/-- A new route has the next number and, if it is synchronous, a token not seen yet. -/
theorem Accounted.cons
    {submitted allotted allotted' : Nat} {routes : List Route} {route : Route}
    (h : Accounted submitted allotted routes) (hallotted : allotted ≤ allotted')
    (hnumber : route.operation = submitted)
    (htoken : route.kind = .syncWaitQueue →
      allotted < route.token.toNat ∧ route.token.toNat ≤ allotted') :
    Accounted (submitted + 1) allotted' (route :: routes) where
  numbered := by
    intro r hr
    rcases List.mem_cons.1 hr with rfl | hr
    · omega
    · exact Nat.lt_succ_of_lt (h.numbered r hr)
  apart := by
    refine List.nodup_cons.2 ⟨fun hmem => ?_, h.apart⟩
    obtain ⟨r, hr, heq⟩ := List.mem_map.1 hmem
    have := h.numbered r hr
    omega
  allotted := by
    intro r hr hkind
    rcases List.mem_cons.1 hr with rfl | hr
    · have := htoken hkind
      omega
    · have := h.allotted r hr hkind
      omega
  tokensApart := by
    by_cases hkind : route.kind = .syncWaitQueue
    · rw [List.filter_cons_of_pos (by simpa using hkind)]
      refine List.nodup_cons.2 ⟨fun hmem => ?_, h.tokensApart⟩
      obtain ⟨r, hr, heq⟩ := List.mem_map.1 hmem
      have hr' := List.mem_filter.1 hr
      have hbound := h.allotted r hr'.1 (by simpa using hr'.2)
      have hnew := htoken hkind
      rw [heq] at hbound
      omega
    · rw [List.filter_cons_of_neg (by simpa using hkind)]
      exact h.tokensApart

theorem Accounted.token_ne
    {submitted allotted : Nat} {routes : List Route} {route : Route}
    (h : Accounted submitted allotted (route :: routes))
    (hkind : route.kind = .syncWaitQueue) {other : Route} (hother : other ∈ routes)
    (hkind' : other.kind = .syncWaitQueue) : other.token ≠ route.token := by
  intro heq
  have htokens := h.tokensApart
  rw [List.filter_cons_of_pos (by simpa using hkind)] at htokens
  exact (List.nodup_cons.1 htokens).1
    (List.mem_map.2 ⟨other, List.mem_filter.2 ⟨hother, by simpa using hkind'⟩, heq⟩)

/-! ## Seated threads -/

/-- The thread sleeps alone on the queue of its frame, parked with the token. -/
structure Seat (s : State) (thread : Address) (token : Token) : Prop where
  waiting : (s.threads thread).state = .waiting
  alive : (s.threads thread).terminated = false
  parked : (s.threads thread).parked = some token
  thread_ne : thread ≠ 0#32
  queue_ne : (s.threads thread).queue ≠ 0#32
  next : (s.threads thread).next = 0#32
  prev : (s.threads thread).prev = 0#32
  frame : s.queues (s.threads thread).queue = ⟨thread, thread, token⟩

def Serves (s : State) (route : Route) (thread : Address) (token : Token) : Prop :=
  route.kind = .syncWaitQueue ∧ route.token = token ∧ route.expectedThread = thread ∧
    route.waitQueue = (s.threads thread).queue

/-- `flying` are the routes that are neither lost nor delivered. -/
structure Seated (flying : List Route) (s : State) : Prop where
  alive : ∀ thread, (s.threads thread).state.isTerminated = false →
    (s.threads thread).terminated = false
  parked : ∀ thread token, (s.threads thread).parked = some token →
    (s.threads thread).state = .waiting
  seat : ∀ thread, (s.threads thread).state = .waiting →
    ∃ token, Seat s thread token ∧
      ∃ route ∈ flying ++ s.lost, Serves s route thread token

theorem Seat.queue_ne_of_ne
    {s : State} {thread other : Address} {token token' : Token}
    (h : Seat s thread token) (h' : Seat s other token') (hne : other ≠ thread) :
    (s.threads other).queue ≠ (s.threads thread).queue := by
  intro heq
  have hframe := h'.frame
  rw [heq, h.frame] at hframe
  exact hne (congrArg WaitQueue.head hframe).symm

theorem Seat.frame_of
    {s s' : State} {thread : Address} {token : Token} (h : Seat s thread token)
    (hthread : s'.threads thread = s.threads thread)
    (hqueue : s'.queues (s.threads thread).queue = s.queues (s.threads thread).queue) :
    Seat s' thread token := by
  refine ⟨?_, ?_, ?_, h.thread_ne, ?_, ?_, ?_, ?_⟩ <;> rw [hthread]
  · exact h.waiting
  · exact h.alive
  · exact h.parked
  · exact h.queue_ne
  · exact h.next
  · exact h.prev
  · rw [hqueue]
    exact h.frame

theorem Serves.of_eq
    {s s' : State} {route : Route} {thread : Address} {token : Token}
    (h : Serves s route thread token) (hthread : s'.threads thread = s.threads thread) :
    Serves s' route thread token :=
  ⟨h.1, h.2.1, h.2.2.1, by rw [hthread]; exact h.2.2.2⟩

theorem Seat.waiterIsValid
    {s : State} {thread : Address} {token : Token} (h : Seat s thread token)
    {route : Route} (hserves : Serves s route thread token) :
    waiterIsValid s route = true := by
  obtain ⟨-, htoken, hthread, hqueue⟩ := hserves
  simp only [DeferredNetwork.waiterIsValid, hthread, hqueue, h.frame, htoken, h.waiting,
    h.alive, h.next, h.prev]
  simp [h.thread_ne, h.queue_ne]

theorem Seated.of_valid
    {flying : List Route} {s : State} (h : Seated flying s) {route : Route}
    (hvalid : waiterIsValid s route = true) :
    Seat s route.expectedThread route.token ∧
      route.waitQueue = (s.threads route.expectedThread).queue := by
  simp only [DeferredNetwork.waiterIsValid, decide_eq_true_eq] at hvalid
  obtain ⟨-, -, -, hwaiting, hqueue, -, -, hcookie, -, -⟩ := hvalid
  obtain ⟨token, hseat, -⟩ := h.seat _ hwaiting
  have hframe := hseat.frame
  rw [hqueue] at hframe
  have htoken : route.token = token := by rw [← hcookie, hframe]
  rw [htoken]
  exact ⟨hseat, hqueue.symm⟩

/-- The threads and queues stay, and every route that serves one stays as well. -/
theorem Seated.of_threads
    {flying flying' : List Route} {s s' : State} (h : Seated flying s)
    (hthreads : s'.threads = s.threads) (hqueues : s'.queues = s.queues)
    (hroutes : ∀ thread token, Seat s thread token →
      ∀ route ∈ flying ++ s.lost, Serves s route thread token →
        route ∈ flying' ++ s'.lost) : Seated flying' s' where
  alive thread := by rw [hthreads]; exact h.alive thread
  parked thread := by rw [hthreads]; exact h.parked thread
  seat := by
    intro thread hwaiting
    rw [hthreads] at hwaiting
    obtain ⟨token, hseat, route, hroute, hserves⟩ := h.seat thread hwaiting
    exact ⟨token, hseat.frame_of (by rw [hthreads]) (by rw [hqueues]), route,
      hroutes thread token hseat route hroute hserves, hserves.of_eq (by rw [hthreads])⟩

/-- One thread that does not sleep afterwards changes, and of the queues at most the
one it slept on. -/
theorem Seated.of_awake
    {flying flying' : List Route} {s s' : State} (h : Seated flying s) (thread : Address)
    (hthreads : ∀ other, other ≠ thread → s'.threads other = s.threads other)
    (hqueues : ∀ other, other ≠ thread → (s.threads other).state = .waiting →
      s'.queues (s.threads other).queue = s.queues (s.threads other).queue)
    (hawake : (s'.threads thread).state ≠ .waiting)
    (hparked : (s'.threads thread).parked = none)
    (halive : (s'.threads thread).state.isTerminated = false →
      (s'.threads thread).terminated = false)
    (hroutes : ∀ route ∈ flying ++ s.lost, route.expectedThread ≠ thread →
      route ∈ flying' ++ s'.lost) : Seated flying' s' where
  alive := by
    intro other
    by_cases heq : other = thread
    · rw [heq]
      exact halive
    · rw [hthreads other heq]
      exact h.alive other
  parked := by
    intro other token hother
    by_cases heq : other = thread
    · rw [heq, hparked] at hother
      exact absurd hother (by simp)
    · rw [hthreads other heq] at hother ⊢
      exact h.parked other token hother
  seat := by
    intro other hwaiting
    by_cases heq : other = thread
    · rw [heq] at hwaiting
      exact absurd hwaiting hawake
    · have hsame := hthreads other heq
      rw [hsame] at hwaiting
      obtain ⟨token, hseat, route, hroute, hserves⟩ := h.seat other hwaiting
      refine ⟨token, hseat.frame_of hsame (hqueues other heq hwaiting), route,
        hroutes route hroute ?_, hserves.of_eq hsame⟩
      rw [hserves.2.2.1]
      exact heq

/-! ## Queues of one thread -/

theorem popThreadQueueHead_lone
    {s : State} {queue thread : Address} {token : Token}
    (hframe : s.queues queue = ⟨thread, thread, token⟩)
    (hnext : (s.threads thread).next = 0#32) :
    popThreadQueueHead queue thread s =
      { s with queues := Function.update s.queues queue ⟨0#32, 0#32, token⟩ } := by
  simp [popThreadQueueHead, hnext, State.setQueue, hframe]

theorem Seat.wakeupThreadQueue
    {s : State} {thread : Address} {token : Token} (h : Seat s thread token)
    (fuel : Nat) :
    wakeupThreadQueue (s.threads thread).queue (fuel + 2) s =
      ([thread],
        { s with
          threads := Function.update s.threads thread
            { s.threads thread with state := .ready, parked := none }
          queues := Function.update s.queues (s.threads thread).queue
            ⟨0#32, 0#32, token⟩ }) := by
  have hhead : (s.queues (s.threads thread).queue).head = thread := by rw [h.frame]
  simp only [DeferredNetwork.wakeupThreadQueue, hhead, h.thread_ne, if_false,
    popThreadQueueHead_lone h.frame h.next, h.waiting, h.alive,
    ThreadState.isTerminated, State.setThread]
  simp

theorem Seat.removeThreadFromQueue
    {s : State} {thread : Address} {token : Token} (h : Seat s thread token) :
    removeThreadFromQueue thread s =
      { s with
        threads := Function.update s.threads thread
          { s.threads thread with next := 0#32, prev := 0#32, queue := 0#32 }
        queues := Function.update s.queues (s.threads thread).queue
          ⟨0#32, 0#32, token⟩ } := by
  simp [DeferredNetwork.removeThreadFromQueue, h.queue_ne, h.next, h.prev, h.frame,
    State.setQueue, State.setThread]

theorem insertThreadIntoQueue_empty
    {s : State} {queue thread : Address} (htail : (s.queues queue).tail = 0#32) :
    insertThreadIntoQueue queue thread s =
      { s with
        threads := Function.update s.threads thread
          { s.threads thread with queue := queue, prev := 0#32, next := 0#32 }
        queues := Function.update s.queues queue
          ⟨thread, thread, (s.queues queue).cookie⟩ } := by
  simp [insertThreadIntoQueue, htail, State.setQueue, State.setThread]

/-! ## Results -/

/-- What is owed to a waiter: a synchronous result finds the expected thread parked with
its token and wakes this thread alone, and a callback wakes none. -/
def Delivery.Exact (d : Delivery) : Prop :=
  match d.route.kind with
  | .syncWaitQueue =>
      d.waiter = some d.route.token ∧ d.woken = [d.route.expectedThread]
  | .asyncCallback => d.woken = []

def State.Delivered (s : State) (token : Token) (result : Int) : Prop :=
  ∃ d ∈ s.deliveries,
    d.route.kind = .syncWaitQueue ∧ d.route.token = token ∧ d.result = result

structure Settled (s : State) : Prop where
  exact : ∀ d ∈ s.deliveries, d.Exact
  published : ∀ token result, s.syncResults token = some result →
    s.Delivered token result
  untaken : ∀ token result, s.syncResults token = some result →
    ∀ p ∈ s.taken, p.1 ≠ token
  takenFrom : ∀ p ∈ s.taken, s.Delivered p.1 p.2
  takenOnce : (s.taken.map Prod.fst).Nodup

/-! ## The invariant -/

/-- `flying` are the routes that are neither lost nor delivered. -/
structure Sound (flying : List Route) (s : State) : Prop where
  counter : s.nextToken = BitVec.ofNat 64 (s.allotted + 1)
  accounted : Accounted s.submitted s.allotted
    (flying ++ s.lost ++ s.deliveries.map Delivery.route)
  seated : Seated flying s
  settled : Settled s

theorem Sound.perm
    {flying flying' : List Route} {s : State} (h : Sound flying s)
    (hperm : flying'.Perm flying) : Sound flying' s where
  counter := h.counter
  accounted := h.accounted.perm ((hperm.append_right _).append_right _)
  seated := h.seated.of_threads rfl rfl fun _ _ _ _ hroute _ =>
    (hperm.append_right _).mem_iff.2 hroute
  settled := h.settled

theorem Sound.of_store
    {flying : List Route} {s : State} (h : Sound flying s) (workers : List DnsWork)
    (completed ready : List DnsCompletion) (pendingPolls : List PollWork)
    (pendingConnects : List ConnectWork) :
    Sound flying
      { s with workers, completed, ready, pendingPolls, pendingConnects } where
  counter := h.counter
  accounted := h.accounted
  seated := h.seated.of_threads rfl rfl fun _ _ _ _ hroute _ => hroute
  settled := ⟨h.settled.exact, h.settled.published, h.settled.untaken,
    h.settled.takenFrom, h.settled.takenOnce⟩

/-- A route whose waiter is not valid serves no sleeping thread, and may go. -/
theorem Sound.drop
    {flying : List Route} {s : State} {route : Route} (h : Sound (route :: flying) s)
    (hdropped : dropped s route = true) : Sound flying s where
  counter := h.counter
  accounted := h.accounted.subperm
    (((List.sublist_cons_self _ _).append_right _).append_right _).subperm
  seated := by
    refine h.seated.of_threads rfl rfl ?_
    intro thread token hseat other hother hserves
    rcases List.mem_cons.1 hother with rfl | hother
    · simp [dropped, hseat.waiterIsValid hserves] at hdropped
    · exact hother
  settled := h.settled

theorem Sound.deliver_async
    {flying : List Route} {s : State} {route : Route} (h : Sound (route :: flying) s)
    (hkind : route.kind = .asyncCallback) (result : Int) :
    Sound flying (deliver route result s) := by
  have hdelivered : ∀ token result', s.Delivered token result' →
      (deliver route result s).Delivered token result' := by
    rintro token result' ⟨d, hd, hrest⟩
    simp only [State.Delivered, deliver, hkind]
    exact ⟨d, List.mem_append_left _ hd, hrest⟩
  simp only [deliver, hkind] at hdelivered ⊢
  refine ⟨h.counter, ?_, ?_, ?_⟩
  · refine h.accounted.perm ?_
    simpa [List.append_assoc] using
      (List.perm_append_singleton route (flying ++ s.lost ++ s.deliveries.map Delivery.route))
  · refine h.seated.of_threads rfl rfl ?_
    intro thread token hseat other hother hserves
    rcases List.mem_cons.1 hother with rfl | hother
    · exact absurd (hserves.1.symm.trans hkind) (by decide)
    · exact hother
  · refine ⟨?_, fun token result' hresult => hdelivered _ _ (h.settled.published _ _ hresult),
      h.settled.untaken, fun p hp => hdelivered _ _ (h.settled.takenFrom p hp),
      h.settled.takenOnce⟩
    intro d hd
    rcases List.mem_append.1 hd with hd | hd
    · exact h.settled.exact d hd
    · rw [List.mem_singleton.1 hd]
      simp [Delivery.Exact, hkind]

theorem Seat.deliver
    {s : State} {route : Route} (hseat : Seat s route.expectedThread route.token)
    (hqueue : route.waitQueue = (s.threads route.expectedThread).queue)
    (hkind : route.kind = .syncWaitQueue) (result : Int) :
    deliver route result s =
      { s with
        syncResults := Function.update s.syncResults route.token (some result)
        threads := Function.update s.threads route.expectedThread
          { s.threads route.expectedThread with state := .ready, parked := none }
        queues := Function.update s.queues route.waitQueue ⟨0#32, 0#32, route.token⟩
        deliveries := s.deliveries ++
          [⟨route, result, some route.token, [route.expectedThread]⟩] } := by
  have hseat' : Seat
      { s with syncResults := Function.update s.syncResults route.token (some result) }
      route.expectedThread route.token := hseat.frame_of rfl rfl
  have hwake := hseat'.wakeupThreadQueue 254
  simp only [← hqueue] at hwake
  simp only [DeferredNetwork.deliver, hkind, maxWake, hwake, hseat.parked]
  rw [hqueue]

theorem Sound.deliver_sync
    {flying : List Route} {s : State} {route : Route} (h : Sound (route :: flying) s)
    (hkind : route.kind = .syncWaitQueue) (hvalid : waiterIsValid s route = true)
    (result : Int) : Sound flying (deliver route result s) := by
  obtain ⟨hseat, hqueue⟩ := h.seated.of_valid hvalid
  have hfresh : ∀ p ∈ s.taken, p.1 ≠ route.token := by
    intro p hp
    obtain ⟨d, hd, hdkind, hdtoken, -⟩ := h.settled.takenFrom p hp
    rw [← hdtoken]
    exact h.accounted.token_ne hkind
      (List.mem_append_right _ (List.mem_map_of_mem hd)) hdkind
  rw [hseat.deliver hqueue hkind]
  refine ⟨h.counter, ?_, ?_, ?_⟩
  · refine h.accounted.perm ?_
    simpa [List.append_assoc] using
      (List.perm_append_singleton route (flying ++ s.lost ++ s.deliveries.map Delivery.route))
  · refine h.seated.of_awake route.expectedThread ?_ ?_ ?_ ?_ ?_ ?_
    · intro other hne
      exact Function.update_of_ne hne _ _
    · intro other hne hwaiting
      obtain ⟨token, hother, -⟩ := h.seated.seat other hwaiting
      refine Function.update_of_ne ?_ _ _
      rw [hqueue]
      exact hseat.queue_ne_of_ne hother hne
    · simp
    · simp
    · intro _
      simpa using hseat.alive
    · intro other hother hne
      rcases List.mem_cons.1 hother with rfl | hother
      · exact absurd rfl hne
      · exact hother
  · refine ⟨?_, ?_, ?_, ?_, h.settled.takenOnce⟩
    · intro d hd
      rcases List.mem_append.1 hd with hd | hd
      · exact h.settled.exact d hd
      · rw [List.mem_singleton.1 hd]
        simp [Delivery.Exact, hkind]
    · intro token result' hresult
      change Function.update _ _ _ _ = _ at hresult
      by_cases heq : token = route.token
      · rw [heq] at hresult ⊢
        rw [Function.update_self] at hresult
        exact ⟨_, List.mem_append_right _ (List.mem_singleton_self _), hkind, rfl,
          Option.some.inj hresult⟩
      · rw [Function.update_of_ne heq] at hresult
        obtain ⟨d, hd, hrest⟩ := h.settled.published _ _ hresult
        exact ⟨d, List.mem_append_left _ hd, hrest⟩
    · intro token result' hresult p hp
      change Function.update _ _ _ _ = _ at hresult
      by_cases heq : token = route.token
      · rw [heq]
        exact hfresh p hp
      · rw [Function.update_of_ne heq] at hresult
        exact h.settled.untaken _ _ hresult p hp
    · intro p hp
      obtain ⟨d, hd, hrest⟩ := h.settled.takenFrom p hp
      exact ⟨d, List.mem_append_left _ hd, hrest⟩

/-- Settling a route keeps the invariant, whichever way it ends. -/
theorem Sound.deliver
    {flying : List Route} {s : State} {route : Route} (h : Sound (route :: flying) s)
    (hdropped : dropped s route = false) (result : Int) :
    Sound flying (deliver route result s) := by
  cases hkind : route.kind with
  | syncWaitQueue =>
      refine h.deliver_sync hkind ?_ result
      simpa [dropped, hkind] using hdropped
  | asyncCallback => exact h.deliver_async hkind result

end Wiicompiled.Runtime.DeferredNetwork
