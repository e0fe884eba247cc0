import Wiicompiled.Runtime.DeferredNetworkRuns

/-!
# Completions reach exactly their waiters

Each step keeps the invariant of runs, so every run does.  The one operation that can
be lost is that of a worker whose completion and whose failure were both refused by the
queue of completions.
-/

namespace Wiicompiled.Runtime.DeferredNetwork

/-! ## Changes of guest threads alone -/

/-- At most the threads, their queues and the running context differ. -/
def SameStore (s s' : State) : Prop :=
  s' = { s with
    threads := s'.threads, queues := s'.queues, runningContext := s'.runningContext }

theorem SameStore.trans
    {s s' s'' : State} (h : SameStore s s') (h' : SameStore s' s'') : SameStore s s'' :=
  calc
    s'' = { s' with
      threads := s''.threads, queues := s''.queues,
      runningContext := s''.runningContext } := h'
    _ = { s with
      threads := s''.threads, queues := s''.queues,
      runningContext := s''.runningContext } := by rw [h]

theorem sameStore_setThread (s : State) (thread : Address) (r : ThreadRecord) :
    SameStore s (s.setThread thread r) := rfl

theorem sameStore_setQueue (s : State) (queue : Address) (q : WaitQueue) :
    SameStore s (s.setQueue queue q) := rfl

theorem SameStore.refl (s : State) : SameStore s s := rfl

theorem SameStore.inFlight {s s' : State} (h : SameStore s s') :
    s'.inFlight = s.inFlight := by rw [h]; rfl

theorem SameStore.allotted {s s' : State} (h : SameStore s s') :
    s'.allotted = s.allotted := by rw [h]

theorem sameStore_popThreadQueueHead (queue head : Address) (s : State) :
    SameStore s (popThreadQueueHead queue head s) := by
  unfold popThreadQueueHead
  dsimp only
  split <;> rfl

theorem sameStore_removeThreadFromQueue (thread : Address) (s : State) :
    SameStore s (removeThreadFromQueue thread s) := by
  unfold removeThreadFromQueue
  dsimp only
  split
  · rfl
  · split <;> split <;> rfl

theorem sameStore_insertThreadIntoQueue (queue thread : Address) (s : State) :
    SameStore s (insertThreadIntoQueue queue thread s) := by
  unfold insertThreadIntoQueue
  dsimp only
  split <;> rfl

theorem sameStore_wakeupThreadQueue (queue : Address) (fuel : Nat) (s : State) :
    SameStore s (wakeupThreadQueue queue fuel s).2 := by
  induction fuel generalizing s with
  | zero => rfl
  | succ fuel ih =>
      unfold wakeupThreadQueue
      dsimp only
      split
      · rfl
      · have hpop := sameStore_popThreadQueueHead queue (s.queues queue).head s
        split
        · exact (hpop.trans (sameStore_setThread _ _ _)).trans (ih _)
        · exact (hpop.trans (sameStore_setThread _ _ _)).trans (ih _)

theorem deliver_inFlight (route : Route) (result : Int) (s : State) :
    (deliver route result s).inFlight = s.inFlight := by
  unfold deliver
  split
  · exact (sameStore_wakeupThreadQueue route.waitQueue maxWake
      { s with
        syncResults := Function.update s.syncResults route.token (some result) }).inFlight
  · rfl

theorem deliver_allotted (route : Route) (result : Int) (s : State) :
    (deliver route result s).allotted = s.allotted := by
  unfold deliver
  split
  · exact (sameStore_wakeupThreadQueue route.waitQueue maxWake
      { s with
        syncResults := Function.update s.syncResults route.token (some result) }).allotted
  · rfl

/-! ## Workers, aborts and the pump -/

theorem Sound.lose
    {flying : List Route} {s : State} {route : Route} (h : Sound (route :: flying) s) :
    Sound flying { s with lost := s.lost ++ [route] } where
  counter := h.counter
  accounted := by
    refine h.accounted.perm ?_
    refine List.Perm.append_right _ ?_
    rw [← List.append_assoc]
    exact List.perm_append_singleton route (flying ++ s.lost)
  seated := by
    refine h.seated.of_threads rfl rfl ?_
    intro thread token _ other hother _
    rw [← List.append_assoc]
    exact (List.perm_append_singleton route (flying ++ s.lost)).mem_iff.2 hother
  settled := ⟨h.settled.exact, h.settled.published, h.settled.untaken,
    h.settled.takenFrom, h.settled.takenOnce⟩

theorem perm_eraseIdx
    {α β : Type} (f : α → β) {l : List α} {index : Nat} {a : α}
    (h : l[index]? = some a) : (l.map f).Perm (f a :: (l.eraseIdx index).map f) := by
  obtain ⟨hlt, rfl⟩ := List.getElem?_eq_some_iff.1 h
  exact (List.getElem_cons_eraseIdx_perm hlt).symm.map f

theorem finishWorker_sound
    {s : State} (h : Sound s.inFlight s) (index : Nat) (resolved : Option Int)
    (publishAccepted failureAccepted : Bool) :
    Sound (finishWorker index resolved publishAccepted failureAccepted s).inFlight
      (finishWorker index resolved publishAccepted failureAccepted s) := by
  unfold finishWorker
  split
  · exact h
  · rename_i work hwork
    have hworkers := perm_eraseIdx DnsWork.route hwork
    dsimp only
    split
    · rename_i completion hcompletion
      have hroute : completion.work.route = work.route := by
        unfold runWorker at hcompletion
        grind
      refine (h.of_store _ _ _ _ _).perm (List.perm_iff_count.2 fun route => ?_)
      simp only [State.inFlight, List.count_append, List.map_append, List.map_cons,
        List.map_nil, hroute, hworkers.count_eq, List.count_cons, List.count_nil]
      omega
    · refine Sound.lose (Sound.perm (h.of_store _ _ _ _ _)
        (List.perm_iff_count.2 fun route => ?_))
      simp only [State.inFlight, List.count_append, hworkers.count_eq, List.count_cons]
      omega

theorem abortPendingDeferredConnects_sound
    {s : State} (h : Sound s.inFlight s) (wiiFd : BitVec 32) (result : Int) :
    Sound (abortPendingDeferredConnects wiiFd result s).inFlight
      (abortPendingDeferredConnects wiiFd result s) := by
  have hroutes : (abortPendingDeferredConnects wiiFd result s).inFlight = s.inFlight := by
    simp only [State.inFlight, abortPendingDeferredConnects, List.map_map]
    congr 1
    refine List.map_congr_left fun work _ => ?_
    simp only [Function.comp]
    split <;> rfl
  rw [hroutes]
  exact h.of_store _ _ _ _ _

theorem takeCompleted_sound {s : State} (h : Sound s.inFlight s) :
    Sound (takeCompleted s).inFlight (takeCompleted s) := by
  refine (h.of_store _ _ _ _ _).perm (List.perm_iff_count.2 fun route => ?_)
  simp only [State.inFlight, takeCompleted, List.count_append, List.map_append,
    List.map_nil, List.count_nil]
  omega

/-- The step of the pump that all three loops share: an operation left its list and is
delivered. -/
theorem deliver_sound
    {s : State} {route : Route} (h : Sound (route :: s.inFlight) s)
    (hdropped : ¬ dropped s route = true) (result : Int) :
    Sound (deliver route result s).inFlight (deliver route result s) := by
  rw [deliver_inFlight]
  exact h.deliver (by simpa using hdropped) result

theorem settleDns_sound {s : State} (h : Sound s.inFlight s) (host : PumpHost) :
    Sound (settleDns host s).inFlight (settleDns host s) := by
  unfold settleDns
  split
  · exact h
  · rename_i completion rest hready
    have hremoved : Sound
        (completion.work.route :: State.inFlight { s with ready := rest })
        { s with ready := rest } := by
      refine (h.of_store _ _ _ _ _).perm (List.perm_iff_count.2 fun route => ?_)
      simp only [State.inFlight, hready, List.map_cons, List.count_append,
        List.count_cons]
      omega
    dsimp only
    split
    · rename_i hdropped
      exact hremoved.drop hdropped
    · rename_i hdropped
      exact deliver_sound hremoved hdropped _

theorem settlePoll_sound
    {s : State} (h : Sound s.inFlight s) (host : PumpHost) (index : Nat) :
    Sound (settlePoll host index s).2.inFlight (settlePoll host index s).2 := by
  unfold settlePoll
  split
  · exact h
  · rename_i work hwork
    have hpolls := perm_eraseIdx PollWork.route hwork
    have hremoved : Sound
        (work.route ::
          State.inFlight { s with pendingPolls := s.pendingPolls.eraseIdx index })
        { s with pendingPolls := s.pendingPolls.eraseIdx index } := by
      refine (h.of_store _ _ _ _ _).perm (List.perm_iff_count.2 fun route => ?_)
      simp only [State.inFlight, List.count_append, hpolls.count_eq, List.count_cons]
      omega
    dsimp only
    split
    · rename_i hdropped
      exact hremoved.drop hdropped
    · rename_i hdropped
      split
      · exact h
      · exact deliver_sound hremoved hdropped _

theorem settleConnect_sound
    {s : State} (h : Sound s.inFlight s) (host : PumpHost) (index : Nat) :
    Sound (settleConnect host index s).2.inFlight (settleConnect host index s).2 := by
  unfold settleConnect
  split
  · exact h
  · rename_i work hwork
    have hconnects := perm_eraseIdx ConnectWork.route hwork
    have hremoved : Sound
        (work.route ::
          State.inFlight { s with pendingConnects := s.pendingConnects.eraseIdx index })
        { s with pendingConnects := s.pendingConnects.eraseIdx index } := by
      refine (h.of_store _ _ _ _ _).perm (List.perm_iff_count.2 fun route => ?_)
      simp only [State.inFlight, List.count_append, hconnects.count_eq, List.count_cons]
      omega
    dsimp only
    split
    · rename_i hdropped
      exact hremoved.drop hdropped
    · rename_i hdropped
      split
      · exact h
      · exact deliver_sound hremoved hdropped _

/-- A result is taken from the published ones and is not there afterwards. -/
theorem takeSyncResult_sound
    {s : State} (h : Sound s.inFlight s) (token : Token) :
    Sound (takeSyncResult token s).2.inFlight (takeSyncResult token s).2 := by
  unfold takeSyncResult
  split
  · exact h
  · split
    · exact h
    · rename_i result hresult
      refine ⟨h.counter, h.accounted,
        h.seated.of_threads rfl rfl fun _ _ _ _ hroute _ => hroute, ?_⟩
      refine ⟨h.settled.exact, ?_, ?_, ?_, ?_⟩
      · intro other result' hother
        change Function.update _ _ _ _ = _ at hother
        by_cases heq : other = token
        · rw [heq, Function.update_self] at hother
          exact absurd hother (by simp)
        · rw [Function.update_of_ne heq] at hother
          exact h.settled.published _ _ hother
      · intro other result' hother p hp
        change Function.update _ _ _ _ = _ at hother
        by_cases heq : other = token
        · rw [heq, Function.update_self] at hother
          exact absurd hother (by simp)
        · rw [Function.update_of_ne heq] at hother
          rcases List.mem_append.1 hp with hp | hp
          · exact h.settled.untaken _ _ hother p hp
          · rw [List.mem_singleton.1 hp]
            exact Ne.symm heq
      · intro p hp
        rcases List.mem_append.1 hp with hp | hp
        · exact h.settled.takenFrom p hp
        · rw [List.mem_singleton.1 hp]
          exact h.settled.published _ _ hresult
      · rw [List.map_append, List.nodup_append]
        refine ⟨h.settled.takenOnce, by simp, ?_⟩
        intro t ht t' ht'
        obtain ⟨p, hp, rfl⟩ := List.mem_map.1 ht
        rw [List.mem_singleton.1 ht']
        exact h.settled.untaken _ _ hresult p hp

/-! ## Guest threads -/

theorem Sound.of_guest
    {s s' : State} (h : Sound s.inFlight s) (hstore : SameStore s s')
    (hseated : Seated s.inFlight s') : Sound s'.inFlight s' := by
  rw [hstore.inFlight]
  refine ⟨?_, ?_, hseated, ?_⟩ <;> rw [hstore]
  · exact h.counter
  · exact h.accounted
  · exact ⟨h.settled.exact, h.settled.published, h.settled.untaken,
      h.settled.takenFrom, h.settled.takenOnce⟩

/-- A thread that does not sleep gets a record that does not sleep. -/
theorem Seated.setThread
    {flying : List Route} {s : State} (h : Seated flying s) {thread : Address}
    {r : ThreadRecord} (hawake : r.state ≠ .waiting) (hparked : r.parked = none)
    (halive : r.state.isTerminated = false → r.terminated = false) :
    Seated flying (s.setThread thread r) := by
  refine h.of_awake thread ?_ ?_ ?_ ?_ ?_ ?_
  · intro other hne
    exact Function.update_of_ne hne _ _
  · intro other _ _
    rfl
  · simpa [State.setThread] using hawake
  · simpa [State.setThread] using hparked
  · simpa [State.setThread] using halive
  · intro route hroute _
    exact hroute

/-- A sleeping thread leaves its queue and gets a record that does not sleep. -/
theorem Seated.leave
    {flying : List Route} {s : State} (h : Seated flying s) {thread : Address}
    (hwaiting : (s.threads thread).state = .waiting) {r : ThreadRecord}
    (hawake : r.state ≠ .waiting) (hparked : r.parked = none)
    (halive : r.state.isTerminated = false → r.terminated = false) :
    Seated flying ((removeThreadFromQueue thread s).setThread thread r) := by
  obtain ⟨token, hseat, -⟩ := h.seat thread hwaiting
  rw [hseat.removeThreadFromQueue]
  refine h.of_awake thread ?_ ?_ ?_ ?_ ?_ ?_
  · intro other hne
    simp [State.setThread, Function.update_of_ne hne]
  · intro other hne hother
    obtain ⟨token', hseat', -⟩ := h.seat other hother
    exact Function.update_of_ne (hseat.queue_ne_of_ne hseat' hne) _ _
  · simpa [State.setThread] using hawake
  · simpa [State.setThread] using hparked
  · simpa [State.setThread] using halive
  · intro route hroute _
    exact hroute

theorem Seated.parked_eq_none
    {flying : List Route} {s : State} (h : Seated flying s) {thread : Address}
    (hawake : (s.threads thread).state ≠ .waiting) : (s.threads thread).parked = none := by
  cases hparked : (s.threads thread).parked with
  | none => rfl
  | some token => exact absurd (h.parked thread token hparked) hawake

theorem terminateThread_sound
    {s s' : State} (h : Sound s.inFlight s) (hstore : SameStore s s') (thread : Address)
    (hs' : s' = s ∨
      (s.threads thread).state = .waiting ∧ s' = removeThreadFromQueue thread s) :
    Sound (terminateThread thread s').inFlight (terminateThread thread s') := by
  refine h.of_guest (hstore.trans (sameStore_setThread _ _ _)) ?_
  have hdead : (if (s'.threads thread).detached then ThreadState.inactive
      else .moribund).isTerminated = true := by split <;> rfl
  have hawake : (if (s'.threads thread).detached then ThreadState.inactive
      else .moribund) ≠ .waiting := by split <;> decide
  unfold terminateThread
  rcases hs' with rfl | ⟨hwaiting, rfl⟩
  · exact h.seated.setThread hawake rfl (fun halive => by simp [hdead] at halive)
  · exact h.seated.leave hwaiting hawake rfl (fun halive => by simp [hdead] at halive)

theorem cancelThread_sound {s : State} (h : Sound s.inFlight s) (thread : Address) :
    Sound (cancelThread thread s).inFlight (cancelThread thread s) := by
  unfold cancelThread
  split
  · exact h
  · exact h
  · rename_i hwaiting
    exact terminateThread_sound h (sameStore_removeThreadFromQueue _ _) thread
      (.inr ⟨hwaiting, rfl⟩)
  · exact terminateThread_sound h (.refl s) thread (.inl rfl)
  · exact terminateThread_sound h (.refl s) thread (.inl rfl)

theorem exitThread_sound {s : State} (h : Sound s.inFlight s) :
    Sound (exitThread s).inFlight (exitThread s) := by
  unfold exitThread
  split
  · exact h
  · exact terminateThread_sound h (.refl s) _ (.inl rfl)

theorem createThread_sound
    {s : State} (h : Sound s.inFlight s) (thread : Address) (detached : Bool) :
    Sound (createThread thread detached s).inFlight (createThread thread detached s) :=
  h.of_guest (sameStore_setThread _ _ _)
    (h.seated.setThread (by simp) rfl (fun _ => rfl))

theorem selectThread_sound
    {s : State} (h : Sound s.inFlight s) (thread : Address)
    (hready : (s.threads thread).state = .ready) :
    Sound (selectThread thread s).inFlight (selectThread thread s) := by
  -- The thread that ran, if one did, goes back to the ready ones.
  obtain ⟨s', hs', hstore, hseated, hready'⟩ : ∃ s',
      s' = (if (s.threads s.runningContext).state = .running then
        s.setThread s.runningContext
          { s.threads s.runningContext with state := .ready }
        else s) ∧
      SameStore s s' ∧ Seated s.inFlight s' ∧ (s'.threads thread).state = .ready := by
    by_cases hrunning : (s.threads s.runningContext).state = .running
    · refine ⟨_, rfl, ?_, ?_, ?_⟩ <;> rw [if_pos hrunning]
      · exact sameStore_setThread _ _ _
      · refine h.seated.setThread (by simp) ?_ fun _ => ?_
        · exact h.seated.parked_eq_none (by rw [hrunning]; decide)
        · exact h.seated.alive _ (by rw [hrunning]; rfl)
      · by_cases heq : thread = s.runningContext
        · simp [State.setThread, heq]
        · simp [State.setThread, Function.update_of_ne heq, hready]
    · exact ⟨s, by rw [if_neg hrunning], .refl s, h.seated, hready⟩
  have hselected : Seated s.inFlight
      (s'.setThread thread { s'.threads thread with state := .running, queue := 0#32 }) := by
    refine hseated.setThread (by simp) ?_ fun _ => ?_
    · exact hseated.parked_eq_none (by rw [hready']; decide)
    · exact hseated.alive _ (by rw [hready']; rfl)
  unfold selectThread
  simp only [← hs']
  exact h.of_guest (hstore.trans rfl)
    (hselected.of_threads rfl rfl fun _ _ _ _ hroute _ => hroute)

theorem unparkThread_sound
    {s : State} (h : Sound s.inFlight s) (thread : Address)
    (hwaiting : (s.threads thread).state = .waiting) :
    Sound (unparkThread thread s).inFlight (unparkThread thread s) := by
  refine h.of_guest ((sameStore_removeThreadFromQueue thread s).trans
    (sameStore_setThread _ _ _)) (h.seated.leave hwaiting (by simp) rfl fun _ => ?_)
  obtain ⟨token, hseat, -⟩ := h.seated.seat thread hwaiting
  rw [hseat.removeThreadFromQueue]
  simpa using hseat.alive

/-! ## Submissions -/

theorem install_spec
    {host : SubmissionHost} {s s' : State} {work : Work} {route : Route}
    (h : install host s (work.withRoute route) = some s') :
    (∃ workers polls connects, s' = { s with
      workers := workers, pendingPolls := polls, pendingConnects := connects
      submitted := s.submitted + 1 }) ∧ s'.inFlight.Perm (route :: s.inFlight) := by
  cases work
  case' dns work =>
    -- the only installation that can fail
    simp only [install, Work.withRoute, Option.ite_none_right_eq_some] at h
    replace h := h.2
  all_goals
    rw [← Option.some.inj h]
    refine ⟨⟨_, _, _, rfl⟩, List.perm_iff_count.2 fun r => ?_⟩
    simp only [State.inFlight, List.map_append, List.map_cons, List.map_nil,
      List.count_append, List.count_cons, List.count_nil]
    omega

theorem install_sound
    {host : SubmissionHost} {s s' : State} {work : Work} {route : Route}
    (h : Sound s.inFlight s)
    (hroute : Accounted (s.submitted + 1) s.allotted
      (route :: (s.inFlight ++ s.lost ++ s.deliveries.map Delivery.route)))
    (hinstall : install host s (work.withRoute route) = some s') :
    Sound s'.inFlight s' := by
  obtain ⟨⟨workers, polls, connects, rfl⟩, hperm⟩ := install_spec hinstall
  refine ⟨h.counter, ?_, ?_, ?_⟩
  · exact hroute.perm ((hperm.append_right _).append_right _)
  · refine h.seated.of_threads rfl rfl ?_
    intro _ _ _ other hother _
    rcases List.mem_append.1 hother with hother | hother
    · exact List.mem_append_left _ (hperm.mem_iff.2 (List.mem_cons_of_mem _ hother))
    · exact List.mem_append_right _ hother
  · exact ⟨h.settled.exact, h.settled.published, h.settled.untaken,
      h.settled.takenFrom, h.settled.takenOnce⟩

/-- How a submission ends: with nothing in flight, after at most the initialization of
its route, or with its route installed. -/
theorem startDeferred_cases
    (host : SubmissionHost) (prepared : Preparation)
    (initializeRoute : State → Option Route × State) (s : State) :
    ((∀ token, (startDeferred host prepared initializeRoute s).1 ≠ .started token) ∧
      ((startDeferred host prepared initializeRoute s).2 = s ∨
        (startDeferred host prepared initializeRoute s).2 = (initializeRoute s).2)) ∨
    ∃ (work : Work) (route : Route) (s' : State), (initializeRoute s).1 = some route ∧
      install host (initializeRoute s).2 (work.withRoute route) = some s' ∧
      startDeferred host prepared initializeRoute s = (.started route.token, s') := by
  unfold startDeferred
  cases prepared with
  | notApplicable => simp
  | error result => simp
  | ready work failureResult =>
      dsimp only
      split
      · simp
      · rcases hroute : initializeRoute s with ⟨_ | route, s₁⟩
        · simp
        · dsimp only
          cases hinstall : install host s₁ (work.withRoute route) with
          | none => simp
          | some s₂ => exact .inr ⟨work, route, s₂, rfl, hinstall, rfl⟩

theorem startAsync_sound
    {s : State} (h : Sound s.inFlight s) (host : SubmissionHost) (prepared : Preparation)
    (callback : Address) (callbackArg : BitVec 32) :
    Sound (startAsync host prepared callback callbackArg s).2.inFlight
      (startAsync host prepared callback callbackArg s).2 := by
  unfold startAsync
  rcases startDeferred_cases host prepared
      (initializeDeferredAsyncRoute callback callbackArg) s with
    ⟨-, hs' | hs'⟩ | ⟨work, route, s', hroute, hinstall, hs'⟩
  · rw [hs']
    exact h
  · rw [hs']
    exact h
  · rw [hs']
    refine install_sound h ?_ hinstall
    rw [← Option.some.inj hroute]
    exact h.accounted.cons (Nat.le_refl _) rfl (fun hkind => by simp at hkind)

/-- One more token was handed out. -/
def State.advance (s : State) : State :=
  { s with nextToken := BitVec.ofNat 64 (s.allotted + 2), allotted := s.allotted + 1 }

def State.nextSyncRoute (s : State) (waitQueue : Address) : Route :=
  { kind := .syncWaitQueue, token := BitVec.ofNat 64 (s.allotted + 1), waitQueue,
    expectedThread := currentThread s, callback := 0#32, callbackArg := 0#32
    operation := s.submitted }

/-- Before the counter wraps, the tokens are the successive numbers. -/
theorem allotToken_spec
    {s : State} (hcounter : s.nextToken = BitVec.ofNat 64 (s.allotted + 1))
    (hbound : (allotToken s).2.allotted < 2 ^ 64) :
    allotToken s = (BitVec.ofNat 64 (s.allotted + 1), s.advance) := by
  unfold allotToken at hbound ⊢
  rw [hcounter] at hbound ⊢
  by_cases hzero : BitVec.ofNat 64 (s.allotted + 1) = 0#64
  · simp only [hzero, if_true] at hbound
    have hmod := congrArg BitVec.toNat hzero
    simp only [BitVec.toNat_ofNat] at hmod
    omega
  · simp only [hzero, if_false, State.advance, BitVec.ofNat_add_ofNat]

theorem initializeDeferredSyncRoute_cases
    {s : State} (contained : Bool) (waitQueue : Address)
    (hcounter : s.nextToken = BitVec.ofNat 64 (s.allotted + 1))
    (hbound : (initializeDeferredSyncRoute contained waitQueue s).2.allotted < 2 ^ 64) :
    initializeDeferredSyncRoute contained waitQueue s = (none, s) ∨
    s.allotted + 1 < 2 ^ 64 ∧
      (initializeDeferredSyncRoute contained waitQueue s = (none, s.advance) ∨
      waitQueue ≠ 0#32 ∧
        initializeDeferredSyncRoute contained waitQueue s =
          (some (s.nextSyncRoute waitQueue),
            s.advance.setQueue waitQueue
              { s.queues waitQueue with cookie := BitVec.ofNat 64 (s.allotted + 1) })) := by
  by_cases hqueue : waitQueue = 0#32
  · exact .inl (by simp [initializeDeferredSyncRoute, hqueue])
  · have hallotted : (allotToken s).2.allotted < 2 ^ 64 := by
      refine Nat.lt_of_le_of_lt (Nat.le_of_eq ?_) hbound
      simp only [initializeDeferredSyncRoute, hqueue, if_false]
      split <;> rfl
    have hallot := allotToken_spec hcounter hallotted
    rw [hallot] at hallotted
    refine .inr ⟨hallotted, ?_⟩
    simp only [initializeDeferredSyncRoute, hqueue, if_false, hallot]
    cases contained with
    | false => exact .inl rfl
    | true => exact .inr ⟨hqueue, rfl⟩

theorem Sound.advance {flying : List Route} {s : State} (h : Sound flying s) :
    Sound flying s.advance where
  counter := rfl
  accounted := h.accounted.mono (Nat.le_refl _) (Nat.le_succ _)
  seated := h.seated.of_threads rfl rfl fun _ _ _ _ hroute _ => hroute
  settled := ⟨h.settled.exact, h.settled.published, h.settled.untaken,
    h.settled.takenFrom, h.settled.takenOnce⟩

theorem Sound.setQueue
    {s : State} (h : Sound s.inFlight s) {waitQueue : Address}
    (own : ∀ thread, (s.threads thread).state = .waiting →
      (s.threads thread).queue ≠ waitQueue) (q : WaitQueue) :
    Sound (s.setQueue waitQueue q).inFlight (s.setQueue waitQueue q) := by
  refine h.of_guest (sameStore_setQueue _ _ _) ⟨h.seated.alive, h.seated.parked, ?_⟩
  intro thread hwaiting
  obtain ⟨token, hseat, hserved⟩ := h.seated.seat thread hwaiting
  exact ⟨token, hseat.frame_of rfl (Function.update_of_ne (own thread hwaiting) _ _),
    hserved⟩

/-- A route that was initialized is the next one, and its token is in the frame. -/
theorem initializeDeferredSyncRoute_some
    {s : State} {contained : Bool} {waitQueue : Address} {route : Route}
    (hcounter : s.nextToken = BitVec.ofNat 64 (s.allotted + 1))
    (hbound : (initializeDeferredSyncRoute contained waitQueue s).2.allotted < 2 ^ 64)
    (hroute : (initializeDeferredSyncRoute contained waitQueue s).1 = some route) :
    waitQueue ≠ 0#32 ∧ s.allotted + 1 < 2 ^ 64 ∧ route = s.nextSyncRoute waitQueue ∧
      (initializeDeferredSyncRoute contained waitQueue s).2 =
        s.advance.setQueue waitQueue
          { s.queues waitQueue with cookie := BitVec.ofNat 64 (s.allotted + 1) } := by
  rcases initializeDeferredSyncRoute_cases contained waitQueue hcounter hbound with
    heq | ⟨hlt, heq | ⟨hne, heq⟩⟩
  · rw [heq] at hroute
    exact absurd hroute (by simp)
  · rw [heq] at hroute
    exact absurd hroute (by simp)
  · rw [heq] at hroute ⊢
    exact ⟨hne, hlt, (Option.some.inj hroute).symm, rfl⟩

theorem initializeDeferredSyncRoute_sound
    {s : State} (h : Sound s.inFlight s) (contained : Bool) {waitQueue : Address}
    (own : ∀ thread, (s.threads thread).state = .waiting →
      (s.threads thread).queue ≠ waitQueue)
    (hbound : (initializeDeferredSyncRoute contained waitQueue s).2.allotted < 2 ^ 64) :
    Sound (initializeDeferredSyncRoute contained waitQueue s).2.inFlight
      (initializeDeferredSyncRoute contained waitQueue s).2 := by
  rcases initializeDeferredSyncRoute_cases contained waitQueue h.counter hbound with
    heq | ⟨-, heq | ⟨-, heq⟩⟩
  · rw [heq]
    exact h
  · rw [heq]
    exact h.advance
  · rw [heq]
    exact Sound.setQueue (s := s.advance) h.advance own _

/-- The running thread parks on its empty frame, and its route is in flight. -/
theorem Seated.park
    {flying : List Route} {s : State} (h : Seated flying s) {route : Route}
    (hroute : route ∈ flying) (hkind : route.kind = .syncWaitQueue)
    (hthread : route.expectedThread = currentThread s)
    (hqueue : route.waitQueue ≠ 0#32)
    (hrunning : (s.threads (currentThread s)).state = .running)
    (own : ∀ thread, (s.threads thread).state = .waiting →
      (s.threads thread).queue ≠ route.waitQueue)
    (hframe : s.queues route.waitQueue = ⟨0#32, 0#32, route.token⟩) :
    Seated flying (sleepThread route.waitQueue route.token s) := by
  have hne : currentThread s ≠ 0#32 := by
    unfold currentThread
    split
    · decide
    · assumption
  have halive := h.alive (currentThread s) (by rw [hrunning]; rfl)
  unfold sleepThread
  rw [insertThreadIntoQueue_empty (by simp [State.setThread, hframe])]
  refine ⟨?_, ?_, ?_⟩
  · intro thread
    by_cases heq : thread = currentThread s
    · simp [State.setThread, heq, halive]
    · simpa [State.setThread, Function.update_of_ne heq] using h.alive thread
  · intro thread token
    by_cases heq : thread = currentThread s
    · simp [State.setThread, heq]
    · simpa [State.setThread, Function.update_of_ne heq] using h.parked thread token
  · intro thread hwaiting
    by_cases heq : thread = currentThread s
    · rw [heq]
      refine ⟨route.token, ?_, route, List.mem_append_left _ hroute, hkind, rfl, hthread,
        by simp [State.setThread]⟩
      constructor <;> simp [State.setThread, halive, hne, hqueue, hframe]
    · have hother : (s.threads thread).state = .waiting := by
        simpa [State.setThread, Function.update_of_ne heq] using hwaiting
      obtain ⟨token, hseat, other, hmem, hserves⟩ := h.seat thread hother
      refine ⟨token, hseat.frame_of ?_ ?_, other, hmem, hserves.of_eq ?_⟩
      · simp [State.setThread, Function.update_of_ne heq]
      · simp [State.setThread, Function.update_of_ne (own thread hother)]
      · simp [State.setThread, Function.update_of_ne heq]

theorem sameStore_sleepThread (queue : Address) (token : Token) (s : State) :
    SameStore s (sleepThread queue token s) := by
  refine SameStore.trans ?_ (sameStore_insertThreadIntoQueue queue (currentThread s) _)
  rfl

def State.emptyFrame (s : State) (waitQueue : Address) : State :=
  if waitQueue = 0#32 then s
  else s.setQueue waitQueue { s.queues waitQueue with head := 0#32, tail := 0#32 }

/-- How a synchronous submission ends: like the start of its operation, or with its
thread parked. -/
theorem startSync_cases
    (host : SubmissionHost) (prepared : Preparation) (waitQueue : Address) (s : State) :
    (startSync host prepared waitQueue s).2 =
      (startDeferred host prepared (initializeDeferredSyncRoute host.contained waitQueue)
        (s.emptyFrame waitQueue)).2 ∨
    ∃ token, (startDeferred host prepared
        (initializeDeferredSyncRoute host.contained waitQueue)
        (s.emptyFrame waitQueue)).1 = .started token ∧
      (startSync host prepared waitQueue s).2 =
        sleepThread waitQueue token (startDeferred host prepared
          (initializeDeferredSyncRoute host.contained waitQueue)
          (s.emptyFrame waitQueue)).2 := by
  have hframe : s.emptyFrame waitQueue =
      if waitQueue = 0#32 then s
      else s.setQueue waitQueue
        { s.queues waitQueue with head := 0#32, tail := 0#32 } := rfl
  unfold startSync
  dsimp only
  rw [← hframe]
  rcases startDeferred host prepared
      (initializeDeferredSyncRoute host.contained waitQueue) (s.emptyFrame waitQueue) with
    ⟨_ | token | result, s'⟩
  · exact .inl rfl
  · cases hswitch : host.canSwitchAway with
    | false => exact .inl rfl
    | true => exact .inr ⟨token, rfl, rfl⟩
  · exact .inl rfl

theorem startSync_allotted
    (host : SubmissionHost) (prepared : Preparation) (waitQueue : Address) (s : State) :
    (startSync host prepared waitQueue s).2.allotted =
      (startDeferred host prepared (initializeDeferredSyncRoute host.contained waitQueue)
        (s.emptyFrame waitQueue)).2.allotted := by
  rcases startSync_cases host prepared waitQueue s with heq | ⟨token, -, heq⟩
  · rw [heq]
  · rw [heq]
    exact (sameStore_sleepThread _ _ _).allotted

theorem startSync_sound
    {s : State} (h : Sound s.inFlight s) (host : SubmissionHost) (prepared : Preparation)
    (waitQueue : Address) (running : (s.threads (currentThread s)).state = .running)
    (own : ∀ thread, (s.threads thread).state = .waiting →
      (s.threads thread).queue ≠ waitQueue)
    (hbound : (startSync host prepared waitQueue s).2.allotted < 2 ^ 64) :
    Sound (startSync host prepared waitQueue s).2.inFlight
      (startSync host prepared waitQueue s).2 := by
  rw [startSync_allotted] at hbound
  obtain ⟨t, ht, htsound, htthreads, htrunning, htframe⟩ : ∃ t,
      t = s.emptyFrame waitQueue ∧ Sound t.inFlight t ∧ t.threads = s.threads ∧
        t.runningContext = s.runningContext ∧
        (waitQueue ≠ 0#32 → (t.queues waitQueue).head = 0#32 ∧
          (t.queues waitQueue).tail = 0#32) := by
    refine ⟨_, rfl, ?_⟩
    unfold State.emptyFrame
    by_cases hqueue : waitQueue = 0#32
    · simp only [hqueue, if_true]
      exact ⟨h, trivial, trivial, fun hne => absurd rfl hne⟩
    · simp only [hqueue, if_false]
      exact ⟨h.setQueue own _, rfl, rfl, by simp [State.setQueue]⟩
  have hcases := startSync_cases host prepared waitQueue s
  rw [← ht] at hbound hcases
  have hcurrent : currentThread t = currentThread s := by
    unfold currentThread
    rw [htrunning]
  rcases startDeferred_cases host prepared
      (initializeDeferredSyncRoute host.contained waitQueue) t with
    ⟨hnone, hstate⟩ | ⟨work, route, t', hroute, hinstall, hstate⟩
  · -- Nothing is in flight, so the thread does not park.
    have hsame : (startSync host prepared waitQueue s).2 = (startDeferred host prepared
        (initializeDeferredSyncRoute host.contained waitQueue) t).2 := by
      rcases hcases with heq | ⟨token, hstarted, -⟩
      · exact heq
      · exact absurd hstarted (hnone token)
    rw [hsame]
    rcases hstate with hstate | hstate
    · rw [hstate]
      exact htsound
    · rw [hstate] at hbound ⊢
      exact initializeDeferredSyncRoute_sound htsound host.contained
        (by rw [htthreads]; exact own) hbound
  · have hbound' : (initializeDeferredSyncRoute host.contained waitQueue t).2.allotted <
        2 ^ 64 := by
      obtain ⟨⟨workers, polls, connects, rfl⟩, -⟩ := install_spec hinstall
      rw [hstate] at hbound
      exact hbound
    obtain ⟨hne, hlt, hnew, hadvanced⟩ :=
      initializeDeferredSyncRoute_some htsound.counter hbound' hroute
    have hinit := initializeDeferredSyncRoute_sound htsound host.contained
      (by rw [htthreads]; exact own) hbound'
    have hinstalled : Sound t'.inFlight t' := by
      refine install_sound hinit ?_ hinstall
      rw [hadvanced, hnew]
      refine htsound.accounted.cons (Nat.le_succ _) rfl fun _ => ?_
      have htoken : (t.nextSyncRoute waitQueue).token.toNat = t.allotted + 1 :=
        Nat.mod_eq_of_lt hlt
      have hallotted : (t.advance.setQueue waitQueue { t.queues waitQueue with
          cookie := BitVec.ofNat 64 (t.allotted + 1) }).allotted = t.allotted + 1 := rfl
      omega
    rcases hcases with heq | ⟨token, hstarted, heq⟩
    · rw [heq, hstate]
      exact hinstalled
    · rw [hstate] at hstarted heq
      obtain ⟨⟨workers, polls, connects, hinstalled'⟩, hperm⟩ := install_spec hinstall
      have htoken : token = route.token := (StartOutcome.started.inj hstarted).symm
      have hqueue : route.waitQueue = waitQueue := by rw [hnew]; rfl
      rw [heq, htoken, ← hqueue]
      refine hinstalled.of_guest (sameStore_sleepThread _ _ _)
        (hinstalled.seated.park (hperm.mem_iff.2 List.mem_cons_self) (by rw [hnew]; rfl)
          ?_ (by rw [hqueue]; exact hne) ?_ ?_ ?_)
      · rw [hnew, hinstalled', hadvanced]
        rfl
      · rw [hinstalled', hadvanced]
        change (t.threads (currentThread t)).state = _
        rw [hcurrent, htthreads]
        exact running
      · rw [hinstalled', hadvanced, hqueue]
        change ∀ thread, (t.threads thread).state = _ → (t.threads thread).queue ≠ _
        rw [htthreads]
        exact own
      · rw [hinstalled', hadvanced, hnew]
        change Function.update t.queues waitQueue _ waitQueue = _
        rw [Function.update_self, (htframe hne).1, (htframe hne).2]
        rfl

/-! ## Runs -/

theorem startDeferred_allotted_le
    (host : SubmissionHost) (prepared : Preparation)
    (initializeRoute : State → Option Route × State) (s : State)
    (hinit : s.allotted ≤ (initializeRoute s).2.allotted) :
    s.allotted ≤ (startDeferred host prepared initializeRoute s).2.allotted := by
  rcases startDeferred_cases host prepared initializeRoute s with
    ⟨-, hs' | hs'⟩ | ⟨work, route, s', -, hinstall, hs'⟩
  · exact Nat.le_of_eq (congrArg State.allotted hs').symm
  · rw [hs']
    exact hinit
  · obtain ⟨⟨workers, polls, connects, rfl⟩, -⟩ := install_spec hinstall
    rw [hs']
    exact hinit

theorem initializeDeferredSyncRoute_allotted_le
    (contained : Bool) (waitQueue : Address) (s : State) :
    s.allotted ≤ (initializeDeferredSyncRoute contained waitQueue s).2.allotted := by
  have hallot : s.allotted ≤ (allotToken s).2.allotted := by
    unfold allotToken
    dsimp only
    split
    · exact Nat.le_add_right _ _
    · exact Nat.le_add_right _ _
  unfold initializeDeferredSyncRoute
  split
  · exact Nat.le_refl _
  · dsimp only
    split
    · exact hallot
    · exact hallot

theorem cancelThread_allotted (thread : Address) (s : State) :
    (cancelThread thread s).allotted = s.allotted := by
  unfold cancelThread
  split
  · rfl
  · rfl
  · exact ((sameStore_removeThreadFromQueue thread s).trans
      (sameStore_setThread _ _ _)).allotted
  · rfl
  · rfl

theorem Step.allotted_le {s s' : State} (h : Step s s') : s.allotted ≤ s'.allotted := by
  cases h with
  | startSync host prepared waitQueue =>
      rw [startSync_allotted]
      have hframe : (s.emptyFrame waitQueue).allotted = s.allotted := by
        unfold State.emptyFrame
        split <;> rfl
      rw [← hframe]
      exact startDeferred_allotted_le _ _ _ _
        (initializeDeferredSyncRoute_allotted_le _ _ _)
  | startAsync host prepared callback callbackArg =>
      exact startDeferred_allotted_le _ _ _ _ (Nat.le_refl _)
  | finishWorker index resolved publishAccepted failureAccepted =>
      unfold DeferredNetwork.finishWorker
      split
      · exact Nat.le_refl _
      · dsimp only
        split <;> exact Nat.le_refl _
  | abort => exact Nat.le_refl _
  | takeCompleted => exact Nat.le_refl _
  | settleDns host =>
      unfold DeferredNetwork.settleDns
      split
      · exact Nat.le_refl _
      · dsimp only
        split
        · exact Nat.le_refl _
        · refine Nat.le_of_eq ?_
          rw [deliver_allotted]
  | settlePoll host index =>
      unfold DeferredNetwork.settlePoll
      split
      · exact Nat.le_refl _
      · dsimp only
        split
        · exact Nat.le_refl _
        · split
          · exact Nat.le_refl _
          · refine Nat.le_of_eq ?_
            rw [deliver_allotted]
  | settleConnect host index =>
      unfold DeferredNetwork.settleConnect
      split
      · exact Nat.le_refl _
      · dsimp only
        split
        · exact Nat.le_refl _
        · split
          · exact Nat.le_refl _
          · refine Nat.le_of_eq ?_
            rw [deliver_allotted]
  | takeSyncResult token =>
      unfold DeferredNetwork.takeSyncResult
      split
      · exact Nat.le_refl _
      · split <;> exact Nat.le_refl _
  | cancel thread => exact Nat.le_of_eq (cancelThread_allotted thread s).symm
  | exit running =>
      unfold DeferredNetwork.exitThread
      split <;> exact Nat.le_refl _
  | create thread detached => exact Nat.le_refl _
  | select thread isReady =>
      unfold DeferredNetwork.selectThread
      dsimp only
      split <;> exact Nat.le_refl _
  | unpark thread =>
      exact Nat.le_of_eq ((sameStore_removeThreadFromQueue thread s).trans
        (sameStore_setThread _ _ _)).allotted.symm

theorem Step.sound
    {s s' : State} (h : Step s s') (hs : Sound s.inFlight s)
    (hbound : s'.allotted < 2 ^ 64) : Sound s'.inFlight s' := by
  cases h with
  | startSync host prepared waitQueue running own =>
      exact startSync_sound hs host prepared waitQueue running own hbound
  | startAsync host prepared callback callbackArg =>
      exact startAsync_sound hs host prepared callback callbackArg
  | finishWorker index resolved publishAccepted failureAccepted =>
      exact finishWorker_sound hs index resolved publishAccepted failureAccepted
  | abort wiiFd result => exact abortPendingDeferredConnects_sound hs wiiFd result
  | takeCompleted => exact takeCompleted_sound hs
  | settleDns host => exact settleDns_sound hs host
  | settlePoll host index => exact settlePoll_sound hs host index
  | settleConnect host index => exact settleConnect_sound hs host index
  | takeSyncResult token => exact takeSyncResult_sound hs token
  | cancel thread => exact cancelThread_sound hs thread
  | exit running => exact exitThread_sound hs
  | create thread detached => exact createThread_sound hs thread detached
  | select thread isReady => exact selectThread_sound hs thread isReady
  | unpark thread waiting => exact unparkThread_sound hs thread waiting

theorem Initial.sound {s : State} (h : Initial s) : Sound s.inFlight s where
  counter := by rw [h.nextToken, h.allotted]
  accounted := by
    rw [h.store, h.lost, h.deliveries, h.submitted, h.allotted]
    exact .nil
  seated :=
    { alive := h.alive
      parked := fun thread token hparked => by simp [h.parked] at hparked
      seat := fun thread hwaiting => absurd hwaiting (h.awake thread) }
  settled :=
    { exact := by
        rw [h.deliveries]
        exact List.forall_mem_nil _
      published := fun token result hresult => by simp [h.results] at hresult
      untaken := fun token result hresult => by simp [h.results] at hresult
      takenFrom := by
        rw [h.taken]
        exact List.forall_mem_nil _
      takenOnce := by
        rw [h.taken]
        exact List.nodup_nil }

theorem Reachable.sound
    {s : State} (h : Reachable s) (hbound : s.allotted < 2 ^ 64) :
    Sound s.inFlight s := by
  induction h with
  | init initial => exact initial.sound
  | step _ hstep ih =>
      exact hstep.sound (ih (Nat.lt_of_le_of_lt hstep.allotted_le hbound)) hbound

/-- While the counter of tokens did not wrap: every result was delivered to a thread
parked with the token of its route, which it woke alone; no operation was delivered
twice; what is published or was taken was delivered, and no token was taken twice; and
the operation of every sleeping thread is in flight, or was lost by its worker. -/
theorem deferred_completions_reach_waiters
    {s : State} (h : Reachable s) (hbound : s.allotted < 2 ^ 64) :
    (∀ d ∈ s.deliveries, d.Exact) ∧
    ((s.deliveries.map fun d => d.route.operation).Nodup ∧
      ∀ d ∈ s.deliveries, d.route.operation < s.submitted) ∧
    (∀ token result, s.syncResults token = some result → s.Delivered token result) ∧
    ((∀ p ∈ s.taken, s.Delivered p.1 p.2) ∧ (s.taken.map Prod.fst).Nodup) ∧
    ∀ thread, (s.threads thread).state = .waiting →
      ∃ token, (s.threads thread).parked = some token ∧
        ∃ route ∈ s.inFlight ++ s.lost, route.kind = .syncWaitQueue ∧
          route.token = token ∧ route.expectedThread = thread := by
  have hsound := h.sound hbound
  refine ⟨hsound.settled.exact, ⟨?_, ?_⟩, hsound.settled.published,
    ⟨hsound.settled.takenFrom, hsound.settled.takenOnce⟩, ?_⟩
  · have hapart := hsound.accounted.apart
    rw [List.map_append, List.map_map] at hapart
    exact (List.nodup_append.1 hapart).2.1
  · intro d hd
    exact hsound.accounted.numbered d.route
      (List.mem_append_right _ (List.mem_map_of_mem hd))
  · intro thread hwaiting
    obtain ⟨token, hseat, route, hroute, hserves⟩ := hsound.seated.seat thread hwaiting
    exact ⟨token, hseat.parked, route, hroute, hserves.1, hserves.2.1, hserves.2.2.1⟩

/-! ## One resolver request -/

/-- The default thread runs and nothing was submitted. -/
def bootState : State where
  workers := []
  completed := []
  ready := []
  pendingPolls := []
  pendingConnects := []
  syncResults _ := none
  nextToken := 1#64
  callbacks := []
  runningContext := 0#32
  threads thread :=
    { state := if thread = defaultThreadContext then .running else .inactive
      queue := 0#32, next := 0#32, prev := 0#32
      detached := false, terminated := false, parked := none }
  queues _ := ⟨0#32, 0#32, 0#64⟩
  submitted := 0
  allotted := 0
  deliveries := []
  taken := []
  lost := []

theorem bootState_initial : Initial bootState where
  store := rfl
  nextToken := rfl
  results _ := rfl
  submitted := rfl
  allotted := rfl
  deliveries := rfl
  taken := rfl
  lost := rfl
  awake thread := by
    simp only [bootState]
    split <;> decide
  parked _ := rfl
  alive _ _ := rfl

def lookupHost : SubmissionHost where
  socketRuntime := true
  contained := true
  launched := true
  connectAttempt := .wouldBlock
  canSwitchAway := true

/-- The default thread asks for a host by name and sleeps. -/
def lookupStarted : State :=
  (startSync lookupHost
    (.ready (.dns ⟨.getHostByName, ⟨.syncWaitQueue, 0#64, 0#32, 0#32, 0#32, 0#32, 0⟩⟩) (-1))
    0x80400000#32 bootState).2

theorem lookupStarted_reachable : Reachable lookupStarted :=
  (Reachable.init bootState_initial).step
    (.startSync _ _ _ rfl fun thread hwaiting =>
      absurd hwaiting (bootState_initial.awake thread))

def lookupPumpHost : PumpHost where
  applyDns _ := some 0
  contains _ _ := true
  probePoll _ := none
  writePoll _ := some ()
  probeConnect _ := none
  socketIsStillValid _ := true

/-- The worker answers, the pump delivers, and the thread takes its result. -/
def lookupFinished : State :=
  (takeSyncResult 1#64 (processCompletions lookupPumpHost
    (finishWorker 0 (some 0) true true lookupStarted))).2

theorem lookupFinished_reachable : Reachable lookupFinished :=
  ((lookupStarted_reachable.step (.finishWorker 0 (some 0) true true)).processCompletions
    lookupPumpHost).step (.takeSyncResult 1#64)

theorem deferred_completions_reach_waiters_lookup :
    lookupFinished.taken = [(1#64, 0)] ∧ lookupFinished.Delivered 1#64 0 := by
  have htaken : lookupFinished.taken = [(1#64, 0)] := by decide +kernel
  have hall := deferred_completions_reach_waiters lookupFinished_reachable
    (by decide +kernel)
  refine ⟨htaken, hall.2.2.2.1.1 (1#64, 0) ?_⟩
  rw [htaken]
  exact List.mem_singleton_self _

/-- A worker whose completion and failure are both refused leaves its thread asleep with
nothing in flight for it. -/
theorem refused_completion_strands_waiter :
    ∃ s, Reachable s ∧ s.allotted = 1 ∧
      (s.threads defaultThreadContext).state = .waiting ∧
      (s.threads defaultThreadContext).parked = some 1#64 ∧
      s.inFlight = [] ∧ s.deliveries = [] :=
  ⟨_, lookupStarted_reachable.step (.finishWorker 0 (some 0) false false),
    by decide +kernel, by decide +kernel, by decide +kernel, by decide +kernel,
    by decide +kernel⟩

end Wiicompiled.Runtime.DeferredNetwork
