import Wiicompiled.Runtime.SleepParking

/-!
# The accounts of the sleepers

A count is the suspensions by others and one for a thread that sleeps, as long as the rest of
`OSSleepTicks` finds its own timer pending whenever it finds a count.  Then the tables of the
timers and of the parks both list exactly the sleepers.
-/

namespace Wiicompiled.Runtime.SleepParking

/-! ## Other threads -/

section Threads

variable {s s' s'' : Os} {t k : Address} {f : OSThread → OSThread}

theorem suspend_add_one {count : BitVec 32} (h : count.toInt ≠ 2 ^ 31 - 1) :
    (count + 1).toInt = count.toInt + 1 := by
  rw [BitVec.toInt_eq_toNat_cond] at h ⊢
  rw [BitVec.toInt_eq_toNat_cond, BitVec.toNat_add, show (1 : BitVec 32).toNat = 1 from rfl]
  have hlt := count.isLt
  split_ifs at h ⊢ <;> omega

theorem suspend_sub_one {count : BitVec 32} (h : 0 ≤ count.toInt) :
    (count - 1).toInt = count.toInt - 1 := by
  rw [BitVec.toInt_eq_toNat_cond] at h ⊢
  rw [BitVec.toInt_eq_toNat_cond, BitVec.toNat_sub, show (1 : BitVec 32).toNat = 1 from rfl]
  have hlt := count.isLt
  split_ifs at h ⊢ <;> omega

theorem eq_zero_of_toInt {count : BitVec 32} (h : count.toInt = 0) : count = 0 :=
  BitVec.toInt_inj.mp h

/-- What the accounts read of a thread is as before. -/
structure Untouched (s s' : Os) (k : Address) : Prop where
  threads : s'.threads k = s.threads k
  pending : SleepTimerIsPending s' k = SleepTimerIsPending s k
  outstanding : k ∈ s'.gOutstandingParks ↔ k ∈ s.gOutstandingParks
  sleeping : s'.sleeping k = s.sleeping k

theorem Untouched.trans (h : Untouched s s' k) (h' : Untouched s' s'' k) : Untouched s s'' k where
  threads := h'.threads.trans h.threads
  pending := h'.pending.trans h.pending
  outstanding := h'.outstanding.trans h.outstanding
  sleeping := h'.sleeping.trans h.sleeping

theorem threads_modifyThread_self : (s.modifyThread t f).threads t = f (s.threads t) :=
  Function.update_self _ _ _

theorem untouched_modifyThread (hk : k ≠ t) : Untouched s (s.modifyThread t f) k :=
  ⟨Function.update_of_ne hk _ _, rfl, Iff.rfl, rfl⟩

theorem pending_iff : SleepTimerIsPending s k = true ↔
    k ∈ s.gSleepTimers.map SleepTimerEntry.threadPtr := by
  rw [SleepTimerIsPending, List.any_eq_true, List.mem_map]
  exact exists_congr fun entry => and_congr_right fun _ => decide_eq_true_iff

theorem pending_congr (h : k ∈ s'.gSleepTimers.map SleepTimerEntry.threadPtr ↔
      k ∈ s.gSleepTimers.map SleepTimerEntry.threadPtr) :
    SleepTimerIsPending s' k = SleepTimerIsPending s k :=
  Bool.eq_iff_iff.mpr (pending_iff.trans (h.trans pending_iff.symm))

theorem mem_cancelled : k ∈ (CancelSleepTimer s t).gSleepTimers.map SleepTimerEntry.threadPtr ↔
    k ∈ s.gSleepTimers.map SleepTimerEntry.threadPtr ∧ k ≠ t := by
  simp only [CancelSleepTimer, List.mem_map, List.mem_filter, decide_eq_true_iff]
  constructor
  · rintro ⟨entry, ⟨hentry, hne⟩, rfl⟩
    exact ⟨⟨entry, hentry, rfl⟩, hne⟩
  · rintro ⟨⟨entry, hentry, rfl⟩, hne⟩
    exact ⟨entry, ⟨hentry, hne⟩, rfl⟩

theorem untouched_CancelSleepTimer (hk : k ≠ t) : Untouched s (CancelSleepTimer s t) k :=
  ⟨rfl, pending_congr (mem_cancelled.trans (and_iff_left hk)), Iff.rfl, rfl⟩

theorem pending_CancelSleepTimer : SleepTimerIsPending (CancelSleepTimer s t) t = false :=
  Bool.eq_false_iff.mpr fun h => (mem_cancelled.mp (pending_iff.mp h)).2 rfl

theorem mem_cleared : k ∈ (ClearOutstandingPark s t).gOutstandingParks ↔
    k ∈ s.gOutstandingParks ∧ k ≠ t := by
  simp only [ClearOutstandingPark, List.mem_filter, decide_eq_true_iff]

theorem cleared_threads (s : Os) (t : Address) :
    (ClearOutstandingPark (CancelSleepTimer s t) t).threads = s.threads :=
  rfl

theorem untouched_ClearOutstandingPark (hk : k ≠ t) : Untouched s (ClearOutstandingPark s t) k :=
  ⟨rfl, rfl, mem_cleared.trans (and_iff_left hk), rfl⟩

/-! ## Suspending and resuming -/

theorem stopped_suspend (thread : OSThread) : thread.stopped.suspend = thread.suspend := by
  rw [OSThread.stopped]
  split <;> rfl

theorem started_suspend (thread : OSThread) : thread.started.suspend = thread.suspend := by
  rw [OSThread.started]
  split <;> rfl

def ThreadState.resting (state : ThreadState) : Prop :=
  state = .ready ∨ state = .running

theorem ThreadState.resting.live {state : ThreadState} (h : state.resting) : state.live = true := by
  rcases h with rfl | rfl <;> rfl

theorem stopped_live (thread : OSThread) : thread.stopped.state.live = thread.state.live := by
  rcases thread with ⟨state, suspend, queue⟩
  cases state <;> rfl

theorem started_live (thread : OSThread) : thread.started.state.live = thread.state.live := by
  rcases thread with ⟨state, suspend, queue⟩
  cases state <;> rfl

theorem stopped_resting {thread : OSThread} (h : thread.state.resting) :
    thread.stopped.state.resting := by
  rcases thread with ⟨state, suspend, queue⟩
  rcases h with rfl | rfl <;> exact Or.inl rfl

theorem started_resting {thread : OSThread} (h : thread.state.resting) :
    thread.started.state.resting := by
  rcases thread with ⟨state, suspend, queue⟩
  rcases h with rfl | rfl <;> exact Or.inl rfl

theorem untouched_OSSuspendThread (hk : k ≠ t) : Untouched s (OSSuspendThread s t) k := by
  simp only [OSSuspendThread]
  split_ifs
  · exact ⟨rfl, rfl, Iff.rfl, rfl⟩
  · exact (untouched_modifyThread hk).trans (untouched_modifyThread hk)
  · exact untouched_modifyThread hk

theorem OSSuspendThread_spec (s : Os) {t : Address} (ht : t ≠ 0) :
    ((OSSuspendThread s t).threads t).suspend = (s.threads t).suspend + 1 ∧
      ((OSSuspendThread s t).threads t).state.live = (s.threads t).state.live ∧
      ((s.threads t).state.resting → ((OSSuspendThread s t).threads t).state.resting) ∧
      (OSSuspendThread s t).gSleepTimers = s.gSleepTimers ∧
      (OSSuspendThread s t).gOutstandingParks = s.gOutstandingParks ∧
      (OSSuspendThread s t).toHeal = s.toHeal ∧ (OSSuspendThread s t).sleeping = s.sleeping := by
  simp only [OSSuspendThread, if_neg ht]
  split_ifs
  · simp only [threads_modifyThread_self, stopped_suspend, stopped_live]
    exact ⟨trivial, trivial, fun h => stopped_resting h, rfl, rfl, rfl, rfl⟩
  · simp only [threads_modifyThread_self]
    exact ⟨trivial, trivial, fun h => h, rfl, rfl, rfl, rfl⟩

theorem untouched_OSResumeThread (hk : k ≠ t) : Untouched s (OSResumeThread s t) k := by
  simp only [OSResumeThread]
  split_ifs
  · exact ⟨rfl, rfl, Iff.rfl, rfl⟩
  · exact untouched_modifyThread hk
  · exact (untouched_modifyThread hk).trans ((untouched_CancelSleepTimer hk).trans
      ((untouched_ClearOutstandingPark hk).trans (untouched_modifyThread hk)))
  · exact untouched_modifyThread hk

/-- A resumption counts back.  It empties the tables of the thread with the last suspension. -/
theorem OSResumeThread_spec (s : Os) {t : Address} (ht : t ≠ 0)
    (hcount : 1 ≤ (s.threads t).suspend.toInt) :
    ((OSResumeThread s t).threads t).suspend.toInt = (s.threads t).suspend.toInt - 1 ∧
      ((s.threads t).state.resting → ((OSResumeThread s t).threads t).state.resting) ∧
      (if (s.threads t).suspend.toInt = 1 then
        SleepTimerIsPending (OSResumeThread s t) t = false ∧
          t ∉ (OSResumeThread s t).gOutstandingParks
      else SleepTimerIsPending (OSResumeThread s t) t = SleepTimerIsPending s t ∧
        (OSResumeThread s t).gOutstandingParks = s.gOutstandingParks) := by
  have hsub : ((s.threads t).suspend - 1).toInt = (s.threads t).suspend.toInt - 1 :=
    suspend_sub_one (by omega)
  have hzero : (s.threads t).suspend - 1 = 0 ↔ (s.threads t).suspend.toInt = 1 := by
    rw [← BitVec.toInt_inj, hsub]
    exact ⟨fun h => by rw [show (0 : BitVec 32).toInt = 0 from rfl] at h; omega,
      fun h => by rw [show (0 : BitVec 32).toInt = 0 from rfl]; omega⟩
  simp only [OSResumeThread, if_neg ht, if_neg (show ¬((s.threads t).suspend - 1).toInt < 0 by omega),
    hzero]
  by_cases hone : (s.threads t).suspend.toInt = 1
  · simp only [if_pos hone, threads_modifyThread_self, started_suspend, cleared_threads]
    exact ⟨hsub, fun h => started_resting h, pending_CancelSleepTimer,
      fun h => (mem_cleared.mp h).2 rfl⟩
  · simp only [if_neg hone, threads_modifyThread_self]
    exact ⟨hsub, fun h => h, rfl, rfl⟩

theorem OSResumeThread_live (s : Os) (t : Address) :
    ((OSResumeThread s t).threads t).state.live = (s.threads t).state.live := by
  simp only [OSResumeThread]
  split_ifs
  · rfl
  · rw [threads_modifyThread_self]
  · rw [threads_modifyThread_self, started_live, cleared_threads, threads_modifyThread_self]
  · rw [threads_modifyThread_self]

theorem OSResumeThread_tables (s : Os) (t : Address) :
    (OSResumeThread s t).gSleepTimers.Sublist s.gSleepTimers ∧
      (OSResumeThread s t).toHeal = s.toHeal ∧ (OSResumeThread s t).sleeping = s.sleeping := by
  simp only [OSResumeThread]
  split_ifs
  · exact ⟨List.Sublist.refl _, rfl, rfl⟩
  · exact ⟨List.Sublist.refl _, rfl, rfl⟩
  · exact ⟨List.filter_sublist, rfl, rfl⟩
  · exact ⟨List.Sublist.refl _, rfl, rfl⟩

end Threads

/-! ## Exact accounts -/

/-- The account of a thread.  It sleeps exactly while both tables list it. -/
structure Exact (s : Os) (l : Ledger) (t : Address) : Prop where
  count : (s.threads t).suspend.toInt = l.suspensions t + if l.parked t then 1 else 0
  pending : SleepTimerIsPending s t = l.parked t
  outstanding : t ∈ s.gOutstandingParks ↔ l.parked t = true
  resting : l.parked t = true → (s.threads t).state.resting
  sleeping : l.parked t = true → s.sleeping t = true

/-- The accounts of the live threads are exact, and the reconciler has nothing to heal. -/
structure Sound (s : Os) (l : Ledger) : Prop where
  exact : ∀ t, t ≠ 0 → (s.threads t).state.live → Exact s l t
  timers : (s.gSleepTimers.map SleepTimerEntry.threadPtr).Nodup
  parks : 0 ∉ s.gOutstandingParks
  healed : s.toHeal = []

section Steps

variable {s s' : Os} {l l' : Ledger} {t k : Address} {f : OSThread → OSThread}

theorem Exact.congr (h : Exact s l k) (hs : Untouched s s' k) (hparked : l'.parked k = l.parked k)
    (hsuspensions : l'.suspensions k = l.suspensions k) : Exact s' l' k where
  count := by rw [hs.threads, hparked, hsuspensions, h.count]
  pending := by rw [hs.pending, hparked, h.pending]
  outstanding := by rw [hs.outstanding, hparked, h.outstanding]
  resting := by
    rw [hs.threads, hparked]
    exact h.resting
  sleeping := by
    rw [hs.sleeping, hparked]
    exact h.sleeping

theorem Sound.touch (h : Sound s l) (hothers : ∀ k, k ≠ t → Untouched s s' k ∧
      l'.parked k = l.parked k ∧ l'.suspensions k = l.suspensions k)
    (ht : t ≠ 0 → (s'.threads t).state.live → Exact s' l' t)
    (htimers : (s'.gSleepTimers.map SleepTimerEntry.threadPtr).Nodup)
    (hparks : 0 ∉ s'.gOutstandingParks) (hhealed : s'.toHeal = []) : Sound s' l' where
  exact k hk hlive := by
    by_cases heq : k = t
    · subst heq
      exact ht hk hlive
    · obtain ⟨hs, hparked, hsuspensions⟩ := hothers k heq
      rw [hs.threads] at hlive
      exact (h.exact k hk hlive).congr hs hparked hsuspensions
  timers := htimers
  parks := hparks
  healed := hhealed

theorem Sound.congr (h : Sound s l) (hs : ∀ k, Untouched s s' k)
    (htimers : s'.gSleepTimers = s.gSleepTimers) (hheal : s'.toHeal = s.toHeal) : Sound s' l where
  exact k hk hlive := by
    rw [(hs k).threads] at hlive
    exact (h.exact k hk hlive).congr (hs k) rfl rfl
  timers := htimers ▸ h.timers
  parks := fun hmem => h.parks ((hs 0).outstanding.mp hmem)
  healed := hheal.trans h.healed

theorem unpark_of_ne (hk : k ≠ t) : (l.unpark t).parked k = l.parked k :=
  Function.update_of_ne hk _ _

theorem unpark_self : (l.unpark t).parked t = false :=
  Function.update_self _ _ _

theorem park_of_ne (hk : k ≠ t) : (l.park t).parked k = l.parked k :=
  Function.update_of_ne hk _ _

theorem park_self : (l.park t).parked t = true :=
  Function.update_self _ _ _

theorem setSuspensions_of_ne {count : ℕ} (hk : k ≠ t) :
    (l.setSuspensions t count).suspensions k = l.suspensions k :=
  Function.update_of_ne hk _ _

theorem setSuspensions_self {count : ℕ} : (l.setSuspensions t count).suspensions t = count :=
  Function.update_self _ _ _

theorem Sound.modifyThread (h : Sound s l)
    (hsuspend : (f (s.threads t)).suspend = (s.threads t).suspend)
    (hlive : (f (s.threads t)).state.live → (s.threads t).state.live)
    (hresting : t ≠ 0 → l.parked t = true → (f (s.threads t)).state.live →
      (f (s.threads t)).state.resting) :
    Sound (s.modifyThread t f) l := by
  refine h.touch (fun k hk => ⟨untouched_modifyThread hk, rfl, rfl⟩) (fun ht hl => ?_) h.timers
    h.parks h.healed
  rw [threads_modifyThread_self] at hl
  have hexact := h.exact t ht (hlive hl)
  refine ⟨?_, hexact.pending, hexact.outstanding, fun hparked => ?_, hexact.sleeping⟩
  · rw [threads_modifyThread_self, hsuspend]
    exact hexact.count
  · rw [threads_modifyThread_self]
    exact hresting ht hparked hl

theorem map_ScheduleSleepTimer (s : Os) (t : Address) (duration : ℕ) :
    (ScheduleSleepTimer s t duration).gSleepTimers.map SleepTimerEntry.threadPtr =
      (CancelSleepTimer s t).gSleepTimers.map SleepTimerEntry.threadPtr ++ [t] :=
  List.map_append

theorem CancelSleepTimer_nodup (h : (s.gSleepTimers.map SleepTimerEntry.threadPtr).Nodup)
    (t : Address) : ((CancelSleepTimer s t).gSleepTimers.map SleepTimerEntry.threadPtr).Nodup :=
  h.sublist (List.filter_sublist.map _)

theorem Sound.sleepTicks (h : Sound s l) (ht : t ≠ 0) (hexecuting : s.executing t = true)
    (hcount : (s.threads t).suspend.toInt ≠ 2 ^ 31 - 1) (duration : ℕ) :
    Sound (OSSleepTicks s t duration) (l.park t) := by
  obtain ⟨hresting, hawake⟩ : (s.threads t).state.resting ∧ s.sleeping t = false := by
    rw [Os.executing, Bool.and_eq_true, Bool.or_eq_true, decide_eq_true_iff, decide_eq_true_iff,
      Bool.not_eq_true'] at hexecuting
    exact ⟨hexecuting.1.symm, hexecuting.2⟩
  have hexact := h.exact t ht hresting.live
  have hparked : l.parked t = false := by
    refine Bool.eq_false_iff.mpr fun hparked => ?_
    rw [hexact.sleeping hparked] at hawake
    exact Bool.noConfusion hawake
  obtain ⟨armed, harmed⟩ : ∃ armed, armed = MarkParkOutstanding (ScheduleSleepTimer s t duration) t :=
    ⟨_, rfl⟩
  have hthreads : armed.threads = s.threads := harmed ▸ rfl
  obtain ⟨hsuspend, -, hstate, htimers, hparks, hheal, hsleeping⟩ := OSSuspendThread_spec armed ht
  have hmap : (OSSuspendThread armed t).gSleepTimers.map SleepTimerEntry.threadPtr =
      (CancelSleepTimer s t).gSleepTimers.map SleepTimerEntry.threadPtr ++ [t] := by
    rw [htimers, harmed]
    exact map_ScheduleSleepTimer s t duration
  have hmem : ∀ k, k ∈ (OSSuspendThread armed t).gOutstandingParks ↔
      k = t ∨ k ∈ s.gOutstandingParks := fun k => by
    rw [hparks, harmed]
    exact List.mem_insert_iff
  have hsleep : OSSleepTicks s t duration =
      { OSSuspendThread armed t with sleeping := Function.update s.sleeping t true } := by
    rw [← show armed.sleeping = s.sleeping from harmed ▸ rfl, ← hsleeping, harmed]
    rfl
  rw [hsleep]
  refine h.touch (fun k hk => ⟨⟨?_, ?_, ?_, ?_⟩, park_of_ne hk, rfl⟩) (fun _ _ => ?_) ?_ ?_ ?_
  · exact ((untouched_OSSuspendThread hk).threads).trans (congrFun hthreads k)
  · refine pending_congr ?_
    rw [hmap, List.mem_append, List.mem_singleton, or_iff_left hk]
    exact mem_cancelled.trans (and_iff_left hk)
  · exact (hmem k).trans (or_iff_right hk)
  · exact Function.update_of_ne hk _ _
  · refine ⟨?_, ?_, ?_, fun _ => ?_, fun _ => Function.update_self _ _ _⟩
    · have hold := hexact.count
      rw [hparked] at hold
      rw [park_self, if_pos rfl]
      refine (congrArg BitVec.toInt hsuspend).trans ?_
      rw [hthreads, suspend_add_one hcount, hold]
      exact congrArg (· + 1) (add_zero _)
    · rw [park_self]
      refine pending_iff.mpr ?_
      rw [hmap]
      exact List.mem_append_right _ (List.mem_singleton_self t)
    · exact iff_of_true ((hmem t).mpr (Or.inl rfl)) park_self
    · exact hstate (hthreads ▸ hresting)
  · rw [hmap]
    refine List.Nodup.append (CancelSleepTimer_nodup h.timers t) (List.nodup_singleton t) ?_
    intro k hk hkt
    exact (mem_cancelled.mp hk).2 (List.mem_singleton.mp hkt)
  · intro hzero
    exact ((hmem 0).mp hzero).elim ht.symm h.parks
  · exact hheal.trans ((congrArg Os.toHeal harmed).trans h.healed)

theorem Sound.sleepTicksReturn (h : Sound s l)
    (hpending : 0 < (s.threads t).suspend.toInt → SleepTimerIsPending s t = true) :
    Sound (OSSleepTicksReturn s t)
      (if 0 < (s.threads t).suspend.toInt then l.unpark t else l) := by
  obtain ⟨awake, hawake⟩ :
      ∃ awake, awake = { s with sleeping := Function.update s.sleeping t false } := ⟨_, rfl⟩
  have hothers : ∀ k, k ≠ t → Untouched s awake k := fun k hk => by
    subst hawake
    exact ⟨rfl, rfl, Iff.rfl, Function.update_of_ne hk _ _⟩
  have hthreads : awake.threads = s.threads := by subst hawake; rfl
  have htimers : awake.gSleepTimers = s.gSleepTimers := by subst hawake; rfl
  have hparks : awake.gOutstandingParks = s.gOutstandingParks := by subst hawake; rfl
  have hheal : awake.toHeal = [] := by subst hawake; exact h.healed
  simp only [OSSleepTicksReturn, ← hawake]
  by_cases hcount : 0 < (s.threads t).suspend.toInt
  · rw [if_pos hcount, if_pos hcount]
    -- the suspension is taken back together with the timer and the park
    have hbase : Sound ((ClearOutstandingPark (CancelSleepTimer awake t) t).modifyThread t
        fun thread => { thread with suspend := (s.threads t).suspend - 1 }) (l.unpark t) := by
      refine h.touch (fun k hk => ⟨?_, unpark_of_ne hk, rfl⟩) (fun ht hlive => ?_) ?_ ?_ hheal
      · exact (hothers k hk).trans ((untouched_CancelSleepTimer hk).trans
          ((untouched_ClearOutstandingPark hk).trans (untouched_modifyThread hk)))
      · rw [threads_modifyThread_self, cleared_threads, hthreads] at hlive
        have hexact := h.exact t ht hlive
        have hparked : l.parked t = true := hexact.pending ▸ hpending hcount
        have hold := hexact.count
        rw [if_pos hparked] at hold
        refine ⟨?_, ?_, ?_, ?_, ?_⟩
        · rw [threads_modifyThread_self, unpark_self]
          refine (suspend_sub_one (by omega)).trans ?_
          rw [hold]
          exact (add_sub_cancel_right _ _).trans (add_zero _).symm
        · exact pending_CancelSleepTimer.trans unpark_self.symm
        · rw [unpark_self]
          exact iff_of_false (fun hmem => (mem_cleared.mp hmem).2 rfl) Bool.false_ne_true
        · exact fun hfalse => absurd (unpark_self.symm.trans hfalse) Bool.false_ne_true
        · exact fun hfalse => absurd (unpark_self.symm.trans hfalse) Bool.false_ne_true
      · exact CancelSleepTimer_nodup (htimers ▸ h.timers) t
      · exact fun hzero => h.parks (hparks ▸ (mem_cleared.mp hzero).1)
    split_ifs with hready
    · refine hbase.modifyThread rfl (fun _ => ?_) fun _ _ _ => Or.inr rfl
      rw [hready.2.1]
      rfl
    · exact hbase
  · rw [if_neg hcount, if_neg hcount]
    refine h.touch (fun k hk => ⟨hothers k hk, rfl, rfl⟩) (fun ht hlive => ?_)
      (htimers ▸ h.timers) (hparks ▸ h.parks) hheal
    rw [hthreads] at hlive
    have hexact := h.exact t ht hlive
    have hold := hexact.count
    -- a count of zero has no room for a park
    have hparked : ¬l.parked t = true := fun hparked => by
      rw [if_pos hparked] at hold
      omega
    refine ⟨hthreads ▸ hexact.count, ?_, hparks ▸ hexact.outstanding,
      fun hp => absurd hp hparked, fun hp => absurd hp hparked⟩
    exact (pending_congr (htimers ▸ Iff.rfl)).trans hexact.pending

theorem Sound.suspendThread (h : Sound s l)
    (hcount : (s.threads t).suspend.toInt ≠ 2 ^ 31 - 1) :
    Sound (OSSuspendThread s t) (l.setSuspensions t (l.suspensions t + 1)) := by
  by_cases ht : t = 0
  · rw [OSSuspendThread, if_pos ht]
    exact h.touch (fun k hk => ⟨⟨rfl, rfl, Iff.rfl, rfl⟩, rfl, setSuspensions_of_ne hk⟩)
      (fun hne => absurd ht hne) h.timers h.parks h.healed
  · obtain ⟨hsuspend, hlive, hstate, htimers, hparks, hheal, hsleeping⟩ := OSSuspendThread_spec s ht
    refine h.touch (fun k hk => ⟨untouched_OSSuspendThread hk, rfl, setSuspensions_of_ne hk⟩)
      (fun _ hl => ?_) (htimers ▸ h.timers) (hparks ▸ h.parks) (hheal.trans h.healed)
    have hexact := h.exact t ht (hlive ▸ hl)
    refine ⟨?_, (pending_congr (htimers ▸ Iff.rfl)).trans hexact.pending,
      hparks ▸ hexact.outstanding, fun hp => hstate (hexact.resting hp),
      fun hp => (congrFun hsleeping t).trans (hexact.sleeping hp)⟩
    have hold := hexact.count
    rw [hsuspend, suspend_add_one hcount, hold, setSuspensions_self]
    push_cast
    exact add_right_comm _ _ _

theorem exact_OSResumeThread (ht : t ≠ 0) (hcount : 1 ≤ (s.threads t).suspend.toInt)
    (hledger : (l.suspensions t : ℤ) + (if l.parked t then 1 else 0) =
      (s.threads t).suspend.toInt - 1)
    (htables : (s.threads t).suspend.toInt ≠ 1 → SleepTimerIsPending s t = l.parked t ∧
      (t ∈ s.gOutstandingParks ↔ l.parked t = true))
    (hresting : l.parked t = true → (s.threads t).state.resting)
    (hsleeping : l.parked t = true → s.sleeping t = true) :
    Exact (OSResumeThread s t) l t := by
  obtain ⟨hsuspend, hstate, hafter⟩ := OSResumeThread_spec s ht hcount
  obtain ⟨-, -, hsleep⟩ := OSResumeThread_tables s t
  by_cases hone : (s.threads t).suspend.toInt = 1
  · rw [if_pos hone] at hafter
    have hparked : ¬l.parked t = true := fun hparked => by
      rw [if_pos hparked] at hledger
      omega
    exact ⟨hsuspend.trans hledger.symm, hafter.1.trans (Bool.eq_false_iff.mpr hparked).symm,
      iff_of_false hafter.2 hparked, fun hp => absurd hp hparked, fun hp => absurd hp hparked⟩
  · rw [if_neg hone] at hafter
    obtain ⟨hpending, houtstanding⟩ := htables hone
    exact ⟨hsuspend.trans hledger.symm, hafter.1.trans hpending, hafter.2 ▸ houtstanding,
      fun hp => hstate (hresting hp), fun hp => (congrFun hsleep t).trans (hsleeping hp)⟩

/-- A resumption keeps the accounts if it keeps the account of its thread. -/
theorem Sound.touch_OSResumeThread (h : Sound s l)
    (hl' : ∀ k, k ≠ t → l'.parked k = l.parked k ∧ l'.suspensions k = l.suspensions k)
    (ht : t ≠ 0 → (s.threads t).state.live → Exact (OSResumeThread s t) l' t) :
    Sound (OSResumeThread s t) l' := by
  obtain ⟨hsublist, hheal, -⟩ := OSResumeThread_tables s t
  refine h.touch (fun k hk => ⟨untouched_OSResumeThread hk, hl' k hk⟩)
    (fun hne hlive => ht hne (OSResumeThread_live s t ▸ hlive)) (h.timers.sublist (hsublist.map _))
    (fun hzero => ?_) (hheal.trans h.healed)
  by_cases h0 : t = 0
  · rw [OSResumeThread, if_pos h0] at hzero
    exact h.parks hzero
  · exact h.parks ((untouched_OSResumeThread (Ne.symm h0)).outstanding.mp hzero)

theorem Sound.resumeThread (h : Sound s l) :
    Sound (OSResumeThread s t) (l.next s (.resumeThread t)) := by
  simp only [Ledger.next]
  split_ifs with hcount hothers
  · -- there is nothing to take back, and the count is zero as it was
    refine h.touch_OSResumeThread (fun k _ => ⟨rfl, rfl⟩) fun ht hlive => ?_
    have hexact := h.exact t ht hlive
    have hold := hexact.count
    have hzero : (s.threads t).suspend.toInt = 0 := by
      split_ifs at hold <;> omega
    have hsub := suspend_sub_one hzero.ge
    have heq : OSResumeThread s t = s.modifyThread t fun thread => { thread with suspend := 0 } := by
      simp only [OSResumeThread, if_neg ht]
      exact if_pos (by omega)
    have hsame : (s.threads t).suspend = 0 := eq_zero_of_toInt hzero
    rw [heq]
    refine ⟨?_, hexact.pending, hexact.outstanding, fun hp => ?_, hexact.sleeping⟩
    · rw [threads_modifyThread_self, ← hsame]
      exact hold
    · rw [threads_modifyThread_self]
      exact hexact.resting hp
  · refine h.touch_OSResumeThread (fun k hk => ⟨rfl, setSuspensions_of_ne hk⟩) fun ht hlive => ?_
    have hexact := h.exact t ht hlive
    refine exact_OSResumeThread ht (by omega) ?_ (fun _ => ⟨hexact.pending, hexact.outstanding⟩)
      hexact.resting hexact.sleeping
    rw [setSuspensions_self, hexact.count]
    push_cast [show 1 ≤ l.suspensions t from hothers]
    exact (sub_add_eq_add_sub _ _ _)
  · -- the resumption ends the sleep
    refine h.touch_OSResumeThread (fun k hk => ⟨unpark_of_ne hk, rfl⟩) fun ht hlive => ?_
    have hexact := h.exact t ht hlive
    have hold := hexact.count
    have hone : (s.threads t).suspend.toInt = 1 := by
      split_ifs at hold <;> omega
    refine exact_OSResumeThread ht (by omega) ?_ (fun hne => absurd hone hne)
      (fun hp => absurd (unpark_self.symm.trans hp) Bool.false_ne_true)
      fun hp => absurd (unpark_self.symm.trans hp) Bool.false_ne_true
    rw [unpark_self, hone]
    have hnone : l.suspensions t = 0 := by omega
    exact congrArg (fun count : ℕ => (count : ℤ) + 0) hnone

/-! ## The timers and the reconciler -/

theorem popDue_spec {now : ℕ} {timers rest : List SleepTimerEntry} {timer : SleepTimerEntry}
    (h : popDue now timers = some (timer, rest)) :
    ∃ before after, timers = before ++ timer :: after ∧ rest = before ++ after := by
  induction timers generalizing rest with
  | nil => exact nomatch h
  | cons entry timers ih =>
      rw [popDue] at h
      split_ifs at h with hdue
      · obtain ⟨rfl, rfl⟩ := Prod.mk.inj (Option.some.inj h)
        exact ⟨[], timers, rfl, rfl⟩
      · obtain ⟨⟨timer', rest'⟩, hpop, heq⟩ := Option.map_eq_some_iff.mp h
        obtain ⟨rfl, rfl⟩ := Prod.mk.inj heq
        obtain ⟨before, after, rfl, rfl⟩ := ih hpop
        exact ⟨entry :: before, after, rfl, rfl⟩

/-- The only timer of a thread has been taken off. -/
structure Popped (s popped : Os) (t : Address) : Prop where
  others : ∀ k, k ≠ t → Untouched s popped k
  threads : popped.threads t = s.threads t
  pending : SleepTimerIsPending s t = true
  gone : t ∉ popped.gSleepTimers.map SleepTimerEntry.threadPtr
  nodup : (popped.gSleepTimers.map SleepTimerEntry.threadPtr).Nodup
  rest : popped.gOutstandingParks = s.gOutstandingParks ∧ popped.toHeal = s.toHeal ∧
    popped.sleeping = s.sleeping

theorem Sound.popped (h : Sound s l) {now : ℕ} {timer : SleepTimerEntry}
    {rest : List SleepTimerEntry} (hpop : popDue now s.gSleepTimers = some (timer, rest)) :
    Popped s { s with gSleepTimers := rest } timer.threadPtr := by
  obtain ⟨before, after, hbefore, hrest⟩ := popDue_spec hpop
  have hmap : s.gSleepTimers.map SleepTimerEntry.threadPtr =
      before.map SleepTimerEntry.threadPtr ++
        timer.threadPtr :: after.map SleepTimerEntry.threadPtr := by
    rw [hbefore, List.map_append, List.map_cons]
  have hleft : rest.map SleepTimerEntry.threadPtr =
      before.map SleepTimerEntry.threadPtr ++ after.map SleepTimerEntry.threadPtr := by
    rw [hrest, List.map_append]
  obtain ⟨hgone, hnodup⟩ := List.nodup_cons.mp (List.nodup_middle.mp (hmap ▸ h.timers))
  rw [← hleft] at hgone hnodup
  refine ⟨fun k hk => ⟨rfl, pending_congr ?_, Iff.rfl, rfl⟩, rfl, ?_, hgone, hnodup, rfl, rfl, rfl⟩
  · rw [hmap, hleft, List.mem_append, List.mem_append, List.mem_cons, or_iff_right hk]
  · rw [pending_iff, hmap]
    exact List.mem_append_right _ List.mem_cons_self

theorem untouched_fireSleepTimer (now : ℕ) (hk : k ≠ t) :
    Untouched s (fireSleepTimer s t now) k := by
  rw [fireSleepTimer]
  split_ifs
  · exact ⟨rfl, rfl, Iff.rfl, rfl⟩
  · exact ⟨rfl, rfl, Iff.rfl, rfl⟩
  · refine ⟨rfl, pending_congr ?_, Iff.rfl, rfl⟩
    rw [List.map_append, List.mem_append, List.map_singleton, List.mem_singleton, or_iff_left hk]
  · exact (untouched_ClearOutstandingPark hk).trans (untouched_OSResumeThread hk)
  · exact untouched_ClearOutstandingPark hk

theorem Sound.fire (h : Sound s l) {popped : Os} (hpopped : Popped s popped t) (now : ℕ) :
    Sound (fireSleepTimer popped t now) (l.fired popped t) := by
  obtain ⟨hparks, hheal, hsleeping⟩ := hpopped.rest
  have hgone : SleepTimerIsPending popped t = false :=
    Bool.eq_false_iff.mpr fun hpend => hpopped.gone (pending_iff.mp hpend)
  -- a live thread with a timer sleeps
  have hparked : t ≠ 0 → (popped.threads t).state.live → l.parked t = true := fun ht hlive =>
    (h.exact t ht (hpopped.threads ▸ hlive)).pending.symm.trans hpopped.pending
  have hothers : ∀ k, k ≠ t → Untouched s (fireSleepTimer popped t now) k ∧
      (l.fired popped t).parked k = l.parked k ∧
        (l.fired popped t).suspensions k = l.suspensions k := fun k hk => by
    refine ⟨(hpopped.others k hk).trans (untouched_fireSleepTimer now hk), ?_⟩
    rw [Ledger.fired]
    split_ifs
    · exact ⟨unpark_of_ne hk, rfl⟩
    · exact ⟨rfl, rfl⟩
  rw [fireSleepTimer] at hothers ⊢
  by_cases ht : t = 0
  · rw [if_pos ht] at hothers ⊢
    exact h.touch hothers (fun hne => absurd ht hne) hpopped.nodup (hparks ▸ h.parks)
      (hheal.trans h.healed)
  rw [if_neg ht] at hothers ⊢
  by_cases hrunning : (popped.threads t).state = .running
  · -- the timer is armed again
    have hnot : ¬((popped.threads t).state = .ready ∧ 1 ≤ (popped.threads t).suspend.toInt) :=
      fun hready => ThreadState.noConfusion (hready.1.symm.trans hrunning)
    rw [if_pos hrunning, if_neg (Bool.eq_false_iff.mp hgone), Ledger.fired, if_neg hnot]
      at hothers ⊢
    have hmap : ∀ deadline,
        (popped.gSleepTimers ++ [(⟨t, deadline⟩ : SleepTimerEntry)]).map SleepTimerEntry.threadPtr =
          popped.gSleepTimers.map SleepTimerEntry.threadPtr ++ [t] := fun _ => List.map_append
    refine h.touch hothers (fun _ hlive => ?_) ?_ (hparks ▸ h.parks) (hheal.trans h.healed)
    · have hexact := h.exact t ht (hpopped.threads ▸ hlive)
      refine ⟨hpopped.threads ▸ hexact.count, ?_, hparks ▸ hexact.outstanding,
        fun _ => Or.inr hrunning, hsleeping ▸ hexact.sleeping⟩
      rw [hparked ht hlive, pending_iff, hmap]
      exact List.mem_append_right _ (List.mem_singleton_self t)
    · rw [hmap]
      refine List.Nodup.append hpopped.nodup (List.nodup_singleton t) fun k hk hkt => ?_
      exact hpopped.gone (List.mem_singleton.mp hkt ▸ hk)
  rw [if_neg hrunning, Ledger.fired] at hothers ⊢
  obtain ⟨cleared, hcleared⟩ : ∃ cleared, cleared = ClearOutstandingPark popped t := ⟨_, rfl⟩
  have hzero : 0 ∉ cleared.gOutstandingParks := fun hmem => by
    rw [hcleared, mem_cleared, hparks] at hmem
    exact h.parks hmem.1
  have hthreads : cleared.threads t = popped.threads t := hcleared ▸ rfl
  have hnodup : (cleared.gSleepTimers.map SleepTimerEntry.threadPtr).Nodup :=
    hcleared ▸ hpopped.nodup
  have hhealed : cleared.toHeal = [] := hcleared ▸ hheal.trans h.healed
  rw [← hcleared] at hothers ⊢
  by_cases hready : (popped.threads t).state = .ready ∧ 1 ≤ (popped.threads t).suspend.toInt
  · rw [if_pos hready, if_pos hready] at hothers ⊢
    obtain ⟨hsublist, hheal', -⟩ := OSResumeThread_tables cleared t
    have hlive : (popped.threads t).state.live = true := by
      rw [hready.1]
      rfl
    have hcount := (h.exact t ht (hpopped.threads ▸ hlive)).count
    rw [if_pos (hparked ht hlive)] at hcount
    refine h.touch hothers (fun _ _ => ?_) (hnodup.sublist (hsublist.map _)) (fun hmem => ?_)
      (hheal'.trans hhealed)
    · refine exact_OSResumeThread ht (hthreads ▸ hready.2) ?_ (fun _ => ⟨?_, ?_⟩)
        (fun hp => absurd (unpark_self.symm.trans hp) Bool.false_ne_true)
        fun hp => absurd (unpark_self.symm.trans hp) Bool.false_ne_true
      · rw [unpark_self, hthreads, hpopped.threads, hcount]
        exact (add_zero _).trans (add_sub_cancel_right _ _).symm
      · rw [hcleared, unpark_self]
        exact hgone
      · rw [hcleared, unpark_self]
        exact iff_of_false (fun hmem => (mem_cleared.mp hmem).2 rfl) Bool.false_ne_true
    · exact hzero ((untouched_OSResumeThread (Ne.symm ht)).outstanding.mp hmem)
  · -- only a thread that has ended is left
    rw [if_neg hready, if_neg hready] at hothers ⊢
    refine h.touch hothers (fun _ hlive => ?_) hnodup hzero hhealed
    rw [hthreads] at hlive
    have hexact := h.exact t ht (hpopped.threads ▸ hlive)
    have hcount := hexact.count
    have hrest := hexact.resting (hparked ht hlive)
    rw [if_pos (hparked ht hlive)] at hcount
    rw [← hpopped.threads] at hcount hrest
    exact absurd ⟨hrest.resolve_right hrunning, by omega⟩ hready

theorem Sound.sleepTimer (h : Sound s l) (now : ℕ) :
    Sound (processSleepTimer s now) (l.next s (.sleepTimer now)) := by
  rw [processSleepTimer, Ledger.next]
  rcases hpop : popDue now s.gSleepTimers with _ | ⟨timer, rest⟩
  · exact h
  · exact h.fire (h.popped hpop) now

/-- The reconciler finds nothing to heal while every live thread that it looks at has its
timer. -/
theorem Sound.reconcileThread (h : Sound s l)
    (hpending : (s.threads t).state.live → SleepTimerIsPending s t = true) :
    Sound (reconcileThread s t) l ∧ (reconcileThread s t).threads = s.threads ∧
      (reconcileThread s t).gSleepTimers = s.gSleepTimers := by
  simp only [SleepParking.reconcileThread]
  split_ifs with hpend hlive hready
  · exact ⟨h.congr (fun _ => ⟨rfl, rfl, Iff.rfl, rfl⟩) rfl rfl, rfl, rfl⟩
  · refine ⟨h.touch (t := t) (fun k hk => ⟨?_, rfl, rfl⟩) (fun _ hl => ?_) h.timers ?_ h.healed,
      rfl, rfl⟩
    · exact ⟨rfl, rfl, mem_cleared.trans (and_iff_left hk), rfl⟩
    · exact absurd (hlive.symm.trans hl) Bool.false_ne_true
    · exact fun hmem => h.parks (mem_cleared.mp hmem).1
  all_goals exact absurd (hpending (Bool.eq_true_of_not_eq_false hlive)) hpend

theorem Sound.reconcile_fold (h : Sound s l) {parks : List Address}
    (hpending : ∀ t ∈ parks, (s.threads t).state.live → SleepTimerIsPending s t = true) :
    Sound (parks.foldl SleepParking.reconcileThread s) l := by
  induction parks generalizing s with
  | nil => exact h
  | cons t parks ih =>
      obtain ⟨hsound, hthreads, htimers⟩ := h.reconcileThread (hpending t List.mem_cons_self)
      refine ih hsound fun k hk hlive => ?_
      rw [hthreads] at hlive
      exact (pending_congr (htimers ▸ Iff.rfl)).trans
        (hpending k (List.mem_cons_of_mem _ hk) hlive)

theorem Sound.reconcile (h : Sound s l) (now : ℕ) : Sound (SleepParking.reconcile s now) l := by
  simp only [SleepParking.reconcile]
  split_ifs
  · refine Sound.reconcile_fold ?_ fun t ht hlive => ?_
    · exact h.congr (fun _ => ⟨rfl, rfl, Iff.rfl, rfl⟩) rfl rfl
    have hexact := h.exact t (fun hzero => h.parks (hzero ▸ ht)) hlive
    exact hexact.pending.trans (hexact.outstanding.mp ht)
  · exact h

end Steps

/-! ## Runs -/

/-- What the accounts rely on in a step: the rest of `OSSleepTicks` that finds a count finds its
timer, and no count overflows. -/
def Keeps (s : Os) : Action → Bool
  | .sleepTicks t _ | .suspendThread t => (s.threads t).suspend.toInt ≠ 2 ^ 31 - 1
  | .sleepTicksReturn t =>
      decide (0 < (s.threads t).suspend.toInt → SleepTimerIsPending s t = true)
  | _ => true

def run (s : Os) (l : Ledger) : List Action → Option (Os × Ledger)
  | [] => some (s, l)
  | action :: actions => (step s action).bind fun s' => run s' (l.next s action) actions

/-- Every step of the run meets the condition. -/
def KeepsAll (s : Os) : List Action → Prop
  | [] => True
  | action :: actions => Keeps s action = true ∧ ∀ s' ∈ step s action, KeepsAll s' actions

instance decidableKeepsAll : ∀ (actions : List Action) (s : Os), Decidable (KeepsAll s actions)
  | [], _ => isTrue trivial
  | action :: actions, s =>
      letI := decidableKeepsAll actions
      inferInstanceAs
        (Decidable (Keeps s action = true ∧ ∀ s' ∈ step s action, KeepsAll s' actions))

/-- No thread sleeps, and no table has an entry. -/
structure Start (s : Os) (l : Ledger) : Prop where
  count : ∀ t, t ≠ 0 → (s.threads t).state.live → (s.threads t).suspend.toInt = l.suspensions t
  parked : ∀ t, l.parked t = false
  timers : s.gSleepTimers = []
  parks : s.gOutstandingParks = []
  healed : s.toHeal = []

section Runs

variable {s s' s'' : Os} {l l' : Ledger} {t : Address}

theorem Start.sound (h : Start s l) : Sound s l where
  exact t ht hlive := by
    refine ⟨?_, ?_, ?_, fun hp => ?_, fun hp => ?_⟩
    · rw [h.parked, h.count t ht hlive]
      exact (add_zero _).symm
    · rw [h.parked, SleepTimerIsPending, h.timers]
      rfl
    · rw [h.parked, h.parks]
      exact iff_of_false List.not_mem_nil Bool.false_ne_true
    · exact absurd ((h.parked t).symm.trans hp) Bool.false_ne_true
    · exact absurd ((h.parked t).symm.trans hp) Bool.false_ne_true
  timers := by
    rw [h.timers]
    exact List.nodup_nil
  parks := by
    rw [h.parks]
    exact List.not_mem_nil
  healed := h.healed

theorem Sound.step (h : Sound s l) {action : Action} (hkeeps : Keeps s action = true)
    (hstep : SleepParking.step s action = some s') : Sound s' (l.next s action) := by
  cases action with
  | sleepTicks t duration =>
      simp only [SleepParking.step] at hstep
      split_ifs at hstep with hguard
      obtain rfl := Option.some.inj hstep
      exact h.sleepTicks hguard.1 hguard.2 (of_decide_eq_true hkeeps) duration
  | sleepTicksReturn t =>
      simp only [SleepParking.step] at hstep
      split_ifs at hstep
      obtain rfl := Option.some.inj hstep
      exact h.sleepTicksReturn (of_decide_eq_true hkeeps)
  | suspendThread t =>
      obtain rfl := Option.some.inj hstep
      exact h.suspendThread (of_decide_eq_true hkeeps)
  | resumeThread t =>
      obtain rfl := Option.some.inj hstep
      exact h.resumeThread
  | sleepTimer now =>
      simp only [SleepParking.step] at hstep
      split_ifs at hstep
      obtain rfl := Option.some.inj hstep
      exact h.sleepTimer now
  | reconcile now =>
      simp only [SleepParking.step] at hstep
      split_ifs at hstep
      obtain rfl := Option.some.inj hstep
      exact h.reconcile now
  | heal t =>
      -- nothing is collected
      simp only [SleepParking.step, h.healed, List.not_mem_nil, if_false] at hstep
      exact nomatch hstep
  | tick duration =>
      obtain rfl := Option.some.inj hstep
      exact h.congr (fun _ => ⟨rfl, rfl, Iff.rfl, rfl⟩) rfl rfl
  | dispatch t =>
      simp only [SleepParking.step] at hstep
      split_ifs at hstep with hguard
      obtain rfl := Option.some.inj hstep
      exact h.modifyThread rfl (fun _ => hguard.2) fun _ _ _ => Or.inr rfl
  | preempt t =>
      simp only [SleepParking.step] at hstep
      split_ifs at hstep with hguard
      obtain rfl := Option.some.inj hstep
      exact h.modifyThread rfl (fun _ => hguard ▸ rfl) fun _ _ _ => Or.inl rfl
  | sleepThread t =>
      simp only [SleepParking.step] at hstep
      split_ifs at hstep with hguard
      obtain rfl := Option.some.inj hstep
      rw [Os.executing, Bool.and_eq_true, Bool.or_eq_true, decide_eq_true_iff, decide_eq_true_iff,
        Bool.not_eq_true'] at hguard
      have hlive : (s.threads t).state.live = true := ThreadState.resting.live hguard.1.symm
      -- a thread that executes does not sleep
      refine h.modifyThread rfl (fun _ => hlive) fun ht hparked _ => ?_
      have hsleeping := (h.exact t ht hlive).sleeping hparked
      exact absurd (hguard.2.symm.trans hsleeping) Bool.false_ne_true
  | sleepThreadReturn t =>
      simp only [SleepParking.step] at hstep
      split_ifs at hstep with hguard
      obtain rfl := Option.some.inj hstep
      exact h.modifyThread rfl (fun _ => hguard.1 ▸ rfl) fun _ _ _ => Or.inr rfl
  | wakeupThread t =>
      simp only [SleepParking.step] at hstep
      split_ifs at hstep with hguard
      obtain rfl := Option.some.inj hstep
      exact h.modifyThread rfl (fun _ => hguard ▸ rfl) fun _ _ _ => Or.inl rfl
  | terminate t detached =>
      by_cases hguard : (s.threads t).state.live = true
      · obtain rfl := Option.some.inj ((if_pos hguard).symm.trans hstep)
        refine h.modifyThread rfl (fun _ => hguard) fun _ _ hlive => ?_
        cases detached <;> exact Bool.noConfusion hlive
      · exact nomatch (if_neg hguard).symm.trans hstep

theorem Sound.run (h : Sound s l) {actions : List Action} (hkeeps : KeepsAll s actions)
    (hrun : SleepParking.run s l actions = some (s', l')) : Sound s' l' := by
  induction actions generalizing s l with
  | nil =>
      obtain ⟨rfl, rfl⟩ := Prod.mk.inj (Option.some.inj hrun)
      exact h
  | cons action actions ih =>
      obtain ⟨after, hstep, hrest⟩ := Option.bind_eq_some_iff.mp hrun
      exact ih (h.step hkeeps.1 hstep) (hkeeps.2 after hstep) hrest

/-- A timer or the reconciler that changes a count takes back what a sleeping thread did. -/
theorem Sound.parked_of_resumed (h : Sound s l) {action : Action}
    (hresumes : (∃ now, action = .sleepTimer now) ∨ ∃ threadPtr, action = .heal threadPtr)
    (hstep : SleepParking.step s action = some s') (ht : t ≠ 0) (hlive : (s.threads t).state.live)
    (hne : (s'.threads t).suspend ≠ (s.threads t).suspend) : l.parked t = true := by
  rcases hresumes with ⟨now, rfl⟩ | ⟨threadPtr, rfl⟩
  · simp only [SleepParking.step] at hstep
    split_ifs at hstep
    obtain rfl := Option.some.inj hstep
    rw [processSleepTimer] at hne
    rcases hpop : popDue now s.gSleepTimers with _ | ⟨timer, rest⟩
    · rw [hpop] at hne
      exact absurd rfl hne
    · rw [hpop] at hne
      have hpopped := h.popped hpop
      by_cases heq : t = timer.threadPtr
      · rw [heq] at ht hlive ⊢
        exact (h.exact _ ht hlive).pending.symm.trans hpopped.pending
      · have hsame := (hpopped.others t heq).trans (untouched_fireSleepTimer now heq)
        exact absurd (congrArg OSThread.suspend hsame.threads) hne
  · simp only [SleepParking.step, h.healed, List.not_mem_nil, if_false] at hstep
    exact nomatch hstep

/-- What the sleepers are owed: the count of a live thread is the suspensions by others and one
if it sleeps, and a thread that sleeps is in a table. -/
structure Accounted (s : Os) (l : Ledger) (t : Address) : Prop where
  count : (s.threads t).suspend.toInt = l.suspensions t + if l.parked t then 1 else 0
  recorded : l.parked t = true → SleepTimerIsPending s t = true ∨ t ∈ s.gOutstandingParks

/-- In a run whose steps meet the condition every live thread is accounted for, and no timer and
no pass of the reconciler takes back a suspension by another. -/
theorem run_accounted (hstart : Start s l) {actions : List Action} (hkeeps : KeepsAll s actions)
    (hrun : SleepParking.run s l actions = some (s', l')) :
    (∀ t, t ≠ 0 → (s'.threads t).state.live → Accounted s' l' t) ∧
      ∀ action s'', step s' action = some s'' →
        ((∃ now, action = .sleepTimer now) ∨ ∃ threadPtr, action = .heal threadPtr) →
          ∀ t, t ≠ 0 → (s'.threads t).state.live →
            (s''.threads t).suspend ≠ (s'.threads t).suspend → l'.parked t = true := by
  have hsound := hstart.sound.run hkeeps hrun
  refine ⟨fun t ht hlive => ?_, fun action s'' hstep hresumes t ht hlive hne => ?_⟩
  · have hexact := hsound.exact t ht hlive
    exact ⟨hexact.count, fun hp => Or.inl (hexact.pending.trans hp)⟩
  · exact hsound.parked_of_resumed hresumes hstep ht hlive hne

end Runs

/-- The main thread runs and a worker is queued. -/
def twoThreads : Os where
  threads threadPtr :=
    if threadPtr = 0x80400000 then ⟨.running, 0, .none⟩
    else if threadPtr = 0x80401000 then ⟨.ready, 0, .run⟩ else ⟨.none, 0, .none⟩
  gSleepTimers := []
  gOutstandingParks := []
  strandScanDueAt := 0
  strandFirstSeen _ := none
  toHeal := []
  sleeping _ := false
  clock := 0

def noLedger : Ledger where
  suspensions _ := 0
  parked _ := false

theorem twoThreads_start : Start twoThreads noLedger where
  count t _ _ := by
    simp only [twoThreads]
    split_ifs <;> rfl
  parked _ := rfl
  timers := rfl
  parks := rfl
  healed := rfl

/-- A sleep that its timer ends. -/
theorem sleep_accounted :
    ∃ s' l', run twoThreads noLedger
        [.sleepTicks 0x80400000 5, .dispatch 0x80401000, .tick 5, .sleepTimer 5,
          .preempt 0x80401000, .dispatch 0x80400000, .sleepTicksReturn 0x80400000] =
        some (s', l') ∧ Accounted s' l' 0x80400000 := by
  obtain ⟨⟨s', l'⟩, hrun, hlive⟩ := Option.map_eq_some_iff.mp
    (show (run twoThreads noLedger
        [.sleepTicks 0x80400000 5, .dispatch 0x80401000, .tick 5, .sleepTimer 5,
          .preempt 0x80401000, .dispatch 0x80400000, .sleepTicksReturn 0x80400000]).map
        (fun after => (after.1.threads 0x80400000).state.live) = some true by decide +kernel)
  exact ⟨s', l', hrun,
    (run_accounted twoThreads_start (by decide +kernel) hrun).1 0x80400000 (by decide) hlive⟩

/-- The worker suspends the main thread, the timer fires, and the worker's entry function
returns: the main thread goes on without the suspension. -/
theorem foreignSuspension_consumed :
    ∃ s' l', run twoThreads noLedger
        [.sleepTicks 0x80400000 5, .dispatch 0x80401000, .suspendThread 0x80400000, .tick 5,
          .sleepTimer 5, .terminate 0x80401000 false, .sleepTicksReturn 0x80400000] =
        some (s', l') ∧
      (s'.threads 0x80400000).state.live = true ∧ ¬Accounted s' l' 0x80400000 := by
  obtain ⟨⟨s', l'⟩, hrun, hafter⟩ := Option.map_eq_some_iff.mp
    (show (run twoThreads noLedger
        [.sleepTicks 0x80400000 5, .dispatch 0x80401000, .suspendThread 0x80400000, .tick 5,
          .sleepTimer 5, .terminate 0x80401000 false, .sleepTicksReturn 0x80400000]).map
        (fun after => ((after.1.threads 0x80400000).state.live,
          (after.1.threads 0x80400000).suspend, after.2.suspensions 0x80400000)) =
        some (true, 0, 1) by decide +kernel)
  obtain ⟨hlive, hcount, hsuspensions⟩ : (s'.threads 0x80400000).state.live = true ∧
      (s'.threads 0x80400000).suspend = 0 ∧ l'.suspensions 0x80400000 = 1 :=
    ⟨congrArg Prod.fst hafter, congrArg (fun after => after.2.1) hafter,
      congrArg (fun after => after.2.2) hafter⟩
  refine ⟨s', l', hrun, hlive, fun haccounted => ?_⟩
  have hbalance := haccounted.count
  rw [hcount, hsuspensions, show (0 : BitVec 32).toInt = 0 from rfl] at hbalance
  split_ifs at hbalance <;> omega

end Wiicompiled.Runtime.SleepParking
