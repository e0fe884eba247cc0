import Wiicompiled.Runtime.ThreadExit

/-!
# When a return ends a thread as an exit does

The two clean-ups wake the joiners of the thread by loops of their own.  Both loops take the
waiting threads off one by one and leave the same kernel, but for the suspended ones; and the
return publishes no value, unlocks no mutex and leaves a detached thread in the list.
-/

namespace Wiicompiled.Runtime.ThreadExit

/-! ## Changes of records -/

section Records

variable {s : Kernel} {a b k : Address} {f g : OSThread → OSThread}

theorem modifyThread_threads (s : Kernel) (a : Address) (f : OSThread → OSThread) (k : Address) :
    (s.modifyThread a f).threads k = if k = a then f (s.threads k) else s.threads k := by
  refine (Function.update_apply _ _ _ _).trans ?_
  split_ifs with h
  · rw [h]
  · rfl

theorem modifyThread_threads_self : (s.modifyThread a f).threads a = f (s.threads a) :=
  Function.update_self _ _ _

theorem modifyThread_threads_of_ne (h : k ≠ a) :
    (s.modifyThread a f).threads k = s.threads k :=
  Function.update_of_ne h _ _

theorem modifyQueue_threads (s : Kernel) (a : Address) (f : ThreadQueue → ThreadQueue) :
    (s.modifyQueue a f).threads = s.threads :=
  rfl

theorem modifyThread_queues (s : Kernel) (a : Address) (f : OSThread → OSThread) :
    (s.modifyThread a f).queues = s.queues :=
  rfl

theorem modifyQueue_queues (s : Kernel) (a : Address) (f : ThreadQueue → ThreadQueue)
    (k : Address) :
    (s.modifyQueue a f).queues k = if k = a then f (s.queues k) else s.queues k := by
  refine (Function.update_apply _ _ _ _).trans ?_
  split_ifs with h
  · rw [h]
  · rfl

theorem modifyThread_modifyThread :
    (s.modifyThread a f).modifyThread a g = s.modifyThread a fun node => g (f node) := by
  rw [Kernel.modifyThread, modifyThread_threads_self]
  simp only [Kernel.modifyThread, Function.update_idem]

/-- What the waking of threads leaves as it is. -/
def standing (s : Kernel) :
    ThreadQueue × (Address → OSMutex) × (Address → Address × Address × BitVec 32) :=
  (s.threadList, s.mutexes,
    fun k => ((s.threads k).listNext, (s.threads k).listPrev, (s.threads k).exitValue))

theorem standing_modifyThread
    (hf : ∀ node, ((f node).listNext, (f node).listPrev, (f node).exitValue) =
      (node.listNext, node.listPrev, node.exitValue)) :
    standing (s.modifyThread a f) = standing s := by
  refine Prod.ext rfl (Prod.ext rfl (funext fun k => ?_))
  simp only [standing, modifyThread_threads]
  split_ifs
  · exact hf _
  · rfl

end Records

/-! ## Waiting threads -/

def Linked (threads : Address → OSThread) : Address → List Address → Prop
  | head, [] => head = 0
  | head, thread :: rest => head = thread ∧ Linked threads (threads thread).next rest

/-- The threads that wait in a queue, which is not a run queue.  The tails of the run queues
are threads of their queues. -/
structure Waiting (s : Kernel) (queueAddr : Address) (waiting : List Address) : Prop where
  linked : Linked s.threads (s.queues queueAddr).head waiting
  nodup : waiting.Nodup
  nonzero : 0 ∉ waiting
  queue : ∀ j ∈ waiting, (s.threads j).queue = queueAddr
  tails : ∀ priority < 32, (s.queues (runQueue priority)).tail ≠ 0 →
    (s.threads (s.queues (runQueue priority)).tail).queue = runQueue priority
  apart : ∀ priority < 32, runQueue priority ≠ queueAddr

/-- What a turn of a waking loop does to other threads. -/
structure Woken (s s' : Kernel) (queueAddr thread : Address) : Prop where
  head : (s'.queues queueAddr).head = (s.threads thread).next
  others : ∀ k, k ≠ thread → (s'.threads k).queue = (s.threads k).queue ∧
    (s'.threads k).state = (s.threads k).state ∧ (s'.threads k).suspend = (s.threads k).suspend
  next : ∀ k, k ≠ thread → (s'.threads k).next = (s.threads k).next ∨
    ∃ priority < 32, k = (s.queues (runQueue priority)).tail
  tails : ∀ priority < 32,
    (s'.queues (runQueue priority)).tail = (s.queues (runQueue priority)).tail ∨
      (s'.queues (runQueue priority)).tail = thread ∧
        (s'.threads thread).queue = runQueue priority

section Waking

variable {s s' : Kernel} {queueAddr thread k : Address} {waiting : List Address}
  {f : OSThread → OSThread} {priority : ℕ}

theorem Linked.congr {threads threads' : Address → OSThread} {head : Address}
    (h : Linked threads head waiting) (heq : ∀ j ∈ waiting, (threads' j).next = (threads j).next) :
    Linked threads' head waiting := by
  induction waiting generalizing head with
  | nil => exact h
  | cons j waiting ih =>
      refine ⟨h.1, ?_⟩
      rw [heq j List.mem_cons_self]
      exact ih h.2 fun k hk => heq k (List.mem_cons_of_mem _ hk)

theorem Waiting.ne_tail (h : Waiting s queueAddr waiting) (hk : k ∈ waiting)
    (hpriority : priority < 32) : k ≠ (s.queues (runQueue priority)).tail := by
  intro heq
  have hne : (s.queues (runQueue priority)).tail ≠ 0 := fun hzero => h.nonzero (hzero ▸ heq ▸ hk)
  have htail := h.tails priority hpriority hne
  rw [← heq, h.queue k hk] at htail
  exact h.apart priority hpriority htail.symm

theorem Waiting.tail (h : Waiting s queueAddr (thread :: waiting))
    (hwoken : Woken s s' queueAddr thread) : Waiting s' queueAddr waiting := by
  have hne : ∀ j ∈ waiting, j ≠ thread := by
    rintro j hj rfl
    exact (List.nodup_cons.mp h.nodup).1 hj
  have hthread : ∀ priority < 32, thread ≠ (s.queues (runQueue priority)).tail :=
    fun priority hpriority => h.ne_tail List.mem_cons_self hpriority
  refine ⟨?_, (List.nodup_cons.mp h.nodup).2, fun hzero => h.nonzero (List.mem_cons_of_mem _ hzero),
    fun j hj => ?_, fun priority hpriority htail => ?_, h.apart⟩
  · rw [hwoken.head]
    refine h.linked.2.congr fun j hj => ?_
    rcases hwoken.next j (hne j hj) with hnext | ⟨priority, hpriority, heq⟩
    · exact hnext
    · exact absurd heq (h.ne_tail (List.mem_cons_of_mem _ hj) hpriority)
  · rw [(hwoken.others j (hne j hj)).1, h.queue j (List.mem_cons_of_mem _ hj)]
  · rcases hwoken.tails priority hpriority with hold | ⟨hnew, hqueue⟩
    · rw [hold] at htail ⊢
      rw [(hwoken.others _ (hthread priority hpriority).symm).1]
      exact h.tails priority hpriority htail
    · rw [hnew, hqueue]

/-- A thread that is taken off changes no more than a link back. -/
theorem pop_threads (s : Kernel) (queueAddr thread k : Address) :
    ∃ prev, (PopThreadQueueHead s queueAddr thread).threads k =
      { s.threads k with prev := prev } := by
  rw [PopThreadQueueHead]
  by_cases hnext : (s.threads thread).next = 0
  · rw [if_pos hnext]
    exact ⟨(s.threads k).prev, rfl⟩
  · rw [if_neg hnext]
    rw [modifyQueue_threads, modifyThread_threads]
    split_ifs
    · exact ⟨0, rfl⟩
    · exact ⟨(s.threads k).prev, rfl⟩

theorem pop_head (s : Kernel) (queueAddr thread : Address) :
    ((PopThreadQueueHead s queueAddr thread).queues queueAddr).head =
      (s.threads thread).next := by
  rw [PopThreadQueueHead, modifyQueue_queues, if_pos rfl]

theorem pop_queues (s : Kernel) (thread : Address) (hk : k ≠ queueAddr) :
    (PopThreadQueueHead s queueAddr thread).queues k = s.queues k := by
  rw [PopThreadQueueHead, modifyQueue_queues, if_neg hk]
  split_ifs
  · rw [modifyQueue_queues, if_neg hk]
  · rfl

theorem woken_modifyThread (hapart : ∀ priority < 32, runQueue priority ≠ queueAddr) :
    Woken s ((PopThreadQueueHead s queueAddr thread).modifyThread thread f) queueAddr thread where
  head := pop_head s queueAddr thread
  others k hk := by
    obtain ⟨prev, hprev⟩ := pop_threads s queueAddr thread k
    rw [modifyThread_threads_of_ne hk, hprev]
    exact ⟨rfl, rfl, rfl⟩
  next k hk := by
    obtain ⟨prev, hprev⟩ := pop_threads s queueAddr thread k
    rw [modifyThread_threads_of_ne hk, hprev]
    exact Or.inl rfl
  tails priority hpriority :=
    Or.inl (congrArg ThreadQueue.tail (pop_queues s thread (hapart priority hpriority)))

theorem link_threads (s : Kernel) (thread k : Address) (priority : ℕ) :
    (LinkThreadOnRunQueue s thread priority).threads k =
      if k = thread then
        { s.threads k with
          prev := (s.queues (runQueue priority)).tail
          next := 0
          queue := runQueue priority }
      else if k = (s.queues (runQueue priority)).tail ∧ k ≠ 0 then
        { s.threads k with next := thread }
      else s.threads k := by
  simp only [LinkThreadOnRunQueue, modifyThread_threads, modifyQueue_threads]
  by_cases htail : (s.queues (runQueue priority)).tail = 0
  · simp only [if_pos htail, modifyQueue_threads]
    by_cases hk : k = thread
    · simp only [if_pos hk]
    · simp only [if_neg hk]
      rw [if_neg fun h => h.2 (h.1.trans htail)]
  · simp only [if_neg htail, modifyThread_threads]
    by_cases hk : k = thread
    · simp only [if_pos hk]
      split_ifs <;> rfl
    · simp only [if_neg hk]
      by_cases heq : k = (s.queues (runQueue priority)).tail
      · rw [if_pos heq, if_pos ⟨heq, fun hzero => htail (heq.symm.trans hzero)⟩]
      · rw [if_neg heq, if_neg fun h => heq h.1]

theorem link_queues (s : Kernel) (thread k : Address) (priority : ℕ) :
    (LinkThreadOnRunQueue s thread priority).queues k =
      if k = runQueue priority then
        ⟨if (s.queues k).tail = 0 then thread else (s.queues k).head, thread⟩
      else s.queues k := by
  simp only [LinkThreadOnRunQueue, modifyThread_queues, modifyQueue_queues]
  by_cases htail : (s.queues (runQueue priority)).tail = 0
  · simp only [if_pos htail, modifyQueue_queues]
    by_cases hk : k = runQueue priority
    · subst hk
      simp only [if_true, if_pos htail]
    · simp only [if_neg hk]
  · simp only [if_neg htail, modifyThread_queues]
    by_cases hk : k = runQueue priority
    · subst hk
      simp only [if_true, if_neg htail]
    · simp only [if_neg hk]

theorem link_rest (s : Kernel) (thread : Address) (priority : ℕ) :
    (LinkThreadOnRunQueue s thread priority).threadList = s.threadList ∧
      (LinkThreadOnRunQueue s thread priority).mutexes = s.mutexes ∧
      (LinkThreadOnRunQueue s thread priority).pendingMask = s.pendingMask ∧
      (LinkThreadOnRunQueue s thread priority).reschedCounter = s.reschedCounter := by
  simp only [LinkThreadOnRunQueue]
  split_ifs <;> exact ⟨rfl, rfl, rfl, rfl⟩

theorem link_modifyThread {g : OSThread → OSThread}
    (hfg : ∀ node, { f node with prev := 0, next := 0, queue := 0 } =
      { g node with prev := 0, next := 0, queue := 0 }) :
    LinkThreadOnRunQueue (s.modifyThread thread f) thread priority =
      LinkThreadOnRunQueue (s.modifyThread thread g) thread priority := by
  obtain ⟨hlist, hmutexes, hmask, hcounter⟩ := link_rest (s.modifyThread thread f) thread priority
  obtain ⟨hlist', hmutexes', hmask', hcounter'⟩ :=
    link_rest (s.modifyThread thread g) thread priority
  refine Kernel.ext (funext fun k => ?_) (funext fun k => ?_) (hlist.trans hlist'.symm)
    (hmutexes.trans hmutexes'.symm) (hmask.trans hmask'.symm) (hcounter.trans hcounter'.symm)
  · rw [link_threads, link_threads]
    by_cases hk : k = thread
    · subst hk
      rw [if_pos rfl, if_pos rfl, modifyThread_threads_self, modifyThread_threads_self]
      have h := hfg (s.threads k)
      simp only [OSThread.mk.injEq] at h
      simp only [OSThread.mk.injEq, modifyThread_queues]
      exact ⟨h.1, h.2.1, h.2.2.1, h.2.2.2.1, h.2.2.2.2.1, trivial, trivial, trivial,
        h.2.2.2.2.2.2.2.2⟩
    · rw [if_neg hk, if_neg hk, modifyThread_threads_of_ne hk, modifyThread_threads_of_ne hk]
      rfl
  · rw [link_queues, link_queues]
    rfl

theorem clampPriority_lt (priority : BitVec 32) : clampPriority priority < 32 := by
  rw [clampPriority]
  split_ifs with hneg hbig
  · omega
  · omega
  · rw [BitVec.toInt_eq_toNat_cond] at hneg hbig
    split_ifs at hneg hbig <;> omega

/-- A thread that is taken off, changed, and put on a run queue. -/
theorem woken_link (hapart : ∀ priority < 32, runQueue priority ≠ queueAddr)
    (hpriority : priority < 32) :
    Woken s (MarkRunQueuePending (LinkThreadOnRunQueue
      ((PopThreadQueueHead s queueAddr thread).modifyThread thread f) thread priority) priority)
      queueAddr thread := by
  have hwoken : Woken s ((PopThreadQueueHead s queueAddr thread).modifyThread thread f)
      queueAddr thread := woken_modifyThread hapart
  have hqueues : ∀ other < 32, (PopThreadQueueHead s queueAddr thread).queues (runQueue other) =
      s.queues (runQueue other) := fun other hother => pop_queues s thread (hapart other hother)
  refine ⟨?_, fun k hk => ?_, fun k hk => ?_, fun other hother => ?_⟩
  · refine (congrArg ThreadQueue.head (link_queues _ _ _ _)).trans ?_
    rw [if_neg (hapart priority hpriority).symm]
    exact hwoken.head
  · rw [show ∀ s', (MarkRunQueuePending s' priority).threads = s'.threads from fun _ => rfl,
      link_threads, if_neg hk]
    split_ifs <;> exact hwoken.others k hk
  · rw [show ∀ s', (MarkRunQueuePending s' priority).threads = s'.threads from fun _ => rfl,
      link_threads, if_neg hk]
    split_ifs with htail
    · refine Or.inr ⟨priority, hpriority, htail.1.trans ?_⟩
      rw [modifyThread_queues, hqueues priority hpriority]
    · exact hwoken.next k hk
  · rw [show ∀ s', (MarkRunQueuePending s' priority).threads = s'.threads from fun _ => rfl,
      show ∀ s', (MarkRunQueuePending s' priority).queues = s'.queues from fun _ => rfl,
      link_queues, link_threads, if_pos rfl]
    by_cases heq : runQueue other = runQueue priority
    · rw [if_pos heq]
      exact Or.inr ⟨rfl, heq.symm⟩
    · rw [if_neg heq, modifyThread_queues, hqueues other hother]
      exact Or.inl rfl

theorem standing_pop : standing (PopThreadQueueHead s queueAddr thread) = standing s := by
  have hrest : (PopThreadQueueHead s queueAddr thread).threadList = s.threadList ∧
      (PopThreadQueueHead s queueAddr thread).mutexes = s.mutexes := by
    rw [PopThreadQueueHead]
    split_ifs <;> exact ⟨rfl, rfl⟩
  refine Prod.ext hrest.1 (Prod.ext hrest.2 (funext fun k => ?_))
  obtain ⟨prev, hprev⟩ := pop_threads s queueAddr thread k
  simp only [standing, hprev]

theorem standing_link :
    standing (MarkRunQueuePending (LinkThreadOnRunQueue s thread priority) priority) =
      standing s := by
  obtain ⟨hlist, hmutexes, -⟩ := link_rest s thread priority
  refine Prod.ext hlist (Prod.ext hmutexes (funext fun k => ?_))
  have hthreads := link_threads s thread k priority
  simp only [standing, MarkRunQueuePending, hthreads]
  split_ifs <;> rfl

end Waking

/-! ## The two turns -/

def LiveSuspended (s : Kernel) (thread : Address) : Prop :=
  ThreadStateIsTerminated (s.threads thread).state = false ∧
    1 ≤ (s.threads thread).suspend.toInt

/-- A turn of a loop takes a waiting thread off and leaves the rest standing. -/
def IsTurn (wake : Kernel → Address → Kernel) : Prop :=
  ∀ ⦃s queueAddr thread⦄, (∀ priority < 32, runQueue priority ≠ queueAddr) →
    Woken s (wake (PopThreadQueueHead s queueAddr thread) thread) queueAddr thread ∧
      standing (wake (PopThreadQueueHead s queueAddr thread) thread) = standing s

section Turns

variable {isTerminated : Address → Bool} {s : Kernel} {queueAddr thread k : Address}
  {waiting : List Address} {wake : Kernel → Address → Kernel}

theorem wakeupThread_isTurn (isTerminated : Address → Bool) :
    IsTurn (wakeupThread isTerminated) := by
  intro s queueAddr thread hapart
  simp only [wakeupThread]
  split_ifs with hdead hready
  · refine ⟨woken_modifyThread hapart, (standing_modifyThread ?_).trans standing_pop⟩
    exact fun _ => rfl
  · refine ⟨woken_link hapart (clampPriority_lt _),
      standing_link.trans ((standing_modifyThread ?_).trans standing_pop)⟩
    exact fun _ => rfl
  · refine ⟨woken_modifyThread hapart, (standing_modifyThread ?_).trans standing_pop⟩
    exact fun _ => rfl

theorem wakeGuestThread_eq (s : Kernel) (thread : Address) :
    wakeGuestThread s thread =
      if ThreadStateIsTerminated (s.threads thread).state then
        s.modifyThread thread fun node => { node with queue := 0, next := 0, prev := 0 }
      else if 1 ≤ (s.threads thread).suspend.toInt then
        s.modifyThread thread fun node =>
          { node with state := kThreadStateReady, queue := 0, next := 0, prev := 0 }
      else
        let priority := clampPriority (s.threads thread).priority
        MarkRunQueuePending (LinkThreadOnRunQueue
          (s.modifyThread thread fun node => { node with state := kThreadStateReady })
          thread priority) priority := by
  have hdead : (((s.threads thread).state = 0 ∨ (s.threads thread).state = 8) : Prop) ↔
      ThreadStateIsTerminated (s.threads thread).state = true := by
    rw [ThreadStateIsTerminated, Bool.or_eq_true, decide_eq_true_iff, decide_eq_true_iff]
    rfl
  simp only [wakeGuestThread, modifyThread_threads_self, modifyThread_modifyThread, hdead]
  split_ifs
  · rfl
  · rfl
  · exact congrArg (MarkRunQueuePending · _) (link_modifyThread fun _ => rfl)

theorem wakeGuestThread_isTurn : IsTurn wakeGuestThread := by
  intro s queueAddr thread hapart
  simp only [wakeGuestThread_eq]
  split_ifs with hdead hready
  · refine ⟨woken_modifyThread hapart, (standing_modifyThread ?_).trans standing_pop⟩
    exact fun _ => rfl
  · refine ⟨woken_modifyThread hapart, (standing_modifyThread ?_).trans standing_pop⟩
    exact fun _ => rfl
  · refine ⟨woken_link hapart (clampPriority_lt _),
      standing_link.trans ((standing_modifyThread ?_).trans standing_pop)⟩
    exact fun _ => rfl

theorem wakeGuestThread_queue (h : LiveSuspended s thread) :
    ((wakeGuestThread s thread).threads thread).queue = 0 := by
  rw [wakeGuestThread_eq, if_neg (Bool.eq_false_iff.mp h.1), if_pos h.2,
    modifyThread_threads_self]

theorem wakeupThread_queue (hfiber : isTerminated thread = false) (h : LiveSuspended s thread) :
    ((wakeupThread isTerminated s thread).threads thread).queue = (s.threads thread).queue := by
  have hdead : ¬(ThreadStateIsTerminated (s.threads thread).state || isTerminated thread) = true :=
    by rw [h.1, hfiber]; exact Bool.false_ne_true
  have hsuspend := h.2
  simp only [wakeupThread, if_neg hdead, modifyThread_threads_self]
  rw [if_neg (by omega), modifyThread_threads_self]

theorem turns_agree
    (hterminated : isTerminated thread → ThreadStateIsTerminated (s.threads thread).state)
    (hnot : ¬LiveSuspended s thread) :
    wakeGuestThread s thread = wakeupThread isTerminated s thread := by
  rw [wakeGuestThread_eq]
  simp only [wakeupThread, modifyThread_threads_self]
  by_cases hdead : ThreadStateIsTerminated (s.threads thread).state = true
  · rw [if_pos hdead, if_pos (Bool.or_eq_true_iff.mpr (Or.inl hdead))]
  · have hsuspend : ¬1 ≤ (s.threads thread).suspend.toInt := fun h =>
      hnot ⟨Bool.eq_false_iff.mpr hdead, h⟩
    rw [if_neg hdead, if_neg hsuspend, if_neg fun h =>
      (Bool.or_eq_true_iff.mp h).elim hdead fun hfiber => hdead (hterminated hfiber),
      if_pos (by omega)]

theorem standing_wakeLoop (hwake : IsTurn wake)
    (hapart : ∀ priority < 32, runQueue priority ≠ queueAddr) (left : ℕ) :
    standing (wakeLoop wake queueAddr left s) = standing s := by
  induction left generalizing s with
  | zero => rfl
  | succ left ih =>
      simp only [wakeLoop]
      split_ifs with hhead
      · rfl
      · exact ih.trans (hwake hapart).2

theorem wakeLoop_queue_of_notMem (hwake : IsTurn wake) (hk : k ∉ waiting)
    (h : Waiting s queueAddr waiting) (left : ℕ) :
    ((wakeLoop wake queueAddr left s).threads k).queue = (s.threads k).queue := by
  induction left generalizing s waiting with
  | zero => rfl
  | succ left ih =>
      rcases waiting with _ | ⟨j, waiting⟩
      · rw [wakeLoop]
        simp only [show (s.queues queueAddr).head = 0 from h.linked, if_true]
      · have hj : j ≠ 0 := fun hzero => h.nonzero (hzero ▸ List.mem_cons_self)
        obtain ⟨hwoken, -⟩ := @hwake s queueAddr j h.apart
        have hrest := ih (fun hmem => hk (List.mem_cons_of_mem _ hmem)) (h.tail hwoken)
        rw [wakeLoop]
        simp only [show (s.queues queueAddr).head = j from h.linked.1, if_neg hj]
        refine hrest.trans (hwoken.others k ?_).1
        exact fun heq => hk (heq ▸ List.mem_cons_self)

/-- A waiting thread behind the woken one is suspended after the turn as before. -/
theorem Woken.liveSuspended_iff {s' : Kernel} (h : Woken s s' queueAddr thread)
    (hk : k ≠ thread) : LiveSuspended s' k ↔ LiveSuspended s k := by
  rw [LiveSuspended, LiveSuspended, (h.others k hk).2.1, (h.others k hk).2.2]

theorem wakeLoops_agree (h : Waiting s queueAddr waiting)
    (hterminated : ∀ j ∈ waiting, isTerminated j → ThreadStateIsTerminated (s.threads j).state)
    {left : ℕ} (hnone : ∀ j ∈ waiting.take left, ¬LiveSuspended s j) :
    wakeLoop wakeGuestThread queueAddr left s =
      wakeLoop (wakeupThread isTerminated) queueAddr left s := by
  induction left generalizing s waiting with
  | zero => rfl
  | succ left ih =>
      rcases waiting with _ | ⟨j, waiting⟩
      · rw [wakeLoop, wakeLoop]
        simp only [show (s.queues queueAddr).head = 0 from h.linked, if_true]
      · have hj : j ≠ 0 := fun hzero => h.nonzero (hzero ▸ List.mem_cons_self)
        have hne : ∀ k ∈ waiting, k ≠ j := by
          rintro k hk rfl
          exact (List.nodup_cons.mp h.nodup).1 hk
        obtain ⟨hwoken, -⟩ := @wakeGuestThread_isTurn s queueAddr j h.apart
        -- taking the thread off leaves its own state and count
        have hturn : wakeGuestThread (PopThreadQueueHead s queueAddr j) j =
            wakeupThread isTerminated (PopThreadQueueHead s queueAddr j) j := by
          obtain ⟨prev, hprev⟩ := pop_threads s queueAddr j j
          refine turns_agree (fun hfiber => ?_) fun hlive => ?_
          · rw [hprev]
            exact hterminated j List.mem_cons_self hfiber
          · rw [LiveSuspended, hprev] at hlive
            exact hnone j List.mem_cons_self hlive
        rw [wakeLoop, wakeLoop]
        simp only [show (s.queues queueAddr).head = j from h.linked.1, if_neg hj, ← hturn]
        refine ih (h.tail hwoken) (fun k hk hfiber => ?_) fun k hk hlive => ?_
        · rw [(hwoken.others k (hne k hk)).2.1]
          exact hterminated k (List.mem_cons_of_mem _ hk) hfiber
        · refine hnone k (List.mem_cons_of_mem _ hk) ?_
          exact (hwoken.liveSuspended_iff (hne k (List.mem_of_mem_take hk))).mp hlive

/-- The queue that a turn leaves in a thread that is alive and suspended is what the whole
loop leaves in it. -/
theorem wakeLoop_queue_of_liveSuspended (hwake : IsTurn wake) {queue : Address}
    (hturn : ∀ s, LiveSuspended s k → (s.threads k).queue = queueAddr →
      ((wake s k).threads k).queue = queue)
    (h : Waiting s queueAddr waiting) {left : ℕ} (hk : k ∈ waiting.take left)
    (hlive : LiveSuspended s k) :
    ((wakeLoop wake queueAddr left s).threads k).queue = queue := by
  induction left generalizing s waiting with
  | zero => exact absurd hk List.not_mem_nil
  | succ left ih =>
      rcases waiting with _ | ⟨j, waiting⟩
      · exact absurd hk List.not_mem_nil
      · have hj : j ≠ 0 := fun hzero => h.nonzero (hzero ▸ List.mem_cons_self)
        obtain ⟨hwoken, -⟩ := @hwake s queueAddr j h.apart
        rw [wakeLoop]
        simp only [show (s.queues queueAddr).head = j from h.linked.1, if_neg hj]
        by_cases heq : k = j
        · subst heq
          have hmem : k ∉ waiting := (List.nodup_cons.mp h.nodup).1
          rw [wakeLoop_queue_of_notMem hwake hmem (h.tail hwoken) left]
          obtain ⟨prev, hprev⟩ := pop_threads s queueAddr k k
          refine hturn _ ?_ ?_
          · rw [LiveSuspended, hprev]
            exact hlive
          · rw [hprev]
            exact h.queue k List.mem_cons_self
        · exact ih (h.tail hwoken) ((List.mem_cons.mp hk).resolve_left heq)
            ((hwoken.liveSuspended_iff heq).mpr hlive)

end Turns

/-! ## The two ends -/

/-- A running thread: it waits in no queue and is on the list of all threads, and its joiners
wait in its queue. -/
structure Running (isTerminated : Address → Bool) (s : Kernel) (thread : Address)
    (joiners : List Address) : Prop where
  nonzero : thread ≠ 0
  unqueued : (s.threads thread).queue = 0
  listed : (s.threads thread).listPrev = 0 → s.threadList.head = thread
  queue_ne : joinQueue thread ≠ 0
  waiting : Waiting s (joinQueue thread) joiners
  terminated : ∀ j ∈ joiners, isTerminated j → ThreadStateIsTerminated (s.threads j).state

/-- What is relied on of the unlocking: it releases the mutexes of the thread, and does nothing
without one. -/
structure Unlocks (unlockAllMutexes : Kernel → Address → Kernel) (thread : Address) : Prop where
  released : ∀ s mutex, ((unlockAllMutexes s thread).mutexes mutex).owner ≠ thread
  idle : ∀ s, (∀ mutex, (s.mutexes mutex).owner ≠ thread) → unlockAllMutexes s thread = s

section Ends

variable {unlockAllMutexes : Kernel → Address → Kernel} {isTerminated : Address → Bool}
  {s s' : Kernel} {thread queueAddr : Address} {joiners : List Address} {r3 : BitVec 32}

theorem Waiting.congr (h : Waiting s queueAddr joiners) (hqueues : s'.queues = s.queues)
    (hthreads : ∀ k, (s'.threads k).next = (s.threads k).next ∧
      (s'.threads k).queue = (s.threads k).queue) :
    Waiting s' queueAddr joiners where
  linked := by
    rw [hqueues]
    exact h.linked.congr fun k _ => (hthreads k).1
  nodup := h.nodup
  nonzero := h.nonzero
  queue j hj := (hthreads j).2.trans (h.queue j hj)
  tails priority hpriority htail := by
    rw [hqueues] at htail ⊢
    rw [(hthreads _).2]
    exact h.tails priority hpriority htail
  apart := h.apart

def markedByReturn (s : Kernel) (thread : Address) : Kernel :=
  (if (s.threads thread).detached then s
    else s.modifyThread thread fun node => { node with exitValue := 0 }).modifyThread thread
      fun node =>
        { node with state := if (s.threads thread).detached then 0 else kThreadStateMoribund }

def markedByExit (s : Kernel) (thread : Address) (r3 : BitVec 32) : Kernel :=
  (if (s.threads thread).detached then RemoveThreadFromList s thread
    else s.modifyThread thread fun node => { node with exitValue := r3 }).modifyThread thread
      fun node =>
        { node with state := if (s.threads thread).detached then 0 else kThreadStateMoribund }

theorem cleanUpReturn_eq (h : (s.threads thread).queue = 0) :
    cleanUpReturn s thread =
      { WakeGuestThreadsOnQueueNoSwitch (markedByReturn s thread) (joinQueue thread) with
        reschedCounter := 1 } := by
  have hunqueued : RemoveGuestThreadFromQueue s thread = s := by
    rw [RemoveGuestThreadFromQueue, if_pos h]
  simp only [cleanUpReturn, hunqueued]
  rfl

theorem OSExitThread_eq (unlockAllMutexes : Kernel → Address → Kernel)
    (isTerminated : Address → Bool) (s : Kernel) (thread : Address) (r3 : BitVec 32) :
    OSExitThread unlockAllMutexes isTerminated s thread r3 =
      { OSWakeupThread (fun other => other = thread || isTerminated other)
          (unlockAllMutexes (markedByExit s thread r3) thread) (joinQueue thread) with
        reschedCounter := 1 } :=
  rfl

theorem markedByReturn_of_joinable (h : (s.threads thread).detached = false) :
    markedByReturn s thread = markedByExit s thread 0 := by
  simp only [markedByReturn, markedByExit, h, Bool.false_eq_true, if_false]

theorem markedByExit_mutexes : (markedByExit s thread r3).mutexes = s.mutexes := by
  simp only [markedByExit, RemoveThreadFromList]
  split_ifs <;> rfl

theorem standing_removed_ne (hthread : thread ≠ 0)
    (hlisted : (s.threads thread).listPrev = 0 → s.threadList.head = thread) :
    standing (RemoveThreadFromList s thread) ≠ standing s := by
  intro h
  have hlinks := congrFun (congrArg (fun rest => rest.2.2) h) thread
  have hthreads := congrArg (fun rest => rest.1.head) h
  simp only [standing, RemoveThreadFromList, modifyThread_threads_self, Prod.mk.injEq]
    at hlinks hthreads
  obtain ⟨hnext, hprev, -⟩ := hlinks
  simp only [← hnext, ← hprev, ne_eq, not_true_eq_false, if_false] at hthreads
  exact hthread ((hthreads.trans (hlisted hprev.symm)).symm)

theorem standing_ends (hqueue : (s.threads thread).queue = 0)
    (hapart : ∀ priority < 32, runQueue priority ≠ joinQueue thread)
    (h : cleanUpReturn s thread = OSExitThread unlockAllMutexes isTerminated s thread r3) :
    standing (markedByReturn s thread) =
      standing (unlockAllMutexes (markedByExit s thread r3) thread) := by
  rw [cleanUpReturn_eq hqueue, OSExitThread_eq] at h
  calc standing (markedByReturn s thread)
      = standing (WakeGuestThreadsOnQueueNoSwitch (markedByReturn s thread)
          (joinQueue thread)) := (standing_wakeLoop wakeGuestThread_isTurn hapart _).symm
    _ = standing (OSWakeupThread (fun other => other = thread || isTerminated other)
          (unlockAllMutexes (markedByExit s thread r3) thread) (joinQueue thread)) :=
        (congrArg standing h :)
    _ = standing (unlockAllMutexes (markedByExit s thread r3) thread) :=
        standing_wakeLoop (wakeupThread_isTurn _) hapart _

theorem Running.waiting_marked (h : Running isTerminated s thread joiners)
    (hjoinable : (s.threads thread).detached = false) :
    Waiting (markedByExit s thread r3) (joinQueue thread) joiners := by
  refine h.waiting.congr ?_ fun k => ?_
  · simp only [markedByExit, hjoinable, Bool.false_eq_true, if_false, modifyThread_queues]
  · simp only [markedByExit, hjoinable, Bool.false_eq_true, if_false, modifyThread_threads]
    split_ifs <;> exact ⟨rfl, rfl⟩

theorem Running.notMem (h : Running isTerminated s thread joiners) : thread ∉ joiners :=
  fun hmem => h.queue_ne ((h.waiting.queue thread hmem).symm.trans h.unqueued)

theorem markedByExit_of_ne {k : Address} (hjoinable : (s.threads thread).detached = false)
    (hk : k ≠ thread) : (markedByExit s thread r3).threads k = s.threads k := by
  simp only [markedByExit, hjoinable, Bool.false_eq_true, if_false, modifyThread_threads_of_ne hk]

/-- A return of the entry function ends the thread as an exit with its result does, exactly
for a joinable thread with the result zero that owns no mutex and whose joiners are not
suspended. -/
theorem cleanUpReturn_eq_OSExitThread_iff (hunlocks : Unlocks unlockAllMutexes thread)
    (h : Running isTerminated s thread joiners) :
    cleanUpReturn s thread = OSExitThread unlockAllMutexes isTerminated s thread r3 ↔
      (s.threads thread).detached = false ∧ r3 = 0 ∧
        (∀ mutex, (s.mutexes mutex).owner ≠ thread) ∧
        ∀ j ∈ joiners.take kMaxWake, ¬LiveSuspended s j := by
  constructor
  · intro heq
    have hstanding := standing_ends h.unqueued h.waiting.apart heq
    have howner : ∀ mutex, (s.mutexes mutex).owner ≠ thread := by
      have hmutexes := congrArg (fun rest => rest.2.1) hstanding
      have hreturn : (standing (markedByReturn s thread)).2.1 = s.mutexes := by
        simp only [standing, markedByReturn]
        split_ifs <;> rfl
      intro mutex
      rw [← hreturn, hmutexes]
      exact hunlocks.released _ mutex
    have hidle : unlockAllMutexes (markedByExit s thread r3) thread = markedByExit s thread r3 :=
      hunlocks.idle _ fun mutex => by
        rw [markedByExit_mutexes]
        exact howner mutex
    rw [hidle] at hstanding
    have hjoinable : (s.threads thread).detached = false := by
      by_contra hdetached
      have hdetached := Bool.not_eq_false _ ▸ hdetached
      refine standing_removed_ne h.nonzero h.listed ?_
      simp only [markedByReturn, markedByExit, hdetached, if_true] at hstanding
      rw [standing_modifyThread, standing_modifyThread] at hstanding
      · exact hstanding.symm
      · exact fun _ => rfl
      · exact fun _ => rfl
    have hr3 : r3 = 0 := by
      have hvalue := congrFun (congrArg (fun rest => rest.2.2) hstanding) thread
      simp only [standing, markedByReturn, markedByExit, hjoinable, Bool.false_eq_true, if_false,
        modifyThread_threads_self, Prod.mk.injEq] at hvalue
      exact hvalue.2.2.symm
    refine ⟨hjoinable, hr3, howner, fun j hj hlive => ?_⟩
    have hne : j ≠ thread := fun hthread => h.notMem (hthread ▸ List.mem_of_mem_take hj)
    subst hr3
    rw [cleanUpReturn_eq h.unqueued, OSExitThread_eq, hidle,
      markedByReturn_of_joinable hjoinable] at heq
    have hqueues := congrArg (fun s => (s.threads j).queue) heq
    have hlive' : LiveSuspended (markedByExit s thread 0) j := by
      rw [LiveSuspended, markedByExit_of_ne hjoinable hne]
      exact hlive
    have hfiber : (decide (j = thread) || isTerminated j) = false := by
      refine Bool.eq_false_iff.mpr fun htrue => ?_
      have hdead := h.terminated j (List.mem_of_mem_take hj)
        ((Bool.or_eq_true_iff.mp htrue).resolve_left fun hthread =>
          hne (of_decide_eq_true hthread))
      exact Bool.false_ne_true (hlive.1.symm.trans hdead)
    -- the return takes the suspended joiner out of the queue, the exit leaves it there
    have hreturn : ((WakeGuestThreadsOnQueueNoSwitch (markedByExit s thread 0)
        (joinQueue thread)).threads j).queue = 0 :=
      wakeLoop_queue_of_liveSuspended wakeGuestThread_isTurn
        (fun _ hsuspended _ => wakeGuestThread_queue hsuspended) (h.waiting_marked hjoinable)
        hj hlive'
    have hexit : ((OSWakeupThread (fun other => other = thread || isTerminated other)
        (markedByExit s thread 0) (joinQueue thread)).threads j).queue = joinQueue thread :=
      wakeLoop_queue_of_liveSuspended (wakeupThread_isTurn _)
        (fun _ hsuspended hqueue => (wakeupThread_queue hfiber hsuspended).trans hqueue)
        (h.waiting_marked hjoinable) hj hlive'
    exact h.queue_ne (hexit.symm.trans (hqueues.symm.trans hreturn))
  · rintro ⟨hjoinable, rfl, howner, hnone⟩
    have hidle : unlockAllMutexes (markedByExit s thread 0) thread = markedByExit s thread 0 :=
      hunlocks.idle _ fun mutex => by
        rw [markedByExit_mutexes]
        exact howner mutex
    have hne : ∀ j ∈ joiners, j ≠ thread := fun j hj hthread => h.notMem (hthread ▸ hj)
    rw [cleanUpReturn_eq h.unqueued, OSExitThread_eq, hidle, markedByReturn_of_joinable hjoinable]
    refine congrArg (fun s : Kernel => { s with reschedCounter := 1 })
      (wakeLoops_agree (h.waiting_marked hjoinable) (fun j hj hfiber => ?_) fun j hj hlive => ?_)
    · rw [markedByExit_of_ne hjoinable (hne j hj)]
      refine h.terminated j hj ((Bool.or_eq_true_iff.mp hfiber).resolve_left fun hthread => ?_)
      exact hne j hj (of_decide_eq_true hthread)
    · rw [LiveSuspended, markedByExit_of_ne hjoinable (hne j (List.mem_of_mem_take hj))] at hlive
      exact hnone j hj hlive

end Ends

/-! ## A thread with one joiner -/

def joined (thread joiner : Address) : Kernel where
  threads k :=
    ⟨if k = joiner then 4 else 2, 0, 0, 16, 0,
      if k = joiner then joinQueue thread else 0, 0, 0, if k = thread then joiner else 0,
      if k = joiner then thread else 0, 0, 0⟩
  queues queue := if queue = joinQueue thread then ⟨joiner, joiner⟩ else ⟨0, 0⟩
  threadList := ⟨thread, joiner⟩
  mutexes _ := ⟨⟨0, 0⟩, 0, 0, 0, 0⟩
  pendingMask := 0
  reschedCounter := 0

def clearOwners (s : Kernel) (thread : Address) : Kernel :=
  { s with mutexes := fun k =>
      if (s.mutexes k).owner = thread then { s.mutexes k with owner := 0 } else s.mutexes k }

theorem clearOwners_unlocks {thread : Address} (h : thread ≠ 0) : Unlocks clearOwners thread where
  released s mutex := by
    simp only [clearOwners]
    split_ifs with howner
    · exact h.symm
    · exact howner
  idle s howner := Kernel.ext rfl rfl rfl (funext fun k => if_neg (howner k)) rfl rfl

theorem joined_running :
    Running (fun _ => false) (joined 0x80400000 0x80401000) 0x80400000
      [0x80401000] where
  nonzero := by decide
  unqueued := by decide
  listed _ := by decide
  queue_ne := by decide
  waiting :=
    { linked := ⟨by decide, rfl⟩
      nodup := List.nodup_singleton _
      nonzero := fun h => absurd (List.mem_singleton.mp h) (by decide)
      queue := fun j hj => by
        rw [List.mem_singleton.mp hj]
        decide
      tails := by decide +kernel
      apart := by decide +kernel }
  terminated _ _ h := absurd h Bool.false_ne_true

theorem cleanUpReturn_joined :
    cleanUpReturn (joined 0x80400000 0x80401000) 0x80400000 =
      OSExitThread clearOwners (fun _ => false) (joined 0x80400000 0x80401000) 0x80400000 0 := by
  refine (cleanUpReturn_eq_OSExitThread_iff (clearOwners_unlocks (by decide))
    joined_running).mpr ⟨by decide, rfl, fun mutex => ?_, fun j hj hlive => ?_⟩
  · exact show (0 : Address) ≠ 0x80400000 by decide
  · exact absurd (show (1 : ℤ) ≤ (0#32).toInt from hlive.2) (by decide)

/-- A thread that returns 7 is joined with 0. -/
theorem cleanUpReturn_ne_OSExitThread :
    Unlocks clearOwners 0x80400000 ∧
      Running (fun _ => false) (joined 0x80400000 0x80401000) 0x80400000 [0x80401000] ∧
      cleanUpReturn (joined 0x80400000 0x80401000) 0x80400000 ≠
        OSExitThread clearOwners (fun _ => false) (joined 0x80400000 0x80401000) 0x80400000 7 := by
  refine ⟨clearOwners_unlocks (by decide), joined_running, fun h => ?_⟩
  have hvalue := congrArg (fun s => (s.threads 0x80400000).exitValue) h
  revert hvalue
  decide +kernel

end Wiicompiled.Runtime.ThreadExit
