import Mathlib.Data.Fintype.Basic
import Wiicompiled.Support.MemoizedCaches

/-!
# Prewarming a cache in parallel

Workers that run procedures at the same time over one cache.  A frame becomes tainted when
a question of it, or of a frame that it waits for, was answered because of a cycle, and
only untainted frames put their results into the cache.  Every step that touches what the
workers share is a step of its own here, so a run of the pool is any interleaving.  The
main result is that a pass after any such run ends with the cache of a pass without it.
-/

namespace Memoized
namespace Procedures

variable {κ ν σ : Type*}

/-! ## The pool -/

/-- A procedure in progress. -/
structure Frame (κ σ : Type*) where
  key : κ
  state : σ
  tainted : Bool

/-- Where a worker is; the innermost frame comes first. -/
inductive Control (κ σ : Type*) where
  | idle
  | checkCache (k : κ)
  | checkTainted (k : κ)
  | lookUp (k : κ) (frames : List (Frame κ σ))
  | lookUpTainted (k : κ) (frames : List (Frame κ σ))
  | breakCycle (k : κ) (frames : List (Frame κ σ))
  | run (frames : List (Frame κ σ))

/-- What the workers share. -/
structure Shared (κ ν : Type*) where
  cache : κ → Option ν
  tainted : κ → Bool

/-- The workers, and the keys that none of them has taken yet. -/
structure Pool (ι κ ν σ : Type*) where
  shared : Shared κ ν
  pending : List κ
  workers : ι → Control κ σ

def taintFramesInFlight (frames : List (Frame κ σ)) : List (Frame κ σ) :=
  frames.map fun frame => { frame with tainted := true }

section Steps

variable [DecidableEq κ] (p : Procedures κ ν σ)

/-- Go on with the frame that waits for an answer; without one the worker is done. -/
def resume (frames : List (Frame κ σ)) (a : Answer ν) : Control κ σ :=
  match frames with
  | [] => .idle
  | frame :: rest =>
      match p.next frame.state with
      | .ask _ f => .run ({ frame with state := f a } :: rest)
      | _ => .run (frame :: rest)

/-- The frame below a tainted one has used a result that is not kept. -/
def taintCaller : List (Frame κ σ) → List (Frame κ σ)
  | [] => []
  | frame :: rest => { frame with tainted := true } :: rest

/-- The end of the innermost frame. -/
def finishFrame (s : Shared κ ν) (frame : Frame κ σ) (rest : List (Frame κ σ))
    (result : Option ν) : Shared κ ν × Control κ σ :=
  if frame.tainted then
    ({ s with tainted := Function.update s.tainted frame.key true },
      p.resume (taintCaller rest) (p.computed result))
  else
    ({ s with cache := Function.update s.cache frame.key (some (p.kept result)) },
      p.resume rest (p.computed result))

/-- The next step of a worker. -/
def workerStep (s : Shared κ ν) : Control κ σ → Shared κ ν × Control κ σ
  | .idle => (s, .idle)
  | .checkCache k => (s, if (s.cache k).isSome then .idle else .checkTainted k)
  | .checkTainted k => (s, if s.tainted k then .idle else .lookUp k [])
  | .lookUp k frames =>
      match s.cache k with
      | some v => (s, p.resume frames ⟨true, v⟩)
      | none => (s, .lookUpTainted k frames)
  | .lookUpTainted k frames =>
      if s.tainted k then (s, p.resume (taintFramesInFlight frames) p.nothing)
      else if k ∈ frames.map Frame.key then
        (s, .breakCycle k (taintFramesInFlight frames))
      else (s, .run (⟨k, p.start k, false⟩ :: frames))
  | .breakCycle k frames =>
      ({ s with tainted := Function.update s.tainted k true }, p.resume frames p.nothing)
  | .run [] => (s, .idle)
  | .run (frame :: rest) =>
      match p.next frame.state with
      | .silent s' => (s, .run ({ frame with state := s' } :: rest))
      | .ask k _ => (s, .lookUp k (frame :: rest))
      | .finish result => p.finishFrame s frame rest result

variable {ι : Type*} [DecidableEq ι]

/-- One step of the pool: an idle worker takes a key, or a worker goes on. -/
inductive PoolStep : Pool ι κ ν σ → Pool ι κ ν σ → Prop
  | take {pool : Pool ι κ ν σ} (i : ι) {k : κ} (hidle : pool.workers i = .idle)
      (hk : k ∈ pool.pending) :
      PoolStep pool
        { pool with
          pending := pool.pending.erase k
          workers := Function.update pool.workers i (.checkCache k) }
  | work {pool : Pool ι κ ν σ} (i : ι) :
      PoolStep pool
        { pool with
          shared := (p.workerStep pool.shared (pool.workers i)).1
          workers := Function.update pool.workers i
            (p.workerStep pool.shared (pool.workers i)).2 }

/-- All workers idle, all keys to be taken. -/
def initialPool (c₀ : κ → Option ν) (ks : List κ) : Pool ι κ ν σ :=
  ⟨⟨c₀, fun _ => false⟩, ks, fun _ => .idle⟩

/-- The cache after all keys have been taken and every worker has become idle, and then
a pass over the keys. -/
def Prewarms (ι : Type*) [DecidableEq ι] (c₀ : κ → Option ν) (ks : List κ)
    (c : κ → Option ν) : Prop :=
  ∃ pool : Pool ι κ ν σ,
    Relation.ReflTransGen p.PoolStep (initialPool c₀ ks) pool ∧ pool.pending = [] ∧
      (∀ i, pool.workers i = .idle) ∧ p.Pass pool.shared.cache ks c

/-! ### Schedules -/

def Control.isIdle : Control κ σ → Bool
  | .idle => true
  | _ => false

/-- The pool after a schedule: who moves next, and which key it takes if it takes one. -/
def runSchedule (pool : Pool ι κ ν σ) : List (ι × Option κ) → Pool ι κ ν σ
  | [] => pool
  | (i, some k) :: rest =>
      if (pool.workers i).isIdle ∧ k ∈ pool.pending then
        runSchedule
          { pool with
            pending := pool.pending.erase k
            workers := Function.update pool.workers i (.checkCache k) } rest
      else runSchedule pool rest
  | (i, none) :: rest =>
      runSchedule
        { pool with
          shared := (p.workerStep pool.shared (pool.workers i)).1
          workers := Function.update pool.workers i
            (p.workerStep pool.shared (pool.workers i)).2 } rest

theorem runSchedule_reachable (pool : Pool ι κ ν σ) (schedule : List (ι × Option κ)) :
    Relation.ReflTransGen p.PoolStep pool (p.runSchedule pool schedule) := by
  induction schedule generalizing pool with
  | nil => exact .refl
  | cons move rest ih =>
      rcases move with ⟨i, _ | k⟩
      · exact .head (.work i) (ih _)
      · rw [runSchedule]
        split_ifs with h
        · refine .head (.take i ?_ h.2) (ih _)
          rcases hidle : pool.workers i <;> simp_all [Control.isIdle]
        · exact ih pool

/-- The cache of a prewarm by a schedule, if that leaves nothing to do. -/
def prewarmBy [Fintype ι] (n : ℕ) (c₀ : κ → Option ν) (ks : List κ)
    (schedule : List (ι × Option κ)) : Option (κ → Option ν) :=
  let pool := p.runSchedule (initialPool c₀ ks) schedule
  if pool.pending = [] ∧ ∀ i, (pool.workers i).isIdle then
    p.passWithin n pool.shared.cache ks
  else none

theorem prewarms_of_prewarmBy [Fintype ι] {n : ℕ} {c₀ c : κ → Option ν} {ks : List κ}
    {schedule : List (ι × Option κ)} (h : p.prewarmBy n c₀ ks schedule = some c) :
    p.Prewarms ι c₀ ks c := by
  rw [prewarmBy] at h
  split_ifs at h with hdone
  refine ⟨_, p.runSchedule_reachable _ schedule, hdone.1, fun i => ?_,
    p.pass_of_passWithin h⟩
  have hidle := hdone.2 i
  rcases hw : (p.runSchedule (initialPool c₀ ks) schedule).workers i <;>
    simp_all [Control.isIdle]

end Steps

/-! ## What the pool keeps -/

section Invariant

variable {p : Procedures κ ν σ} {asks : κ → Set κ} {c₀ : κ → Option ν} {ks : List κ}

/-- What the frame of a procedure has gone through; an untainted frame has gone the way
that settles its key, and has left what it asked for in the cache. -/
structure FrameOk (p : Procedures κ ν σ) (asks : κ → Set κ) (c₀ : κ → Option ν)
    (ks : List κ) (c : κ → Option ν) (frame : Frame κ σ) (l : List κ) : Prop where
  reach : Reach asks c₀ ks frame.key
  visits : p.Visits frame.key l frame.state
  leads : frame.tainted = false → p.Leads c₀ (p.start frame.key) frame.state
  asked : frame.tainted = false → ∀ q ∈ l, c q ≠ none

/-- Frames that wait for a key, which was not in the cache when they asked. -/
inductive Waits (p : Procedures κ ν σ) (asks : κ → Set κ) (c₀ : κ → Option ν)
    (ks : List κ) (c : κ → Option ν) : List (Frame κ σ) → κ → Prop
  | root {k : κ} (hk : k ∈ ks) : Waits p asks c₀ ks c [] k
  | frame {frame : Frame κ σ} {rest : List (Frame κ σ)} {l : List κ} {k : κ}
      {f : Answer ν → σ} (hframe : FrameOk p asks c₀ ks c frame l)
      (hnext : p.next frame.state = .ask k f)
      (hfirst : frame.tainted = false → k ∉ l)
      (hrest : Waits p asks c₀ ks c rest frame.key) : Waits p asks c₀ ks c (frame :: rest) k

/-- Frames of which the innermost one runs. -/
inductive Runs (p : Procedures κ ν σ) (asks : κ → Set κ) (c₀ : κ → Option ν)
    (ks : List κ) (c : κ → Option ν) : List (Frame κ σ) → Prop
  | frame {frame : Frame κ σ} {rest : List (Frame κ σ)} {l : List κ}
      (hframe : FrameOk p asks c₀ ks c frame l)
      (hrest : Waits p asks c₀ ks c rest frame.key) : Runs p asks c₀ ks c (frame :: rest)

/-- Frames of which the innermost one asks for a key. -/
def Asking (p : Procedures κ ν σ) (asks : κ → Set κ) (c₀ : κ → Option ν) (ks : List κ)
    (c : κ → Option ν) (frames : List (Frame κ σ)) (k : κ) : Prop :=
  match frames with
  | [] => k ∈ ks
  | frame :: rest =>
      Runs p asks c₀ ks c (frame :: rest) ∧ ∃ f, p.next frame.state = .ask k f

def ControlOk (p : Procedures κ ν σ) (asks : κ → Set κ) (c₀ : κ → Option ν)
    (ks : List κ) (c : κ → Option ν) : Control κ σ → Prop
  | .idle => True
  | .checkCache k => k ∈ ks
  | .checkTainted k => k ∈ ks
  | .lookUp k frames => Asking p asks c₀ ks c frames k
  | .lookUpTainted k frames => c₀ k = none ∧ Waits p asks c₀ ks c frames k
  | .breakCycle k frames =>
      Waits p asks c₀ ks c frames k ∧ ∀ frame ∈ frames, frame.tainted = true
  | .run frames => frames = [] ∨ Runs p asks c₀ ks c frames

/-- The cache has the first results, and new ones only of settled keys, each with the
results of what it asks for. -/
structure CacheOk (p : Procedures κ ν σ) (asks : κ → Set κ) (c₀ : κ → Option ν)
    (ks : List κ) (c : κ → Option ν) : Prop where
  extended : Extends p c₀ c₀ c
  covered : Covered asks c₀ ks c []

/-! ### More results, and taint -/

variable {c c' : κ → Option ν} {frame : Frame κ σ} {frames rest : List (Frame κ σ)}
  {l : List κ} {k : κ}

theorem FrameOk.mono (h : FrameOk p asks c₀ ks c frame l) (hgrows : Grows c c') :
    FrameOk p asks c₀ ks c' frame l :=
  ⟨h.reach, h.visits, h.leads, fun htaint q hq => hgrows q (h.asked htaint q hq)⟩

theorem Waits.mono (h : Waits p asks c₀ ks c frames k) (hgrows : Grows c c') :
    Waits p asks c₀ ks c' frames k := by
  induction h with
  | root hk => exact .root hk
  | frame hframe hnext hfirst _ ih => exact .frame (hframe.mono hgrows) hnext hfirst ih

theorem Runs.mono (h : Runs p asks c₀ ks c frames) (hgrows : Grows c c') :
    Runs p asks c₀ ks c' frames := by
  obtain ⟨hframe, hrest⟩ := h
  exact .frame (hframe.mono hgrows) (hrest.mono hgrows)

theorem ControlOk.mono {w : Control κ σ} (h : ControlOk p asks c₀ ks c w)
    (hgrows : Grows c c') : ControlOk p asks c₀ ks c' w := by
  match w, h with
  | .idle, h => exact h
  | .checkCache _, h => exact h
  | .checkTainted _, h => exact h
  | .lookUp _ [], h => exact h
  | .lookUp _ (_ :: _), ⟨hruns, hnext⟩ => exact ⟨hruns.mono hgrows, hnext⟩
  | .lookUpTainted _ _, ⟨hmissing, hwaits⟩ => exact ⟨hmissing, hwaits.mono hgrows⟩
  | .breakCycle _ _, ⟨hwaits, htaint⟩ => exact ⟨hwaits.mono hgrows, htaint⟩
  | .run _, h => exact h.imp_right fun hruns => hruns.mono hgrows

theorem FrameOk.taint (h : FrameOk p asks c₀ ks c frame l) :
    FrameOk p asks c₀ ks c { frame with tainted := true } l := by
  refine ⟨h.reach, h.visits, ?_, ?_⟩
  · intro htaint
    cases htaint
  · intro htaint
    cases htaint

theorem Waits.taintFramesInFlight (h : Waits p asks c₀ ks c frames k) :
    Waits p asks c₀ ks c (taintFramesInFlight frames) k := by
  induction h with
  | root hk => exact .root hk
  | frame hframe hnext _ _ ih =>
      exact .frame hframe.taint hnext (fun htaint => by cases htaint) ih

theorem tainted_of_mem (hframe : frame ∈ Procedures.taintFramesInFlight frames) :
    frame.tainted = true := by
  obtain ⟨below, -, rfl⟩ := List.mem_map.mp hframe
  rfl

/-! ### Pools -/

structure PoolOk {ι : Type*} (p : Procedures κ ν σ) (asks : κ → Set κ)
    (c₀ : κ → Option ν) (ks : List κ) (pool : Pool ι κ ν σ) : Prop where
  cache : CacheOk p asks c₀ ks pool.shared.cache
  pending : ∀ k ∈ pool.pending, k ∈ ks
  workers : ∀ i, ControlOk p asks c₀ ks pool.shared.cache (pool.workers i)

theorem initialPool_ok {ι : Type*} : PoolOk p asks c₀ ks (initialPool c₀ ks : Pool ι κ ν σ) := by
  refine ⟨⟨.refl ⟨id, fun hq => .inl hq.1⟩, ?_⟩, fun _ hk => hk, fun _ => trivial⟩
  exact ⟨fun _ hq => hq, fun hq hfirst => absurd hfirst hq,
    fun hq hfirst => absurd hfirst hq⟩

/-! ### Answers -/

theorem FrameOk.answer (h : FrameOk p asks c₀ ks c frame l) {f : Answer ν → σ}
    (hnext : p.next frame.state = .ask k f) (a : Answer ν)
    (hsettled : frame.tainted = false → c k ≠ none ∧ p.Leads c₀ frame.state (f a)) :
    FrameOk p asks c₀ ks c { frame with state := f a } (k :: l) := by
  refine ⟨h.reach, h.visits.ask hnext a, fun htaint => ?_, fun htaint => ?_⟩
  · exact (h.leads htaint).trans (hsettled htaint).2
  · exact List.forall_mem_cons.mpr ⟨(hsettled htaint).1, h.asked htaint⟩

/-- A frame that ends untainted has settled its key. -/
theorem FrameOk.settles (h : FrameOk p asks c₀ ks c frame l) {o : Option ν}
    (htaint : frame.tainted = false) (hend : p.next frame.state = .finish o) :
    p.Settles c₀ frame.key o := by
  have hmissing : c₀ frame.key = none := by
    rcases h.reach with ⟨-, hmissing⟩ | ⟨-, -, hmissing⟩ <;> exact hmissing
  exact ⟨hmissing, frame.state, h.leads htaint, hend⟩

/-- Frames that are all tainted may get any answer. -/
theorem Waits.resume_tainted (h : Waits p asks c₀ ks c frames k)
    (htainted : ∀ frame ∈ frames, frame.tainted = true) (a : Answer ν) :
    ControlOk p asks c₀ ks c (p.resume frames a) := by
  rcases h with hk | ⟨hframe, hnext, -, hrest⟩
  · exact trivial
  · rw [resume]
    simp only [hnext]
    refine .inr (.frame (hframe.answer hnext a fun htaint => ?_) hrest)
    rw [htainted _ (List.mem_cons_self ..)] at htaint
    cases htaint

/-- A result in the cache settles what it answers. -/
theorem Asking.resume_hit (hok : CacheOk p asks c₀ ks c)
    (h : Asking p asks c₀ ks c frames k) {v : ν} (hcached : c k = some v) :
    ControlOk p asks c₀ ks c (p.resume frames ⟨true, v⟩) := by
  rcases frames with _ | ⟨frame, rest⟩
  · exact trivial
  · obtain ⟨⟨hframe, hrest⟩, f, hnext⟩ := h
    rw [resume]
    simp only [hnext]
    refine .inr (.frame (hframe.answer hnext _ fun _ => ⟨by simp [hcached], ?_⟩) hrest)
    rcases hfirst : c₀ k with _ | v'
    · have hsettled : p.Settled c₀ k := by
        by_contra hk
        rw [hok.extended.unsettled hk, hfirst] at hcached
        cases hcached
      obtain ⟨o, hk⟩ := hsettled
      have hv : v = p.kept o := by
        rcases hok.extended.good.settled hk with hmissing | hkept
        · simp [hmissing] at hcached
        · exact Option.some.inj (hcached.symm.trans hkept)
      obtain ⟨-, t, hinner, hend⟩ := hk
      rw [hv]
      exact .settled hnext hfirst hinner hend (.refl _)
    · obtain rfl : v' = v := by
        simpa [hok.extended.good.known hfirst] using hcached
      exact .known hnext hfirst (.refl _)

/-- The result of a frame that is kept settles what it answers. -/
theorem Waits.resume_computed (hp : p.Regular asks c₀ ks) {o : Option ν}
    (h : Waits p asks c₀ ks c frames k) (hk : p.Settles c₀ k o) (hcached : c k ≠ none) :
    ControlOk p asks c₀ ks c (p.resume frames (p.computed o)) := by
  rcases h with hk | ⟨hframe, hnext, hfirst, hrest⟩
  · exact trivial
  · rw [resume]
    simp only [hnext]
    refine .inr (.frame (hframe.answer hnext _ fun htaint => ⟨hcached, ?_⟩) hrest)
    rw [hp.resume_computed hframe.reach hframe.visits hnext (hfirst htaint) hk]
    obtain ⟨hmissing, t, hinner, hend⟩ := hk
    exact .settled hnext hmissing hinner hend (.refl _)

/-! ### Steps -/

variable [DecidableEq κ]

theorem finishFrame_ok (hp : p.Regular asks c₀ ks) {s : Shared κ ν} {o : Option ν}
    (hok : CacheOk p asks c₀ ks s.cache) (hframe : FrameOk p asks c₀ ks s.cache frame l)
    (hrest : Waits p asks c₀ ks s.cache rest frame.key)
    (hend : p.next frame.state = .finish o) :
    CacheOk p asks c₀ ks (p.finishFrame s frame rest o).1.cache ∧
      Grows s.cache (p.finishFrame s frame rest o).1.cache ∧
      ControlOk p asks c₀ ks (p.finishFrame s frame rest o).1.cache
        (p.finishFrame s frame rest o).2 := by
  rw [finishFrame]
  by_cases htaint : frame.tainted = true
  · rw [if_pos htaint]
    refine ⟨hok, fun _ hq => hq, ?_⟩
    rcases hrest with hk | ⟨hcaller, hnext, -, hrest⟩
    · exact trivial
    · rw [taintCaller, resume]
      simp only [hnext]
      refine .inr (.frame (hcaller.taint.answer hnext _ fun h => ?_) hrest)
      cases h
  · rw [if_neg htaint]
    rw [Bool.not_eq_true] at htaint
    have hsettles := hframe.settles htaint hend
    have hgrows : Grows s.cache
        (Function.update s.cache frame.key (some (p.kept o))) :=
      Grows.update fun _ hq => hq
    refine ⟨⟨hok.extended.update hsettles, ?_⟩, hgrows, ?_⟩
    · refine (hok.covered.push frame.key).pop hframe.reach fun r hr => .inl ?_
      exact hframe.asked htaint r (hp.complete hframe.visits hend r hr)
    · exact (hrest.mono hgrows).resume_computed hp hsettles (by simp)

theorem workerStep_ok (hp : p.Regular asks c₀ ks) {s : Shared κ ν} {w : Control κ σ}
    (hok : CacheOk p asks c₀ ks s.cache) (hw : ControlOk p asks c₀ ks s.cache w) :
    CacheOk p asks c₀ ks (p.workerStep s w).1.cache ∧
      Grows s.cache (p.workerStep s w).1.cache ∧
      ControlOk p asks c₀ ks (p.workerStep s w).1.cache (p.workerStep s w).2 := by
  have hsame : Grows s.cache s.cache := fun _ hq => hq
  match w, hw with
  | .idle, hw => exact ⟨hok, hsame, hw⟩
  | .checkCache k, hw =>
      refine ⟨hok, hsame, ?_⟩
      rw [workerStep]
      split_ifs
      · exact trivial
      · exact hw
  | .checkTainted k, hw =>
      refine ⟨hok, hsame, ?_⟩
      rw [workerStep]
      split_ifs
      · exact trivial
      · exact hw
  | .lookUp k frames, hw =>
      rw [workerStep]
      rcases hcached : s.cache k with _ | v
      · refine ⟨hok, hsame, hok.extended.good.missing hcached, ?_⟩
        rcases frames with _ | ⟨frame, rest⟩
        · exact .root hw
        · obtain ⟨⟨hframe, hrest⟩, f, hnext⟩ := hw
          exact .frame hframe hnext (fun htaint hmem => hframe.asked htaint k hmem hcached)
            hrest
      · exact ⟨hok, hsame, hw.resume_hit hok hcached⟩
  | .lookUpTainted k frames, ⟨hmissing, hwaits⟩ =>
      rw [workerStep]
      split_ifs
      · refine ⟨hok, hsame, ?_⟩
        exact hwaits.taintFramesInFlight.resume_tainted (fun _ => tainted_of_mem) _
      · exact ⟨hok, hsame, hwaits.taintFramesInFlight, fun _ => tainted_of_mem⟩
      · refine ⟨hok, hsame, .inr (.frame (l := []) ⟨?_, .start, ?_, ?_⟩ hwaits)⟩
        · rcases hwaits with hk | ⟨hframe, hnext, -, -⟩
          · exact .root hk hmissing
          · exact hframe.reach.call
              (hp.asked (hframe.visits.ask hnext p.nothing) k (List.mem_cons_self ..))
              hmissing
        · exact fun _ => .refl _
        · exact fun _ => List.forall_mem_nil _
  | .breakCycle k frames, ⟨hwaits, htainted⟩ =>
      exact ⟨hok, hsame, hwaits.resume_tainted htainted _⟩
  | .run [], _ => exact ⟨hok, hsame, trivial⟩
  | .run (frame :: rest), hw =>
      obtain ⟨hframe, hrest⟩ := hw.resolve_left (List.cons_ne_nil _ _)
      rw [workerStep]
      rcases hnext : p.next frame.state with s' | ⟨k, f⟩ | o
      · refine ⟨hok, hsame, .inr (.frame ⟨hframe.reach, hframe.visits.silent hnext, ?_,
          hframe.asked⟩ hrest)⟩
        exact fun htaint => (hframe.leads htaint).trans (.silent hnext (.refl _))
      · exact ⟨hok, hsame, .frame hframe hrest, f, hnext⟩
      · exact finishFrame_ok hp hok hframe hrest hnext

/-! ### Runs of the pool -/

variable {ι : Type*} [DecidableEq ι]

theorem PoolStep.ok (hp : p.Regular asks c₀ ks) {pool pool' : Pool ι κ ν σ}
    (h : p.PoolStep pool pool') (hok : PoolOk p asks c₀ ks pool) :
    PoolOk p asks c₀ ks pool' := by
  rcases h with ⟨i, hidle, hk⟩ | i
  · refine ⟨hok.cache, fun q hq => hok.pending q (List.mem_of_mem_erase hq), fun j => ?_⟩
    dsimp only
    by_cases hj : j = i
    · subst hj
      rw [Function.update_self]
      exact hok.pending _ hk
    · rw [Function.update_of_ne hj]
      exact hok.workers j
  · obtain ⟨hcache, hgrows, hworker⟩ := workerStep_ok hp hok.cache (hok.workers i)
    refine ⟨hcache, hok.pending, fun j => ?_⟩
    dsimp only
    by_cases hj : j = i
    · subst hj
      rw [Function.update_self]
      exact hworker
    · rw [Function.update_of_ne hj]
      exact (hok.workers j).mono hgrows

theorem poolOk_of_reachable (hp : p.Regular asks c₀ ks) {pool : Pool ι κ ν σ}
    (h : Relation.ReflTransGen p.PoolStep (initialPool c₀ ks) pool) :
    PoolOk p asks c₀ ks pool := by
  induction h with
  | refl => exact initialPool_ok
  | tail _ hstep ih => exact hstep.ok hp ih

/-- Whatever the workers have done, in whatever order, a pass over the keys ends with the
cache of a pass without them, and it ends if that does. -/
theorem pass_after_pool_iff (hp : p.Regular asks c₀ ks) {pool : Pool ι κ ν σ}
    {c : κ → Option ν} (h : Relation.ReflTransGen p.PoolStep (initialPool c₀ ks) pool) :
    p.Pass pool.shared.cache ks c ↔ p.Pass c₀ ks c :=
  have hok := (poolOk_of_reachable hp h).cache
  pass_iff hp hok.extended hok.covered

end Invariant

end Procedures
end Memoized
