import Mathlib.Data.List.Basic
import Mathlib.Order.WellFounded

/-!
# Computations that probe a set

A computation that asks whether elements belong to a set, and keeps a log of elements
that were found absent.  When every negative answer that can matter is in the log, the
computation can be replayed: under a larger set that contains no logged element it does
the same.  The rules below derive this for a computation from its parts.
-/

/-- A computation that reads a set and extends a log. -/
def Probing (ι α : Type*) :=
  (ι → Bool) → List ι → α × List ι

namespace Probing

variable {ι α β σ : Type*}

/-- Nothing is asked. -/
def done (a : α) : Probing ι α :=
  fun _ log => (a, log)

/-- One computation after the other. -/
def andThen (m : Probing ι α) (f : α → Probing ι β) : Probing ι β :=
  fun K log => f (m K log).1 K (m K log).2

/-- Log an element, once. -/
def record [DecidableEq ι] (i : ι) : Probing ι Unit :=
  fun _ log => ((), if i ∈ log then log else log ++ [i])

/-- Ask without leaving a trace. -/
def peek (i : ι) : Probing ι Bool :=
  fun K log => (K i, log)

/-- Ask, and log the element when it is absent. -/
def ask [DecidableEq ι] (i : ι) : Probing ι Bool :=
  (peek i).andThen fun known =>
    if known then done true else (record i).andThen fun _ => done false

/-- A computation along a list. -/
def fold (f : β → α → Probing ι β) : List α → β → Probing ι β
  | [], b => done b
  | a :: rest, b => (f b a).andThen (fold f rest)

/-- A computation that goes on with a value, unless it has failed. -/
def andThenOk {ε : Type*} (m : Probing ι (Except ε α)) (f : α → Probing ι (Except ε β)) :
    Probing ι (Except ε β) :=
  m.andThen fun result =>
    match result with
    | .ok a => f a
    | .error e => done (.error e)

/-- Steps until one ends; each goes down in a well-founded relation. -/
def loop {r : σ → σ → Prop} (hwf : WellFounded r) (step : σ → Probing ι (σ ⊕ β))
    (hstep : ∀ s K log s', (step s K log).1 = .inl s' → r s' s) (s : σ) : Probing ι β :=
  fun K log =>
    match _h : (step s K log).1 with
    | .inl s' => loop hwf step hstep s' K (step s K log).2
    | .inr b => (b, (step s K log).2)
termination_by hwf.wrap s
decreasing_by exact hstep _ _ _ _ (by assumption)

theorem loop_eq {r : σ → σ → Prop} (hwf : WellFounded r) {step : σ → Probing ι (σ ⊕ β)}
    (hstep : ∀ s K log s', (step s K log).1 = .inl s' → r s' s) (s : σ) :
    loop hwf step hstep s = (step s).andThen (Sum.elim (loop hwf step hstep) done) := by
  funext K log
  rw [loop, andThen]
  split
  · next s' hnext => rw [hnext, Sum.elim_inl]
  · next b hnext => rw [hnext, Sum.elim_inr, done]

/-- At most the given number of steps. -/
def run (step : σ → Probing ι (σ ⊕ β)) : ℕ → σ → Probing ι (Option β)
  | 0, _ => done none
  | fuel + 1, s =>
      (step s).andThen fun next =>
        match next with
        | .inl s' => run step fuel s'
        | .inr b => done (some b)

theorem loop_of_run {r : σ → σ → Prop} (hwf : WellFounded r) {step : σ → Probing ι (σ ⊕ β)}
    (hstep : ∀ s K log s', (step s K log).1 = .inl s' → r s' s) {fuel : ℕ} {s : σ}
    {K : ι → Bool} {log log' : List ι} {b : β}
    (h : run step fuel s K log = (some b, log')) :
    loop hwf step hstep s K log = (b, log') := by
  induction fuel generalizing s log with
  | zero => simp [run, done] at h
  | succ fuel ih =>
      rw [run, andThen] at h
      rw [loop_eq, andThen]
      rcases hnext : (step s K log).1 with s' | b' <;> simp only [hnext] at h
      · exact ih h
      · simp only [done, Prod.mk.injEq, Option.some.injEq] at h
        exact Prod.ext h.1 h.2

/-- What the steps of a loop preserve holds where it ends. -/
theorem loop_invariant {r : σ → σ → Prop} (hwf : WellFounded r)
    {step : σ → Probing ι (σ ⊕ β)}
    (hstep : ∀ s K log s', (step s K log).1 = .inl s' → r s' s) {K : ι → Bool}
    (Invariant : σ → Prop) (Result : β → Prop)
    (hinvariant : ∀ s log s', Invariant s → (step s K log).1 = .inl s' → Invariant s')
    (hresult : ∀ s log b, Invariant s → (step s K log).1 = .inr b → Result b)
    {s : σ} (h : Invariant s) (log : List ι) : Result (loop hwf step hstep s K log).1 := by
  induction s using hwf.induction generalizing log with
  | h s ih =>
      rw [loop_eq, andThen]
      rcases hnext : (step s K log).1 with s' | b
      · exact ih s' (hstep s K log s' hnext) (hinvariant s log s' h hnext) _
      · exact hresult s log b h hnext

/-! ## Replays -/

/-- The log only grows, and under a larger set without logged elements the computation
does the same. -/
structure Replayable (m : Probing ι α) : Prop where
  grows : ∀ K log, ∀ i ∈ log, i ∈ (m K log).2
  replays : ∀ K K' log, (∀ i, K i = true → K' i = true) →
    (∀ i ∈ (m K log).2, K' i = false) → m K' log = m K log

theorem replayable_done (a : α) : Replayable (done a : Probing ι α) :=
  ⟨fun _ _ _ hi => hi, fun _ _ _ _ _ => rfl⟩

/-- What follows need only be replayable for the values that the first part can have. -/
theorem Replayable.andThen_of_value {m : Probing ι α} {f : α → Probing ι β}
    (hm : Replayable m) (hf : ∀ K log, Replayable (f (m K log).1)) :
    Replayable (m.andThen f) := by
  constructor
  · intro K log i hi
    exact (hf K log).grows K _ i (hm.grows K log i hi)
  · intro K K' log hsub habsent
    have hfirst := hm.replays K K' log hsub fun i hi =>
      habsent i ((hf K log).grows K _ i hi)
    rw [Probing.andThen, Probing.andThen, hfirst]
    exact (hf K log).replays K K' _ hsub habsent

theorem Replayable.andThen {m : Probing ι α} {f : α → Probing ι β} (hm : Replayable m)
    (hf : ∀ a, Replayable (f a)) : Replayable (m.andThen f) :=
  hm.andThen_of_value fun _ _ => hf _

theorem Replayable.andThenOk {ε : Type*} {m : Probing ι (Except ε α)}
    {f : α → Probing ι (Except ε β)} (hm : Replayable m) (hf : ∀ a, Replayable (f a)) :
    Replayable (m.andThenOk f) := by
  apply hm.andThen
  rintro (e | a)
  · exact replayable_done _
  · exact hf a

/-- An answer that is not used may be asked for at will. -/
theorem replayable_peek_unused (i : ι) {m : Probing ι α} (hm : Replayable m) :
    Replayable ((peek i).andThen fun _ => m) :=
  ⟨fun K log => hm.grows K log, fun K K' log => hm.replays K K' log⟩

theorem replayable_fold {f : β → α → Probing ι β} (hf : ∀ b a, Replayable (f b a))
    (l : List α) (b : β) : Replayable (fold f l b) := by
  induction l generalizing b with
  | nil => exact replayable_done b
  | cons a l ih => exact (hf b a).andThen ih

/-- A loop of steps that can be replayed can be replayed. -/
theorem replayable_loop {r : σ → σ → Prop} (hwf : WellFounded r)
    {step : σ → Probing ι (σ ⊕ β)}
    (hstep : ∀ s K log s', (step s K log).1 = .inl s' → r s' s)
    (hreplay : ∀ s, Replayable (step s)) (s : σ) :
    Replayable (loop hwf step hstep s) := by
  induction s using hwf.induction with
  | h s ih =>
      rw [loop_eq]
      apply (hreplay s).andThen_of_value
      intro K log
      rcases hnext : (step s K log).1 with s' | b
      · exact ih s' (hstep s K log s' hnext)
      · exact replayable_done b

variable [DecidableEq ι]

theorem mem_record {i : ι} (K : ι → Bool) (log : List ι) : i ∈ (record i K log).2 := by
  rw [record]
  dsimp only
  split_ifs with h
  · exact h
  · simp

theorem replayable_record (i : ι) : Replayable (record i) := by
  refine ⟨fun K log j hj => ?_, fun _ _ _ _ _ => rfl⟩
  rw [record]
  dsimp only
  split_ifs
  · exact hj
  · exact List.mem_append_left _ hj

theorem ask_of_mem {i : ι} {K : ι → Bool} (h : K i = true) (log : List ι) :
    ask i K log = (true, log) := by
  simp [ask, andThen, peek, h, done]

theorem ask_of_absent {i : ι} {K : ι → Bool} (h : K i = false) (log : List ι) :
    ask i K log = (false, (record i K log).2) := by
  simp [ask, andThen, peek, h, done]

/-- A logged negative answer stays, and so does a positive one. -/
theorem replayable_ask (i : ι) : Replayable (ask i) := by
  constructor
  · intro K log j hj
    cases hK : K i
    · rw [ask_of_absent hK]
      exact (replayable_record i).grows K log j hj
    · rw [ask_of_mem hK]
      exact hj
  · intro K K' log hsub habsent
    cases hK : K i
    · rw [ask_of_absent hK] at habsent ⊢
      rw [ask_of_absent (habsent i (mem_record K log))]
      rfl
    · rw [ask_of_mem hK, ask_of_mem (hsub i hK)]

end Probing
