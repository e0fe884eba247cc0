import Mathlib.Data.Nat.Notation

/-!
# Programs that may throw

A program changes a state, and returns a value or throws.  What it changed before it threw
stays changed.  A program meets its conditions when each run from a state of the first ends
in the condition on values or in the condition on failures.
-/

namespace ThrowingPrograms

variable {ε σ α β : Type}

/-- What a program leaves, by the way it ends. -/
def Meets (P : σ → Prop) (program : EStateM ε σ α) (Q : α → σ → Prop)
    (E : ε → σ → Prop) : Prop :=
  ∀ s, P s →
    match program s with
    | .ok value s' => Q value s'
    | .error failure s' => E failure s'

variable {P P' : σ → Prop} {program : EStateM ε σ α} {Q Q' : α → σ → Prop}
  {E E' : ε → σ → Prop}

theorem Meets.mono
    (h : Meets P program Q E) (hP : ∀ s, P' s → P s) (hQ : ∀ value s, Q value s → Q' value s)
    (hE : ∀ failure s, E failure s → E' failure s) : Meets P' program Q' E' := by
  intro s hs
  have hrun := h s (hP s hs)
  cases hprogram : program s with
  | ok value s' =>
      rw [hprogram] at hrun
      exact hQ value s' hrun
  | error failure s' =>
      rw [hprogram] at hrun
      exact hE failure s' hrun

theorem Meets.weaken_failure
    (h : Meets P program Q E) (hE : ∀ failure s, E failure s → E' failure s) :
    Meets P program Q E' :=
  h.mono (fun _ hs => hs) (fun _ _ hs => hs) hE

theorem meets_pure (value : α) (h : ∀ s, P s → Q value s) :
    Meets P (pure value : EStateM ε σ α) Q E :=
  h

theorem meets_throw (failure : ε) (h : ∀ s, P s → E failure s) :
    Meets P (throw failure : EStateM ε σ α) Q E :=
  h

theorem Meets.bind
    {next : α → EStateM ε σ β} {R : β → σ → Prop} (h : Meets P program Q E)
    (hnext : ∀ value, Meets (Q value) (next value) R E) : Meets P (program >>= next) R E := by
  intro s hs
  have hrun := h s hs
  change match EStateM.bind program next s with
    | .ok value s' => R value s'
    | .error failure s' => E failure s'
  unfold EStateM.bind
  cases hprogram : program s with
  | ok value s' =>
      rw [hprogram] at hrun
      exact hnext value s' hrun
  | error failure s' =>
      rw [hprogram] at hrun
      exact hrun

/-! ## Tests, failures and retries -/

/-- One of two programs, by a test of the state. -/
def select (test : σ → Bool) (yes no : EStateM ε σ α) : EStateM ε σ α :=
  fun s => if test s then yes s else no s

theorem meets_select
    {test : σ → Bool} {yes no : EStateM ε σ α}
    (hyes : Meets (fun s => P s ∧ test s = true) yes Q E)
    (hno : Meets (fun s => P s ∧ test s = false) no Q E) : Meets P (select test yes no) Q E := by
  intro s hs
  unfold select
  by_cases htest : test s = true
  · rw [if_pos htest]
    exact hyes s ⟨hs, htest⟩
  · rw [if_neg htest]
    exact hno s ⟨hs, Bool.eq_false_iff.mpr htest⟩

/-- A handler goes on where the program failed. -/
def handle (program : EStateM ε σ α) (handler : ε → EStateM ε σ α) : EStateM ε σ α :=
  fun s =>
    match program s with
    | .ok value s' => .ok value s'
    | .error failure s' => handler failure s'

theorem Meets.handle
    {handler : ε → EStateM ε σ α} (h : Meets P program Q E)
    (hhandler : ∀ failure, Meets (E failure) (handler failure) Q E') :
    Meets P (handle program handler) Q E' := by
  intro s hs
  have hrun := h s hs
  unfold ThrowingPrograms.handle
  cases hprogram : program s with
  | ok value s' =>
      rw [hprogram] at hrun
      exact hrun
  | error failure s' =>
      rw [hprogram] at hrun
      exact hhandler failure s' hrun

/-- A program is followed by another one, however it ends. -/
def ensure (program : EStateM ε σ α) (last : EStateM ε σ Unit) : EStateM ε σ α :=
  fun s =>
    match program s with
    | .ok value s' =>
        match last s' with
        | .ok _ s' => .ok value s'
        | .error failure s' => .error failure s'
    | .error failure s' =>
        match last s' with
        | .ok _ s' => .error failure s'
        | .error failure s' => .error failure s'

/-- The last program fails with failures of its own only. -/
theorem Meets.ensure
    {last : EStateM ε σ Unit} (h : Meets P program Q E)
    (hvalue : ∀ value, Meets (Q value) last (fun _ => Q' value) E')
    (hfailure : ∀ failure, Meets (E failure) last (fun _ => E' failure) E') :
    Meets P (ensure program last) Q' E' := by
  intro s hs
  have hrun := h s hs
  unfold ThrowingPrograms.ensure
  cases hprogram : program s with
  | ok value s' =>
      rw [hprogram] at hrun
      have hlast := hvalue value s' hrun
      simp only
      cases hend : last s' with
      | ok _ s'' =>
          rw [hend] at hlast
          exact hlast
      | error failure s'' =>
          rw [hend] at hlast
          exact hlast
  | error failure s' =>
      rw [hprogram] at hrun
      have hlast := hfailure failure s' hrun
      simp only
      cases hend : last s' with
      | ok _ s'' =>
          rw [hend] at hlast
          exact hlast
      | error failure' s'' =>
          rw [hend] at hlast
          exact hlast

/-- A program that is tried again while it fails for the time being. -/
def retry (transient : ε → Bool) (program : EStateM ε σ α) : ℕ → EStateM ε σ α
  | 0 => program
  | attempts + 1 => handle program fun failure =>
      if transient failure then retry transient program attempts else throw failure

/-- A program that can be tried again wherever it failed can be retried. -/
theorem Meets.retry
    {transient : ε → Bool} (h : Meets P program Q E) (hagain : ∀ failure s, E failure s → P s)
    (attempts : ℕ) : Meets P (retry transient program attempts) Q E := by
  induction attempts with
  | zero => exact h
  | succ attempts ih =>
      refine h.handle fun failure => ?_
      by_cases htransient : transient failure = true
      · rw [if_pos htransient]
        exact ih.mono (hagain failure) (fun _ _ hs => hs) fun _ _ hs => hs
      · rw [if_neg htransient]
        exact meets_throw failure fun _ hs => hs

/-- What each step of a loop keeps is kept by the loop. -/
theorem meets_foldlM
    {step : β → α → EStateM ε σ β} (values : List α)
    (h : ∀ acc, ∀ value, Meets P (step acc value) (fun _ => P) E) (acc : β) :
    Meets P (values.foldlM step acc) (fun _ => P) E := by
  induction values generalizing acc with
  | nil => exact meets_pure acc fun _ hs => hs
  | cons value values ih => exact (h acc value).bind ih

end ThrowingPrograms
