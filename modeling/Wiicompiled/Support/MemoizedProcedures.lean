import Mathlib.Data.Set.Basic
import Mathlib.Tactic.ByContra

/-!
# Memoized procedures that break cycles

Procedures with keys that ask for the results of one another.  Results are kept in a
cache; a question about a procedure that is still in progress is answered with a
fallback, so the results on a cycle depend on where it was entered.  A key is settled
when no such answer is behind its result.  The main result is that the results of settled
keys may be put into the cache in advance: runs end with the same cache as before.
-/

namespace Memoized

/-- The answer to a question: whether a result was found, and which. -/
structure Answer (ν : Type*) where
  found : Bool
  value : ν
deriving DecidableEq

/-- What a procedure does next: something of its own, a question, or its end with a
result or a failure. -/
inductive Action (κ ν σ : Type*) where
  | silent (s : σ)
  | ask (k : κ) (resume : Answer ν → σ)
  | finish (result : Option ν)

structure Procedures (κ ν σ : Type*) where
  start : κ → σ
  next : σ → Action κ ν σ
  fallback : ν

variable {κ ν σ : Type*}

/-- A cache that has something for every key for which another has something. -/
def Grows (c c' : κ → Option ν) : Prop :=
  ∀ q, c q ≠ none → c' q ≠ none

theorem Grows.update [DecidableEq κ] {c c' : κ → Option ν} (h : Grows c c') {k : κ} {v : ν} :
    Grows c (Function.update c' k (some v)) := by
  intro q hq
  by_cases hqk : q = k
  · subst hqk
    simp
  · rw [Function.update_of_ne hqk]
    exact h q hq

namespace Procedures

variable (p : Procedures κ ν σ)

/-- What is kept for a result; a failure leaves the fallback. -/
def kept (result : Option ν) : ν :=
  result.getD p.fallback

/-- The answer with a result that has just been computed. -/
def computed (result : Option ν) : Answer ν :=
  ⟨result.isSome, p.kept result⟩

def nothing : Answer ν :=
  ⟨false, p.fallback⟩

/-! ## Runs -/

section Runs

variable [DecidableEq κ]

/-- A run of one procedure to its end, with the procedures in progress, the cache before
and after, and its result. -/
inductive Run : (κ → Option ν) → List κ → σ → (κ → Option ν) → Option ν → Prop
  | silent {c c' : κ → Option ν} {P : List κ} {s s' : σ} {o : Option ν}
      (hnext : p.next s = .silent s') (hrun : Run c P s' c' o) : Run c P s c' o
  | finish {c : κ → Option ν} {P : List κ} {s : σ} {o : Option ν}
      (hnext : p.next s = .finish o) : Run c P s c o
  | hit {c c' : κ → Option ν} {P : List κ} {s : σ} {k : κ} {f : Answer ν → σ} {v : ν}
      {o : Option ν} (hnext : p.next s = .ask k f) (hcached : c k = some v)
      (hrun : Run c P (f ⟨true, v⟩) c' o) : Run c P s c' o
  | cycle {c c' : κ → Option ν} {P : List κ} {s : σ} {k : κ} {f : Answer ν → σ}
      {o : Option ν} (hnext : p.next s = .ask k f) (hmissing : c k = none) (hin : k ∈ P)
      (hrun : Run c P (f p.nothing) c' o) : Run c P s c' o
  | compute {c c₁ c' : κ → Option ν} {P : List κ} {s : σ} {k : κ} {f : Answer ν → σ}
      {o₁ o : Option ν} (hnext : p.next s = .ask k f) (hmissing : c k = none)
      (hout : k ∉ P) (hinner : Run c (k :: P) (p.start k) c₁ o₁)
      (hrun : Run (Function.update c₁ k (some (p.kept o₁))) P (f (p.computed o₁)) c' o) :
      Run c P s c' o

/-- The procedures of a list one after the other, but for those in the cache. -/
inductive Pass : (κ → Option ν) → List κ → (κ → Option ν) → Prop
  | nil (c : κ → Option ν) : Pass c [] c
  | skip {c c' : κ → Option ν} {k : κ} {ks : List κ} (hcached : c k ≠ none)
      (hrest : Pass c ks c') : Pass c (k :: ks) c'
  | compute {c c₁ c' : κ → Option ν} {k : κ} {ks : List κ} {o : Option ν}
      (hmissing : c k = none) (hinner : Run p c [k] (p.start k) c₁ o)
      (hrest : Pass (Function.update c₁ k (some (p.kept o))) ks c') : Pass c (k :: ks) c'

/-! ### The first step of a run -/

section FirstStep

variable {p} {c c' : κ → Option ν} {P : List κ} {s : σ} {o : Option ν}

theorem run_silent_iff {s' : σ} (hnext : p.next s = .silent s') :
    p.Run c P s c' o ↔ p.Run c P s' c' o := by
  refine ⟨fun h => ?_, .silent hnext⟩
  cases h <;> simp_all

theorem run_finish_iff {r : Option ν} (hnext : p.next s = .finish r) :
    p.Run c P s c' o ↔ c' = c ∧ o = r := by
  constructor
  · intro h
    cases h <;> simp_all
  · rintro ⟨rfl, rfl⟩
    exact .finish hnext

theorem run_hit_iff {k : κ} {f : Answer ν → σ} {v : ν} (hnext : p.next s = .ask k f)
    (hcached : c k = some v) : p.Run c P s c' o ↔ p.Run c P (f ⟨true, v⟩) c' o := by
  refine ⟨fun h => ?_, .hit hnext hcached⟩
  cases h <;> simp_all

theorem run_cycle_iff {k : κ} {f : Answer ν → σ} (hnext : p.next s = .ask k f)
    (hmissing : c k = none) (hin : k ∈ P) :
    p.Run c P s c' o ↔ p.Run c P (f p.nothing) c' o := by
  refine ⟨fun h => ?_, .cycle hnext hmissing hin⟩
  cases h <;> simp_all

theorem run_compute_iff {k : κ} {f : Answer ν → σ} (hnext : p.next s = .ask k f)
    (hmissing : c k = none) (hout : k ∉ P) :
    p.Run c P s c' o ↔ ∃ c₁ o₁, p.Run c (k :: P) (p.start k) c₁ o₁ ∧
      p.Run (Function.update c₁ k (some (p.kept o₁))) P (f (p.computed o₁)) c' o := by
  constructor
  · intro h
    cases h with
    | compute hnext' _ _ hinner hrun =>
        rw [hnext] at hnext'
        obtain ⟨rfl, rfl⟩ := Action.ask.inj hnext'
        exact ⟨_, _, hinner, hrun⟩
    | _ => simp_all
  · rintro ⟨c₁, o₁, hinner, hrun⟩
    exact .compute hnext hmissing hout hinner hrun

end FirstStep

/-! ### What runs determine -/

theorem Run.unique {c c₁ c₂ : κ → Option ν} {P : List κ} {s : σ} {o₁ o₂ : Option ν}
    (h₁ : p.Run c P s c₁ o₁) (h₂ : p.Run c P s c₂ o₂) : c₁ = c₂ ∧ o₁ = o₂ := by
  induction h₁ generalizing c₂ o₂ with
  | silent hnext _ ih => exact ih ((run_silent_iff hnext).mp h₂)
  | finish hnext =>
      obtain ⟨rfl, rfl⟩ := (run_finish_iff hnext).mp h₂
      exact ⟨rfl, rfl⟩
  | hit hnext hcached _ ih => exact ih ((run_hit_iff hnext hcached).mp h₂)
  | cycle hnext hmissing hin _ ih => exact ih ((run_cycle_iff hnext hmissing hin).mp h₂)
  | compute hnext hmissing hout _ _ ih₁ ih₂ =>
      obtain ⟨c₃, o₃, hinner, hrun⟩ := (run_compute_iff hnext hmissing hout).mp h₂
      obtain ⟨rfl, rfl⟩ := ih₁ hinner
      exact ih₂ hrun

theorem pass_skip_iff {c c' : κ → Option ν} {k : κ} {ks : List κ} (hcached : c k ≠ none) :
    p.Pass c (k :: ks) c' ↔ p.Pass c ks c' := by
  refine ⟨fun h => ?_, .skip hcached⟩
  cases h with
  | skip _ hrest => exact hrest
  | compute hmissing => exact absurd hmissing hcached

theorem pass_compute_iff {c c' : κ → Option ν} {k : κ} {ks : List κ}
    (hmissing : c k = none) :
    p.Pass c (k :: ks) c' ↔ ∃ c₁ o, p.Run c [k] (p.start k) c₁ o ∧
      p.Pass (Function.update c₁ k (some (p.kept o))) ks c' := by
  constructor
  · intro h
    cases h with
    | skip hcached => exact absurd hmissing hcached
    | compute _ hinner hrest => exact ⟨_, _, hinner, hrest⟩
  · rintro ⟨c₁, o, hinner, hrest⟩
    exact .compute hmissing hinner hrest

theorem Pass.unique {c c₁ c₂ : κ → Option ν} {ks : List κ} (h₁ : p.Pass c ks c₁)
    (h₂ : p.Pass c ks c₂) : c₁ = c₂ := by
  induction h₁ with
  | nil =>
      cases h₂
      rfl
  | skip hcached _ ih => exact ih ((p.pass_skip_iff hcached).mp h₂)
  | compute hmissing hinner _ ih =>
      obtain ⟨c₃, o₃, hinner', hrest⟩ := (p.pass_compute_iff hmissing).mp h₂
      obtain ⟨rfl, rfl⟩ := Run.unique p hinner hinner'
      exact ih hrest

theorem Run.grows {c c' : κ → Option ν} {P : List κ} {s : σ} {o : Option ν}
    (h : p.Run c P s c' o) : Grows c c' := by
  induction h with
  | silent _ _ ih => exact ih
  | finish => exact fun _ hq => hq
  | hit _ _ _ ih => exact ih
  | cycle _ _ _ _ ih => exact ih
  | compute _ _ _ _ _ ih₁ ih₂ => exact fun q hq => ih₂ q (ih₁.update q hq)

/-! ### Runs with a bound -/

section Bounded

/-- A run within a number of steps. -/
def runWithin : ℕ → (κ → Option ν) → List κ → σ → Option ((κ → Option ν) × Option ν)
  | 0, _, _, _ => none
  | n + 1, c, P, s =>
      match p.next s with
      | .silent s' => runWithin n c P s'
      | .finish o => some (c, o)
      | .ask k f =>
          match c k with
          | some v => runWithin n c P (f ⟨true, v⟩)
          | none =>
              if k ∈ P then runWithin n c P (f p.nothing)
              else
                match runWithin n c (k :: P) (p.start k) with
                | some (c₁, o₁) =>
                    runWithin n (Function.update c₁ k (some (p.kept o₁))) P
                      (f (p.computed o₁))
                | none => none

/-- A pass whose runs stay within a number of steps. -/
def passWithin (n : ℕ) : (κ → Option ν) → List κ → Option (κ → Option ν)
  | c, [] => some c
  | c, k :: ks =>
      if (c k).isSome then passWithin n c ks
      else
        match p.runWithin n c [k] (p.start k) with
        | some (c₁, o) => passWithin n (Function.update c₁ k (some (p.kept o))) ks
        | none => none

theorem run_of_runWithin {n : ℕ} {c c' : κ → Option ν} {P : List κ} {s : σ}
    {o : Option ν} (h : p.runWithin n c P s = some (c', o)) : p.Run c P s c' o := by
  induction n generalizing c P s c' o with
  | zero => cases h
  | succ n ih =>
      rw [runWithin] at h
      rcases hnext : p.next s with s' | ⟨k, f⟩ | r <;> simp only [hnext] at h
      · exact .silent hnext (ih h)
      · rcases hk : c k with _ | v <;> simp only [hk] at h
        · split_ifs at h with hin
          · exact .cycle hnext hk hin (ih h)
          · rcases hinner : p.runWithin n c (k :: P) (p.start k) with _ | ⟨c₁, o₁⟩ <;>
              simp only [hinner] at h
            · cases h
            · exact .compute hnext hk hin (ih hinner) (ih h)
        · exact .hit hnext hk (ih h)
      · obtain ⟨rfl, rfl⟩ := Prod.mk.inj (Option.some.inj h)
        exact .finish hnext

theorem pass_of_passWithin {n : ℕ} {c c' : κ → Option ν} {ks : List κ}
    (h : p.passWithin n c ks = some c') : p.Pass c ks c' := by
  induction ks generalizing c with
  | nil =>
      obtain rfl := Option.some.inj h
      exact .nil c
  | cons k ks ih =>
      rw [passWithin] at h
      split_ifs at h with hcached
      · exact .skip (Option.isSome_iff_ne_none.mp hcached) (ih h)
      · rcases hrun : p.runWithin n c [k] (p.start k) with _ | ⟨c₁, o⟩ <;>
          simp only [hrun] at h
        · cases h
        · exact .compute (by simpa using hcached) (p.run_of_runWithin hrun) (ih h)

end Bounded

end Runs

/-! ## Questions -/

/-- The states that a procedure can come to under any answers, with the keys that it has
asked for. -/
inductive Visits (k : κ) : List κ → σ → Prop
  | start : Visits k [] (p.start k)
  | silent {l : List κ} {s s' : σ} (h : Visits k l s) (hnext : p.next s = .silent s') :
      Visits k l s'
  | ask {l : List κ} {s : σ} {q : κ} {f : Answer ν → σ} (h : Visits k l s)
      (hnext : p.next s = .ask q f) (a : Answer ν) : Visits k (q :: l) (f a)

def Fails (k : κ) : Prop :=
  ∃ l s, p.Visits k l s ∧ p.next s = .finish none

/-- The keys outside the cache that the keys of a list lead to. -/
inductive Reach (asks : κ → Set κ) (c₀ : κ → Option ν) (ks : List κ) : κ → Prop
  | root {k : κ} (hk : k ∈ ks) (hmissing : c₀ k = none) : Reach asks c₀ ks k
  | call {k q : κ} (h : Reach asks c₀ ks k) (hq : q ∈ asks k) (hmissing : c₀ q = none) :
      Reach asks c₀ ks q

/-- Which keys a procedure asks for does not depend on the answers, and the first answer
about a failure may as well say that a result was found. -/
structure Regular (asks : κ → Set κ) (c₀ : κ → Option ν) (ks : List κ) : Prop where
  asked : ∀ {k l s}, p.Visits k l s → ∀ q ∈ l, q ∈ asks k
  complete : ∀ {k l s o}, p.Visits k l s → p.next s = .finish o → ∀ q ∈ asks k, q ∈ l
  insensitive : ∀ {k l s q f}, Reach asks c₀ ks k → p.Visits k l s →
    p.next s = .ask q f → q ∉ l → p.Fails q → f p.nothing = f ⟨true, p.fallback⟩

/-! ## Settled keys -/

section Settled

variable (c₀ : κ → Option ν)

/-- The way from a state on which every answer is in the first cache or is the result of
a procedure that has gone such a way itself. -/
inductive Leads : σ → σ → Prop
  | refl (s : σ) : Leads s s
  | silent {s s' t : σ} (hnext : p.next s = .silent s') (h : Leads s' t) : Leads s t
  | known {s t : σ} {q : κ} {f : Answer ν → σ} {v : ν} (hnext : p.next s = .ask q f)
      (hknown : c₀ q = some v) (h : Leads (f ⟨true, v⟩) t) : Leads s t
  | settled {s t u : σ} {q : κ} {f : Answer ν → σ} {o : Option ν}
      (hnext : p.next s = .ask q f) (hmissing : c₀ q = none)
      (hinner : Leads (p.start q) u) (hend : p.next u = .finish o)
      (h : Leads (f ⟨true, p.kept o⟩) t) : Leads s t

/-- The result of a key that depends on no cycle. -/
def Settles (k : κ) (o : Option ν) : Prop :=
  c₀ k = none ∧ ∃ t, p.Leads c₀ (p.start k) t ∧ p.next t = .finish o

def Settled (k : κ) : Prop :=
  ∃ o, p.Settles c₀ k o

variable {p c₀}

theorem Leads.trans {s t u : σ} (h : p.Leads c₀ s t) (h' : p.Leads c₀ t u) :
    p.Leads c₀ s u := by
  induction h with
  | refl => exact h'
  | silent hnext _ ih => exact .silent hnext (ih h')
  | known hnext hknown _ ih => exact .known hnext hknown (ih h')
  | settled hnext hmissing hinner hend _ _ ih =>
      exact .settled hnext hmissing hinner hend (ih h')

theorem Leads.of_finish {s t : σ} {o : Option ν} (h : p.Leads c₀ s t)
    (hend : p.next s = .finish o) : t = s := by
  cases h <;> simp_all

theorem Leads.unique {s t t' : σ} {o o' : Option ν} (h : p.Leads c₀ s t)
    (hend : p.next t = .finish o) (h' : p.Leads c₀ s t') (hend' : p.next t' = .finish o') :
    t = t' := by
  induction h generalizing t' o o' with
  | refl => exact (h'.of_finish hend).symm
  | silent hnext _ ih =>
      cases h' with
      | refl => simp [hnext] at hend'
      | silent hnext' h' =>
          rw [hnext] at hnext'
          obtain rfl := Action.silent.inj hnext'
          exact ih hend h' hend'
      | known hnext' => simp [hnext] at hnext'
      | settled hnext' => simp [hnext] at hnext'
  | known hnext hknown _ ih =>
      cases h' with
      | refl => simp [hnext] at hend'
      | silent hnext' => simp [hnext] at hnext'
      | known hnext' hknown' h' =>
          rw [hnext] at hnext'
          obtain ⟨rfl, rfl⟩ := Action.ask.inj hnext'
          rw [hknown] at hknown'
          obtain rfl := Option.some.inj hknown'
          exact ih hend h' hend'
      | settled hnext' hmissing' =>
          rw [hnext] at hnext'
          obtain ⟨rfl, rfl⟩ := Action.ask.inj hnext'
          simp [hknown] at hmissing'
  | settled hnext hmissing _ hinnerEnd _ ihinner ih =>
      cases h' with
      | refl => simp [hnext] at hend'
      | silent hnext' => simp [hnext] at hnext'
      | known hnext' hknown' =>
          rw [hnext] at hnext'
          obtain ⟨rfl, rfl⟩ := Action.ask.inj hnext'
          simp [hmissing] at hknown'
      | settled hnext' _ hinner' hinnerEnd' h' =>
          rw [hnext] at hnext'
          obtain ⟨rfl, rfl⟩ := Action.ask.inj hnext'
          obtain rfl := ihinner hinnerEnd hinner' hinnerEnd'
          rw [hinnerEnd] at hinnerEnd'
          obtain rfl := Action.finish.inj hinnerEnd'
          exact ih hend h' hend'

theorem Settles.unique {k : κ} {o o' : Option ν} (h : p.Settles c₀ k o)
    (h' : p.Settles c₀ k o') : o = o' := by
  obtain ⟨-, t, hlead, hend⟩ := h
  obtain ⟨-, t', hlead', hend'⟩ := h'
  obtain rfl := hlead.unique hend hlead' hend'
  rw [hend] at hend'
  exact Action.finish.inj hend'

/-- A procedure comes to every state on its way. -/
theorem Leads.visits {s t : σ} {k : κ} {l : List κ} (h : p.Leads c₀ s t)
    (hvisits : p.Visits k l s) : ∃ l', p.Visits k l' t := by
  induction h generalizing l with
  | refl => exact ⟨l, hvisits⟩
  | silent hnext _ ih => exact ih (hvisits.silent hnext)
  | known hnext _ _ ih => exact ih (hvisits.ask hnext _)
  | settled hnext _ _ _ _ _ ih => exact ih (hvisits.ask hnext _)

theorem Settles.fails {k : κ} (h : p.Settles c₀ k none) : p.Fails k := by
  obtain ⟨-, t, hlead, hend⟩ := h
  obtain ⟨l, hvisits⟩ := hlead.visits .start
  exact ⟨l, t, hvisits, hend⟩

end Settled

/-! ## Settled keys are on no cycle -/

section Regular

variable {p} {asks : κ → Set κ} {c₀ : κ → Option ν} {ks : List κ}

/-- One procedure asks for another that is not in the first cache. -/
def Calls (asks : κ → Set κ) (c₀ : κ → Option ν) (q k : κ) : Prop :=
  q ∈ asks k ∧ c₀ q = none

theorem Leads.acc (hp : p.Regular asks c₀ ks) {s t : σ} {k : κ} {l : List κ}
    {o : Option ν} (h : p.Leads c₀ s t) (hend : p.next t = .finish o)
    (hvisits : p.Visits k l s) (hasked : ∀ q ∈ l, c₀ q = none → Acc (Calls asks c₀) q) :
    Acc (Calls asks c₀) k := by
  induction h generalizing k l o with
  | refl =>
      refine ⟨k, fun q hq => ?_⟩
      exact hasked q (hp.complete hvisits hend q hq.1) hq.2
  | silent hnext _ ih => exact ih hend (hvisits.silent hnext) hasked
  | known hnext hknown _ ih =>
      refine ih hend (hvisits.ask hnext _) (List.forall_mem_cons.mpr ⟨?_, hasked⟩)
      intro hmissing
      simp [hknown] at hmissing
  | settled hnext _ _ hinnerEnd _ ihinner ih =>
      refine ih hend (hvisits.ask hnext _) (List.forall_mem_cons.mpr ⟨fun _ => ?_, hasked⟩)
      exact ihinner hinnerEnd .start (List.forall_mem_nil _)

/-- No chain of calls leads from a settled key to itself. -/
theorem Settled.not_transGen_self (hp : p.Regular asks c₀ ks) {k : κ}
    (h : p.Settled c₀ k) : ¬Relation.TransGen (Calls asks c₀) k k := by
  obtain ⟨o, -, t, hlead, hend⟩ := h
  have hirrefl : ∀ q, Acc (Relation.TransGen (Calls asks c₀)) q →
      ¬Relation.TransGen (Calls asks c₀) q q := by
    intro q hacc
    induction hacc with
    | intro q _ ih => exact fun hcycle => ih q hcycle hcycle
  exact hirrefl k (hlead.acc hp hend .start (List.forall_mem_nil _)).transGen

/-- All that a settled procedure asks for is settled, or in the first cache. -/
theorem Leads.settled_asked {s t : σ} {k : κ} {l : List κ} (h : p.Leads c₀ s t)
    (hvisits : p.Visits k l s) (hasked : ∀ q ∈ l, c₀ q = none → p.Settled c₀ q) :
    ∃ l', p.Visits k l' t ∧ ∀ q ∈ l', c₀ q = none → p.Settled c₀ q := by
  induction h generalizing l with
  | refl => exact ⟨l, hvisits, hasked⟩
  | silent hnext _ ih => exact ih (hvisits.silent hnext) hasked
  | known hnext hknown _ ih =>
      refine ih (hvisits.ask hnext _) (List.forall_mem_cons.mpr ⟨?_, hasked⟩)
      intro hmissing
      simp [hknown] at hmissing
  | settled hnext hmissing hinner hinnerEnd _ _ ih =>
      refine ih (hvisits.ask hnext _) (List.forall_mem_cons.mpr ⟨fun _ => ?_, hasked⟩)
      exact ⟨_, hmissing, _, hinner, hinnerEnd⟩

theorem Settled.of_calls (hp : p.Regular asks c₀ ks) {q k : κ} (h : p.Settled c₀ k)
    (hcalls : Calls asks c₀ q k) : p.Settled c₀ q := by
  obtain ⟨o, -, t, hlead, hend⟩ := h
  obtain ⟨l, hvisits, hasked⟩ := hlead.settled_asked .start (List.forall_mem_nil _)
  exact hasked q (hp.complete hvisits hend q hcalls.1) hcalls.2

theorem Settled.of_transGen (hp : p.Regular asks c₀ ks) {q k : κ} (h : p.Settled c₀ k)
    (hbelow : Relation.TransGen (Calls asks c₀) q k) : p.Settled c₀ q := by
  induction hbelow using Relation.TransGen.head_induction_on with
  | single hcalls => exact h.of_calls hp hcalls
  | head hcalls _ ih => exact ih.of_calls hp hcalls

/-- The first question about a settled key has the same effect whether its procedure
failed just now or before. -/
theorem Regular.resume_computed (hp : p.Regular asks c₀ ks) {k q : κ} {l : List κ} {s : σ}
    {f : Answer ν → σ} {o : Option ν} (hreach : Reach asks c₀ ks k)
    (hvisits : p.Visits k l s) (hnext : p.next s = .ask q f) (hfirst : q ∉ l)
    (hq : p.Settles c₀ q o) : f (p.computed o) = f ⟨true, p.kept o⟩ := by
  rcases o with _ | v
  · exact hp.insensitive hreach hvisits hnext hfirst hq.fails
  · rfl

/-! ## Caches with settled results -/

/-- A cache that has the results of the first one, and for settled keys no others than
theirs. -/
structure Good (p : Procedures κ ν σ) (c₀ c : κ → Option ν) : Prop where
  known : ∀ {q v}, c₀ q = some v → c q = some v
  settled : ∀ {q o}, p.Settles c₀ q o → c q = none ∨ c q = some (p.kept o)

theorem Good.missing {c : κ → Option ν} (h : Good p c₀ c) {q : κ} (hq : c q = none) :
    c₀ q = none := by
  rcases hfirst : c₀ q with _ | v
  · rfl
  · simp [h.known hfirst] at hq

/-- One cache has what another has, and all that is new is settled. -/
structure Extends (p : Procedures κ ν σ) (c₀ c c' : κ → Option ν) : Prop where
  good : Good p c₀ c'
  grows : Grows c c'
  unsettled : ∀ {q}, ¬p.Settled c₀ q → c' q = c q

theorem Extends.refl {c : κ → Option ν} (h : Good p c₀ c) : Extends p c₀ c c :=
  ⟨h, fun _ hq => hq, fun _ => rfl⟩

theorem Extends.trans {c c' c'' : κ → Option ν} (h : Extends p c₀ c c')
    (h' : Extends p c₀ c' c'') : Extends p c₀ c c'' :=
  ⟨h'.good, fun q hq => h'.grows q (h.grows q hq), fun hq =>
    (h'.unsettled hq).trans (h.unsettled hq)⟩

/-- None of the procedures in progress is one that a key leads to. -/
def Clear (asks : κ → Set κ) (c₀ : κ → Option ν) (P : List κ) (k : κ) : Prop :=
  ∀ r ∈ P, ¬Relation.TransGen (Calls asks c₀) r k

theorem Clear.call {P : List κ} {q k : κ} (hp : p.Regular asks c₀ ks)
    (h : Clear asks c₀ P k) (hcalls : Calls asks c₀ q k) (hq : p.Settled c₀ q) :
    q ∉ P ∧ Clear asks c₀ (q :: P) q := by
  constructor
  · intro hmem
    exact h q hmem (.single hcalls)
  · intro r hr hbelow
    rcases List.mem_cons.mp hr with rfl | hr
    · exact hq.not_transGen_self hp hbelow
    · exact h r hr (hbelow.tail hcalls)

variable [DecidableEq κ]

theorem Good.update_settled {c : κ → Option ν} (h : Good p c₀ c) {k : κ} {o : Option ν}
    (hk : p.Settles c₀ k o) : Good p c₀ (Function.update c k (some (p.kept o))) := by
  constructor
  · intro q v hq
    have hne : q ≠ k := by
      rintro rfl
      simp [hk.1] at hq
    rw [Function.update_of_ne hne]
    exact h.known hq
  · intro q o' hq
    by_cases hqk : q = k
    · subst hqk
      rw [Function.update_self, hk.unique hq]
      exact .inr rfl
    · rw [Function.update_of_ne hqk]
      exact h.settled hq

theorem Good.update_unsettled {c : κ → Option ν} (h : Good p c₀ c) {k : κ} {v : ν}
    (hmissing : c₀ k = none) (hk : ¬p.Settled c₀ k) :
    Good p c₀ (Function.update c k (some v)) := by
  constructor
  · intro q w hq
    have hne : q ≠ k := by
      rintro rfl
      simp [hmissing] at hq
    rw [Function.update_of_ne hne]
    exact h.known hq
  · intro q o hq
    have hne : q ≠ k := by
      rintro rfl
      exact hk ⟨o, hq⟩
    rw [Function.update_of_ne hne]
    exact h.settled hq

theorem Extends.update {c c' : κ → Option ν} (h : Extends p c₀ c c') {k : κ}
    {o : Option ν} (hk : p.Settles c₀ k o) :
    Extends p c₀ c (Function.update c' k (some (p.kept o))) := by
  refine ⟨h.good.update_settled hk, h.grows.update, fun {q} hq => ?_⟩
  · have hne : q ≠ k := by
      rintro rfl
      exact hq ⟨o, hk⟩
    rw [Function.update_of_ne hne]
    exact h.unsettled hq

/-! ## Runs through settled keys -/

/-- Asking for a settled key comes to going on with its result, in a cache that has
it. -/
theorem ask_settled_of_run (hp : p.Regular asks c₀ ks) {c : κ → Option ν} {P : List κ}
    {k q : κ} {l : List κ} {s : σ} {f : Answer ν → σ} {o : Option ν}
    (hreach : Reach asks c₀ ks k) (hvisits : p.Visits k l s)
    (hnext : p.next s = .ask q f) (hgood : Good p c₀ c) (hq : p.Settles c₀ q o)
    (hasked : q ∈ l → c q ≠ none) (hout : q ∉ P)
    (hrun : c q = none → ∃ c₁, p.Run c (q :: P) (p.start q) c₁ o ∧ Extends p c₀ c c₁) :
    ∃ c₂, Extends p c₀ c c₂ ∧ c₂ q ≠ none ∧
      ∀ c' o', p.Run c P s c' o' ↔ p.Run c₂ P (f ⟨true, p.kept o⟩) c' o' := by
  rcases hgood.settled hq with hmissing | hcached
  · obtain ⟨c₁, hrun, hext⟩ := hrun hmissing
    refine ⟨_, hext.update hq, by simp, fun c' o' => ?_⟩
    have hfirst : q ∉ l := fun hmem => hasked hmem hmissing
    rw [run_compute_iff hnext hmissing hout,
      ← hp.resume_computed hreach hvisits hnext hfirst hq]
    constructor
    · rintro ⟨c₃, o₃, hinner, hrest⟩
      obtain ⟨rfl, rfl⟩ := Run.unique p hinner hrun
      exact hrest
    · intro hrest
      exact ⟨c₁, o, hrun, hrest⟩
  · refine ⟨c, .refl hgood, by simp [hcached], fun c' o' => ?_⟩
    exact run_hit_iff hnext hcached

/-- A settled procedure runs to its end from everywhere on its way, whatever settled
results are in the cache. -/
theorem Leads.run (hp : p.Regular asks c₀ ks) {s t : σ} {k : κ} {l P : List κ}
    {c : κ → Option ν} {o : Option ν} (h : p.Leads c₀ s t) (hend : p.next t = .finish o)
    (hreach : Reach asks c₀ ks k) (hvisits : p.Visits k l s) (hgood : Good p c₀ c)
    (hasked : ∀ q ∈ l, c q ≠ none) (hclear : Clear asks c₀ P k) :
    ∃ c', p.Run c P s c' o ∧ Extends p c₀ c c' := by
  induction h generalizing k l P c o with
  | refl => exact ⟨c, .finish hend, .refl hgood⟩
  | silent hnext _ ih =>
      obtain ⟨c', hrun, hext⟩ :=
        ih hend hreach (hvisits.silent hnext) hgood hasked hclear
      exact ⟨c', .silent hnext hrun, hext⟩
  | known hnext hknown _ ih =>
      have hcached := hgood.known hknown
      obtain ⟨c', hrun, hext⟩ := ih hend hreach (hvisits.ask hnext _) hgood
        (List.forall_mem_cons.mpr ⟨by simp [hcached], hasked⟩) hclear
      exact ⟨c', .hit hnext hcached hrun, hext⟩
  | @settled s t u q f o₁ hnext hmissing hinner hinnerEnd hrest ihinner ih =>
      have hq : p.Settles c₀ q o₁ := ⟨hmissing, u, hinner, hinnerEnd⟩
      have hcalls : Calls asks c₀ q k :=
        ⟨hp.asked (hvisits.ask hnext p.nothing) q (List.mem_cons_self ..), hmissing⟩
      obtain ⟨hout, hclear'⟩ := hclear.call hp hcalls ⟨o₁, hq⟩
      obtain ⟨c₂, hext, hcached, hiff⟩ := ask_settled_of_run hp hreach hvisits hnext hgood
        hq (hasked q) hout fun _ => ihinner hinnerEnd (hreach.call hcalls.1 hmissing)
          .start hgood (List.forall_mem_nil _) hclear'
      obtain ⟨c', hrun, hext'⟩ := ih hend hreach (hvisits.ask hnext _) hext.good
        (List.forall_mem_cons.mpr ⟨hcached, fun r hr => hext.grows r (hasked r hr)⟩) hclear
      exact ⟨c', (hiff c' o).mpr hrun, hext.trans hext'⟩

theorem Settles.run (hp : p.Regular asks c₀ ks) {k : κ} {P : List κ} {c : κ → Option ν}
    {o : Option ν} (h : p.Settles c₀ k o) (hreach : Reach asks c₀ ks k)
    (hgood : Good p c₀ c) (hclear : Clear asks c₀ P k) :
    ∃ c', p.Run c P (p.start k) c' o ∧ Extends p c₀ c c' := by
  obtain ⟨-, t, hlead, hend⟩ := h
  exact hlead.run hp hend hreach .start hgood (List.forall_mem_nil _) hclear

end Regular

end Procedures

end Memoized
