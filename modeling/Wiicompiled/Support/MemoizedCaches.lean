import Wiicompiled.Support.MemoizedProcedures

/-!
# Caches that agree

Two passes over the same keys, from caches that differ at settled keys alone, end with
the same cache: at unsettled keys they go in step, at settled keys both come to the one
result, and which keys are cached in the end is fixed by what the procedures ask for.
-/

namespace Memoized
namespace Procedures

variable {κ ν σ : Type*} {p : Procedures κ ν σ} {asks : κ → Set κ} {c₀ : κ → Option ν}
  {ks : List κ}

/-! ## Cached keys -/

/-- Every cached key is in the first cache or is led to, and what it asks for is cached
or in progress. -/
structure Covered (asks : κ → Set κ) (c₀ : κ → Option ν) (ks : List κ)
    (c : κ → Option ν) (P : List κ) : Prop where
  known : Grows c₀ c
  reached : ∀ {q}, c q ≠ none → c₀ q = none → Reach asks c₀ ks q
  closed : ∀ {q}, c q ≠ none → c₀ q = none → ∀ r ∈ asks q, c r ≠ none ∨ r ∈ P

theorem Covered.missing {c : κ → Option ν} {P : List κ} (h : Covered asks c₀ ks c P) {q : κ}
    (hq : c q = none) : c₀ q = none := by
  by_contra hfirst
  exact h.known q hfirst hq

theorem Covered.push {c : κ → Option ν} {P : List κ} (h : Covered asks c₀ ks c P) (k : κ) :
    Covered asks c₀ ks c (k :: P) :=
  ⟨h.known, h.reached, fun hq hfirst r hr =>
    (h.closed hq hfirst r hr).imp_right (List.mem_cons_of_mem k)⟩

/-! ## Two caches -/

/-- Two caches that differ at settled keys alone. -/
structure Agree (p : Procedures κ ν σ) (c₀ c d : κ → Option ν) : Prop where
  left : Good p c₀ c
  right : Good p c₀ d
  unsettled : ∀ {q}, ¬p.Settled c₀ q → c q = d q

theorem Agree.extends_right {c d d' : κ → Option ν} (h : Agree p c₀ c d)
    (hext : Extends p c₀ d d') : Agree p c₀ c d' :=
  ⟨h.left, hext.good, fun hq => (h.unsettled hq).trans (hext.unsettled hq).symm⟩

theorem Agree.extends_left {c c' d : κ → Option ν} (h : Agree p c₀ c d)
    (hext : Extends p c₀ c c') : Agree p c₀ c' d :=
  ⟨hext.good, h.right, fun hq => (hext.unsettled hq).trans (h.unsettled hq)⟩

/-- The settled keys that have been asked for are in a cache. -/
def Kept (p : Procedures κ ν σ) (c₀ c : κ → Option ν) (l : List κ) : Prop :=
  ∀ q ∈ l, p.Settled c₀ q → c q ≠ none

theorem Kept.cons {c : κ → Option ν} {l : List κ} (h : Kept p c₀ c l) {q : κ}
    (hq : p.Settled c₀ q → c q ≠ none) : Kept p c₀ c (q :: l) :=
  List.forall_mem_cons.mpr ⟨hq, h⟩

theorem Kept.mono {c c' : κ → Option ν} {l : List κ} (h : Kept p c₀ c l)
    (hgrows : Grows c c') : Kept p c₀ c' l :=
  fun q hq hsettled => hgrows q (h q hq hsettled)

theorem clear_of_unsettled (hp : p.Regular asks c₀ ks) {P : List κ} {k : κ}
    (hP : ∀ r ∈ P, ¬p.Settled c₀ r) (hk : p.Settled c₀ k) : Clear asks c₀ P k :=
  fun r hr hbelow => hP r hr (hk.of_transGen hp hbelow)

theorem clear_self (hp : p.Regular asks c₀ ks) {P : List κ} {k : κ}
    (hP : ∀ r ∈ P, ¬p.Settled c₀ r) (hk : p.Settled c₀ k) :
    Clear asks c₀ (k :: P) k :=
  List.forall_mem_cons.mpr ⟨hk.not_transGen_self hp, clear_of_unsettled hp hP hk⟩

variable [DecidableEq κ]

theorem Agree.update {c d : κ → Option ν} (h : Agree p c₀ c d) {k : κ} {v : ν}
    (hmissing : c₀ k = none) (hk : ¬p.Settled c₀ k) :
    Agree p c₀ (Function.update c k (some v)) (Function.update d k (some v)) := by
  refine ⟨h.left.update_unsettled hmissing hk, h.right.update_unsettled hmissing hk,
    fun {q} hq => ?_⟩
  by_cases hqk : q = k
  · subst hqk
    rw [Function.update_self, Function.update_self]
  · rw [Function.update_of_ne hqk, Function.update_of_ne hqk]
    exact h.unsettled hq

/-- Asking for a settled key while only unsettled procedures are in progress. -/
theorem ask_settled (hp : p.Regular asks c₀ ks) {c : κ → Option ν} {P : List κ} {k q : κ}
    {l : List κ} {s : σ} {f : Answer ν → σ} {o : Option ν} (hreach : Reach asks c₀ ks k)
    (hvisits : p.Visits k l s) (hnext : p.next s = .ask q f) (hgood : Good p c₀ c)
    (hq : p.Settles c₀ q o) (hkept : Kept p c₀ c l) (hP : ∀ r ∈ P, ¬p.Settled c₀ r) :
    ∃ c₂, Extends p c₀ c c₂ ∧ c₂ q ≠ none ∧
      ∀ c' o', p.Run c P s c' o' ↔ p.Run c₂ P (f ⟨true, p.kept o⟩) c' o' := by
  have hcalls : Calls asks c₀ q k :=
    ⟨hp.asked (hvisits.ask hnext p.nothing) q (List.mem_cons_self ..), hq.1⟩
  apply ask_settled_of_run hp hreach hvisits hnext hgood hq
  · exact fun hmem => hkept q hmem ⟨o, hq⟩
  · exact fun hmem => hP q hmem ⟨o, hq⟩
  · exact fun _ => hq.run hp (hreach.call hcalls.1 hcalls.2) hgood
      (clear_self hp hP ⟨o, hq⟩)

/-- The results of settled keys in the cache make no difference to a run. -/
theorem Run.simulate (hp : p.Regular asks c₀ ks) {c c' d : κ → Option ν} {P : List κ}
    {s : σ} {o : Option ν} {k : κ} {l : List κ} (h : p.Run c P s c' o)
    (hreach : Reach asks c₀ ks k) (hvisits : p.Visits k l s)
    (hP : ∀ r ∈ P, ¬p.Settled c₀ r) (hagree : Agree p c₀ c d) (hc : Kept p c₀ c l)
    (hd : Kept p c₀ d l) : ∃ d', p.Run d P s d' o ∧ Agree p c₀ c' d' := by
  induction h generalizing d k l with
  | silent hnext _ ih =>
      obtain ⟨d', hrun, hagree'⟩ :=
        ih hreach (hvisits.silent hnext) hP hagree hc hd
      exact ⟨d', .silent hnext hrun, hagree'⟩
  | finish hnext => exact ⟨d, .finish hnext, hagree⟩
  | @hit c c' P s q f v o hnext hcached _ ih =>
      have hvisits' := hvisits.ask hnext ⟨true, v⟩
      by_cases hq : p.Settled c₀ q
      · obtain ⟨o₁, hq⟩ := hq
        obtain rfl : v = p.kept o₁ := by
          rcases hagree.left.settled hq with hmissing | hkept
          · simp [hmissing] at hcached
          · exact Option.some.inj (hcached.symm.trans hkept)
        obtain ⟨d₂, hext, hd₂, hiff⟩ :=
          ask_settled hp hreach hvisits hnext hagree.right hq hd hP
        obtain ⟨d', hrun, hagree'⟩ := ih hreach hvisits' hP (hagree.extends_right hext)
          (hc.cons fun _ => by simp [hcached]) ((hd.mono hext.grows).cons fun _ => hd₂)
        exact ⟨d', (hiff d' o).mpr hrun, hagree'⟩
      · have hcached' := (hagree.unsettled hq).symm.trans hcached
        obtain ⟨d', hrun, hagree'⟩ := ih hreach hvisits' hP hagree
          (hc.cons fun h => absurd h hq) (hd.cons fun h => absurd h hq)
        exact ⟨d', .hit hnext hcached' hrun, hagree'⟩
  | @cycle c c' P s q f o hnext hmissing hin _ ih =>
      have hq := hP q hin
      have hmissing' := (hagree.unsettled hq).symm.trans hmissing
      obtain ⟨d', hrun, hagree'⟩ := ih hreach (hvisits.ask hnext _) hP hagree
        (hc.cons fun h => absurd h hq) (hd.cons fun h => absurd h hq)
      exact ⟨d', .cycle hnext hmissing' hin hrun, hagree'⟩
  | @compute c c₁ c' P s q f o₁ o hnext hmissing hout hinner hrun ihinner ih =>
      have hvisits' := hvisits.ask hnext (p.computed o₁)
      have hfirst := hagree.left.missing hmissing
      have hreach' := hreach.call (hp.asked hvisits' q (List.mem_cons_self ..)) hfirst
      have hc' := hc.mono ((hinner.grows p).update (k := q) (v := p.kept o₁))
      by_cases hq : p.Settled c₀ q
      · obtain ⟨o₂, hq⟩ := hq
        obtain ⟨c₂, hrun₂, hext₂⟩ :=
          hq.run hp hreach' hagree.left (clear_self hp hP ⟨o₂, hq⟩)
        obtain ⟨rfl, rfl⟩ := Run.unique p hinner hrun₂
        obtain ⟨d₂, hext, hd₂, hiff⟩ :=
          ask_settled hp hreach hvisits hnext hagree.right hq hd hP
        obtain ⟨d', hrun', hagree'⟩ := ih hreach hvisits' hP
          ((hagree.extends_left (hext₂.update hq)).extends_right hext)
          (hc'.cons fun _ => by simp) ((hd.mono hext.grows).cons fun _ => hd₂)
        have hasked : q ∉ l := fun hmem => hc q hmem ⟨o₁, hq⟩ hmissing
        rw [hp.resume_computed hreach hvisits hnext hasked hq] at hrun'
        exact ⟨d', (hiff d' o).mpr hrun', hagree'⟩
      · have hmissing' := (hagree.unsettled hq).symm.trans hmissing
        obtain ⟨d₁, hinner', hagree₁⟩ := ihinner hreach' .start
          (List.forall_mem_cons.mpr ⟨hq, hP⟩) hagree (List.forall_mem_nil _)
          (List.forall_mem_nil _)
        have hd' := hd.mono ((hinner'.grows p).update (k := q) (v := p.kept o₁))
        obtain ⟨d', hrun', hagree'⟩ := ih hreach hvisits' hP (hagree₁.update hfirst hq)
          (hc'.cons fun _ => by simp)
          (hd'.cons fun _ => by simp)
        exact ⟨d', .compute hnext hmissing' hout hinner' hrun', hagree'⟩

theorem Pass.simulate (hp : p.Regular asks c₀ ks) {c c' d : κ → Option ν} {ks' : List κ}
    (h : p.Pass c ks' c') (hroots : ∀ k ∈ ks', k ∈ ks) (hagree : Agree p c₀ c d) :
    ∃ d', p.Pass d ks' d' ∧ Agree p c₀ c' d' := by
  induction h generalizing d with
  | nil => exact ⟨d, .nil d, hagree⟩
  | @skip c c' k ks' hcached _ ih =>
      obtain ⟨hk, hroots⟩ := List.forall_mem_cons.mp hroots
      rcases hmissing : d k with _ | v
      · have hsettled : p.Settled c₀ k := by
          by_contra hk
          exact hcached ((hagree.unsettled hk).trans hmissing)
        obtain ⟨o, hsettles⟩ := hsettled
        obtain ⟨d₁, hrun, hext⟩ := hsettles.run hp
          (.root hk (hagree.right.missing hmissing)) hagree.right
          (clear_self hp (List.forall_mem_nil _) ⟨o, hsettles⟩)
        obtain ⟨d', hpass, hagree'⟩ := ih hroots (hagree.extends_right (hext.update hsettles))
        exact ⟨d', .compute hmissing hrun hpass, hagree'⟩
      · obtain ⟨d', hpass, hagree'⟩ := ih hroots hagree
        exact ⟨d', .skip (by simp [hmissing]) hpass, hagree'⟩
  | @compute c c₁ c' k ks' o hmissing hinner _ ih =>
      obtain ⟨hk, hroots⟩ := List.forall_mem_cons.mp hroots
      have hfirst := hagree.left.missing hmissing
      have hreach : Reach asks c₀ ks k := .root hk hfirst
      by_cases hsettled : p.Settled c₀ k
      · have hclear := clear_self hp (List.forall_mem_nil _) hsettled
        obtain ⟨o', hsettles⟩ := hsettled
        obtain ⟨c₂, hrun, hext⟩ := hsettles.run hp hreach hagree.left hclear
        obtain ⟨rfl, rfl⟩ := Run.unique p hinner hrun
        have hagree₁ := hagree.extends_left (hext.update hsettles)
        rcases hsettles' : d k with _ | v
        · obtain ⟨d₁, hrun', hext'⟩ := hsettles.run hp hreach hagree.right hclear
          obtain ⟨d', hpass, hagree'⟩ :=
            ih hroots (hagree₁.extends_right (hext'.update hsettles))
          exact ⟨d', .compute hsettles' hrun' hpass, hagree'⟩
        · obtain ⟨d', hpass, hagree'⟩ := ih hroots hagree₁
          exact ⟨d', .skip (by simp [hsettles']) hpass, hagree'⟩
      · have hmissing' := (hagree.unsettled hsettled).symm.trans hmissing
        obtain ⟨d₁, hinner', hagree₁⟩ := hinner.simulate hp hreach .start
          (List.forall_mem_cons.mpr ⟨hsettled, List.forall_mem_nil _⟩) hagree
          (List.forall_mem_nil _) (List.forall_mem_nil _)
        obtain ⟨d', hpass, hagree'⟩ := ih hroots (hagree₁.update hfirst hsettled)
        exact ⟨d', .compute hmissing' hinner' hpass, hagree'⟩

/-! ## What runs cache -/

/-- A procedure that ends leaves the keys in progress to its caller. -/
theorem Covered.pop {c : κ → Option ν} {P : List κ} {k : κ} {v : ν}
    (h : Covered asks c₀ ks c (k :: P)) (hk : Reach asks c₀ ks k)
    (hasked : ∀ r ∈ asks k, c r ≠ none ∨ r ∈ k :: P) :
    Covered asks c₀ ks (Function.update c k (some v)) P := by
  have hdone : ∀ r, c r ≠ none ∨ r ∈ k :: P →
      Function.update c k (some v) r ≠ none ∨ r ∈ P := by
    rintro r (hr | hr)
    · exact .inl (Grows.update (fun _ hq => hq) r hr)
    · rcases List.mem_cons.mp hr with rfl | hr
      · exact .inl (by simp)
      · exact .inr hr
  refine ⟨h.known.update, fun {q} hq hfirst => ?_,
    fun {q} hq hfirst r hr => hdone r ?_⟩
  · by_cases hqk : q = k
    · exact hqk ▸ hk
    · rw [Function.update_of_ne hqk] at hq
      exact h.reached hq hfirst
  · by_cases hqk : q = k
    · subst hqk
      exact hasked r hr
    · rw [Function.update_of_ne hqk] at hq
      exact h.closed hq hfirst r hr

theorem Run.covered (hp : p.Regular asks c₀ ks) {c c' : κ → Option ν} {P : List κ} {s : σ}
    {o : Option ν} {k : κ} {l : List κ} (h : p.Run c P s c' o) (hreach : Reach asks c₀ ks k)
    (hvisits : p.Visits k l s) (hcovered : Covered asks c₀ ks c P)
    (hasked : ∀ q ∈ l, c q ≠ none ∨ q ∈ P) :
    Covered asks c₀ ks c' P ∧ ∀ q ∈ asks k, c' q ≠ none ∨ q ∈ P := by
  induction h generalizing k l with
  | silent hnext _ ih => exact ih hreach (hvisits.silent hnext) hcovered hasked
  | finish hnext =>
      exact ⟨hcovered, fun q hq => hasked q (hp.complete hvisits hnext q hq)⟩
  | hit hnext hcached _ ih =>
      refine ih hreach (hvisits.ask hnext _) hcovered
        (List.forall_mem_cons.mpr ⟨.inl ?_, hasked⟩)
      simp [hcached]
  | cycle hnext _ hin _ ih =>
      exact ih hreach (hvisits.ask hnext _) hcovered
        (List.forall_mem_cons.mpr ⟨.inr hin, hasked⟩)
  | @compute c c₁ c' P s q f o₁ o hnext hmissing _ hinner _ ihinner ih =>
      have hvisits' := hvisits.ask hnext (p.computed o₁)
      have hreach' := hreach.call (hp.asked hvisits' q (List.mem_cons_self ..))
        (hcovered.missing hmissing)
      obtain ⟨hcovered₁, hasked₁⟩ :=
        ihinner hreach' .start (hcovered.push q) (List.forall_mem_nil _)
      refine ih hreach hvisits' (hcovered₁.pop hreach' hasked₁)
        (List.forall_mem_cons.mpr ⟨.inl (by simp), fun r hr => ?_⟩)
      exact (hasked r hr).imp_left ((hinner.grows p).update r)

theorem Pass.covered (hp : p.Regular asks c₀ ks) {c c' : κ → Option ν} {ks' : List κ}
    (h : p.Pass c ks' c') (hroots : ∀ k ∈ ks', k ∈ ks) (hcovered : Covered asks c₀ ks c []) :
    Covered asks c₀ ks c' [] ∧ Grows c c' ∧
      ∀ k ∈ ks', c' k ≠ none := by
  induction h with
  | nil => exact ⟨hcovered, fun _ hq => hq, List.forall_mem_nil _⟩
  | skip hcached _ ih =>
      obtain ⟨-, hroots⟩ := List.forall_mem_cons.mp hroots
      obtain ⟨hcovered', hgrows, hall⟩ := ih hroots hcovered
      exact ⟨hcovered', hgrows, List.forall_mem_cons.mpr ⟨hgrows _ hcached, hall⟩⟩
  | compute hmissing hinner _ ih =>
      obtain ⟨hk, hroots⟩ := List.forall_mem_cons.mp hroots
      have hreach : Reach asks c₀ ks _ := .root hk (hcovered.missing hmissing)
      obtain ⟨hcovered₁, hasked⟩ := hinner.covered hp hreach .start (hcovered.push _)
        (List.forall_mem_nil _)
      obtain ⟨hcovered', hgrows, hall⟩ := ih hroots (hcovered₁.pop hreach hasked)
      refine ⟨hcovered', fun q hq => hgrows q ((hinner.grows p).update q hq),
        List.forall_mem_cons.mpr ⟨hgrows _ (by simp), hall⟩⟩

/-- A pass leaves what was cached and what the keys lead to. -/
theorem Pass.cached_iff (hp : p.Regular asks c₀ ks) {c c' : κ → Option ν}
    (h : p.Pass c ks c') (hcovered : Covered asks c₀ ks c []) {q : κ} :
    c' q ≠ none ↔ c₀ q ≠ none ∨ Reach asks c₀ ks q := by
  obtain ⟨hcovered', -, hall⟩ := h.covered hp (fun _ hk => hk) hcovered
  constructor
  · intro hq
    by_cases hfirst : c₀ q = none
    · exact .inr (hcovered'.reached hq hfirst)
    · exact .inl hfirst
  · rintro (hq | hq)
    · exact hcovered'.known q hq
    · induction hq with
      | root hk _ => exact hall _ hk
      | @call k r hreach hr _ ih =>
          have hfirst : c₀ k = none := by cases hreach <;> assumption
          simpa using hcovered'.closed ih hfirst r hr

/-! ## Passes agree -/

/-- Results of settled keys that are put into the cache in advance, with the results of
what these ask for, leave the outcome of a pass unchanged. -/
theorem pass_iff (hp : p.Regular asks c₀ ks) {c c' : κ → Option ν}
    (hext : Extends p c₀ c₀ c) (hcovered : Covered asks c₀ ks c []) :
    p.Pass c ks c' ↔ p.Pass c₀ ks c' := by
  have hgood₀ : Good p c₀ c₀ := ⟨id, fun hq => .inl hq.1⟩
  have hcovered₀ : Covered asks c₀ ks c₀ [] :=
    ⟨fun _ hq => hq, fun hq hfirst => absurd hfirst hq, fun hq hfirst => absurd hfirst hq⟩
  have hagree : Agree p c₀ c c₀ := ⟨hext.good, hgood₀, hext.unsettled⟩
  have heq : ∀ {d d'}, p.Pass c ks d → p.Pass c₀ ks d' → Agree p c₀ d d' → d = d' := by
    intro d d' hpass hpass' hagree'
    funext q
    by_cases hq : p.Settled c₀ q
    · obtain ⟨o, hq⟩ := hq
      have hiff : d q ≠ none ↔ d' q ≠ none :=
        (hpass.cached_iff hp hcovered).trans (hpass'.cached_iff hp hcovered₀).symm
      rcases hagree'.left.settled hq with hd | hd <;>
        rcases hagree'.right.settled hq with hd' | hd'
      · rw [hd, hd']
      · simp [hd, hd'] at hiff
      · simp [hd, hd'] at hiff
      · rw [hd, hd']
    · exact hagree'.unsettled hq
  constructor
  · intro h
    obtain ⟨d', hpass, hagree'⟩ := h.simulate hp (fun _ hk => hk) hagree
    rwa [heq h hpass hagree']
  · intro h
    have hflip : Agree p c₀ c₀ c :=
      ⟨hgood₀, hext.good, fun hq => (hext.unsettled hq).symm⟩
    obtain ⟨d, hpass, hagree'⟩ := h.simulate hp (fun _ hk => hk) hflip
    rwa [← heq hpass h ⟨hagree'.right, hagree'.left, fun hq => (hagree'.unsettled hq).symm⟩]

end Procedures
end Memoized
