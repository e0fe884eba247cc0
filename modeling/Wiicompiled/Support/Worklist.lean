import Mathlib.Algebra.Order.BigOperators.Group.List
import Mathlib.Tactic.Ring

/-!
# Worklists

Three loops that visit only what may have changed.  A search queues the targets of
every node that it sees for the first time; it ends with a set that is closed under
targets.  A propagation recomputes the fact of a node and queues the nodes whose facts
depend on it when the fact changes; for monotone equations started below their own
images it ends with the least solution.  Rounds with dirty nodes evaluate only the nodes
whose facts the last round moved; they keep step with the rounds that evaluate every
node.
-/

namespace Worklist

variable {ι : Type*} [DecidableEq ι]

/-! ## Search -/

section Search

/-- Visit the nodes of the queue and what they lead to. -/
def search (targets : ι → List ι) : ℕ → List ι → List ι → Option (List ι)
  | _, [], visited => some visited
  | 0, _ :: _, _ => none
  | fuel + 1, i :: queue, visited =>
      if i ∈ visited then search targets fuel queue visited
      else
        search targets fuel (queue ++ (targets i).filter fun j => j ∉ i :: visited)
          (i :: visited)

variable {targets : ι → List ι} {nodes : List ι}

/-- What every step of the search keeps holds at its end. -/
theorem search_invariant {P : List ι → List ι → Prop}
    (hskip : ∀ i queue visited, i ∈ visited → P (i :: queue) visited → P queue visited)
    (hvisit : ∀ i queue visited, i ∉ visited → P (i :: queue) visited →
      P (queue ++ (targets i).filter fun j => j ∉ i :: visited) (i :: visited))
    {fuel : ℕ} {queue visited result : List ι} (hstart : P queue visited)
    (h : search targets fuel queue visited = some result) : P [] result := by
  induction fuel generalizing queue visited with
  | zero =>
      cases queue with
      | cons i queue => cases h
      | nil => exact Option.some.inj h ▸ hstart
  | succ fuel ih =>
      cases queue with
      | nil => exact Option.some.inj h ▸ hstart
      | cons i queue =>
          rw [search] at h
          split at h
          · next hi => exact ih (hskip i queue visited hi hstart) h
          · next hi => exact ih (hvisit i queue visited hi hstart) h

/-- The visited nodes contain the queue and all that visited nodes lead to. -/
theorem search_closed {fuel : ℕ} {queue visited result : List ι}
    (hclosed : ∀ i ∈ visited, ∀ j ∈ targets i, j ∈ visited ∨ j ∈ queue)
    (h : search targets fuel queue visited = some result) :
    (∀ i ∈ visited, i ∈ result) ∧ (∀ i ∈ queue, i ∈ result) ∧
      ∀ i ∈ result, ∀ j ∈ targets i, j ∈ result := by
  -- nothing that has been queued is lost
  obtain ⟨hkept, hresult⟩ := search_invariant
    (P := fun q v => (∀ i ∈ visited ++ queue, i ∈ v ∨ i ∈ q) ∧
      ∀ i ∈ v, ∀ j ∈ targets i, j ∈ v ∨ j ∈ q)
    (fun i q v hi ⟨hkept, hclosed⟩ => by
      have hmove : ∀ k, k ∈ v ∨ k ∈ i :: q → k ∈ v ∨ k ∈ q := by
        rintro k (hk | hk)
        · exact .inl hk
        · rcases List.mem_cons.mp hk with rfl | hk
          · exact .inl hi
          · exact .inr hk
      exact ⟨fun k hk => hmove k (hkept k hk), fun k hk j hj => hmove j (hclosed k hk j hj)⟩)
    (fun i q v _ ⟨hkept, hclosed⟩ => by
      have hmove : ∀ k, k ∈ v ∨ k ∈ i :: q → k ∈ i :: v ∨
          k ∈ q ++ (targets i).filter fun j => j ∉ i :: v := by
        rintro k (hk | hk)
        · exact .inl (List.mem_cons_of_mem i hk)
        · rcases List.mem_cons.mp hk with rfl | hk
          · exact .inl List.mem_cons_self
          · exact .inr (List.mem_append_left _ hk)
      refine ⟨fun k hk => hmove k (hkept k hk), fun k hk j hj => ?_⟩
      rcases List.mem_cons.mp hk with rfl | hk
      · by_cases hjv : j ∈ k :: v
        · exact .inl hjv
        · exact .inr (List.mem_append_right _ (List.mem_filter.mpr ⟨hj, by simpa using hjv⟩))
      · exact hmove j (hclosed k hk j hj))
    ⟨fun i hi => List.mem_append.mp hi, hclosed⟩ h
  simp only [List.not_mem_nil, or_false] at hkept hresult
  exact ⟨fun i hi => hkept i (List.mem_append_left _ hi),
    fun i hi => hkept i (List.mem_append_right _ hi), hresult⟩

/-- What holds of the queue and passes on to targets holds of all nodes visited. -/
theorem search_forall {P : ι → Prop} (htargets : ∀ i, P i → ∀ j ∈ targets i, P j) {fuel : ℕ}
    {queue visited result : List ι} (hqueue : ∀ i ∈ queue, P i)
    (hvisited : ∀ i ∈ visited, P i)
    (h : search targets fuel queue visited = some result) : ∀ i ∈ result, P i := by
  refine (search_invariant (P := fun q v => (∀ i ∈ q, P i) ∧ ∀ i ∈ v, P i)
    (fun i q v _ hall => ⟨(List.forall_mem_cons.mp hall.1).2, hall.2⟩)
    (fun i q v _ hall => ?_) ⟨hqueue, hvisited⟩ h).2
  obtain ⟨hi, hq⟩ := List.forall_mem_cons.mp hall.1
  refine ⟨List.forall_mem_append.mpr ⟨hq, fun k hk => ?_⟩, List.forall_mem_cons.mpr ⟨hi, hall.2⟩⟩
  exact htargets i hi k (List.mem_filter.mp hk).1

theorem search_nodup {fuel : ℕ} {queue visited result : List ι} (hvisited : visited.Nodup)
    (h : search targets fuel queue visited = some result) : result.Nodup :=
  search_invariant (P := fun _ v => v.Nodup) (fun _ _ _ _ hv => hv)
    (fun _ _ _ hi hv => List.nodup_cons.mpr ⟨hi, hv⟩) hvisited h

/-- What the search may still queue. -/
def remaining (targets : ι → List ι) (nodes visited : List ι) : ℕ :=
  (nodes.map fun i => if i ∈ visited then 0 else (targets i).length).sum

theorem remaining_cons_add_le {visited : List ι} {i : ι} (hi : i ∈ nodes)
    (hfresh : i ∉ visited) :
    remaining targets nodes (i :: visited) + (targets i).length ≤
      remaining targets nodes visited := by
  have hle : ∀ l : List ι,
      remaining targets l (i :: visited) ≤ remaining targets l visited := by
    intro l
    apply List.sum_le_sum
    intro j _
    by_cases hj : j ∈ visited <;> by_cases hji : j = i <;> simp [hj, hji]
  induction nodes with
  | nil => cases hi
  | cons j nodes ih =>
      have hcons : ∀ v : List ι, remaining targets (j :: nodes) v =
          (if j ∈ v then 0 else (targets j).length) + remaining targets nodes v :=
        fun v => by simp [remaining]
      rw [hcons, hcons]
      by_cases hji : j = i
      · subst hji
        have := hle nodes
        simp only [List.mem_cons_self, if_true, hfresh, if_false]
        omega
      · have hstep := ih ((List.mem_cons.mp hi).resolve_left (Ne.symm hji))
        have hsame : (j ∈ i :: visited) ↔ j ∈ visited := by simp [hji]
        simp only [hsame]
        omega

theorem search_isSome (htargets : ∀ i ∈ nodes, ∀ j ∈ targets i, j ∈ nodes) {fuel : ℕ}
    {queue visited : List ι} (hqueue : ∀ i ∈ queue, i ∈ nodes)
    (hfuel : queue.length + remaining targets nodes visited ≤ fuel) :
    (search targets fuel queue visited).isSome := by
  induction fuel generalizing queue visited with
  | zero =>
      cases queue with
      | nil => rfl
      | cons i queue => simp at hfuel
  | succ fuel ih =>
      cases queue with
      | nil => rfl
      | cons i queue =>
          have hi := hqueue i List.mem_cons_self
          have hrest : ∀ k ∈ queue, k ∈ nodes :=
            fun k hk => hqueue k (List.mem_cons_of_mem i hk)
          rw [List.length_cons] at hfuel
          rw [search]
          split
          · exact ih hrest (by omega)
          · next hfresh =>
              apply ih
              · intro k hk
                rcases List.mem_append.mp hk with hk | hk
                · exact hrest k hk
                · exact htargets i hi k (List.mem_filter.mp hk).1
              · have hrelease : remaining targets nodes (i :: visited) + (targets i).length ≤
                    remaining targets nodes visited := remaining_cons_add_le hi hfresh
                have hfilter := List.length_filter_le
                  (fun j => decide (j ∉ i :: visited)) (targets i)
                rw [List.length_append]
                omega

end Search

/-! ## Propagation -/

section Propagation

variable {α : Type*}

/-- Recompute the facts of the queued nodes; a fact that changes queues the nodes that
depend on it. -/
def drain [DecidableEq α] (F : ι → (ι → α) → α) (dependents : ι → List ι) :
    ℕ → (ι → α) → List ι → Option (ι → α)
  | _, facts, [] => some facts
  | 0, _, _ :: _ => none
  | fuel + 1, facts, i :: queue =>
      if F i facts = facts i then drain F dependents fuel facts queue
      else
        drain F dependents fuel (Function.update facts i (F i facts))
          (queue ++ (dependents i).filter fun j => j ∉ queue)

variable {F : ι → (ι → α) → α} {dependents : ι → List ι} {facts : ι → α}
  {queue nodes : List ι}

/-- Nodes outside the queue have the facts that are recomputed for them. -/
def SettledOutside (F : ι → (ι → α) → α) (facts : ι → α) (queue : List ι) : Prop :=
  ∀ i, i ∉ queue → F i facts = facts i

theorem SettledOutside.pop {i : ι} (h : SettledOutside F facts (i :: queue))
    (hi : F i facts = facts i) : SettledOutside F facts queue := by
  intro j hj
  by_cases hji : j = i
  · rw [hji, hi]
  · exact h j (by simp [hji, hj])

/-- Only the facts of dependents change with a fact. -/
theorem SettledOutside.update
    (hdependents : ∀ i j facts value, j ∉ dependents i →
      F j (Function.update facts i value) = F j facts)
    {i : ι} (h : SettledOutside F facts (i :: queue)) :
    SettledOutside F (Function.update facts i (F i facts))
      (queue ++ (dependents i).filter fun j => j ∉ queue) := by
  intro j hj
  rw [List.mem_append, not_or, List.mem_filter, decide_eq_true_eq] at hj
  have hfree : j ∉ dependents i := fun hmem => hj.2 ⟨hmem, hj.1⟩
  rw [hdependents i j facts _ hfree]
  by_cases hji : j = i
  · subst hji
    rw [Function.update_self]
  · rw [Function.update_of_ne hji]
    exact h j (by simp [hji, hj.1])

variable [PartialOrder α]

/-- No fact exceeds what is recomputed from the facts. -/
def Increasing (F : ι → (ι → α) → α) (facts : ι → α) : Prop :=
  ∀ i, facts i ≤ F i facts

theorem Increasing.le_update (h : Increasing F facts) (i : ι) :
    facts ≤ Function.update facts i (F i facts) := by
  intro j
  by_cases hj : j = i
  · subst hj
    rw [Function.update_self]
    exact h j
  · rw [Function.update_of_ne hj]

theorem Increasing.update (hF : ∀ i, Monotone (F i)) (h : Increasing F facts) (i : ι) :
    Increasing F (Function.update facts i (F i facts)) := by
  have hle := h.le_update i
  intro j
  by_cases hj : j = i
  · subst hj
    rw [Function.update_self]
    exact hF j hle
  · rw [Function.update_of_ne hj]
    exact (h j).trans (hF j hle)

/-- A propagation that ends has found the least solution of the equations, and the
least of their prefixed points. -/
theorem drain_least [DecidableEq α] (hF : ∀ i, Monotone (F i))
    (hdependents : ∀ i j facts value, j ∉ dependents i →
      F j (Function.update facts i value) = F j facts)
    {fuel : ℕ} {result : ι → α} (hincreasing : Increasing F facts)
    (hsettled : SettledOutside F facts queue)
    (h : drain F dependents fuel facts queue = some result) :
    (∀ i, F i result = result i) ∧
      ∀ other, (∀ i, F i other ≤ other i) → facts ≤ other → result ≤ other := by
  induction fuel generalizing facts queue with
  | zero =>
      cases queue with
      | cons i queue => cases h
      | nil =>
          obtain rfl := Option.some.inj h
          exact ⟨fun i => hsettled i (by simp), fun _ _ hle => hle⟩
  | succ fuel ih =>
      cases queue with
      | nil =>
          obtain rfl := Option.some.inj h
          exact ⟨fun i => hsettled i (by simp), fun _ _ hle => hle⟩
      | cons i queue =>
          rw [drain] at h
          by_cases hi : F i facts = facts i
          · rw [if_pos hi] at h
            exact ih hincreasing (hsettled.pop hi) h
          · rw [if_neg hi] at h
            obtain ⟨hsolves, hleast⟩ :=
              ih (hincreasing.update hF i) (hsettled.update hdependents) h
            refine ⟨hsolves, fun other hother hle => hleast other hother ?_⟩
            intro j
            by_cases hj : j = i
            · subst hj
              rw [Function.update_self]
              exact (hF j hle).trans (hother j)
            · rw [Function.update_of_ne hj]
              exact hle j

/-- How far the facts of some nodes may still rise. -/
def headroom (size : α → ℕ) (bound : ℕ) (nodes : List ι) (facts : ι → α) : ℕ :=
  (nodes.map fun i => bound - size (facts i)).sum

theorem headroom_update_lt {size : α → ℕ} {bound : ℕ} (hsize : ∀ a, size a ≤ bound)
    (hstrict : StrictMono size) {i : ι} {value : α} (hi : i ∈ nodes)
    (hlt : facts i < value) :
    headroom size bound nodes (Function.update facts i value) <
      headroom size bound nodes facts := by
  have hrise := hstrict hlt
  have hbound := hsize value
  apply List.sum_lt_sum
  · intro j _
    by_cases hj : j = i
    · subst hj
      rw [Function.update_self]
      omega
    · rw [Function.update_of_ne hj]
  · refine ⟨i, hi, ?_⟩
    rw [Function.update_self]
    omega

/-- The propagation ends: every change uses up headroom that pays for the nodes it
queues. -/
theorem drain_isSome [DecidableEq α] {size : α → ℕ} {bound width : ℕ} (hF : ∀ i, Monotone (F i))
    (hsize : ∀ a, size a ≤ bound) (hstrict : StrictMono size)
    (hnodes : ∀ i ∈ nodes, ∀ j ∈ dependents i, j ∈ nodes)
    (hwidth : ∀ i, (dependents i).length ≤ width) {fuel : ℕ}
    (hincreasing : Increasing F facts) (hqueue : ∀ i ∈ queue, i ∈ nodes)
    (hfuel : headroom size bound nodes facts * (width + 1) + queue.length ≤ fuel) :
    (drain F dependents fuel facts queue).isSome := by
  induction fuel generalizing facts queue with
  | zero =>
      cases queue with
      | nil => rfl
      | cons i queue => simp at hfuel
  | succ fuel ih =>
      cases queue with
      | nil => rfl
      | cons i queue =>
          have hi := hqueue i List.mem_cons_self
          have hrest : ∀ k ∈ queue, k ∈ nodes :=
            fun k hk => hqueue k (List.mem_cons_of_mem i hk)
          rw [List.length_cons] at hfuel
          rw [drain]
          by_cases hsame : F i facts = facts i
          · rw [if_pos hsame]
            exact ih hincreasing hrest (by omega)
          · rw [if_neg hsame]
            have hlt : facts i < F i facts :=
              lt_of_le_of_ne (hincreasing i) (Ne.symm hsame)
            apply ih (hincreasing.update hF i)
            · intro k hk
              rcases List.mem_append.mp hk with hk | hk
              · exact hrest k hk
              · exact hnodes i hi k (List.mem_filter.mp hk).1
            · have hdrop := headroom_update_lt hsize hstrict hi hlt
              have hpaid := Nat.mul_le_mul_right (width + 1) (Nat.succ_le_of_lt hdrop)
              rw [Nat.succ_mul] at hpaid
              have hfilter := List.length_filter_le (fun j => decide (j ∉ queue))
                (dependents i)
              have hi' := hwidth i
              rw [List.length_append]
              omega

end Propagation

/-! ## Rounds with dirty nodes -/

section Rounds

variable {α γ : Type*} [DecidableEq α]

/-- The facts that all nodes get from the contributions of all nodes. -/
def recomputeAll (eval : ι → α → γ) (merge : (ι → γ) → ι → α) (facts : ι → α) : ι → α :=
  merge fun i => eval i (facts i)

/-- The facts, the contributions computed last, and the nodes to evaluate next. -/
structure Progress (ι α γ : Type*) where
  facts : ι → α
  contributions : ι → γ
  dirty : List ι

/-- Evaluate the dirty nodes and merge again at their targets; the flag tells whether a
fact moved. -/
def dirtyRound (eval : ι → α → γ) (merge : (ι → γ) → ι → α) (targets : ι → List ι)
    (s : Progress ι α γ) : Progress ι α γ × Bool :=
  let contributions := fun i => if i ∈ s.dirty then eval i (s.facts i) else s.contributions i
  let affected := (s.dirty.flatMap targets).eraseDups
  let moved := affected.filter fun j => merge contributions j ≠ s.facts j
  ({ facts := fun j => if j ∈ moved then merge contributions j else s.facts j
     contributions := contributions
     dirty := moved.filter fun j => !(targets j).isEmpty },
    !moved.isEmpty)

/-- Rounds until no fact moves, if that happens within the given number. -/
def dirtyRounds (eval : ι → α → γ) (merge : (ι → γ) → ι → α) (targets : ι → List ι) :
    ℕ → Progress ι α γ → Option (ι → α)
  | 0, _ => none
  | fuel + 1, s =>
      let next := dirtyRound eval merge targets s
      if next.2 then dirtyRounds eval merge targets fuel next.1 else some next.1.facts

variable {eval : ι → α → γ} {merge : (ι → γ) → ι → α} {targets : ι → List ι}
  {s : Progress ι α γ}

/-- What the dirty nodes do not reach is up to date. -/
structure UpToDate (eval : ι → α → γ) (merge : (ι → γ) → ι → α) (targets : ι → List ι)
    (s : Progress ι α γ) : Prop where
  contributions : ∀ i, i ∉ s.dirty → targets i ≠ [] →
    s.contributions i = eval i (s.facts i)
  facts : ∀ j, (∀ i ∈ s.dirty, j ∉ targets i) →
    recomputeAll eval merge s.facts j = s.facts j

/-- A merge reads only the contributions of the nodes that have it as a target. -/
def MergesTargets (merge : (ι → γ) → ι → α) (targets : ι → List ι) : Prop :=
  ∀ c c' j, (∀ i, j ∈ targets i → c i = c' i) → merge c j = merge c' j

/-- A round recomputes all facts, and leaves what the next dirty nodes do not reach up
to date. -/
theorem UpToDate.dirtyRound (hmerge : MergesTargets merge targets)
    (h : UpToDate eval merge targets s) :
    (Worklist.dirtyRound eval merge targets s).1.facts = recomputeAll eval merge s.facts ∧
      UpToDate eval merge targets (Worklist.dirtyRound eval merge targets s).1 ∧
      ((Worklist.dirtyRound eval merge targets s).2 = false ↔
        recomputeAll eval merge s.facts = s.facts) := by
  let contributions := fun i =>
    if i ∈ s.dirty then eval i (s.facts i) else s.contributions i
  let moved := (s.dirty.flatMap targets).eraseDups.filter
    fun j => merge contributions j ≠ s.facts j
  have hround : Worklist.dirtyRound eval merge targets s =
      (⟨fun j => if j ∈ moved then merge contributions j else s.facts j, contributions,
        moved.filter fun j => !(targets j).isEmpty⟩, !moved.isEmpty) := rfl
  have hcontributions : ∀ i, targets i ≠ [] → contributions i = eval i (s.facts i) := by
    intro i hi
    by_cases hdirty : i ∈ s.dirty
    · exact if_pos hdirty
    · exact (if_neg hdirty).trans (h.contributions i hdirty hi)
  have hmerged : ∀ j, merge contributions j = recomputeAll eval merge s.facts j := by
    intro j
    apply hmerge
    intro i hi
    exact hcontributions i (List.ne_nil_of_mem hi)
  have hunmoved : ∀ j, j ∉ moved → recomputeAll eval merge s.facts j = s.facts j := by
    intro j hj
    by_cases haffected : ∃ i ∈ s.dirty, j ∈ targets i
    · by_contra hne
      refine hj (List.mem_filter.mpr ⟨?_, by simpa [hmerged] using hne⟩)
      rw [List.mem_eraseDups]
      exact List.mem_flatMap.mpr haffected
    · push Not at haffected
      exact h.facts j haffected
  have hfacts : (Worklist.dirtyRound eval merge targets s).1.facts =
      recomputeAll eval merge s.facts := by
    rw [hround]
    funext j
    by_cases hj : j ∈ moved
    · exact (if_pos hj).trans (hmerged j)
    · exact (if_neg hj).trans (hunmoved j hj).symm
  have hkept : ∀ i, i ∉ (Worklist.dirtyRound eval merge targets s).1.dirty →
      targets i ≠ [] → recomputeAll eval merge s.facts i = s.facts i := by
    intro i hi htargets
    apply hunmoved
    intro hmoved
    rw [hround] at hi
    exact hi (List.mem_filter.mpr ⟨hmoved, by simpa using htargets⟩)
  refine ⟨hfacts, ⟨?_, ?_⟩, ?_⟩
  · intro i hi htargets
    rw [hfacts, hkept i hi htargets, hround]
    exact hcontributions i htargets
  · intro j hj
    rw [hfacts]
    -- the nodes with this target have kept their facts, so it is merged as before
    apply hmerge
    intro i hi
    rw [hkept i (fun hdirty => hj i hdirty hi) (List.ne_nil_of_mem hi)]
  · rw [hround]
    constructor
    · intro hflag
      have hnil : moved = [] := by simpa using hflag
      funext j
      exact hunmoved j (by simp [hnil])
    · intro hsame
      have hnil : moved = [] := by
        rw [List.filter_eq_nil_iff]
        intro j _
        simp [hmerged, hsame]
      simp [hnil]

/-- The rounds end within the limit with a result exactly when recomputing all facts
over and over gets there by then. -/
theorem dirtyRounds_eq_some (hmerge : MergesTargets merge targets) {fuel : ℕ}
    (h : UpToDate eval merge targets s) {result : ι → α} :
    dirtyRounds eval merge targets fuel s = some result ↔
      recomputeAll eval merge result = result ∧
        ∃ k < fuel, (recomputeAll eval merge)^[k] s.facts = result := by
  induction fuel generalizing s with
  | zero => simp [dirtyRounds]
  | succ fuel ih =>
      obtain ⟨hfacts, hnext, hflag⟩ := h.dirtyRound hmerge
      rw [dirtyRounds]
      by_cases hmoved : (Worklist.dirtyRound eval merge targets s).2 = true
      · have hchanges : recomputeAll eval merge s.facts ≠ s.facts :=
          fun hsame => by simp [hflag.mpr hsame] at hmoved
        simp only [hmoved, if_true]
        rw [ih hnext, hfacts]
        constructor
        · rintro ⟨hfixed, k, hk, hresult⟩
          exact ⟨hfixed, k + 1, by omega, hresult⟩
        · rintro ⟨hfixed, k, hk, hresult⟩
          refine ⟨hfixed, ?_⟩
          rcases k with _ | k
          · rw [Function.iterate_zero, id_eq] at hresult
            rw [← hresult] at hfixed
            exact absurd hfixed hchanges
          · exact ⟨k, by omega, hresult⟩
      · have hsame : recomputeAll eval merge s.facts = s.facts :=
          hflag.mp (Bool.eq_false_iff.mpr hmoved)
        simp only [hmoved, Bool.false_eq_true, if_false, hfacts, hsame, Option.some.injEq]
        constructor
        · rintro rfl
          exact ⟨hsame, 0, by omega, rfl⟩
        · rintro ⟨-, k, -, rfl⟩
          exact (Function.iterate_fixed hsame k).symm

end Rounds

end Worklist
