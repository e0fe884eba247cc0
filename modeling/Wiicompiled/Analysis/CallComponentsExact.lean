import Wiicompiled.Analysis.CallComponents

/-!
# The components are strongly connected components

The traversal with its explicit stack is a depth-first search, so it finishes the functions
in a finishing order, and the sweep against it collects strongly connected components.
-/

namespace Wiicompiled.Analysis.GuestAbiInterproceduralAnalyzer

open StrongComponents Worklist

/-! ## The traversal is a depth-first search -/

section Finish

variable {adjacency : UInt32 → List UInt32} {addresses : List UInt32} {s : FinishState}

def FinishState.search (s : FinishState) : Search UInt32 :=
  ⟨s.traversal.map Prod.fst, s.finishOrder⟩

def Edge (adjacency : UInt32 → List UInt32) (a b : UInt32) : Prop :=
  b ∈ adjacency a

structure FinishInvariant (adjacency : UInt32 → List UInt32) (addresses : List UInt32)
    (s : FinishState) : Prop where
  search : Search.Invariant (Edge adjacency) s.search
  visited : ∀ a, a ∈ s.visited ↔ a ∈ s.traversal.map Prod.fst ∨ a ∈ s.finishOrder
  passed : ∀ p ∈ s.traversal, ∀ i target, i < p.2 → (adjacency p.1)[i]? = some target →
    target ∈ s.visited
  inside : ∀ a ∈ s.visited, a ∈ addresses

theorem finishInvariant_start : FinishInvariant adjacency addresses ⟨[], [], []⟩ where
  search := Search.invariant_start
  visited := fun a => by simp
  passed := fun _ hp => absurd hp List.not_mem_nil
  inside := fun _ ha => absurd ha List.not_mem_nil

/-- What the traversal still has to do: the turns for the functions on the stack, and those
for the functions not seen yet. -/
def work (adjacency : UInt32 → List UInt32) (addresses : List UInt32) (s : FinishState) : ℕ :=
  (s.traversal.map fun p => (adjacency p.1).length - p.2 + 1).sum +
    remaining (fun a => a :: adjacency a) addresses s.visited

section Turns

variable {address target : UInt32} {nextTarget : ℕ} {rest : List (UInt32 × ℕ)}

theorem FinishState.search_eq (hstack : s.traversal = (address, nextTarget) :: rest) :
    s.search = ⟨address :: rest.map Prod.fst, s.finishOrder⟩ := by
  rw [FinishState.search, hstack]
  rfl

theorem work_eq (hstack : s.traversal = (address, nextTarget) :: rest) :
    work adjacency addresses s = (adjacency address).length - nextTarget + 1 +
      (rest.map fun p => (adjacency p.1).length - p.2 + 1).sum +
        remaining (fun a => a :: adjacency a) addresses s.visited := by
  rw [work, hstack, List.map_cons, List.sum_cons]

theorem FinishInvariant.visited_iff (h : FinishInvariant adjacency addresses s)
    (hstack : s.traversal = (address, nextTarget) :: rest) (a : UInt32) :
    a ∈ s.visited ↔ a ∈ address :: rest.map Prod.fst ∨ a ∈ s.finishOrder := by
  rw [h.visited, hstack]
  rfl

/-- Behind a target that has been seen, all targets passed have been seen. -/
theorem FinishInvariant.passed_succ (h : FinishInvariant adjacency addresses s)
    (hstack : s.traversal = (address, nextTarget) :: rest) {visited : List UInt32}
    (hsub : ∀ a ∈ s.visited, a ∈ visited)
    (htarget : (adjacency address)[nextTarget]? = some target) (hknown : target ∈ visited) :
    ∀ p ∈ (address, nextTarget + 1) :: rest, ∀ i other, i < p.2 →
      (adjacency p.1)[i]? = some other → other ∈ visited := by
  intro p hp i other hi hother
  rcases List.mem_cons.mp hp with rfl | hp
  · rcases Nat.lt_succ_iff_lt_or_eq.mp hi with hlt | rfl
    · exact hsub other (h.passed (address, nextTarget)
        (by rw [hstack]; exact List.mem_cons_self) i other hlt hother)
    · rw [htarget] at hother
      exact Option.some_inj.mp hother ▸ hknown
  · exact hsub other (h.passed p (by rw [hstack]; exact List.mem_cons_of_mem _ hp) i other hi
      hother)

theorem FinishInvariant.finish (h : FinishInvariant adjacency addresses s)
    (hstack : s.traversal = (address, nextTarget) :: rest)
    (htarget : (adjacency address)[nextTarget]? = none) :
    FinishInvariant adjacency addresses
        { s with finishOrder := s.finishOrder ++ [address], traversal := rest } ∧
      work adjacency addresses
          { s with finishOrder := s.finishOrder ++ [address], traversal := rest } <
        work adjacency addresses s := by
  have hlength : (adjacency address).length ≤ nextTarget := List.getElem?_eq_none_iff.mp htarget
  have hstep : Search.Step (Edge adjacency) s.search
      ⟨rest.map Prod.fst, s.finishOrder ++ [address]⟩ := by
    rw [FinishState.search_eq hstack]
    refine .finish fun v hv => (h.visited_iff hstack v).mp ?_
    obtain ⟨i, hi, hv⟩ := List.mem_iff_getElem.mp hv
    exact h.passed (address, nextTarget) (by rw [hstack]; exact List.mem_cons_self) i v
      (by omega) (by rw [List.getElem?_eq_getElem hi, hv])
  refine ⟨⟨h.search.step hstep, fun a => ?_, fun p hp => ?_, h.inside⟩, ?_⟩
  · dsimp only
    rw [h.visited_iff hstack, List.mem_cons, List.mem_append, List.mem_singleton]
    tauto
  · exact h.passed p (by rw [hstack]; exact List.mem_cons_of_mem _ hp)
  · rw [work_eq hstack, work]
    dsimp only
    omega

theorem FinishInvariant.pass (h : FinishInvariant adjacency addresses s)
    (hstack : s.traversal = (address, nextTarget) :: rest)
    (htarget : (adjacency address)[nextTarget]? = some target) (hknown : target ∈ s.visited) :
    FinishInvariant adjacency addresses
        { s with traversal := (address, nextTarget + 1) :: rest } ∧
      work adjacency addresses { s with traversal := (address, nextTarget + 1) :: rest } <
        work adjacency addresses s := by
  obtain ⟨hlt, -⟩ := List.getElem?_eq_some_iff.mp htarget
  refine ⟨⟨?_, h.visited_iff hstack, h.passed_succ hstack (fun a ha => ha) htarget hknown,
    h.inside⟩, ?_⟩
  · rw [FinishState.search]
    exact FinishState.search_eq hstack ▸ h.search
  · rw [work_eq hstack, work]
    dsimp only
    rw [List.map_cons, List.sum_cons]
    dsimp only
    omega

theorem FinishInvariant.discover (h : FinishInvariant adjacency addresses s)
    (hstack : s.traversal = (address, nextTarget) :: rest)
    (htarget : (adjacency address)[nextTarget]? = some target) (hfresh : target ∉ s.visited)
    (hinside : target ∈ addresses) :
    FinishInvariant adjacency addresses
        { s with
          visited := target :: s.visited
          traversal := (target, 0) :: (address, nextTarget + 1) :: rest } ∧
      work adjacency addresses
          { s with
            visited := target :: s.visited
            traversal := (target, 0) :: (address, nextTarget + 1) :: rest } <
        work adjacency addresses s := by
  obtain ⟨hlt, hget⟩ := List.getElem?_eq_some_iff.mp htarget
  have hnew := not_or.mp (fun hseen => hfresh ((h.visited_iff hstack target).mpr hseen))
  have hstep : Search.Step (Edge adjacency) s.search
      ⟨target :: address :: rest.map Prod.fst, s.finishOrder⟩ := by
    rw [FinishState.search_eq hstack]
    exact .discover (List.mem_iff_getElem.mpr ⟨nextTarget, hlt, hget⟩) hnew.1 hnew.2
  refine ⟨⟨h.search.step hstep, fun a => ?_, fun p hp i other hi hother => ?_,
    fun a ha => ?_⟩, ?_⟩
  · dsimp only
    simp only [List.mem_cons, h.visited_iff hstack, List.map_cons, or_assoc]
  · rcases List.mem_cons.mp hp with rfl | hp
    · exact absurd hi (Nat.not_lt_zero i)
    · exact h.passed_succ hstack (fun a ha => List.mem_cons_of_mem target ha) htarget
        List.mem_cons_self p hp i other hi hother
  · rcases List.mem_cons.mp ha with rfl | ha
    · exact hinside
    · exact h.inside a ha
  · have hpaid : remaining (fun a => a :: adjacency a) addresses (target :: s.visited) +
        (target :: adjacency target).length ≤
          remaining (fun a => a :: adjacency a) addresses s.visited :=
      remaining_cons_add_le hinside hfresh
    rw [List.length_cons] at hpaid
    rw [work_eq hstack, work]
    dsimp only
    rw [List.map_cons, List.sum_cons, List.map_cons, List.sum_cons]
    dsimp only
    omega

/-- **One turn of the traversal.**  The invariant is kept, and there is less to do. -/
theorem FinishInvariant.visitNext (h : FinishInvariant adjacency addresses s)
    (htargets : ∀ a, ∀ target ∈ adjacency a, target ∈ addresses)
    (hstack : s.traversal = (address, nextTarget) :: rest) :
    FinishInvariant adjacency addresses
        (visitNext adjacency s address nextTarget rest) ∧
      work adjacency addresses (visitNext adjacency s address nextTarget rest) <
        work adjacency addresses s ∧
      ∀ a ∈ s.visited, a ∈ (visitNext adjacency s address nextTarget rest).visited := by
  rw [GuestAbiInterproceduralAnalyzer.visitNext]
  rcases htarget : (adjacency address)[nextTarget]? with _ | target
  · obtain ⟨hinvariant, hless⟩ := h.finish hstack htarget
    exact ⟨hinvariant, hless, fun a ha => ha⟩
  · have hinside : target ∈ addresses := htargets address target (List.mem_of_getElem? htarget)
    dsimp only
    split_ifs with hknown
    · obtain ⟨hinvariant, hless⟩ := h.pass hstack htarget hknown
      exact ⟨hinvariant, hless, fun a ha => ha⟩
    · obtain ⟨hinvariant, hless⟩ := h.discover hstack htarget hknown hinside
      exact ⟨hinvariant, hless, fun a ha => List.mem_cons_of_mem target ha⟩

end Turns

/-- **The traversal.**  It ends with an empty stack, and keeps the invariant. -/
theorem FinishInvariant.traverse (htargets : ∀ a, ∀ target ∈ adjacency a, target ∈ addresses)
    {fuel : ℕ} (h : FinishInvariant adjacency addresses s)
    (hfuel : work adjacency addresses s ≤ fuel) :
    ∃ s', traverse adjacency fuel s = some s' ∧ FinishInvariant adjacency addresses s' ∧
      s'.traversal = [] ∧ ∀ a ∈ s.visited, a ∈ s'.visited := by
  induction fuel generalizing s with
  | zero =>
      have hempty : s.traversal = [] := by
        rcases hstack : s.traversal with _ | ⟨p, rest⟩
        · rfl
        · rw [work, hstack, List.map_cons, List.sum_cons] at hfuel
          omega
      exact ⟨s, if_pos hempty, h, hempty, fun a ha => ha⟩
  | succ fuel ih =>
      rcases hstack : s.traversal with _ | ⟨⟨address, nextTarget⟩, rest⟩
      · refine ⟨s, ?_, h, hstack, fun a ha => ha⟩
        rw [GuestAbiInterproceduralAnalyzer.traverse, hstack]
      · obtain ⟨hnext, hless, hsub⟩ := h.visitNext htargets hstack
        obtain ⟨s', hs', hinvariant, hempty, hsub'⟩ := ih hnext (by omega)
        refine ⟨s', ?_, hinvariant, hempty, fun a ha => hsub' a (hsub a ha)⟩
        rw [GuestAbiInterproceduralAnalyzer.traverse, hstack]
        exact hs'

theorem remaining_le {targets : UInt32 → List UInt32} (visited : List UInt32) :
    remaining targets addresses visited ≤ remaining targets addresses [] := by
  refine List.sum_le_sum fun a _ => ?_
  by_cases ha : a ∈ visited
  · rw [if_pos ha]
    exact Nat.zero_le _
  · rw [if_neg ha, if_neg List.not_mem_nil]

/-- **The finishing order.**  All roots are finished. -/
theorem FinishInvariant.finishRoots
    (htargets : ∀ a, ∀ target ∈ adjacency a, target ∈ addresses) {fuel : ℕ}
    (hfuel : remaining (fun a => a :: adjacency a) addresses [] ≤ fuel) {roots : List UInt32}
    (hroots : ∀ root ∈ roots, root ∈ addresses) (h : FinishInvariant adjacency addresses s)
    (hempty : s.traversal = []) :
    ∃ s', finishRoots adjacency fuel roots s = some s' ∧
      FinishInvariant adjacency addresses s' ∧ s'.traversal = [] ∧
      (∀ a ∈ s.visited, a ∈ s'.visited) ∧ ∀ root ∈ roots, root ∈ s'.visited := by
  induction roots generalizing s with
  | nil => exact ⟨s, rfl, h, hempty, fun a ha => ha, fun _ h => absurd h List.not_mem_nil⟩
  | cons root roots ih =>
      have hroots' : ∀ r ∈ roots, r ∈ addresses := fun r hr =>
        hroots r (List.mem_cons_of_mem root hr)
      rw [GuestAbiInterproceduralAnalyzer.finishRoots]
      by_cases hknown : root ∈ s.visited
      · rw [if_pos hknown]
        obtain ⟨s', hs', hinvariant, hempty', hsub, hall⟩ := ih hroots' h hempty
        refine ⟨s', hs', hinvariant, hempty', hsub, fun r hr => ?_⟩
        rcases List.mem_cons.mp hr with rfl | hr
        · exact hsub r hknown
        · exact hall r hr
      · rw [if_neg hknown]
        have hroot := hroots root List.mem_cons_self
        have hfresh : root ∉ s.finishOrder := fun hmem =>
          hknown ((h.visited root).mpr (Or.inr hmem))
        have hsearch : s.search = ⟨[], s.finishOrder⟩ := by
          rw [FinishState.search, hempty]
          rfl
        have hpushed : FinishInvariant adjacency addresses
            { s with visited := root :: s.visited, traversal := [(root, 0)] } := by
          refine ⟨(hsearch ▸ h.search).step (.root hfresh), fun a => ?_, ?_, ?_⟩
          · simp [h.visited, hempty]
          · intro p hp i target hi
            rw [List.mem_singleton.mp hp] at hi
            exact absurd hi (Nat.not_lt_zero i)
          · intro a ha
            rcases List.mem_cons.mp ha with rfl | ha
            · exact hroot
            · exact h.inside a ha
        have hwork : work adjacency addresses
            { s with visited := root :: s.visited, traversal := [(root, 0)] } ≤ fuel := by
          have hpaid : remaining (fun a => a :: adjacency a) addresses (root :: s.visited) +
              (root :: adjacency root).length ≤
                remaining (fun a => a :: adjacency a) addresses s.visited :=
            remaining_cons_add_le hroot hknown
          have hle : remaining (fun a => a :: adjacency a) addresses s.visited ≤
              remaining (fun a => a :: adjacency a) addresses [] := remaining_le s.visited
          rw [List.length_cons] at hpaid
          simp only [work, List.map_cons, List.map_nil, List.sum_cons, List.sum_nil]
          omega
        obtain ⟨s', hs', hinvariant, hempty', hsub⟩ := hpushed.traverse htargets hwork
        obtain ⟨s'', hs'', hinvariant', hempty'', hsub', hall⟩ := ih hroots' hinvariant hempty'
        refine ⟨s'', ?_, hinvariant', hempty'', ?_, fun r hr => ?_⟩
        · rw [hs', Option.bind_some]
          exact hs''
        · exact fun a ha => hsub' a (hsub a (List.mem_cons_of_mem root ha))
        · rcases List.mem_cons.mp hr with rfl | hr
          · exact hsub' r (hsub r List.mem_cons_self)
          · exact hall r hr

end Finish

/-! ## The sweep collects components -/

section Sweep

variable {edge : UInt32 → UInt32 → Prop} {reverse : UInt32 → List UInt32}
  {addresses : List UInt32}

theorem pushCallers_spec (callers traversal visited : List UInt32) :
    ∃ pushed, pushCallers callers traversal visited = (pushed ++ traversal, pushed ++ visited) ∧
      pushed.Nodup ∧ (∀ x ∈ pushed, x ∈ callers ∧ x ∉ visited) ∧
      ∀ x ∈ callers, x ∈ pushed ++ visited := by
  induction callers generalizing traversal visited with
  | nil => exact ⟨[], rfl, List.nodup_nil, fun _ h => absurd h List.not_mem_nil,
      fun _ h => absurd h List.not_mem_nil⟩
  | cons caller callers ih =>
      by_cases hknown : caller ∈ visited
      · obtain ⟨pushed, heq, hnodup, hpushed, hall⟩ := ih traversal visited
        refine ⟨pushed, ?_, hnodup, fun x hx => ?_, fun x hx => ?_⟩
        · rw [← heq, pushCallers, List.foldl_cons]
          dsimp only
          rw [if_pos hknown]
          rfl
        · exact ⟨List.mem_cons_of_mem caller (hpushed x hx).1, (hpushed x hx).2⟩
        · rcases List.mem_cons.mp hx with rfl | hx
          · exact List.mem_append_right pushed hknown
          · exact hall x hx
      · obtain ⟨pushed, heq, hnodup, hpushed, hall⟩ := ih (caller :: traversal)
          (caller :: visited)
        have hne : ∀ x ∈ pushed, x ≠ caller := fun x hx heq =>
          (hpushed x hx).2 (heq ▸ List.mem_cons_self)
        refine ⟨pushed ++ [caller], ?_, ?_, fun x hx => ?_, fun x hx => ?_⟩
        · rw [List.append_assoc, List.append_assoc, List.singleton_append,
            List.singleton_append, ← heq, pushCallers, List.foldl_cons]
          dsimp only
          rw [if_neg hknown]
          rfl
        · rw [List.nodup_append]
          exact ⟨hnodup, List.nodup_singleton caller, fun x hx y hy =>
            List.mem_singleton.mp hy ▸ hne x hx⟩
        · rcases List.mem_append.mp hx with hx | hx
          · exact ⟨List.mem_cons_of_mem caller (hpushed x hx).1,
              fun h => (hpushed x hx).2 (List.mem_cons_of_mem caller h)⟩
          · rw [List.mem_singleton.mp hx]
            exact ⟨List.mem_cons_self, hknown⟩
        · rw [List.append_assoc, List.singleton_append]
          rcases List.mem_cons.mp hx with rfl | hx
          · exact List.mem_append_right pushed List.mem_cons_self
          · exact hall x hx

/-- The invariant of the collection of a component: what is visited now, where the functions
come from, and that each appears once. -/
structure CollectInvariant (edge : UInt32 → UInt32 → Prop) (addresses old : List UInt32)
    (root : UInt32) (traversal visited component : List UInt32) : Prop where
  seen : ∀ x, x ∈ visited ↔ x ∈ old ∨ x ∈ component ++ traversal
  leads : ∀ x ∈ component ++ traversal, Leads edge old root x
  callers : ∀ y ∈ component, ∀ x, edge x y → x ∈ visited
  nodup : (component ++ traversal).Nodup
  origin : root ∈ component ++ traversal
  inside : ∀ x ∈ component ++ traversal, x ∈ addresses

/-- Functions that have not been visited, each once, are paid for. -/
theorem length_add_remaining_le {pushed visited : List UInt32} (hnodup : pushed.Nodup)
    (hfresh : ∀ x ∈ pushed, x ∉ visited) (hinside : ∀ x ∈ pushed, x ∈ addresses) :
    pushed.length + remaining (fun a => [a]) addresses (pushed ++ visited) ≤
      remaining (fun a => [a]) addresses visited := by
  induction pushed with
  | nil => simp
  | cons x pushed ih =>
      rw [List.nodup_cons] at hnodup
      have hrest := ih hnodup.2 (fun y hy => hfresh y (List.mem_cons_of_mem x hy))
        fun y hy => hinside y (List.mem_cons_of_mem x hy)
      have hx : x ∉ pushed ++ visited := by
        rw [List.mem_append]
        exact not_or.mpr ⟨hnodup.1, hfresh x List.mem_cons_self⟩
      have hpaid : remaining (fun a => [a]) addresses (x :: (pushed ++ visited)) + [x].length ≤
          remaining (fun a => [a]) addresses (pushed ++ visited) :=
        remaining_cons_add_le (hinside x List.mem_cons_self) hx
      rw [List.length_singleton] at hpaid
      rw [List.length_cons, List.cons_append]
      omega

/-- **One turn of the collection.** -/
theorem CollectInvariant.step (hreverse : ∀ x y, x ∈ reverse y ↔ edge x y)
    (hedge : ∀ x y, edge x y → x ∈ addresses) {old traversal visited component : List UInt32}
    {root address : UInt32}
    (h : CollectInvariant edge addresses old root (address :: traversal) visited component) :
    CollectInvariant edge addresses old root
        (pushCallers (reverse address) traversal visited).1
        (pushCallers (reverse address) traversal visited).2 (component ++ [address]) ∧
      (pushCallers (reverse address) traversal visited).1.length +
          remaining (fun a => [a]) addresses
            (pushCallers (reverse address) traversal visited).2 <
        (address :: traversal).length + remaining (fun a => [a]) addresses visited := by
  obtain ⟨pushed, heq, hnodup, hpushed, hall⟩ :=
    pushCallers_spec (reverse address) traversal visited
  rw [heq]
  dsimp only
  have hmem : ∀ x, x ∈ component ++ [address] ++ (pushed ++ traversal) ↔
      x ∈ pushed ∨ x ∈ component ++ address :: traversal := by
    intro x
    simp only [List.mem_append, List.mem_cons, List.not_mem_nil, or_false]
    tauto
  have hinside : ∀ x ∈ pushed, x ∈ addresses := fun x hx =>
    hedge x address ((hreverse x address).mp (hpushed x hx).1)
  refine ⟨⟨fun x => ?_, fun x hx => ?_, fun y hy x hx => ?_, ?_, ?_, fun x hx => ?_⟩, ?_⟩
  · rw [hmem, List.mem_append, h.seen]
    tauto
  · rcases (hmem x).mp hx with hx | hx
    · refine .step (fun hold => (hpushed x hx).2 ((h.seen x).mpr (Or.inl hold)))
        ((hreverse x address).mp (hpushed x hx).1) (h.leads address ?_)
      exact List.mem_append_right component List.mem_cons_self
    · exact h.leads x hx
  · rcases List.mem_append.mp hy with hy | hy
    · exact List.mem_append_right pushed (h.callers y hy x hx)
    · rw [List.mem_singleton.mp hy] at hx
      exact hall x ((hreverse x address).mpr hx)
  · have hperm : (component ++ [address] ++ (pushed ++ traversal)).Perm
        (pushed ++ (component ++ address :: traversal)) := by
      calc component ++ [address] ++ (pushed ++ traversal)
          |>.Perm (pushed ++ (component ++ [address] ++ traversal)) :=
            List.perm_append_comm_assoc _ _ _
        _ = pushed ++ (component ++ address :: traversal) := by
            rw [List.append_assoc component, List.singleton_append]
    rw [hperm.nodup_iff, List.nodup_append]
    refine ⟨hnodup, h.nodup, fun x hx y hy hxy => (hpushed x hx).2 ?_⟩
    exact (h.seen x).mpr (Or.inr (hxy ▸ hy))
  · exact (hmem root).mpr (Or.inr h.origin)
  · rcases (hmem x).mp hx with hx | hx
    · exact hinside x hx
    · exact h.inside x hx
  · have hpaid := length_add_remaining_le hnodup (fun x hx => (hpushed x hx).2) hinside
    rw [List.length_append, List.length_cons]
    omega

theorem CollectInvariant.result {old visited component : List UInt32} {root : UInt32}
    (h : CollectInvariant edge addresses old root [] visited component) :
    (∀ x, x ∈ component ↔ Leads edge old root x) ∧ component.Nodup ∧
      (∀ x, x ∈ visited ↔ x ∈ old ∨ x ∈ component) ∧ ∀ x ∈ component, x ∈ addresses := by
  obtain ⟨hseen, hleads, hcallers, hnodup, horigin, hinside⟩ := h
  rw [List.append_nil] at hnodup horigin
  simp only [List.append_nil] at hseen hleads hinside
  refine ⟨fun x => ⟨hleads x, fun hx => ?_⟩, hnodup, hseen, hinside⟩
  induction hx with
  | root _ => exact horigin
  | step hfresh hedge _ ih =>
      exact ((hseen _).mp (hcallers _ ih _ hedge)).resolve_left hfresh

/-- **A component is collected.**  Everything that leads to the root around what was visited
before is in it, once. -/
theorem CollectInvariant.collect (hreverse : ∀ x y, x ∈ reverse y ↔ edge x y)
    (hedge : ∀ x y, edge x y → x ∈ addresses) {fuel : ℕ}
    {old traversal visited component : List UInt32} {root : UInt32}
    (h : CollectInvariant edge addresses old root traversal visited component)
    (hfuel : traversal.length + remaining (fun a => [a]) addresses visited ≤ fuel) :
    ∃ collected, collect reverse fuel traversal visited component = some collected ∧
      (∀ x, x ∈ collected.1 ↔ Leads edge old root x) ∧ collected.1.Nodup ∧
      (∀ x, x ∈ collected.2 ↔ x ∈ old ∨ x ∈ collected.1) ∧
      ∀ x ∈ collected.1, x ∈ addresses := by
  induction fuel generalizing traversal visited component with
  | zero =>
      obtain rfl : traversal = [] := List.length_eq_zero_iff.mp (by omega)
      exact ⟨(component, visited), rfl, h.result⟩
  | succ fuel ih =>
      rcases traversal with _ | ⟨address, traversal⟩
      · exact ⟨(component, visited), rfl, h.result⟩
      · obtain ⟨hnext, hless⟩ := h.step hreverse hedge
        exact ih hnext (by omega)

/-- The invariant of the sweep: whole components are visited, they are the results, and no
function is in two of them. -/
structure SweepInvariant (edge : UInt32 → UInt32 → Prop) (addresses after visited : List UInt32)
    (result : List (List UInt32)) : Prop where
  whole : WholeComponents edge visited
  swept : ∀ y ∈ after, y ∈ visited
  seen : ∀ x, x ∈ visited ↔ x ∈ result.flatten
  nodup : result.flatten.Nodup
  strong : ∀ component ∈ result, ∃ root ∈ component, ∀ x, x ∈ component ↔ Strong edge root x
  sorted : ∀ component ∈ result, component.Pairwise (· ≤ ·)
  inside : ∀ x ∈ visited, x ∈ addresses

theorem sweepInvariant_start : SweepInvariant edge addresses [] [] [] where
  whole := fun _ hx => absurd hx List.not_mem_nil
  swept := fun _ hy => absurd hy List.not_mem_nil
  seen := fun _ => Iff.rfl
  nodup := List.nodup_nil
  strong := fun _ hc => absurd hc List.not_mem_nil
  sorted := fun _ hc => absurd hc List.not_mem_nil
  inside := fun _ hx => absurd hx List.not_mem_nil

theorem SweepInvariant.collected {after visited visited' component : List UInt32}
    {result : List (List UInt32)} {root : UInt32}
    (h : SweepInvariant edge addresses after visited result) (hroot : root ∉ visited)
    (hstrong : ∀ x, x ∈ component ↔ Strong edge root x) (hnodup : component.Nodup)
    (hseen : ∀ x, x ∈ visited' ↔ x ∈ visited ∨ x ∈ component)
    (hinside : ∀ x ∈ component, x ∈ addresses) :
    SweepInvariant edge addresses (root :: after) visited'
      (result ++ [component.insertionSort (· ≤ ·)]) where
  whole := by
    intro x hx y hxy
    rw [hseen] at hx ⊢
    rcases hx with hx | hx
    · exact Or.inl (h.whole x hx y hxy)
    · exact Or.inr ((hstrong y).mpr (((hstrong x).mp hx).trans hxy))
  swept := by
    intro y hy
    rw [hseen]
    rcases List.mem_cons.mp hy with rfl | hy
    · exact Or.inr ((hstrong y).mpr (Strong.refl y))
    · exact Or.inl (h.swept y hy)
  seen := by
    intro x
    rw [hseen, h.seen, List.flatten_append, List.flatten_singleton, List.mem_append,
      List.mem_insertionSort]
  nodup := by
    rw [List.flatten_append, List.flatten_singleton, List.nodup_append]
    refine ⟨h.nodup, (List.perm_insertionSort _ _).nodup_iff.mpr hnodup, ?_⟩
    intro x hx y hy hxy
    rw [← h.seen] at hx
    rw [List.mem_insertionSort, hstrong, ← hxy] at hy
    exact hroot (h.whole x hx root hy.symm)
  strong := by
    intro c hc
    rcases List.mem_append.mp hc with hc | hc
    · exact h.strong c hc
    · rw [List.mem_singleton.mp hc]
      refine ⟨root, (List.mem_insertionSort _).mpr ((hstrong root).mpr (Strong.refl root)),
        fun x => ?_⟩
      rw [List.mem_insertionSort, hstrong]
  sorted := by
    intro c hc
    rcases List.mem_append.mp hc with hc | hc
    · exact h.sorted c hc
    · rw [List.mem_singleton.mp hc]
      exact List.pairwise_insertionSort _ _
  inside := by
    intro x hx
    rcases (hseen x).mp hx with hx | hx
    · exact h.inside x hx
    · exact hinside x hx

/-- **The sweep.**  Against a finishing order, it collects components until all functions
are visited. -/
theorem SweepInvariant.sweep (hreverse : ∀ x y, x ∈ reverse y ↔ edge x y)
    (hedge : ∀ x y, edge x y → x ∈ addresses) {fuel : ℕ}
    (hfuel : remaining (fun a => [a]) addresses [] ≤ fuel) {order roots after : List UInt32}
    (horder : FinishOrder edge order) (hsplit : order = roots.reverse ++ after)
    (hall : ∀ x, x ∈ order ↔ x ∈ addresses) {visited : List UInt32}
    {result : List (List UInt32)}
    (h : SweepInvariant edge addresses after visited result) :
    ∃ visited' result', sweep reverse fuel roots visited result = some result' ∧
      SweepInvariant edge addresses order visited' result' := by
  induction roots generalizing after visited result with
  | nil =>
      obtain rfl : order = after := hsplit
      exact ⟨visited, result, rfl, h⟩
  | cons root roots ih =>
      rw [List.reverse_cons, List.append_assoc, List.singleton_append] at hsplit
      rw [GuestAbiInterproceduralAnalyzer.sweep]
      by_cases hknown : root ∈ visited
      · rw [if_pos hknown]
        refine ih hsplit { h with swept := fun y hy => ?_ }
        rcases List.mem_cons.mp hy with rfl | hy
        · exact hknown
        · exact h.swept y hy
      · rw [if_neg hknown]
        have hroot : root ∈ addresses := by
          rw [← hall, hsplit]
          exact List.mem_append_right _ List.mem_cons_self
        have hpushed : CollectInvariant edge addresses visited root [root] (root :: visited)
            [] := by
          refine ⟨fun x => ?_, fun x hx => ?_, fun y hy => absurd hy List.not_mem_nil,
            List.nodup_singleton root, List.mem_singleton_self root, fun x hx => ?_⟩
          · rw [List.nil_append, List.mem_cons, List.mem_singleton]
            exact or_comm
          · rw [List.mem_singleton.mp hx]
            exact .root hknown
          · rw [List.mem_singleton.mp hx]
            exact hroot
        have hturns : [root].length + remaining (fun a => [a]) addresses (root :: visited) ≤
            fuel := by
          have hpaid : remaining (fun a => [a]) addresses (root :: visited) + [root].length ≤
              remaining (fun a => [a]) addresses visited := remaining_cons_add_le hroot hknown
          have hle : remaining (fun a => [a]) addresses visited ≤
              remaining (fun a => [a]) addresses [] := remaining_le visited
          omega
        obtain ⟨collected, hcollected, hleads, hnodup, hseen, hinside⟩ :=
          hpushed.collect hreverse hedge hturns
        rw [hcollected, Option.bind_some]
        refine ih hsplit (h.collected hknown (fun x => ?_) hnodup hseen hinside)
        rw [hleads]
        exact leads_iff_strong (hsplit ▸ horder) (fun a b hab => by
          rw [← hsplit, hall]
          exact hedge a b hab) h.whole h.swept hknown

end Sweep

/-! ## The components of the call graph -/

section Components

variable {functions : GuestFunctions} {contracts : ContractMap}

theorem nodup_addresses : (addresses functions).Nodup :=
  functions.ascending.imp fun hlt heq => absurd (heq ▸ hlt) (UInt32.lt_irrefl _)

theorem edge_adjacency :
    Edge (adjacency functions contracts) = Calls functions contracts := by
  funext a b
  rw [Edge, adjacency, Calls]
  rcases functionContract functions contracts a with _ | contract
  · simp
  · simp [List.mem_insertionSort]

theorem Calls.caller_mem {a b : UInt32} (h : Calls functions contracts a b) :
    a ∈ addresses functions := by
  obtain ⟨contract, hcontract, -⟩ := h
  rw [functionContract] at hcontract
  split_ifs at hcontract with ha
  exact ha

/-- The components of the call graph: they partition the functions, and two functions are in
one component exactly when each is reached from the other by direct calls. -/
structure AreComponents (functions : GuestFunctions) (contracts : ContractMap)
    (components : List (List UInt32)) : Prop where
  partition : components.flatten.Perm (addresses functions)
  nonempty : ∀ component ∈ components, component ≠ []
  ascending : ∀ component ∈ components, component.Pairwise (· ≤ ·)
  strong : ∀ a ∈ addresses functions, ∀ b ∈ addresses functions,
    (∃ component ∈ components, a ∈ component ∧ b ∈ component) ↔
      Relation.ReflTransGen (Calls functions contracts) a b ∧
        Relation.ReflTransGen (Calls functions contracts) b a

theorem areComponents_of_sweep {order visited : List UInt32} {result components : List (List UInt32)}
    (h : SweepInvariant (Calls functions contracts) (addresses functions) order visited result)
    (horder : ∀ x, x ∈ order ↔ x ∈ addresses functions) (hperm : components.Perm result) :
    AreComponents functions contracts components := by
  have hmem : ∀ x, x ∈ result.flatten ↔ x ∈ addresses functions := fun x => by
    rw [← h.seen]
    exact ⟨h.inside x, fun hx => h.swept x ((horder x).mpr hx)⟩
  refine ⟨?_, fun component hcomponent => ?_, fun component hcomponent =>
    h.sorted component (hperm.mem_iff.mp hcomponent), fun a ha b hb => ⟨?_, fun hab => ?_⟩⟩
  · exact hperm.flatten.trans ((List.perm_ext_iff_of_nodup h.nodup nodup_addresses).mpr hmem)
  · obtain ⟨root, hroot, -⟩ := h.strong component (hperm.mem_iff.mp hcomponent)
    exact List.ne_nil_of_mem hroot
  · rintro ⟨component, hcomponent, hac, hbc⟩
    obtain ⟨root, -, hstrong⟩ := h.strong component (hperm.mem_iff.mp hcomponent)
    exact ((hstrong a).mp hac).symm.trans ((hstrong b).mp hbc)
  · obtain ⟨component, hcomponent, hac⟩ := List.mem_flatten.mp ((hmem a).mpr ha)
    obtain ⟨root, -, hstrong⟩ := h.strong component hcomponent
    refine ⟨component, hperm.mem_iff.mpr hcomponent, hac, (hstrong b).mpr ?_⟩
    exact ((hstrong a).mp hac).trans hab

/-- **Components.**  When every function has a contract, the analyzer's list is that of the
strongly connected components of the call graph. -/
theorem areComponents_buildComponents (functions : GuestFunctions) (contracts : ContractMap)
    (hcontracts : ∀ address ∈ addresses functions, (contracts address).isSome = true) :
    ∃ components, buildComponents functions contracts = some components ∧
      AreComponents functions contracts components := by
  have htargets : ∀ a, ∀ target ∈ adjacency functions contracts a,
      target ∈ addresses functions := by
    intro a target htarget
    have hcalls : Calls functions contracts a target := edge_adjacency ▸ htarget
    obtain ⟨-, -, -, hmem⟩ := hcalls
    exact hmem
  have hreverse : ∀ x y, x ∈ reverse functions contracts y ↔ Calls functions contracts x y := by
    intro x y
    rw [reverse, List.mem_filter, decide_eq_true_iff, ← edge_adjacency, Edge]
    refine and_iff_right_of_imp fun hxy => ?_
    have hcalls : Calls functions contracts x y := edge_adjacency ▸ hxy
    exact hcalls.caller_mem
  have hturns : remaining (fun a => a :: adjacency functions contracts a) (addresses functions)
      [] ≤ ((addresses functions).map fun address =>
        (adjacency functions contracts address).length + 1).sum := by simp [remaining]
  have hturns' : remaining (fun a => [a]) (addresses functions) [] ≤
      ((addresses functions).map fun address =>
        (adjacency functions contracts address).length + 1).sum := by
    refine List.sum_le_sum fun a _ => ?_
    simp
  obtain ⟨s, hs, hinvariant, hempty, -, hall⟩ :=
    finishInvariant_start.finishRoots htargets hturns (fun root hroot => hroot) rfl
  have horder : ∀ x, x ∈ s.finishOrder ↔ x ∈ addresses functions := by
    intro x
    have hseen : x ∈ s.visited ↔ x ∈ s.finishOrder := by
      rw [hinvariant.visited, hempty]
      simp
    exact ⟨fun hx => hinvariant.inside x (hseen.mpr hx), fun hx => hseen.mp (hall x hx)⟩
  have hfinish : FinishOrder (Calls functions contracts) s.finishOrder :=
    edge_adjacency ▸ hinvariant.search.order
  have hsplit : s.finishOrder = s.finishOrder.reverse.reverse ++ [] := by
    rw [List.reverse_reverse, List.append_nil]
  obtain ⟨visited, result, hresult, hswept⟩ :=
    sweepInvariant_start.sweep hreverse (fun _ _ hcalls => hcalls.caller_mem) hturns' hfinish
      hsplit horder
  refine ⟨_, ?_, areComponents_of_sweep hswept horder (List.perm_insertionSort
    (fun left right : List UInt32 => left.headD 0 ≤ right.headD 0) result)⟩
  rw [buildComponents, if_pos (List.all_eq_true.mpr hcontracts), hs, Option.bind_some, hresult]
  rfl

/-- Two functions that call each other, and a third that calls itself and both. -/
def callingFunctions : GuestFunctions where
  entries := [(0x80004000, ⟨"first", "", []⟩), (0x80004010, ⟨"second", "", []⟩),
    (0x80004020, ⟨"third", "", []⟩)]
  ascending := by decide

def callingContracts : ContractMap := fun address =>
  some {
    readBeforeWrite := .empty
    possibleWrites := .empty
    definiteWrites := .empty
    gprReturnMask := 0
    fprReturnMask := 0
    boundaryFlags := 0
    directCallTargets :=
      if address = 0x80004000 then [0x80004010]
      else if address = 0x80004010 then [0x80004000, 0x80005000]
      else [0x80004020, 0x80004000, 0x80004010] }

theorem areComponents_callingFunctions :
    ∃ components, buildComponents callingFunctions callingContracts = some components ∧
      AreComponents callingFunctions callingContracts components :=
  areComponents_buildComponents callingFunctions callingContracts fun _ _ => rfl

end Components

end Wiicompiled.Analysis.GuestAbiInterproceduralAnalyzer
