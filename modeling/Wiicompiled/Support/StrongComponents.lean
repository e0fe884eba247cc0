import Mathlib.Data.List.Nodup
import Mathlib.Logic.Relation

/-!
# Strongly connected components by two searches

A depth-first search of a graph finishes its nodes in an order with one property: where a
node is reached from outside its own component, some node of that other component is
finished later.  A sweep against the order, which collects from each new node what leads
to it around the nodes collected before, therefore collects whole components.
-/

namespace StrongComponents

variable {α : Type*}

/-- There is a path. -/
def Reaches (edge : α → α → Prop) (a b : α) : Prop :=
  Relation.ReflTransGen edge a b

/-- Two nodes of one component. -/
def Strong (edge : α → α → Prop) (a b : α) : Prop :=
  Reaches edge a b ∧ Reaches edge b a

variable {edge : α → α → Prop} {a b c : α}

theorem Reaches.trans (h : Reaches edge a b) (h' : Reaches edge b c) : Reaches edge a c :=
  Relation.ReflTransGen.trans h h'

theorem Strong.refl (a : α) : Strong edge a a :=
  ⟨.refl, .refl⟩

theorem Strong.symm (h : Strong edge a b) : Strong edge b a :=
  ⟨h.2, h.1⟩

theorem Strong.trans (h : Strong edge a b) (h' : Strong edge b c) : Strong edge a c :=
  ⟨h.1.trans h'.1, h'.2.trans h.2⟩

/-! ## Depth-first search -/

/-- The nodes that the search has entered and not left, the last one first, and those that
it has left, in order. -/
structure Search (α : Type*) where
  stack : List α
  finished : List α

/-- A step of the search. -/
inductive Search.Step (edge : α → α → Prop) : Search α → Search α → Prop
  | root {v : α} {finished : List α} (hfresh : v ∉ finished) :
      Search.Step edge ⟨[], finished⟩ ⟨[v], finished⟩
  | discover {t v : α} {rest finished : List α} (hedge : edge t v) (hstack : v ∉ t :: rest)
      (hfinished : v ∉ finished) :
      Search.Step edge ⟨t :: rest, finished⟩ ⟨v :: t :: rest, finished⟩
  | finish {t : α} {rest finished : List α}
      (hdone : ∀ v, edge t v → v ∈ t :: rest ∨ v ∈ finished) :
      Search.Step edge ⟨t :: rest, finished⟩ ⟨rest, finished ++ [t]⟩

/-- A path whose nodes before the last one are all among the given ones. -/
inductive Through (edge : α → α → Prop) (nodes : List α) : α → α → Prop
  | edge {a b : α} (ha : a ∈ nodes) (hedge : edge a b) : Through edge nodes a b
  | step {a b c : α} (ha : a ∈ nodes) (hedge : edge a b) (h : Through edge nodes b c) :
      Through edge nodes a c

namespace Through

variable {nodes : List α}

theorem reaches (h : Through edge nodes a b) : Reaches edge a b := by
  induction h with
  | edge _ hedge => exact .single hedge
  | step _ hedge _ ih => exact .head hedge ih

/-- The last edge begins at one of the nodes. -/
theorem exists_last (h : Through edge nodes a b) : ∃ w ∈ nodes, edge w b := by
  induction h with
  | edge ha hedge => exact ⟨_, ha, hedge⟩
  | step _ _ _ ih => exact ih

/-- A path through one more node does not pass it, or leads to it. -/
theorem of_append_singleton {t : α} (h : Through edge (nodes ++ [t]) a b) :
    Through edge nodes a b ∨ a = t ∨ Through edge nodes a t := by
  induction h with
  | edge ha hedge =>
      rcases List.mem_append.mp ha with ha | ha
      · exact Or.inl (.edge ha hedge)
      · exact Or.inr (Or.inl (List.mem_singleton.mp ha))
  | step ha hedge _ ih =>
      rcases List.mem_append.mp ha with ha | ha
      · rcases ih with hpath | heq | hpath
        · exact Or.inl (.step ha hedge hpath)
        · exact Or.inr (Or.inr (.edge ha (heq ▸ hedge)))
        · exact Or.inr (Or.inr (.step ha hedge hpath))
      · exact Or.inr (Or.inl (List.mem_singleton.mp ha))

end Through

/-- A path that leaves some nodes has a first node outside. -/
theorem exists_through {nodes : List α} (h : Reaches edge a b) (ha : a ∈ nodes)
    (hb : b ∉ nodes) : ∃ p, p ∉ nodes ∧ Through edge nodes a p ∧ Reaches edge p b := by
  induction h using Relation.ReflTransGen.head_induction_on with
  | refl => exact absurd ha hb
  | @head x y hedge hrest ih =>
      by_cases hy : y ∈ nodes
      · obtain ⟨p, hp, hpath, hreach⟩ := ih hy
        exact ⟨p, hp, .step ha hedge hpath, hreach⟩
      · exact ⟨y, hy, .edge ha hedge, hrest⟩

/-- The property of a finishing order: who reaches a node is reached from it, or has in its
component a node that is not finished by then. -/
def FinishOrder (edge : α → α → Prop) (order : List α) : Prop :=
  ∀ before r after, order = before ++ r :: after →
    ∀ x, Reaches edge x r → Reaches edge r x ∨ ∃ y, Strong edge x y ∧ y ∉ before ++ [r]

/-- The invariant of the search. -/
structure Search.Invariant (edge : α → α → Prop) (s : Search α) : Prop where
  nodup : (s.stack ++ s.finished).Nodup
  chain : s.stack.Pairwise fun upper lower => Reaches edge lower upper
  closed : ∀ x ∈ s.finished, ∀ v, edge x v → v ∈ s.stack ∨ v ∈ s.finished
  back : ∀ x ∈ s.finished, ∀ g ∈ s.stack, Through edge s.finished x g → Reaches edge g x
  order : FinishOrder edge s.finished

section Searches

variable {s s' : Search α} {t : α} {rest finished : List α}

/-- A node that is finished now keeps the property of the order. -/
theorem Search.Invariant.finishOrder_append (h : Search.Invariant edge ⟨t :: rest, finished⟩) :
    FinishOrder edge (finished ++ [t]) := by
  have hfresh : t ∉ finished := fun hmem =>
    (List.nodup_append.mp h.nodup).2.2 t List.mem_cons_self t hmem rfl
  intro before r after hsplit x hreach
  rcases List.eq_nil_or_concat after with rfl | ⟨after, last, rfl⟩
  · obtain ⟨rfl, hr⟩ := List.append_inj' hsplit rfl
    obtain rfl := List.singleton_inj.mp hr
    by_cases hx : x ∈ finished
    · obtain ⟨p, hp, hpath, -⟩ := exists_through hreach hx hfresh
      obtain ⟨w, hw, hedge⟩ := hpath.exists_last
      have hstack := (h.closed w hw p hedge).resolve_right hp
      have hback := h.back x hx p hstack hpath
      by_cases heq : p = t
      · rw [← heq]
        exact Or.inl hback
      · refine Or.inr ⟨p, ⟨hpath.reaches, hback⟩, ?_⟩
        rw [List.mem_append, List.mem_singleton]
        exact not_or.mpr ⟨hp, heq⟩
    · by_cases heq : x = t
      · rw [heq]
        exact Or.inl .refl
      · refine Or.inr ⟨x, Strong.refl x, ?_⟩
        rw [List.mem_append, List.mem_singleton]
        exact not_or.mpr ⟨hx, heq⟩
  · rw [List.concat_eq_append, ← List.cons_append, ← List.append_assoc] at hsplit
    exact h.order before r after (List.append_inj' hsplit rfl).1 x hreach

/-- A node that is entered now keeps the invariant. -/
theorem Search.Invariant.push {v : α} {stack : List α}
    (h : Search.Invariant edge ⟨stack, finished⟩) (hstack : v ∉ stack)
    (hfinished : v ∉ finished) (hchain : ∀ g ∈ stack, Reaches edge g v) :
    Search.Invariant edge ⟨v :: stack, finished⟩ where
  nodup := by
    rw [List.cons_append, List.nodup_cons, List.mem_append]
    exact ⟨not_or.mpr ⟨hstack, hfinished⟩, h.nodup⟩
  chain := List.pairwise_cons.mpr ⟨hchain, h.chain⟩
  closed := fun x hx w hw => (h.closed x hx w hw).imp_left (List.mem_cons_of_mem v)
  back := by
    intro x hx g hg hpath
    rcases List.mem_cons.mp hg with rfl | hg
    · -- no finished node leads to a node that has not been entered
      obtain ⟨w, hw, hedge⟩ := hpath.exists_last
      exact absurd (h.closed w hw g hedge) (not_or.mpr ⟨hstack, hfinished⟩)
    · exact h.back x hx g hg hpath
  order := h.order

/-- **One step of the search.** -/
theorem Search.Invariant.step (h : Search.Invariant edge s) (hstep : Search.Step edge s s') :
    Search.Invariant edge s' := by
  cases hstep with
  | root hfresh => exact h.push List.not_mem_nil hfresh fun g hg => absurd hg List.not_mem_nil
  | @discover t v rest finished hedge hstack hfinished =>
      refine h.push hstack hfinished fun g hg => ?_
      rcases List.mem_cons.mp hg with rfl | hg
      · exact .single hedge
      · exact ((List.pairwise_cons.mp h.chain).1 g hg).trans (.single hedge)
  | @finish t rest finished hdone =>
      have hchain := List.pairwise_cons.mp h.chain
      refine ⟨?_, hchain.2, ?_, ?_, h.finishOrder_append⟩
      · refine (List.Perm.nodup_iff ?_).mp h.nodup
        calc t :: rest ++ finished = t :: (rest ++ finished) := List.cons_append
          _ |>.Perm (rest ++ finished ++ [t]) := (List.perm_append_singleton _ _).symm
          _ = rest ++ (finished ++ [t]) := List.append_assoc _ _ _
      · intro x hx v hv
        have hold : v ∈ t :: rest ∨ v ∈ finished := by
          rcases List.mem_append.mp hx with hx | hx
          · exact h.closed x hx v hv
          · exact hdone v (List.mem_singleton.mp hx ▸ hv)
        rcases hold with hstack | hfinished
        · rcases List.mem_cons.mp hstack with rfl | hrest
          · exact Or.inr (List.mem_append_right _ (List.mem_singleton_self v))
          · exact Or.inl hrest
        · exact Or.inr (List.mem_append_left _ hfinished)
      · intro x hx g hg hpath
        have hgt : Reaches edge g t := hchain.1 g hg
        rcases hpath.of_append_singleton with hold | rfl | hto
        · rcases List.mem_append.mp hx with hx | hx
          · exact h.back x hx g (List.mem_cons_of_mem t hg) hold
          · rwa [List.mem_singleton.mp hx]
        · exact hgt
        · rcases List.mem_append.mp hx with hx | hx
          · exact hgt.trans (h.back x hx t List.mem_cons_self hto)
          · rwa [List.mem_singleton.mp hx]

theorem Search.invariant_start : Search.Invariant edge ⟨[], []⟩ where
  nodup := List.nodup_nil
  chain := List.Pairwise.nil
  closed := fun _ hx => absurd hx List.not_mem_nil
  back := fun _ hx => absurd hx List.not_mem_nil
  order := fun _ r after hsplit =>
    absurd hsplit.symm (List.append_ne_nil_of_right_ne_nil _ (List.cons_ne_nil r after))

end Searches

/-! ## The sweep -/

/-- What leads to a root around the nodes that are visited. -/
inductive Leads (edge : α → α → Prop) (visited : List α) (root : α) : α → Prop
  | root (hfresh : root ∉ visited) : Leads edge visited root root
  | step {x y : α} (hfresh : x ∉ visited) (hedge : edge x y) (h : Leads edge visited root y) :
      Leads edge visited root x

variable {visited : List α} {root x y : α}

theorem Leads.fresh (h : Leads edge visited root x) : x ∉ visited := by
  cases h with
  | root hfresh => exact hfresh
  | step hfresh _ _ => exact hfresh

theorem Leads.reaches (h : Leads edge visited root x) : Reaches edge x root := by
  induction h with
  | root _ => exact .refl
  | step _ hedge _ ih => exact .head hedge ih

/-- Nodes are visited with their components. -/
def WholeComponents (edge : α → α → Prop) (visited : List α) : Prop :=
  ∀ x ∈ visited, ∀ y, Strong edge x y → y ∈ visited

/-- The component of a node that is not visited leads to it around the visited nodes. -/
theorem leads_of_strong (hwhole : WholeComponents edge visited) (hroot : root ∉ visited)
    (h : Strong edge root x) : Leads edge visited root x := by
  obtain ⟨hto, hfrom⟩ := h
  induction hfrom using Relation.ReflTransGen.head_induction_on with
  | refl => exact .root hroot
  | @head x y hedge hrest ih =>
      refine .step (fun hx => hroot (hwhole x hx root ⟨.head hedge hrest, hto⟩)) hedge (ih ?_)
      exact hto.trans (.single hedge)

/-- **Collected components.**  Against a finishing order, what leads to the next node that is
not visited is its component. -/
theorem leads_iff_strong {before after : List α}
    (horder : FinishOrder edge (before ++ root :: after))
    (hnodes : ∀ a b, edge a b → a ∈ before ++ root :: after)
    (hwhole : WholeComponents edge visited) (hafter : ∀ y ∈ after, y ∈ visited)
    (hroot : root ∉ visited) : Leads edge visited root x ↔ Strong edge root x := by
  refine ⟨fun h => ⟨?_, h.reaches⟩, leads_of_strong hwhole hroot⟩
  rcases horder before root after rfl x h.reaches with hback | ⟨y, hxy, hy⟩
  · exact hback
  · -- a node of the component is finished later, so the component has been visited
    have hmem : y ∈ before ++ root :: after := by
      rcases Relation.ReflTransGen.cases_head hxy.2 with rfl | ⟨z, hedge, -⟩
      · rcases Relation.ReflTransGen.cases_head h.reaches with rfl | ⟨z, hedge, -⟩
        · exact List.mem_append_right _ List.mem_cons_self
        · exact hnodes y z hedge
      · exact hnodes y z hedge
    have hlater : y ∈ after := by
      rw [List.mem_append, List.mem_singleton, not_or] at hy
      exact ((List.mem_cons.mp ((List.mem_append.mp hmem).resolve_left hy.1)).resolve_left hy.2)
    exact absurd (hwhole y (hafter y hlater) x hxy.symm) h.fresh

end StrongComponents
