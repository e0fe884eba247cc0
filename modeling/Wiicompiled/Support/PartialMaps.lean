import Mathlib.Data.List.Forall2

/-!
# Partial functions on lists

A partial function succeeds on a list when it succeeds on every element of it; the results
are those of the elements, in order.
-/

namespace PartialMaps

variable {α β : Type*} {emit emit' : α → Option β} {l : List α} {l' : List β}

/-- A partial function that succeeds on a list succeeds on each element. -/
theorem forall₂_of_mapM (h : l.mapM emit = some l') :
    List.Forall₂ (fun a b => emit a = some b) l l' := by
  induction l generalizing l' with
  | nil =>
      obtain rfl : [] = l' := by simpa using h
      exact .nil
  | cons a l ih =>
      rw [List.mapM_cons, Option.bind_eq_bind, Option.bind_eq_some_iff] at h
      obtain ⟨b, hb, h⟩ := h
      obtain ⟨rest, hrest, hcons⟩ := Option.bind_eq_some_iff.mp h
      obtain rfl : b :: rest = l' := Option.some.inj hcons
      exact .cons hb (ih hrest)

/-- A partial function may be replaced by one that is defined at more elements. -/
theorem mapM_of_mapM (hemit : ∀ a b, emit a = some b → emit' a = some b)
    (h : l.mapM emit = some l') : l.mapM emit' = some l' := by
  have hforall := forall₂_of_mapM h
  clear h
  induction hforall with
  | nil => rfl
  | cons hb _ ih => simp [hemit _ _ hb, ih]

theorem exists_mapM (h : ∀ a ∈ l, ∃ b, emit a = some b) : ∃ l', l.mapM emit = some l' := by
  induction l with
  | nil => exact ⟨[], List.mapM_nil⟩
  | cons a l ih =>
      obtain ⟨b, hb⟩ := h a List.mem_cons_self
      obtain ⟨rest, hrest⟩ := ih fun x hx => h x (List.mem_cons_of_mem a hx)
      exact ⟨b :: rest, by rw [List.mapM_cons, hb, hrest]; rfl⟩

theorem exists_of_mem_mapM (h : l.mapM emit = some l') {a : α} (ha : a ∈ l) :
    ∃ b ∈ l', emit a = some b := by
  have hforall := forall₂_of_mapM h
  clear h
  induction hforall with
  | nil => exact absurd ha List.not_mem_nil
  | cons hb _ ih =>
      rcases List.mem_cons.mp ha with rfl | ha
      · exact ⟨_, List.mem_cons_self, hb⟩
      · obtain ⟨b, hmem, hemit⟩ := ih ha
        exact ⟨b, List.mem_cons_of_mem _ hmem, hemit⟩

theorem mem_of_mapM (h : l.mapM emit = some l') {b : β} (hb : b ∈ l') :
    ∃ a ∈ l, emit a = some b := by
  have hforall := forall₂_of_mapM h
  clear h
  induction hforall with
  | nil => exact absurd hb List.not_mem_nil
  | cons hemit _ ih =>
      rcases List.mem_cons.mp hb with rfl | hb
      · exact ⟨_, List.mem_cons_self, hemit⟩
      · obtain ⟨a, hmem, hemit'⟩ := ih hb
        exact ⟨a, List.mem_cons_of_mem _ hmem, hemit'⟩

/-- The results keep what the function keeps. -/
theorem map_of_mapM {γ : Type*} {f : α → γ} {g : β → γ} (h : l.mapM emit = some l')
    (hkeep : ∀ a ∈ l, ∀ b, emit a = some b → g b = f a) : l'.map g = l.map f := by
  have hforall := forall₂_of_mapM h
  clear h
  induction hforall with
  | nil => rfl
  | cons hb _ ih =>
      rw [List.map_cons, List.map_cons, hkeep _ List.mem_cons_self _ hb,
        ih fun a ha => hkeep a (List.mem_cons_of_mem _ ha)]

/-- What holds between two elements in order holds between their results. -/
theorem pairwise_of_mapM {r : α → α → Prop} {q : β → β → Prop} (h : l.mapM emit = some l')
    (hl : l.Pairwise r)
    (hresult : ∀ a a' b b', emit a = some b → emit a' = some b' → r a a' → q b b') :
    l'.Pairwise q := by
  induction l generalizing l' with
  | nil =>
      obtain rfl : [] = l' := by simpa using h
      exact List.Pairwise.nil
  | cons a l ih =>
      rw [List.mapM_cons] at h
      obtain ⟨b, hb, h⟩ := Option.bind_eq_some_iff.mp h
      obtain ⟨rest, hrest, h⟩ := Option.bind_eq_some_iff.mp h
      obtain rfl := Option.some.inj h
      rw [List.pairwise_cons] at hl ⊢
      refine ⟨fun b' hb' => ?_, ih hrest hl.2⟩
      obtain ⟨a', ha', hemit⟩ := mem_of_mapM hrest hb'
      exact hresult a a' b b' hb hemit (hl.1 a' ha')

/-! ## Maps that may throw -/

section Throwing

variable {α β ε : Type} {f : α → Except ε β} {xs : List α} {ys : List β}

theorem forall₂_of_mapM_ok (h : xs.mapM f = .ok ys) :
    List.Forall₂ (fun x y => f x = .ok y) xs ys := by
  induction xs generalizing ys with
  | nil =>
      rw [List.mapM_nil] at h
      obtain rfl := Except.ok.inj h
      exact .nil
  | cons x xs ih =>
      rw [List.mapM_cons] at h
      rcases hx : f x with e | y
      · rw [hx] at h
        exact absurd h (by simp [bind, Except.bind])
      · rcases hxs : xs.mapM f with e | ys'
        · rw [hx, hxs] at h
          exact absurd h (by simp [bind, Except.bind])
        · rw [hx, hxs] at h
          obtain rfl := Except.ok.inj h
          exact .cons hx (ih hxs)

/-- The result of an element is among the results. -/
theorem exists_of_mapM_ok (h : xs.mapM f = .ok ys) {x : α} (hx : x ∈ xs) :
    ∃ y ∈ ys, f x = .ok y := by
  have hforall := forall₂_of_mapM_ok h
  clear h
  induction hforall with
  | nil => exact absurd hx List.not_mem_nil
  | cons hy _ ih =>
      rcases List.mem_cons.mp hx with rfl | hx
      · exact ⟨_, List.mem_cons_self, hy⟩
      · obtain ⟨y, hmem, hfy⟩ := ih hx
        exact ⟨y, List.mem_cons_of_mem _ hmem, hfy⟩

theorem mapM_ok_of_forall (h : ∀ x ∈ xs, ∃ y, f x = .ok y) : ∃ ys, xs.mapM f = .ok ys := by
  induction xs with
  | nil => exact ⟨[], rfl⟩
  | cons x xs ih =>
      obtain ⟨y, hy⟩ := h x List.mem_cons_self
      obtain ⟨ys, hys⟩ := ih fun z hz => h z (List.mem_cons_of_mem x hz)
      refine ⟨y :: ys, ?_⟩
      rw [List.mapM_cons, hy, hys]
      rfl

end Throwing

end PartialMaps
