import Mathlib.Data.List.Basic

/-!
# Computations that ask questions

Finite computations that ask for values by their keys.  One is uniform when it asks for
the same keys in the same order whatever the answers are, and indifferent to two answers when it
goes on in the same way after both.
-/

/-- A value, or a question and what follows each answer. -/
inductive Questions (κ α β : Type*) where
  | done (b : β)
  | ask (k : κ) (resume : α → Questions κ α β)

namespace Questions

variable {κ α β γ δ : Type*}

def bind : Questions κ α β → (β → Questions κ α γ) → Questions κ α γ
  | done b, g => g b
  | ask k f, g => ask k fun a => (f a).bind g

/-- A computation along a list. -/
def fold (g : β → δ → Questions κ α β) : List δ → β → Questions κ α β
  | [], b => done b
  | d :: rest, b => (g b d).bind (fold g rest)

/-- Computations for the elements of a list, with their values in order. -/
def collect (g : δ → Questions κ α β) : List δ → Questions κ α (List β)
  | [] => done []
  | d :: rest => (g d).bind fun b => (collect g rest).bind fun bs => done (b :: bs)

/-- All ways through a computation ask for the keys of a list. -/
inductive AsksFor : Questions κ α β → List κ → Prop
  | done (b : β) : AsksFor (done b) []
  | ask {k : κ} {f : α → Questions κ α β} {l : List κ} (h : ∀ a, AsksFor (f a) l) :
      AsksFor (ask k f) (k :: l)

theorem AsksFor.bind {q : Questions κ α β} {l l' : List κ} {g : β → Questions κ α γ}
    (h : q.AsksFor l) (hg : ∀ b, (g b).AsksFor l') : (q.bind g).AsksFor (l ++ l') := by
  induction h with
  | done b => exact hg b
  | ask _ ih => exact .ask ih

theorem asksFor_fold {g : β → δ → Questions κ α β} {keys : δ → List κ}
    (h : ∀ b d, (g b d).AsksFor (keys d)) (ds : List δ) (b : β) :
    (fold g ds b).AsksFor (ds.flatMap keys) := by
  induction ds generalizing b with
  | nil => exact .done b
  | cons d ds ih => exact (h b d).bind ih

theorem asksFor_collect {g : δ → Questions κ α β} {keys : δ → List κ}
    (h : ∀ d, (g d).AsksFor (keys d)) (ds : List δ) :
    (collect g ds).AsksFor (ds.flatMap keys) := by
  induction ds with
  | nil => exact .done []
  | cons d ds ih =>
      have hrest : ∀ b : β, ((collect g ds).bind fun bs =>
          (done (b :: bs) : Questions κ α (List β))).AsksFor (ds.flatMap keys) := by
        intro b
        simpa using ih.bind fun bs => AsksFor.done (b :: bs)
      exact (h d).bind hrest

/-- No question tells two answers apart. -/
inductive Indifferent (a a' : α) : Questions κ α β → Prop
  | done (b : β) : Indifferent a a' (done b)
  | ask {k : κ} {f : α → Questions κ α β} (hsame : f a = f a')
      (h : ∀ x, Indifferent a a' (f x)) : Indifferent a a' (ask k f)

theorem Indifferent.bind {a a' : α} {q : Questions κ α β} {g : β → Questions κ α γ}
    (h : q.Indifferent a a') (hg : ∀ b, (g b).Indifferent a a') :
    (q.bind g).Indifferent a a' := by
  induction h with
  | done b => exact hg b
  | ask hsame _ ih => exact .ask (congrArg (fun q => Questions.bind q g) hsame) ih

theorem indifferent_fold {a a' : α} {g : β → δ → Questions κ α β}
    (h : ∀ b d, (g b d).Indifferent a a') (ds : List δ) (b : β) :
    (fold g ds b).Indifferent a a' := by
  induction ds generalizing b with
  | nil => exact .done b
  | cons d ds ih => exact (h b d).bind ih

theorem indifferent_collect {a a' : α} {g : δ → Questions κ α β}
    (h : ∀ d, (g d).Indifferent a a') (ds : List δ) :
    (collect g ds).Indifferent a a' := by
  induction ds with
  | nil => exact .done []
  | cons d ds ih => exact (h d).bind fun b => ih.bind fun bs => .done (b :: bs)

theorem Indifferent.of_ask {a a' : α} {k : κ} {f : α → Questions κ α β}
    (h : (Questions.ask k f).Indifferent a a') :
    f a = f a' ∧ ∀ x, (f x).Indifferent a a' := by
  cases h with
  | ask hsame h => exact ⟨hsame, h⟩

/-- What a question and what follows it ask for. -/
theorem AsksFor.of_ask {k : κ} {f : α → Questions κ α β} {l : List κ}
    (h : (Questions.ask k f).AsksFor l) : ∃ rest, l = k :: rest ∧ ∀ a, (f a).AsksFor rest := by
  cases h with
  | ask h => exact ⟨_, rfl, h⟩

theorem AsksFor.of_done {b : β} {l : List κ}
    (h : (Questions.done b : Questions κ α β).AsksFor l) : l = [] := by
  cases h
  rfl

end Questions
