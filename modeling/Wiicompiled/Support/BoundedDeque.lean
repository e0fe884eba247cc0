import Mathlib.Data.List.Perm.Basic

/-!
# Bounded deques

A list of at most `n` entries to which entries are added at either end and taken from
the front.  Over a run nothing is lost and nothing is duplicated.
-/

namespace BoundedDeque

variable {α : Type*}

/-- A change of a deque. -/
inductive Change (α : Type*) where
  | append (a : α)
  | prepend (a : α)
  | take (a : α)
deriving DecidableEq

/-- The entry that a change adds. -/
def Change.added : Change α → Option α
  | .append a | .prepend a => some a
  | .take _ => none

/-- The entry that a change takes. -/
def Change.taken : Change α → Option α
  | .append _ | .prepend _ => none
  | .take a => some a

/-- One change of a deque of at most `n` entries. -/
inductive Step (n : ℕ) : List α → Change α → List α → Prop
  | append {entries : List α} (a : α) (hroom : entries.length < n) :
      Step n entries (.append a) (entries ++ [a])
  | prepend {entries : List α} (a : α) (hroom : entries.length < n) :
      Step n entries (.prepend a) (a :: entries)
  | take (a : α) (entries : List α) : Step n (a :: entries) (.take a) entries

/-- A sequence of changes. -/
inductive Run (n : ℕ) : List α → List (Change α) → List α → Prop
  | nil (entries : List α) : Run n entries [] entries
  | cons {entries middle entries' : List α} {change : Change α} {changes : List (Change α)}
      (hstep : Step n entries change middle) (hrun : Run n middle changes entries') :
      Run n entries (change :: changes) entries'

variable {n : ℕ} {entries entries' : List α} {change : Change α}
  {changes : List (Change α)}

theorem Step.accounting (h : Step n entries change entries') :
    (entries ++ change.added.toList).Perm (change.taken.toList ++ entries') := by
  cases h with
  | append => exact List.Perm.refl _
  | prepend => exact List.perm_append_singleton _ _
  | take => simp [Change.added, Change.taken]

/-- What was there and what was added is what was taken and what is there. -/
theorem Run.accounting (h : Run n entries changes entries') :
    (entries ++ changes.filterMap Change.added).Perm
      (changes.filterMap Change.taken ++ entries') := by
  have hcons : ∀ (f : Change α → Option α) (change : Change α) changes,
      (change :: changes).filterMap f = (f change).toList ++ changes.filterMap f := by
    intro f change changes
    cases hf : f change <;> simp [hf]
  induction h with
  | nil => simp
  | @cons entries middle entries' change changes hstep _ ih =>
      rw [hcons, hcons]
      calc
        (entries ++ (change.added.toList ++ changes.filterMap Change.added)).Perm
            (change.taken.toList ++ middle ++ changes.filterMap Change.added) := by
          rw [← List.append_assoc]
          exact hstep.accounting.append_right _
        List.Perm _ (change.taken.toList ++ changes.filterMap Change.taken ++ entries') := by
          rw [List.append_assoc, List.append_assoc]
          exact ih.append_left _

end BoundedDeque
