import Mathlib.Data.List.Basic
import Mathlib.Order.Lattice

/-!
# Streams of commands with operands

A stream of words is read as commands: a word says how many operands follow it, and a word
that asks for none ends the stream.  A stream may also run out, at the end of a command or
within its operands.

Code that walks such a stream holds an index into an array of words.  The stream from an
index is a window of the array, and what a walk does follows the commands of the window.
-/

namespace CommandStream

variable {W : Type*}

/-- A word and the operands that it asks for. -/
structure Command (W : Type*) where
  head : W
  operands : List W

/-- How a stream ends: at a word that asks for nothing, after its last command, or within
the operands of a command, of which some are missing. -/
inductive Ending (W : Type*) where
  | stopped
  | exhausted
  | cut (head : W) (missing : ℕ)

/-- The commands of a stream, and how it ends. -/
def commands (arity : W → Option ℕ) : List W → List (Command W) × Ending W
  | [] => ([], .exhausted)
  | head :: rest =>
      match arity head with
      | none => ([], .stopped)
      | some n =>
          if rest.length < n then ([], .cut head (n - rest.length))
          else
            let tail := commands arity (rest.drop n)
            (⟨head, rest.take n⟩ :: tail.1, tail.2)
termination_by stream => stream.length
decreasing_by
  simp only [List.length_cons, List.length_drop]
  omega

/-- The words of an array from an index on. -/
def window (words : ℕ → W) (idx n : ℕ) : List W :=
  (List.range' idx n).map words

variable {arity : W → Option ℕ} {words : ℕ → W} {idx n k : ℕ}

@[simp] theorem length_window : (window words idx n).length = n := by
  simp [window]

theorem window_succ : window words idx (n + 1) = words idx :: window words (idx + 1) n := by
  rw [window, List.range'_succ, List.map_cons]
  rfl

theorem drop_window : (window words idx n).drop k = window words (idx + k) (n - k) := by
  rw [window, ← List.map_drop, List.drop_range', Nat.mul_one]
  rfl

theorem take_window (h : k ≤ n) : (window words idx n).take k = window words idx k := by
  induction k generalizing idx n with
  | zero => simp [window]
  | succ k ih =>
      obtain ⟨m, rfl⟩ := Nat.exists_eq_add_of_le' h
      rw [← Nat.add_assoc, window_succ, window_succ, List.take_succ_cons, ih (by omega)]

@[simp] theorem getElem_window {offset : ℕ} {h : offset < (window words idx n).length} :
    (window words idx n)[offset] = words (idx + offset) := by
  simp [window]

theorem getD_window {offset : ℕ} {default : W} (h : offset < n) :
    (window words idx n).getD offset default = words (idx + offset) := by
  rw [List.getD_eq_getElem?_getD, window, List.getElem?_map, List.getElem?_range' h]
  simp

theorem commands_window_zero : commands arity (window words idx 0) = ([], .exhausted) := by
  rw [window, List.range'_zero, List.map_nil, commands]

theorem commands_window_stopped (h : arity (words idx) = none) :
    commands arity (window words idx (n + 1)) = ([], .stopped) := by
  rw [window_succ, commands, h]

theorem commands_window_cut (h : arity (words idx) = some k) (hcut : n < k) :
    commands arity (window words idx (n + 1)) = ([], .cut (words idx) (k - n)) := by
  rw [window_succ, commands, h]
  simp only [length_window, hcut, if_true]

theorem commands_window_command (h : arity (words idx) = some k) (hle : k ≤ n) :
    commands arity (window words idx (n + 1)) =
      (⟨words idx, window words (idx + 1) k⟩ ::
          (commands arity (window words (idx + 1 + k) (n - k))).1,
        (commands arity (window words (idx + 1 + k) (n - k))).2) := by
  rw [window_succ, commands, h]
  simp only [length_window, Nat.not_lt.mpr hle, if_false]
  rw [take_window hle, drop_window]

/-- Induction along the commands of a window. -/
theorem window_induction
    (arity : W → Option ℕ) (words : ℕ → W) {P : ℕ → ℕ → Prop}
    (exhausted : ∀ idx, P idx 0)
    (stopped : ∀ idx n, arity (words idx) = none → P idx (n + 1))
    (cut : ∀ idx n k, arity (words idx) = some k → n < k → P idx (n + 1))
    (command : ∀ idx n k, arity (words idx) = some k → k ≤ n →
      P (idx + 1 + k) (n - k) → P idx (n + 1)) (idx n : ℕ) : P idx n := by
  induction n using Nat.strongRecOn generalizing idx with
  | _ n ih =>
      rcases n with _ | n
      · exact exhausted idx
      · cases harity : arity (words idx) with
        | none => exact stopped idx n harity
        | some k =>
            by_cases hle : k ≤ n
            · exact command idx n k harity hle (ih (n - k) (by omega) (idx + 1 + k))
            · exact cut idx n k harity (Nat.not_le.mp hle)

end CommandStream
