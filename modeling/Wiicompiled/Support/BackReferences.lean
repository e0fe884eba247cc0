import Mathlib.Data.List.Basic

/-!
# Back-references

A compressed text is a list of tokens: a literal stands for itself, and a
back-reference repeats elements of the output that was made so far.  The
repetition goes element by element, so it may run into what it has written
itself.
-/

namespace BackReferences

variable {α : Type*}

inductive Token (α : Type*) where
  | literal (a : α)
  | backReference (distance length : ℕ)

/-- Repeat, `n` times, the element that stands `distance` before the end. -/
def copyBack (distance : ℕ) : ℕ → List α → List α
  | 0, out => out
  | n + 1, out =>
      match out[out.length - distance]? with
      | none => out
      | some a => copyBack distance n (out ++ [a])

/-- The output after one more token; a reference to before the start fails. -/
def emit (out : List α) : Token α → Option (List α)
  | .literal a => some (out ++ [a])
  | .backReference distance length =>
      if 0 < distance ∧ distance ≤ out.length then some (copyBack distance length out)
      else none

/-- The text that a list of tokens stands for. -/
def expand (tokens : List (Token α)) : Option (List α) :=
  tokens.foldlM emit []

/-- The number of elements that a token adds. -/
def Token.size : Token α → ℕ
  | .literal _ => 1
  | .backReference _ length => length

theorem copyBack_succ
    {distance : ℕ} {out : List α} (hpos : 0 < distance) (hle : distance ≤ out.length) (n : ℕ) :
    ∃ a, out[out.length - distance]? = some a ∧
      copyBack distance (n + 1) out = copyBack distance n (out ++ [a]) := by
  have hlt : out.length - distance < out.length := by
    omega
  refine ⟨out[out.length - distance], List.getElem?_eq_getElem hlt, ?_⟩
  rw [copyBack, List.getElem?_eq_getElem hlt]

theorem length_copyBack
    {distance : ℕ} {out : List α} (hpos : 0 < distance) (hle : distance ≤ out.length) (n : ℕ) :
    (copyBack distance n out).length = out.length + n := by
  induction n generalizing out with
  | zero => rfl
  | succ n ih =>
      obtain ⟨a, -, hcopy⟩ := copyBack_succ hpos hle n
      have hlength : (out ++ [a]).length = out.length + 1 := by
        simp
      rw [hcopy, ih (by omega), hlength]
      omega

theorem length_emit
    {out out' : List α} {token : Token α} (hemit : emit out token = some out') :
    out'.length = out.length + token.size := by
  cases token with
  | literal a =>
      rw [← Option.some.inj hemit]
      simp [Token.size]
  | backReference distance length =>
      simp only [emit] at hemit
      split_ifs at hemit with hback
      rw [← Option.some.inj hemit, length_copyBack hback.1 hback.2, Token.size]

theorem expand_append
    {tokens others : List (Token α)} :
    expand (tokens ++ others) = (expand tokens).bind fun out => others.foldlM emit out := by
  simp [expand, List.foldlM_append]

theorem expand_concat
    {tokens : List (Token α)} {token : Token α} :
    expand (tokens ++ [token]) = (expand tokens).bind fun out => emit out token := by
  rw [expand_append]
  congr 1
  funext out
  simp

theorem length_foldlM_emit
    {tokens : List (Token α)} {out out' : List α}
    (hfold : tokens.foldlM emit out = some out') :
    out.length ≤ out'.length := by
  induction tokens generalizing out with
  | nil => exact Nat.le_of_eq (congrArg List.length (Option.some.inj hfold))
  | cons token tokens ih =>
      rw [List.foldlM_cons] at hfold
      obtain ⟨next, hemit, hrest⟩ := Option.bind_eq_some_iff.mp hfold
      have hlength := length_emit hemit
      exact Nat.le_trans (by omega) (ih hrest)

/-- The text of a beginning of the tokens is no longer than that of all. -/
theorem exists_expand_of_append
    {tokens others : List (Token α)} {out : List α}
    (hexpand : expand (tokens ++ others) = some out) :
    ∃ first, expand tokens = some first ∧ first.length ≤ out.length := by
  rw [expand_append] at hexpand
  obtain ⟨first, hfirst, hrest⟩ := Option.bind_eq_some_iff.mp hexpand
  exact ⟨first, hfirst, length_foldlM_emit hrest⟩

end BackReferences
