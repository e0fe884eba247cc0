import Wiicompiled.Input.InputExpr

/-!
# Tokens and their spellings

The lexer takes white space and the spelling of a token off the text.  In the other
direction it finds a token where its spelling stands, unless the characters behind it
belong to a longer token.
-/

namespace Wiicompiled.Input.InputExpr

/-! ## Spellings -/

namespace Token

def spelling : Token → List Char
  | endOfText => []
  | input text => '\x60' :: (text ++ ['\x60'])
  | number text => text
  | ident text => text
  | op text => [text]
  | lparen => ['(']
  | rparen => [')']
  | comma => [',']

def Valid : Token → Prop
  | endOfText => False
  | input text => '\x60' ∉ text
  | number text => text ≠ [] ∧ ∀ c ∈ text, isNumberChar c = true
  | ident text => (∃ c ∈ text.head?, (isalpha c || c = '_') = true) ∧
      (∀ c ∈ text, isIdentChar c = true) ∧ text.getLast? ≠ some ' '
  | op text => text ∈ operators
  | _ => True

/-- What may stand behind a token without being taken into it. -/
def Separated : Token → List Char → Prop
  | number _, rest => ∀ c ∈ rest.head?, isNumberChar c = false
  | ident _, rest => ∀ c ∈ (rest.dropWhile isspace).head?, isIdentChar c = false
  | _, _ => True

theorem Valid.ne_endOfText {tok : Token} (h : tok.Valid) : tok ≠ .endOfText := by
  rintro rfl
  exact h

theorem Valid.spelling_ne_nil {tok : Token} (h : tok.Valid) : tok.spelling ≠ [] := by
  cases tok with
  | endOfText => exact h.elim
  | number text => exact h.1
  | ident text =>
      obtain ⟨c, hc, -⟩ := h.1
      rintro hnil
      rw [show text = [] from hnil] at hc
      exact nomatch hc
  | _ => exact List.cons_ne_nil _ _

end Token

/-! ## Characters -/

theorem isdigit_of_isalpha {c : Char} (h : isalpha c = true) : isdigit c = false := by
  simp only [isalpha, isdigit, Bool.or_eq_true, Bool.and_eq_true, decide_eq_true_iff,
    Bool.and_eq_false_iff, decide_eq_false_iff_not, Char.le_def, UInt32.le_iff_toNat_le] at h ⊢
  change 97 ≤ c.val.toNat ∧ c.val.toNat ≤ 122 ∨ 65 ≤ c.val.toNat ∧ c.val.toNat ≤ 90 at h
  change ¬48 ≤ c.val.toNat ∨ ¬c.val.toNat ≤ 57
  omega

theorem operators_other : ∀ c ∈ operators, isspace c = false ∧ c ≠ '\x60' ∧
    isNumberChar c = false ∧ (isalpha c || c = '_') = false ∧ isIdentChar c = false ∧
      c ≠ '(' ∧ c ≠ ')' ∧ c ≠ ',' := by
  intro c hc
  simp only [operators, List.mem_cons, List.not_mem_nil, or_false] at hc
  rcases hc with rfl | rfl | rfl | rfl | rfl | rfl | rfl | rfl | rfl | rfl | rfl <;> decide

theorem isspace_iff {c : Char} : isspace c = true ↔
    c = ' ' ∨ c = '\t' ∨ c = '\n' ∨ c = '\x0b' ∨ c = '\x0c' ∨ c = '\r' := by
  simp only [isspace, Bool.or_eq_true, decide_eq_true_iff, or_assoc]

theorem eq_space_of_isspace {c : Char} (hspace : isspace c = true)
    (hident : isIdentChar c = true) : c = ' ' := by
  rcases isspace_iff.mp hspace with rfl | rfl | rfl | rfl | rfl | rfl
  · rfl
  all_goals exact absurd hident (by decide)

theorem isNumberChar_of_isspace {c : Char} (h : isspace c = true) : isNumberChar c = false := by
  rcases isspace_iff.mp h with rfl | rfl | rfl | rfl | rfl | rfl <;> decide

/-! ## What the lexer takes off -/

section Lexing

variable {text rest ws : List Char} {tok : Token}

theorem takeWhile_append_drop (c : Char) {text : List Char} (h : c ∈ text) :
    text = text.takeWhile (· ≠ c) ++ c :: (text.dropWhile (· ≠ c)).drop 1 := by
  induction text with
  | nil => exact absurd h List.not_mem_nil
  | cons x text ih =>
      by_cases hx : x = c
      · rw [List.takeWhile_cons_of_neg (by simpa using hx),
          List.dropWhile_cons_of_neg (by simpa using hx), hx]
        rfl
      · rw [List.takeWhile_cons_of_pos (by simpa using hx),
          List.dropWhile_cons_of_pos (by simpa using hx), List.cons_append,
          ← ih ((List.mem_cons.mp h).resolve_left (Ne.symm hx))]

theorem ident_spec {c : Char} {tail : List Char} (hc : (isalpha c || c = '_') = true) :
    let name := ((c :: tail).takeWhile isIdentChar).rdropWhile fun c => c = ' '
    (Token.ident name).Valid ∧ name ++ (c :: tail).drop name.length = c :: tail := by
  intro name
  have hident : isIdentChar c = true := by
    rw [isIdentChar, isalnum]
    rcases Bool.or_eq_true_iff.mp hc with halpha | hunder
    · rw [halpha]
      rfl
    · rw [hunder]
      simp
  have hrun : (c :: tail).takeWhile isIdentChar = c :: tail.takeWhile isIdentChar :=
    List.takeWhile_cons_of_pos hident
  have hstem : name <+: c :: tail.takeWhile isIdentChar := hrun ▸ List.rdropWhile_prefix _ _
  have hne : name ≠ [] := by
    intro hnil
    have hall := List.rdropWhile_eq_nil_iff.mp hnil c (hrun ▸ List.mem_cons_self)
    rw [of_decide_eq_true hall] at hc
    exact absurd hc (by decide)
  refine ⟨⟨?_, fun x hx => ?_, fun hlast => ?_⟩, ?_⟩
  · rcases hname : name with _ | ⟨x, xs⟩
    · exact absurd hname hne
    · rw [hname, List.cons_prefix_cons] at hstem
      exact ⟨x, rfl, hstem.1 ▸ hc⟩
  · exact List.mem_takeWhile_imp (hrun ▸ hstem.subset hx)
  · obtain ⟨before, hbefore⟩ := List.getLast?_eq_some_iff.mp hlast
    have hnot := List.rdropWhile_last_not (fun c => decide (c = ' '))
      ((c :: tail).takeWhile isIdentChar) hne
    refine hnot (decide_eq_true ?_)
    have hget : name.getLast hne = ' ' := by
      simp only [hbefore, List.getLast_append_singleton]
    exact hget
  · refine List.prefix_iff_eq_append.mp (hstem.trans ?_)
    rw [← hrun]
    exact List.takeWhile_prefix isIdentChar

/-- **The lexer takes tokens off the text.** -/
theorem next_spells (h : next text = .ok (tok, rest)) :
    tok = .endOfText ∧ rest = [] ∧ (∀ c ∈ text, isspace c = true) ∨
      tok.Valid ∧ ∃ ws, (∀ c ∈ ws, isspace c = true) ∧ text = ws ++ (tok.spelling ++ rest) := by
  have hsplit : text = text.takeWhile isspace ++ text.dropWhile isspace :=
    (List.takeWhile_append_dropWhile).symm
  rw [next] at h
  rcases hdrop : text.dropWhile isspace with _ | ⟨c, tail⟩
  · rw [hdrop] at h
    obtain ⟨rfl, rfl⟩ := Prod.mk.inj (Except.ok.inj h)
    exact Or.inl ⟨rfl, rfl, List.dropWhile_eq_nil_iff.mp hdrop⟩
  · rw [hdrop] at h hsplit
    suffices hvalid : tok.Valid ∧ tok.spelling ++ rest = c :: tail from
      Or.inr ⟨hvalid.1, _, fun c hc => List.mem_takeWhile_imp hc, by rw [hvalid.2, ← hsplit]⟩
    dsimp only at h
    split_ifs at h with hquote hclose hnumber hident hl hr hcomma hop
    · obtain ⟨rfl, rfl⟩ := Prod.mk.inj (Except.ok.inj h)
      refine ⟨fun hmem => ?_, ?_⟩
      · simpa using List.mem_takeWhile_imp hmem
      · rw [hquote, Token.spelling, List.cons_append, List.append_assoc, List.singleton_append,
          ← takeWhile_append_drop '\x60' hclose]
    · obtain ⟨rfl, rfl⟩ := Prod.mk.inj (Except.ok.inj h)
      refine ⟨⟨?_, fun x hx => List.mem_takeWhile_imp hx⟩, List.takeWhile_append_dropWhile⟩
      have hc : isNumberChar c = true := hnumber
      rw [List.takeWhile_cons_of_pos hc]
      exact List.cons_ne_nil _ _
    · obtain ⟨rfl, rfl⟩ := Prod.mk.inj (Except.ok.inj h)
      exact ident_spec hident
    all_goals obtain ⟨rfl, rfl⟩ := Prod.mk.inj (Except.ok.inj h)
    · exact ⟨trivial, by rw [hl]; rfl⟩
    · exact ⟨trivial, by rw [hr]; rfl⟩
    · exact ⟨trivial, by rw [hcomma]; rfl⟩
    · exact ⟨hop, rfl⟩

theorem span_append {p : Char → Bool} {run rest : List Char} (hrun : ∀ c ∈ run, p c = true)
    (hrest : ∀ c ∈ rest.head?, p c = false) :
    (run ++ rest).takeWhile p = run ∧ (run ++ rest).dropWhile p = rest := by
  rw [List.takeWhile_append_of_pos hrun, List.dropWhile_append_of_pos hrun]
  rcases rest with _ | ⟨c, rest⟩
  · simp
  · have hc : ¬p c = true := Bool.eq_false_iff.mp (hrest c rfl)
    rw [List.takeWhile_cons_of_neg hc, List.dropWhile_cons_of_neg hc, List.append_nil]
    exact ⟨rfl, rfl⟩

/-- Behind an identifier that is separated, only spaces could be taken into it. -/
theorem eq_space_of_separated (h : ∀ c ∈ (rest.dropWhile isspace).head?, isIdentChar c = false) :
    ∀ c ∈ rest.takeWhile isIdentChar, c = ' ' := by
  induction rest with
  | nil => exact fun c hc => absurd hc List.not_mem_nil
  | cons x rest ih =>
      by_cases hident : isIdentChar x = true
      · by_cases hspace : isspace x = true
        · rw [List.dropWhile_cons_of_pos hspace] at h
          rw [List.takeWhile_cons_of_pos hident]
          intro c hc
          rcases List.mem_cons.mp hc with rfl | hc
          · exact eq_space_of_isspace hspace hident
          · exact ih h c hc
        · rw [List.dropWhile_cons_of_neg hspace] at h
          exact absurd hident (Bool.eq_false_iff.mp (h x rfl))
      · rw [List.takeWhile_cons_of_neg hident]
        exact fun c hc => absurd hc List.not_mem_nil

theorem rdropWhile_ident {name spaces : List Char} (hspaces : ∀ c ∈ spaces, c = ' ')
    (hlast : name.getLast? ≠ some ' ') :
    (name ++ spaces).rdropWhile (fun c => c = ' ') = name := by
  have hall : ∀ c ∈ spaces.reverse, decide (c = ' ') = true := fun c hc =>
    decide_eq_true (hspaces c (List.mem_reverse.mp hc))
  rw [List.rdropWhile, List.reverse_append, List.dropWhile_append_of_pos hall]
  rcases hname : name.reverse with _ | ⟨c, rest⟩
  · rw [List.reverse_eq_nil_iff.mp hname]
    rfl
  · have hc : ¬decide (c = ' ') = true := by
      rw [decide_eq_true_iff]
      rintro rfl
      refine hlast ?_
      rw [← List.head?_reverse, hname]
      rfl
    have hcons : (c :: rest).dropWhile (fun c => decide (c = ' ')) = c :: rest :=
      List.dropWhile_cons_of_neg hc
    rw [hcons, ← hname, List.reverse_reverse]

/-- **The lexer finds the token that is spelled.** -/
theorem next_of_spelled (hws : ∀ c ∈ ws, isspace c = true) (hvalid : tok.Valid)
    (hsep : tok.Separated rest) : next (ws ++ (tok.spelling ++ rest)) = .ok (tok, rest) := by
  rw [next, List.dropWhile_append_of_pos hws]
  cases tok with
  | endOfText => exact hvalid.elim
  | input text =>
      have hall : ∀ c ∈ text, decide (c ≠ '\x60') = true := fun c hc =>
        decide_eq_true fun heq => hvalid (heq ▸ hc)
      have hhead : ∀ c ∈ ('\x60' :: rest).head?, decide (c ≠ '\x60') = false := fun c hc => by
        obtain rfl := Option.some_inj.mp hc
        decide
      have hspan := span_append hall hhead
      rw [Token.spelling, List.cons_append, List.append_assoc, List.singleton_append,
        List.dropWhile_cons_of_neg (by decide)]
      dsimp only
      rw [if_pos rfl, if_pos (List.mem_append_right _ List.mem_cons_self), hspan.1, hspan.2]
      rfl
  | number text =>
      rcases text with _ | ⟨c, text⟩
      · exact absurd rfl hvalid.1
      have hc : isNumberChar c = true := hvalid.2 c List.mem_cons_self
      have hspace : ¬isspace c = true := fun h => by
        rw [isNumberChar_of_isspace h] at hc
        exact absurd hc Bool.false_ne_true
      have hquote : c ≠ '\x60' := by
        rintro rfl
        exact absurd hc (by decide)
      obtain ⟨htake, hdrop⟩ := span_append hvalid.2 hsep
      rw [Token.spelling, List.cons_append, List.dropWhile_cons_of_neg hspace]
      dsimp only
      rw [if_neg hquote, if_pos (show (isdigit c || c = '.') = true from hc),
        ← List.cons_append, htake, hdrop]
  | ident text =>
      obtain ⟨⟨c, hhead, hc⟩, hall, hlast⟩ := hvalid
      rcases text with _ | ⟨x, text⟩
      · exact nomatch hhead
      obtain rfl := Option.some_inj.mp hhead
      have hspace : ¬isspace x = true := fun h => by
        rcases isspace_iff.mp h with rfl | rfl | rfl | rfl | rfl | rfl <;>
          exact absurd hc (by decide)
      have hquote : x ≠ '\x60' := by
        rintro rfl
        exact absurd hc (by decide)
      have hnumber : ¬(isdigit x || decide (x = '.')) = true := by
        intro h
        rcases Bool.or_eq_true_iff.mp hc with halpha | hunder
        · rw [isdigit_of_isalpha halpha, Bool.false_or, decide_eq_true_iff] at h
          rw [h] at halpha
          exact absurd halpha (by decide)
        · rw [of_decide_eq_true hunder] at h
          exact absurd h (by decide)
      have hrun : (x :: text ++ rest).takeWhile isIdentChar =
          x :: text ++ rest.takeWhile isIdentChar := List.takeWhile_append_of_pos hall
      have hname := rdropWhile_ident (eq_space_of_separated hsep) hlast
      rw [Token.spelling, List.cons_append, List.dropWhile_cons_of_neg hspace]
      dsimp only
      rw [if_neg hquote, if_neg hnumber, if_pos hc, ← List.cons_append, hrun, hname,
        List.drop_left]
  | op text =>
      obtain ⟨hspace, hquote, hnumber, hident, -, hl, hr, hcomma⟩ := operators_other text hvalid
      rw [Token.spelling, List.singleton_append,
        List.dropWhile_cons_of_neg (Bool.eq_false_iff.mp hspace)]
      dsimp only
      rw [if_neg hquote, if_neg (show ¬(isdigit text || text = '.') = true from
        Bool.eq_false_iff.mp hnumber),
        if_neg (Bool.eq_false_iff.mp hident), if_neg hl, if_neg hr, if_neg hcomma,
        if_pos (show text ∈ operators from hvalid)]
  | lparen => rfl
  | rparen => rfl
  | comma => rfl

end Lexing

end Wiicompiled.Input.InputExpr
