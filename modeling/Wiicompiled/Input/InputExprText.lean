import Mathlib.Data.List.Chain
import Wiicompiled.Input.InputExprGrammar

/-!
# Expression trees and their texts

A tree is rendered with the fewest parentheses that the precedences require, and with any
white space around the tokens.  The parser finds the tree again; what it accepts of other
texts is spelled by a derivation too, up to the end of the text.
-/

namespace Wiicompiled.Input.InputExpr

open Outcome

/-! ## Texts of tokens -/

/-- A text that spells tokens, with white space before each and at the end. -/
inductive Spells : List Token → List Char → Prop where
  | nil {ws : List Char} (hws : ∀ c ∈ ws, isspace c = true) : Spells [] ws
  | cons {tok : Token} {tokens : List Token} {ws text : List Char}
      (hws : ∀ c ∈ ws, isspace c = true) (rest : Spells tokens text) :
      Spells (tok :: tokens) (ws ++ (tok.spelling ++ text))

theorem next_of_advance {s : State} (h : s.advance.failed = false) :
    next s.rest = .ok (s.advance.tok, s.advance.rest) := by
  rcases hnext : next s.rest with e | ⟨tok, rest⟩
  · rw [State.advance, hnext] at h
    exact absurd h.symm Bool.false_ne_true
  · rw [State.advance, hnext]

theorem next_of_space {ws : List Char} (hws : ∀ c ∈ ws, isspace c = true) :
    next ws = .ok (.endOfText, []) := by
  rw [next, List.dropWhile_eq_nil_iff.mpr hws]

theorem spells_of_consumes {s' : State} (hend : s'.tok = .endOfText)
    (hs' : s'.failed = false) {tokens : List Token} : ∀ s : State,
      Consumes s.advance tokens s' → Spells tokens s.rest := by
  induction tokens with
  | nil =>
      rintro s rfl
      rcases next_spells (next_of_advance hs') with ⟨-, -, hws⟩ | ⟨hvalid, -⟩
      · exact .nil hws
      · exact absurd hend hvalid.ne_endOfText
  | cons tok tokens ih =>
      rintro s ⟨rfl, hne, hrest⟩
      have hnext := next_of_advance (failed_of_advance (hrest.failed hs'))
      rcases next_spells hnext with ⟨htok, -⟩ | ⟨-, ws, hws, htext⟩
      · exact absurd htok hne
      · rw [htext]
        exact .cons hws (ih _ hrest)

/-- A token that the characters of another one could continue. -/
def Token.isWord : Token → Bool
  | number _ => true
  | ident _ => true
  | _ => false

/-- Tokens with a spelling of which no two that are words meet. -/
def Spellable (tokens : List Token) : Prop :=
  (∀ tok ∈ tokens, tok.Valid) ∧
    tokens.IsChain fun tok tok' => tok.isWord = false ∨ tok'.isWord = false

theorem Spellable.join {tokens tokens' : List Token} {tok : Token} (h : Spellable tokens)
    (h' : Spellable tokens') (hvalid : tok.Valid) (hword : tok.isWord = false) :
    Spellable (tokens ++ tok :: tokens') := by
  refine ⟨?_, List.isChain_append.mpr ⟨h.2, List.isChain_cons.mpr ⟨fun _ _ => Or.inl hword,
    h'.2⟩, fun _ _ _ hhead => Or.inr (Option.some_inj.mp hhead ▸ hword)⟩⟩
  rw [List.forall_mem_append, List.forall_mem_cons]
  exact ⟨h.1, hvalid, h'.1⟩

theorem spellable_singleton {tok : Token} (h : tok.Valid) : Spellable [tok] :=
  ⟨List.forall_mem_singleton.mpr h, List.isChain_singleton tok⟩

theorem Token.Valid.first {tok : Token} (h : tok.Valid) (hword : tok.isWord = false) :
    ∃ c tail, tok.spelling = c :: tail ∧
      isspace c = false ∧ isNumberChar c = false ∧ isIdentChar c = false := by
  cases tok with
  | endOfText => exact h.elim
  | number | ident => exact absurd hword.symm Bool.false_ne_true
  | op text =>
      obtain ⟨hspace, -, hnumber, -, hident, -⟩ := operators_other text h
      exact ⟨text, [], rfl, hspace, hnumber, hident⟩
  | input | lparen | rparen | comma => exact ⟨_, _, rfl, by decide⟩

theorem Spells.separated {tok : Token} {tokens : List Token} {text : List Char}
    (h : Spells tokens text) (hspellable : Spellable (tok :: tokens)) : tok.Separated text := by
  obtain ⟨hvalid, hchain⟩ := hspellable
  by_cases hword : tok.isWord = false
  · cases tok with
    | number | ident => exact absurd hword.symm Bool.false_ne_true
    | _ => trivial
  have hfirst : ∀ c ∈ (text.dropWhile isspace).head?,
      isNumberChar c = false ∧ isIdentChar c = false := by
    cases h with
    | nil hws => simp [List.dropWhile_eq_nil_iff.mpr hws]
    | @cons tok' tokens ws text hws _ =>
        have hother := (List.isChain_cons_cons.mp hchain).1.resolve_left hword
        obtain ⟨c, tail, hspelling, hspace, hc⟩ := (hvalid tok' (by simp)).first hother
        rw [List.dropWhile_append_of_pos hws, hspelling, List.cons_append,
          List.dropWhile_cons_of_neg (Bool.eq_false_iff.mp hspace)]
        rintro x hx
        exact Option.some_inj.mp hx ▸ hc
  cases tok with
  | number _ =>
      intro c hc
      rcases text with _ | ⟨x, text⟩
      · exact nomatch hc
      obtain rfl := Option.some_inj.mp hc
      by_cases hspace : isspace x = true
      · exact isNumberChar_of_isspace hspace
      · rw [List.dropWhile_cons_of_neg hspace] at hfirst
        exact (hfirst x rfl).1
  | ident _ => exact fun c hc => (hfirst c hc).2
  | _ => trivial

theorem consumes_of_spells {tokens : List Token} {text : List Char} (h : Spells tokens text)
    (hspellable : Spellable tokens) : ∀ s : State, s.rest = text → s.failed = false →
      ∃ s', Consumes s.advance tokens s' ∧ s'.tok = .endOfText ∧ s'.failed = false := by
  induction h with
  | nil hws =>
      rintro s rfl hs
      exact ⟨_, rfl, by rw [State.advance, next_of_space hws], by
        rw [State.advance, next_of_space hws]
        exact hs⟩
  | @cons tok tokens ws text hws h ih =>
      rintro s hrest hs
      have hvalid := hspellable.1 tok List.mem_cons_self
      have hadvance : s.advance = { s with rest := text, tok := tok } := by
        rw [State.advance, hrest, next_of_spelled hws hvalid (h.separated hspellable)]
      obtain ⟨s', hconsumes, hs'⟩ := ih ⟨fun t ht => hspellable.1 t (List.mem_cons_of_mem _ ht),
        hspellable.2.tail⟩ s.advance (by rw [hadvance]) (by rw [hadvance]; exact hs)
      exact ⟨s', ⟨by rw [hadvance], hvalid.ne_endOfText, hconsumes⟩, hs'⟩

/-! ## Trees -/

inductive Tree where
  | literal (text : List Char)
  | input (name : List Char)
  | not (operand : Tree)
  | binary (op : Char) (left right : Tree)
  | call (name : List Char) (args : List Tree)

namespace Tree

/-- The trees that have a text: digits and dots for a number, a name without backquotes for
an input, and an allowed number of arguments. -/
inductive WellFormed : Tree → Prop where
  | literal {text : List Char} (hne : text ≠ []) (hall : ∀ c ∈ text, isNumberChar c = true) :
      WellFormed (.literal text)
  | input {name : List Char} (h : '\x60' ∉ name) : WellFormed (.input name)
  | not {operand : Tree} (h : WellFormed operand) : WellFormed (.not operand)
  | binary {op : Char} {left right : Tree} (hop : 0 ≤ precedence op) (hleft : WellFormed left)
      (hright : WellFormed right) : WellFormed (.binary op left right)
  | call {name : List Char} {info : FnInfo} {args : List Tree}
      (known : functionTable.lookup name = some info) (enough : info.minArgs ≤ args.length)
      (few : args.length ≤ info.maxArgs) (hargs : ∀ arg ∈ args, WellFormed arg) :
      WellFormed (.call name args)

mutual

/-- The tokens of a tree where operators must bind at least so tight: parentheses stand
around looser ones, and on the right around equal ones. -/
def tokens : Tree → Int → List Token
  | .literal text, _ => [.number text]
  | .input name, _ => [.input name]
  | .not operand, _ => .op '!' :: operand.tokens 7
  | .binary op left right, minPrec =>
      if precedence op < minPrec then
        .lparen :: ((left.tokens (precedence op) ++
          .op op :: right.tokens (precedence op + 1)) ++ [.rparen])
      else left.tokens (precedence op) ++ .op op :: right.tokens (precedence op + 1)
  | .call name args, _ => .ident name :: .lparen :: (argTokens args ++ [.rparen])

def argTokens : List Tree → List Token
  | [] => []
  | [arg] => arg.tokens 0
  | arg :: arg' :: args => arg.tokens 0 ++ .comma :: argTokens (arg' :: args)

end

section Nodes

variable {D : Type} [Zero D] (strtod : List Char → D)

mutual

def toNode : Tree → Node D
  | .literal text => literalNode (strtod text)
  | .input name => inputNode name
  | .not operand => opNode .not [operand.toNode]
  | .binary op left right => opNode (binaryKind op) [left.toNode, right.toNode]
  | .call name args =>
      opNode ((functionTable.lookup name).elim .literal FnInfo.kind) (argNodes args)

def argNodes : List Tree → List (Node D)
  | [] => []
  | arg :: args => arg.toNode :: argNodes args

end

theorem length_argNodes (args : List Tree) : (argNodes strtod args).length = args.length := by
  induction args with
  | nil => rfl
  | cons arg args ih => rw [argNodes, List.length_cons, List.length_cons, ih]

end Nodes

/-! ## The text of a tree -/

theorem valid_of_lookup {name : List Char} {info : FnInfo}
    (h : functionTable.lookup name = some info) : (Token.ident name).Valid := by
  obtain ⟨before, after, heq, -⟩ := List.lookup_eq_some_iff.mp h
  have hall : ∀ entry ∈ functionTable,
      entry.1.head?.any (fun c => isalpha c || c = '_') = true ∧
        entry.1.all isIdentChar = true ∧ entry.1.getLast? ≠ some ' ' := by decide
  obtain ⟨hfirst, hident, hlast⟩ :=
    hall (name, info) (heq ▸ List.mem_append_right _ List.mem_cons_self)
  exact ⟨(Option.any_eq_true _ _).mp hfirst, List.all_eq_true.mp hident, hlast⟩

theorem op_valid {op : Char} (h : 0 ≤ precedence op) : (Token.op op).Valid := by
  by_contra hop
  refine absurd h ?_
  simp only [Token.Valid, operators, List.mem_cons, not_or] at hop
  simp [precedence, hop]

theorem precedence_le (op : Char) : precedence op ≤ 6 := by
  unfold precedence
  split_ifs <;> omega

theorem spellable_argTokens {args : List Tree} (h : ∀ arg ∈ args, Spellable (arg.tokens 0)) :
    Spellable (argTokens args) := by
  induction args with
  | nil => exact ⟨fun _ => nofun, .nil⟩
  | cons arg args ih =>
      have hrest := ih fun a ha => h a (List.mem_cons_of_mem _ ha)
      rcases args with _ | ⟨arg', args⟩
      · exact h arg List.mem_cons_self
      · exact (h arg List.mem_cons_self).join hrest trivial rfl

theorem WellFormed.spellable {tree : Tree} (h : tree.WellFormed) :
    ∀ minPrec, Spellable (tree.tokens minPrec) := by
  have hnil : Spellable [] := ⟨fun _ => nofun, .nil⟩
  induction h with
  | literal hne hall => exact fun _ => spellable_singleton ⟨hne, hall⟩
  | input h => exact fun _ => spellable_singleton h
  | not _ ih => exact fun _ => hnil.join (ih 7) (by decide : '!' ∈ operators) rfl
  | @binary op left right hop _ _ ihleft ihright =>
      intro minPrec
      have hinner :=
        (ihleft (precedence op)).join (ihright (precedence op + 1)) (op_valid hop) rfl
      rw [tokens]
      split_ifs
      · exact hnil.join (hinner.join hnil trivial rfl) trivial rfl
      · exact hinner
  | call known _ _ _ ih =>
      intro minPrec
      rw [tokens]
      exact (spellable_singleton (valid_of_lookup known)).join
        ((spellable_argTokens fun arg harg => ih arg harg 0).join hnil trivial rfl) trivial rfl

section Derived

variable {D : Type} [Zero D] {strtod : List Char → D}

theorem derives_argTokens {args : List Tree} (hne : args ≠ [])
    (h : ∀ arg ∈ args, Derives strtod (.binary 0) (arg.tokens 0) [arg.toNode strtod]) :
    Derives strtod .args (argTokens args) (argNodes strtod args) := by
  induction args with
  | nil => exact absurd rfl hne
  | cons arg args ih =>
      rcases args with _ | ⟨arg', args⟩
      · exact .last (h arg List.mem_cons_self)
      · exact .more (h arg List.mem_cons_self)
          (ih (List.cons_ne_nil _ _) fun a ha => h a (List.mem_cons_of_mem _ ha))

/-- The tokens of a tree derive it; above all precedences, without a binary operator. -/
theorem WellFormed.derives {tree : Tree} (h : tree.WellFormed) : ∀ minPrec,
    Derives strtod (.binary minPrec) (tree.tokens minPrec) [tree.toNode strtod] ∧
      (6 < minPrec → Derives strtod .unary (tree.tokens minPrec) [tree.toNode strtod]) := by
  have hunary : ∀ {tokens : List Token} {node : Node D} {minPrec : Int},
      Derives strtod .unary tokens [node] → Derives strtod (.binary minPrec) tokens [node] ∧
        (6 < minPrec → Derives strtod .unary tokens [node]) :=
    fun hderives => ⟨.unary hderives, fun _ => hderives⟩
  induction h with
  | @literal text => exact fun _ => hunary (.primary (.number text))
  | @input name => exact fun _ => hunary (.primary (.input name))
  | not _ ih => exact fun _ => hunary (.prefixed (Or.inl rfl) ((ih 7).2 (by decide)))
  | @binary op left right hop _ _ ihleft ihright =>
      intro minPrec
      have hinner : ∀ p ≤ precedence op, Derives strtod (.binary p) _ _ :=
        fun p hp => .binary hop hp (ihleft _).1 (ihright _).1
      rw [tokens]
      split_ifs with hloose
      · exact hunary (.primary (.paren (hinner 0 hop)))
      · have := precedence_le op
        exact ⟨hinner minPrec (by omega), by omega⟩
  | @call name info args known enough few _ ih =>
      intro minPrec
      have hne : args ≠ [] := by
        rintro rfl
        exact absurd enough (Nat.not_le.mpr (one_le_minArgs known))
      have hargs := derives_argTokens hne fun arg harg => (ih arg harg 0).1
      have hcall := Derives.call known hargs (by rwa [length_argNodes])
        (by rwa [length_argNodes])
      rw [tokens, toNode, known]
      exact hunary (.primary hcall)

end Derived

end Tree

/-! ## Parsing -/

section Parsing

variable {D : Type} [Zero D]

theorem isspace_of_isBlank {text : List Char} (h : isBlank text = true) :
    ∀ c ∈ text, isspace c = true := by
  intro c hc
  have hblank := List.all_eq_true.mp h c hc
  simp only [Bool.or_eq_true, decide_eq_true_iff] at hblank
  rw [isspace_iff]
  tauto

/-- Input expressions are parsed by their grammar. -/
theorem parse_grammar (strtod : List Char → D) :
    (∀ tree : Tree, tree.WellFormed → ∀ text, Spells (tree.tokens 0) text → ∀ error,
      parse strtod text error = some (true, some (tree.toNode strtod), error)) ∧
    ∀ text error,
      (parse strtod text error = some (true, none, error) ∧ ∀ c ∈ text, isspace c = true) ∨
      (∃ tokens node, parse strtod text error = some (true, some node, error) ∧
        Spells tokens text ∧ Derives strtod (.binary 0) tokens [node]) ∨
      ∃ error', parse strtod text error = some (false, none, error') := by
  constructor
  · intro tree htree text hspells error
    obtain ⟨s', hconsumes, hend, hs'⟩ := consumes_of_spells hspells (htree.spellable 0)
      ⟨text, .endOfText, [], false⟩ rfl rfl
    have hderives : Derives strtod (.binary 0) (tree.tokens 0) [tree.toNode strtod] :=
      (htree.derives 0).1
    have hblank : ¬isBlank text = true := by
      intro hblank
      obtain ⟨tok, rest, htokens, -⟩ := hderives.head
      rw [htokens] at hconsumes
      refine hconsumes.2.1 (hconsumes.1.symm.trans ?_)
      rw [State.advance, next_of_space (isspace_of_isBlank hblank)]
    have hparsed : parseBinary strtod (depthFor text) 0 (start text) = some (.ok (_, s')) :=
      (parses_of_derives hderives _ _ hconsumes hs').parseBinary_of_ne hend (by simp)
        (depthFor_suffices text)
    rw [parse, if_neg hblank, parseExpression, hparsed]
    simp [andThen, hs', hend, done]
  · intro text error
    by_cases hblank : isBlank text = true
    · exact Or.inl ⟨if_pos hblank, isspace_of_isBlank hblank⟩
    refine Or.inr ?_
    rw [parse, if_neg hblank, parseExpression]
    obtain ⟨e | ⟨node, s'⟩, hresult, hsound⟩ :=
      (sound strtod (depthFor text)).binary 0 (start text) (depthFor_suffices text)
    · exact Or.inr ⟨e, by rw [hresult]; rfl⟩
    rw [hresult]
    by_cases hfailed : s'.failed = true
    · exact Or.inr ⟨s'.lexError, by simp [andThen, hfailed, fail]⟩
    by_cases hend : s'.tok = .endOfText
    · obtain ⟨tokens, hconsumes, hderives, -⟩ := hsound _ rfl
      exact Or.inl ⟨tokens, node, by simp [andThen, hfailed, hend, done],
        spells_of_consumes hend (by simpa using hfailed) _ hconsumes, hderives⟩
    · exact Or.inr ⟨_, by simp [andThen, hfailed, hend, fail]; rfl⟩

end Parsing

end Wiicompiled.Input.InputExpr
