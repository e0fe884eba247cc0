import Wiicompiled.Input.InputExprLexer

/-!
# The grammar of the input expressions

Binary operators associate to the left and bind by the table of precedences, a prefix
operator binds tighter than all of them, and the functions of the table take a number of
arguments that they allow.  The parser finds what the grammar derives, and only that, within
a depth of calls for what is ahead: every call goes down the levels of the grammar or
behind a token.
-/

namespace Wiicompiled.Input.InputExpr

open Outcome

/-! ## Outcomes -/

namespace Outcome

variable {α β : Type} {m n : Outcome α} {f : α → Outcome β} {P : α → Prop} {Q : β → Prop}

theorem andThen_eq_ok {b : β} :
    m.andThen f = some (.ok b) ↔ ∃ a, m = some (.ok a) ∧ f a = some (.ok b) := by
  rcases m with _ | e | a
  · simp [andThen]
  · simp [andThen]
  · simp [andThen]

def Gives (m : Outcome α) (P : α → Prop) : Prop :=
  ∃ result, m = some result ∧ ∀ a, result = .ok a → P a

theorem Gives.done {a : α} (h : P a) : Gives (done a) P :=
  ⟨_, rfl, fun _ heq => Except.ok.inj heq ▸ h⟩

theorem Gives.fail {e : List Char} : Gives (fail e) P :=
  ⟨_, rfl, fun _ heq => nomatch heq⟩

theorem Gives.mono {P' : α → Prop} (h : Gives m P) (himp : ∀ a, P a → P' a) : Gives m P' := by
  obtain ⟨result, hresult, hvalue⟩ := h
  exact ⟨result, hresult, fun a heq => himp a (hvalue a heq)⟩

theorem Gives.ite {p : Prop} [Decidable p] (hm : p → Gives m P) (hn : ¬p → Gives n P) :
    Gives (if p then m else n) P := by
  split_ifs with hp
  · exact hm hp
  · exact hn hp

theorem Gives.andThen (hm : Gives m P) (hf : ∀ a, P a → Gives (f a) Q) :
    Gives (m.andThen f) Q := by
  obtain ⟨e | a, rfl, hvalue⟩ := hm
  · exact Gives.fail
  · exact hf a (hvalue a rfl)

end Outcome

/-! ## What is ahead -/

/-- What is left of a text, with the token ahead. -/
def State.ahead (s : State) : ℕ :=
  if s.tok = .endOfText then 0 else s.rest.length + 1

theorem ahead_advance_le (s : State) : s.advance.ahead ≤ s.rest.length := by
  rw [State.advance]
  rcases hnext : next s.rest with e | ⟨tok, rest⟩
  · exact Nat.zero_le _
  · rw [State.ahead]
    dsimp only
    split_ifs with hend
    · exact Nat.zero_le _
    · rcases next_spells hnext with ⟨htok, -⟩ | ⟨hvalid, ws, -, htext⟩
      · exact absurd htok hend
      · have hpos := List.length_pos_of_ne_nil hvalid.spelling_ne_nil
        rw [htext, List.length_append, List.length_append]
        omega

theorem ahead_advance_lt {s : State} {tok : Token} (htok : s.tok = tok) (hne : tok ≠ .endOfText) :
    s.advance.ahead < s.ahead := by
  have hle := ahead_advance_le s
  have hahead : s.ahead = s.rest.length + 1 := if_neg (htok ▸ hne)
  omega

theorem depthFor_suffices (text : List Char) : 4 * (start text).ahead + 3 ≤ depthFor text := by
  have hahead : (start text).ahead ≤ text.length := ahead_advance_le _
  rw [depthFor]
  omega

/-! ## Consumed tokens -/

/-- The parser takes the tokens, one after the other. -/
def Consumes : State → List Token → State → Prop
  | s, [], s' => s = s'
  | s, tok :: tokens, s' => s.tok = tok ∧ tok ≠ .endOfText ∧ Consumes s.advance tokens s'

theorem consumes_append {tokens' : List Token} {s s'' : State} : ∀ {tokens : List Token},
    Consumes s (tokens ++ tokens') s'' ↔
      ∃ s', Consumes s tokens s' ∧ Consumes s' tokens' s'' := by
  intro tokens
  induction tokens generalizing s with
  | nil => exact ⟨fun h => ⟨s, rfl, h⟩, fun ⟨_, heq, h⟩ => heq ▸ h⟩
  | cons tok tokens ih =>
      rw [List.cons_append, Consumes, ih]
      constructor
      · rintro ⟨htok, hne, s', h, h'⟩
        exact ⟨s', ⟨htok, hne, h⟩, h'⟩
      · rintro ⟨s', ⟨htok, hne, h⟩, h'⟩
        exact ⟨htok, hne, s', h, h'⟩

theorem failed_of_advance {s : State} (h : s.advance.failed = false) : s.failed = false := by
  rw [State.advance] at h
  split at h
  · exact h
  · exact absurd h.symm Bool.false_ne_true

theorem Consumes.failed {s s' : State} {tokens : List Token} (h : Consumes s tokens s')
    (hs : s'.failed = false) : s.failed = false := by
  induction tokens generalizing s with
  | nil => exact (show s = s' from h) ▸ hs
  | cons tok tokens ih => exact failed_of_advance (ih h.2.2)

theorem Consumes.ahead_le {tokens : List Token} {s s' : State} (h : Consumes s tokens s') :
    s'.ahead ≤ s.ahead := by
  induction tokens generalizing s with
  | nil => exact (show s = s' from h) ▸ Nat.le_refl _
  | cons tok tokens ih => exact (ih h.2.2).trans (ahead_advance_lt h.1 h.2.1).le

/-! ## Derivations -/

inductive Level where
  | binary (minPrec : Int)
  | unary
  | primary
  | args

inductive Derives {D : Type} [Zero D] (strtod : List Char → D) :
    Level → List Token → List (Node D) → Prop where
  | number (text : List Char) :
      Derives strtod .primary [.number text] [literalNode (strtod text)]
  | input (name : List Char) : Derives strtod .primary [.input name] [inputNode name]
  | ident (name : List Char) : Derives strtod .primary [.ident name] [inputNode name]
  | paren {tokens : List Token} {node : Node D} (inner : Derives strtod (.binary 0) tokens [node]) :
      Derives strtod .primary (.lparen :: (tokens ++ [.rparen])) [node]
  | call {name : List Char} {info : FnInfo} {tokens : List Token} {nodes : List (Node D)}
      (known : functionTable.lookup name = some info) (args : Derives strtod .args tokens nodes)
      (enough : info.minArgs ≤ nodes.length) (few : nodes.length ≤ info.maxArgs) :
      Derives strtod .primary (.ident name :: .lparen :: (tokens ++ [.rparen]))
        [opNode info.kind nodes]
  | prefixed {op : Char} {tokens : List Token} {node : Node D}
      (isPrefix : op = '!' ∨ op = '-' ∨ op = '+') (inner : Derives strtod .unary tokens [node]) :
      Derives strtod .unary (.op op :: tokens) [prefixNode op node]
  | primary {tokens : List Token} {node : Node D} (inner : Derives strtod .primary tokens [node]) :
      Derives strtod .unary tokens [node]
  | unary {minPrec : Int} {tokens : List Token} {node : Node D}
      (inner : Derives strtod .unary tokens [node]) :
      Derives strtod (.binary minPrec) tokens [node]
  | binary {minPrec : Int} {op : Char} {left right : List Token} {lhs rhs : Node D}
      (isBinary : 0 ≤ precedence op) (allowed : minPrec ≤ precedence op)
      (hleft : Derives strtod (.binary (precedence op)) left [lhs])
      (hright : Derives strtod (.binary (precedence op + 1)) right [rhs]) :
      Derives strtod (.binary minPrec) (left ++ .op op :: right)
        [opNode (binaryKind op) [lhs, rhs]]
  | last {tokens : List Token} {node : Node D} (arg : Derives strtod (.binary 0) tokens [node]) :
      Derives strtod .args tokens [node]
  | more {tokens tokens' : List Token} {node : Node D} {nodes : List (Node D)}
      (arg : Derives strtod (.binary 0) tokens [node]) (args : Derives strtod .args tokens' nodes) :
      Derives strtod .args (tokens ++ .comma :: tokens') (node :: nodes)

/-- No operator ahead belongs to an expression of this precedence. -/
def Stops (minPrec : Int) (s : State) : Prop :=
  ∀ op, s.tok = .op op → precedence op < 0 ∨ precedence op < minPrec

theorem Stops.mono {p q : Int} {s : State} (h : Stops p s) (hle : p ≤ q) : Stops q s :=
  fun op hop => (h op hop).imp_right fun hlt => Int.lt_of_lt_of_le hlt hle

theorem stops_of_ne {p : Int} {s : State} (h : ∀ op, s.tok ≠ .op op) : Stops p s :=
  fun op hop => absurd hop (h op)

theorem one_le_minArgs {name : List Char} {info : FnInfo}
    (h : functionTable.lookup name = some info) : 1 ≤ info.minArgs := by
  obtain ⟨before, after, heq, -⟩ := List.lookup_eq_some_iff.mp h
  have hall : ∀ entry ∈ functionTable, 1 ≤ entry.2.minArgs := by decide
  exact hall (name, info) (heq ▸ List.mem_append_right _ List.mem_cons_self)

section Parsed

variable {D : Type} [Zero D] {strtod : List Char → D}

theorem Derives.head {level : Level} {tokens : List Token} {nodes : List (Node D)}
    (h : Derives strtod level tokens nodes) : ∃ tok rest, tokens = tok :: rest ∧
      tok ≠ .rparen ∧ (level = .primary → ∀ op, tok ≠ .op op) := by
  induction h with
  | number | input | ident | paren | call => exact ⟨_, _, rfl, by simp, by simp⟩
  | prefixed => exact ⟨_, _, rfl, by simp, nofun⟩
  | primary _ ih | unary _ ih | last _ ih =>
      obtain ⟨tok, rest, heq, hne, -⟩ := ih
      exact ⟨tok, rest, heq, hne, nofun⟩
  | binary _ _ _ _ ih _ | more _ _ ih _ =>
      obtain ⟨tok, rest, rfl, hne, -⟩ := ih
      exact ⟨tok, _, rfl, hne, nofun⟩

theorem Derives.ahead_lt {level : Level} {tokens : List Token} {nodes : List (Node D)}
    {s s' : State} (h : Derives strtod level tokens nodes) (hconsumes : Consumes s tokens s') :
    s'.ahead < s.ahead := by
  obtain ⟨tok, rest, rfl, -⟩ := h.head
  exact hconsumes.2.2.ahead_le.trans_lt (ahead_advance_lt hconsumes.1 hconsumes.2.1)

variable (strtod)

/-! ## What is parsed is derived -/

/-- All functions of the parser end within a depth for what is ahead, with what the grammar
derives. -/
structure Sound (depth : ℕ) : Prop where
  binary : ∀ p s, 4 * s.ahead + 3 ≤ depth → (parseBinary strtod depth p s).Gives fun r =>
    ∃ tokens, Consumes s tokens r.2 ∧ Derives strtod (.binary p) tokens [r.1] ∧ Stops p r.2
  loop : ∀ p lhs s before, 4 * s.ahead + 2 ≤ depth →
    (∀ q, (q ≤ p ∨ ∃ op, s.tok = .op op ∧ q ≤ precedence op) →
      Derives strtod (.binary q) before [lhs]) →
    (binaryLoop strtod depth p lhs s).Gives fun r => ∃ tokens, Consumes s tokens r.2 ∧
      Derives strtod (.binary p) (before ++ tokens) [r.1] ∧ Stops p r.2
  unary : ∀ s, 4 * s.ahead + 2 ≤ depth → (parseUnary strtod depth s).Gives fun r =>
    ∃ tokens, Consumes s tokens r.2 ∧ Derives strtod .unary tokens [r.1]
  primary : ∀ s, 4 * s.ahead + 1 ≤ depth → (parsePrimary strtod depth s).Gives fun r =>
    ∃ tokens, Consumes s tokens r.2 ∧ Derives strtod .primary tokens [r.1]
  args : ∀ s, 4 * s.ahead + 4 ≤ depth → (parseArgs strtod depth s).Gives fun r =>
    ∃ tokens, Consumes s tokens r.2 ∧ Derives strtod .args tokens r.1

theorem sound (depth : ℕ) : Sound strtod depth := by
  induction depth with
  | zero => constructor <;> intros <;> omega
  | succ depth ih =>
      constructor
      · intro p s hs
        rw [parseBinary]
        refine (ih.unary s (by omega)).andThen ?_
        rintro ⟨lhs, s₁⟩ ⟨tokens, hconsumes, hderives⟩
        have hlt : s₁.ahead < s.ahead := hderives.ahead_lt hconsumes
        refine (ih.loop p lhs s₁ tokens (by omega) fun _ _ => .unary hderives).mono ?_
        rintro r ⟨tokens', hconsumes', hresult⟩
        exact ⟨_, consumes_append.mpr ⟨s₁, hconsumes, hconsumes'⟩, hresult⟩
      · intro p lhs s before hs hlhs
        have hstop : Stops p s → (done (lhs, s)).Gives fun r => ∃ tokens,
            Consumes s tokens r.2 ∧ Derives strtod (.binary p) (before ++ tokens) [r.1] ∧
              Stops p r.2 := fun hstops =>
          .done ⟨[], rfl, (List.append_nil before).symm ▸ hlhs p (Or.inl (Int.le_refl p)), hstops⟩
        rw [binaryLoop]
        split
        · next op htok =>
            have hlt := ahead_advance_lt htok (by simp)
            refine .ite (fun hend => hstop fun op' hop' => ?_) fun hgo => ?_
            · obtain rfl := Token.op.inj (htok.symm.trans hop')
              exact hend
            · obtain ⟨hpos, hallowed⟩ := not_or.mp hgo
              refine (ih.binary _ _ (by omega)).andThen ?_
              rintro ⟨rhs, s₂⟩ ⟨right, hright, hderives, hstops⟩
              have hlt' : s₂.ahead < s.ahead := (hderives.ahead_lt hright).trans hlt
              have hleft := hlhs _ (Or.inr ⟨op, htok, Int.le_refl _⟩)
              -- what stops the right operand binds no tighter than this operator
              have hnext : ∀ q, (q ≤ p ∨ ∃ op', s₂.tok = .op op' ∧ q ≤ precedence op') →
                  q ≤ precedence op := by
                rintro q (hq | ⟨op', hop', hq⟩)
                · omega
                · have := hstops op' hop'
                  omega
              refine (ih.loop p _ s₂ (before ++ .op op :: right) (by omega) fun q hq =>
                .binary (Int.not_lt.mp hpos) (hnext q hq) hleft hderives).mono ?_
              rintro r ⟨tokens, hconsumes, hresult⟩
              rw [List.append_assoc] at hresult
              exact ⟨.op op :: (right ++ tokens),
                ⟨htok, by simp, consumes_append.mpr ⟨s₂, hright, hconsumes⟩⟩, hresult⟩
        · next hne => exact hstop (stops_of_ne hne)
      · intro s hs
        rw [parseUnary]
        refine .ite (fun _ => .fail) fun _ => ?_
        have hprimary : (parsePrimary strtod depth s).Gives fun r =>
            ∃ tokens, Consumes s tokens r.2 ∧ Derives strtod .unary tokens [r.1] :=
          (ih.primary s (by omega)).mono fun _ ⟨tokens, hconsumes, hderives⟩ =>
            ⟨tokens, hconsumes, .primary hderives⟩
        split
        · next op htok =>
            refine .ite (fun hop => ?_) fun _ => hprimary
            have hlt := ahead_advance_lt htok (by simp)
            refine (ih.unary _ (by omega)).andThen ?_
            rintro ⟨inner, s₁⟩ ⟨tokens, hconsumes, hderives⟩
            exact .done ⟨.op op :: tokens, ⟨htok, by simp, hconsumes⟩, .prefixed hop hderives⟩
        · exact hprimary
      · intro s hs
        rw [parsePrimary]
        refine .ite (fun _ => .fail) fun _ => ?_
        split
        · next name htok => exact .done ⟨[.input name], ⟨htok, by simp, rfl⟩, .input name⟩
        · next text htok => exact .done ⟨[.number text], ⟨htok, by simp, rfl⟩, .number text⟩
        · next htok =>
            have hlt := ahead_advance_lt htok (by simp)
            refine (ih.binary _ _ (by omega)).andThen ?_
            rintro ⟨inner, s₁⟩ ⟨tokens, hconsumes, hderives, -⟩
            refine .ite (fun hclose => .done ?_) fun _ => .fail
            exact ⟨.lparen :: (tokens ++ [.rparen]), ⟨htok, by simp, consumes_append.mpr
              ⟨s₁, hconsumes, hclose, by simp, rfl⟩⟩, .paren hderives⟩
        · next name htok =>
            refine .ite (fun _ => .done ⟨[.ident name], ⟨htok, by simp, rfl⟩, .ident name⟩)
              fun hparen => ?_
            have hlt := ahead_advance_lt htok (by simp)
            have hlt' := ahead_advance_lt (not_not.mp hparen) (by simp)
            split
            · exact .fail
            · next info hknown =>
                have hargs : (if s.advance.advance.tok = .rparen
                    then done (([] : List (Node D)), s.advance.advance)
                    else parseArgs strtod depth s.advance.advance).Gives fun r =>
                    1 ≤ r.1.length → ∃ tokens, Consumes s.advance.advance tokens r.2 ∧
                      Derives strtod .args tokens r.1 :=
                  .ite (fun _ => .done fun hlen => absurd hlen (by simp))
                    fun _ => (ih.args _ (by omega)).mono fun _ h _ => h
                refine hargs.andThen ?_
                rintro ⟨nodes, s₁⟩ hnodes
                refine .ite (fun _ => .fail) fun hclose => .ite (fun _ => .fail) fun hcount =>
                  .done ?_
                obtain ⟨henough, hfew⟩ := not_or.mp hcount
                obtain ⟨tokens, hconsumes, hderives⟩ :=
                  hnodes ((one_le_minArgs hknown).trans (not_lt.mp henough))
                exact ⟨.ident name :: .lparen :: (tokens ++ [.rparen]),
                  ⟨htok, by simp, not_not.mp hparen, by simp, consumes_append.mpr
                    ⟨s₁, hconsumes, not_not.mp hclose, by simp, rfl⟩⟩,
                  .call hknown hderives (not_lt.mp henough) (not_lt.mp hfew)⟩
        · exact .fail
      · intro s hs
        rw [parseArgs]
        refine (ih.binary _ _ (by omega)).andThen ?_
        rintro ⟨arg, s₁⟩ ⟨tokens, hconsumes, hderives, -⟩
        have hlt : s₁.ahead < s.ahead := hderives.ahead_lt hconsumes
        refine .ite (fun hcomma => ?_) fun _ => .done ⟨tokens, hconsumes, .last hderives⟩
        have hlt' : s₁.advance.ahead < s₁.ahead := ahead_advance_lt hcomma (by simp)
        have hdepth : 4 * s₁.advance.ahead + 4 ≤ depth := by omega
        refine (ih.args s₁.advance hdepth).andThen ?_
        rintro ⟨rest, s₂⟩ ⟨tokens', hconsumes', hderives'⟩
        exact .done ⟨tokens ++ .comma :: tokens', consumes_append.mpr
          ⟨s₁, hconsumes, hcomma, by simp, hconsumes'⟩, .more hderives hderives'⟩

/-! ## What is derived is parsed -/

/-- What the parser does with nodes at a level of the grammar, within a depth for what is
ahead.  For binary operators it is the loop over the next ones that goes on. -/
def Parses : Level → State → List (Node D) → State → Prop
  | .binary p, s, nodes, s' => ∀ n, nodes = [n] → ∀ q ≤ p, Stops (p + 1) s' → s'.tok ≠ .lparen →
      ∀ result, (∀ depth, 4 * s'.ahead + 2 ≤ depth →
        binaryLoop strtod depth q n s' = some result) →
      ∀ depth, 4 * s.ahead + 3 ≤ depth → parseBinary strtod depth q s = some result
  | .unary, s, nodes, s' => ∀ n, nodes = [n] → s'.tok ≠ .lparen →
      ∀ depth, 4 * s.ahead + 2 ≤ depth → parseUnary strtod depth s = some (.ok (n, s'))
  | .primary, s, nodes, s' => ∀ n, nodes = [n] → s'.tok ≠ .lparen →
      ∀ depth, 4 * s.ahead + 1 ≤ depth → parsePrimary strtod depth s = some (.ok (n, s'))
  | .args, s, nodes, s' => s'.tok = .rparen →
      ∀ depth, 4 * s.ahead + 4 ≤ depth → parseArgs strtod depth s = some (.ok (nodes, s'))

variable {strtod}

theorem binaryLoop_stops {p : Int} {n : Node D} {s : State} (h : Stops p s) {depth : ℕ} :
    binaryLoop strtod (depth + 1) p n s = some (.ok (n, s)) := by
  rw [binaryLoop]
  split
  · next op hop => exact if_pos (h op hop)
  · rfl

theorem Parses.parseBinary {p : Int} {n : Node D} {s s' : State}
    (h : Parses strtod (.binary p) s [n] s') (hstops : Stops p s') (hne : s'.tok ≠ .lparen)
    {depth : ℕ} (hdepth : 4 * s.ahead + 3 ≤ depth) :
    parseBinary strtod depth p s = some (.ok (n, s')) := by
  refine h n rfl p (Int.le_refl p) (hstops.mono (by omega)) hne _ ?_ depth hdepth
  rintro (_ | depth) hdepth
  · omega
  · exact binaryLoop_stops hstops

theorem Parses.parseBinary_of_ne {p : Int} {n : Node D} {s s' : State} {tok : Token}
    (h : Parses strtod (.binary p) s [n] s') (htok : s'.tok = tok)
    (hne : (∀ op, tok ≠ .op op) ∧ tok ≠ .lparen) {depth : ℕ} (hdepth : 4 * s.ahead + 3 ≤ depth) :
    InputExpr.parseBinary strtod depth p s = some (.ok (n, s')) :=
  h.parseBinary (stops_of_ne (htok ▸ hne.1)) (htok ▸ hne.2) hdepth

theorem parses_of_derives {level : Level} {tokens : List Token} {nodes : List (Node D)}
    (h : Derives strtod level tokens nodes) : ∀ s s', Consumes s tokens s' →
      s'.failed = false → Parses strtod level s nodes s' := by
  -- a token that is a node of its own
  have hsingle : ∀ {tok : Token} {node : Node D}, (∀ s, s.failed = false → s.tok = tok →
      s.advance.tok ≠ .lparen → ∀ depth,
        parsePrimary strtod (depth + 1) s = some (.ok (node, s.advance))) →
      ∀ s s', Consumes s [tok] s' → s'.failed = false →
        Parses strtod .primary s [node] s' := by
    rintro tok node hparse s s' ⟨htok, -, rfl⟩ hs n hn hne (_ | depth) hdepth
    · omega
    · obtain rfl := List.singleton_inj.mp hn
      exact hparse s (failed_of_advance hs) htok hne depth
  induction h with
  | number text =>
      refine hsingle fun s hs htok _ depth => ?_
      rw [parsePrimary, if_neg (by rw [hs]; simp), htok]
      rfl
  | input name =>
      refine hsingle fun s hs htok _ depth => ?_
      rw [parsePrimary, if_neg (by rw [hs]; simp), htok]
      rfl
  | ident name =>
      refine hsingle fun s hs htok hne depth => ?_
      rw [parsePrimary, if_neg (by rw [hs]; simp), htok]
      exact if_pos hne
  | @paren tokens node _ ih =>
      rintro s s' hconsumes hs n hn - (_ | depth) hdepth
      · omega
      obtain rfl := List.singleton_inj.mp hn
      have hfailed := hconsumes.failed hs
      obtain ⟨htok, hne, hrest⟩ := hconsumes
      have hahead := ahead_advance_lt htok hne
      obtain ⟨s₁, hinner, hclose, -, rfl⟩ := consumes_append.mp hrest
      rw [parsePrimary, if_neg (by rw [hfailed]; simp), htok]
      exact andThen_eq_ok.mpr ⟨_, (ih _ _ hinner (failed_of_advance hs)).parseBinary_of_ne
        hclose (by simp) (by omega), if_pos hclose⟩
  | @call name info tokens nodes hknown hargs henough hfew ih =>
      rintro s s' hconsumes hs n hn - (_ | depth) hdepth
      · omega
      obtain rfl := List.singleton_inj.mp hn
      have hfailed := hconsumes.failed hs
      obtain ⟨htok, hne, hparen, hne', hrest⟩ := hconsumes
      have hahead := ahead_advance_lt htok hne
      have hahead' := ahead_advance_lt hparen hne'
      obtain ⟨s₁, hinner, hclose, -, rfl⟩ := consumes_append.mp hrest
      rw [parsePrimary, if_neg (by rw [hfailed]; simp), htok]
      dsimp only
      rw [if_neg (not_not.mpr hparen), hknown]
      refine andThen_eq_ok.mpr ⟨(nodes, s₁), ?_, ?_⟩
      · -- there is an argument, so the parenthesis does not close at once
        have hparsed := ih _ _ hinner (failed_of_advance hs) hclose depth (by omega)
        obtain ⟨tok, rest, rfl, hne, -⟩ := hargs.head
        obtain ⟨hfirst, -⟩ := hinner
        exact (if_neg (hfirst ▸ hne)).trans hparsed
      · exact (if_neg (not_not.mpr hclose)).trans
          (if_neg (by rw [not_or, not_lt, not_lt]; exact ⟨henough, hfew⟩))
  | @prefixed op tokens node hop _ ih =>
      rintro s s' hconsumes hs n hn hne (_ | depth) hdepth
      · omega
      obtain rfl := List.singleton_inj.mp hn
      have hfailed := hconsumes.failed hs
      obtain ⟨htok, hend, hrest⟩ := hconsumes
      have hahead := ahead_advance_lt htok hend
      rw [parseUnary, if_neg (by rw [hfailed]; simp), htok]
      exact (if_pos hop).trans
        (andThen_eq_ok.mpr ⟨_, ih _ _ hrest hs node rfl hne depth (by omega), rfl⟩)
  | @primary tokens node hinner ih =>
      rintro s s' hconsumes hs n hn hne (_ | depth) hdepth
      · omega
      have hparsed := ih _ _ hconsumes hs n hn hne depth (by omega)
      obtain ⟨tok, rest, rfl, -, hop⟩ := hinner.head
      rw [parseUnary, if_neg (by rw [hconsumes.failed hs]; simp)]
      split
      · next op htok => exact absurd (hconsumes.1.symm.trans htok) (hop rfl op)
      · exact hparsed
  | @unary p tokens node _ ih =>
      rintro s s' hconsumes hs n hn q - - hne result hloop (_ | depth) hdepth
      · omega
      obtain rfl := List.singleton_inj.mp hn
      have hahead := hconsumes.ahead_le
      rw [InputExpr.parseBinary, ih _ _ hconsumes hs node rfl hne depth (by omega)]
      exact hloop depth (by omega)
  | @binary p op left right lhs rhs hpos hallowed _ _ ihleft ihright =>
      intro s s' hconsumes hs n hn q hq hstops hne result hloop
      obtain rfl := List.singleton_inj.mp hn
      obtain ⟨s₁, hleft, htok, hend, hright⟩ := consumes_append.mp hconsumes
      have hahead := ahead_advance_lt htok hend
      have hahead' := hright.ahead_le
      -- the operator ahead is taken by the loop that the left operand goes on with
      refine ihleft _ _ hleft (failed_of_advance (hright.failed hs)) lhs rfl q (by omega)
        (fun op' hop' => Or.inr ?_) (by simp [htok]) result ?_
      · obtain rfl := Token.op.inj (htok.symm.trans hop')
        omega
      · rintro (_ | depth) hdepth
        · omega
        rw [binaryLoop, htok]
        dsimp only
        rw [if_neg (by omega), (ihright _ _ hright hs).parseBinary (hstops.mono (by omega)) hne
          (by omega)]
        exact hloop depth (by omega)
  | @last tokens node _ ih =>
      rintro s s' hconsumes hs hclose (_ | depth) hdepth
      · omega
      rw [parseArgs]
      exact andThen_eq_ok.mpr ⟨_, (ih _ _ hconsumes hs).parseBinary_of_ne hclose (by simp)
        (by omega), if_neg (by simp [hclose])⟩
  | @more tokens tokens' node nodes _ _ ih ih' =>
      rintro s s' hconsumes hs hclose (_ | depth) hdepth
      · omega
      obtain ⟨s₁, harg, hcomma, hend, hrest⟩ := consumes_append.mp hconsumes
      have hahead := ahead_advance_lt hcomma hend
      have hahead' := harg.ahead_le
      have hs₁ := failed_of_advance (hrest.failed hs)
      rw [parseArgs]
      refine andThen_eq_ok.mpr ⟨_, (ih _ _ harg hs₁).parseBinary_of_ne hcomma (by simp)
        (by omega), (if_pos hcomma).trans ?_⟩
      exact andThen_eq_ok.mpr ⟨_, ih' _ _ hrest hs hclose depth (by omega), rfl⟩

end Parsed

end Wiicompiled.Input.InputExpr
