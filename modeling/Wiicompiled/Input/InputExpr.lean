import Mathlib.Data.List.DropRight

/-!
# Input expressions

The lexer and the parser of the expressions that map inputs to controls.  A text is a list
of characters, one for each byte; the character classes are those of the C locale.  The
value of a number is left to `strtod`.  The functions of the parser call each other, so
they count down the depth of their calls, from one that suffices for the text.
-/

namespace Wiicompiled.Input.InputExpr

/-! ## Nodes -/

inductive Kind where
  | literal | input | not | add | sub | mul | div | and | or | xor
  | greater | less | equal
  | fnIf | fnMin | fnMax | fnClamp | fnAbs | fnSqrt | fnPow | fnSin | fnCos | fnTan
  | fnDeadzone | fnTimer | fnToggle | fnHold | fnTap | fnPulse | fnSmooth | fnNot
deriving DecidableEq

structure FnInfo where
  kind : Kind
  minArgs : ℕ
  maxArgs : ℕ
deriving DecidableEq

def functionTable : List (List Char × FnInfo) :=
  [("not".toList, ⟨.fnNot, 1, 1⟩), ("if".toList, ⟨.fnIf, 3, 3⟩),
    ("min".toList, ⟨.fnMin, 2, 2⟩), ("max".toList, ⟨.fnMax, 2, 2⟩),
    ("clamp".toList, ⟨.fnClamp, 3, 3⟩), ("abs".toList, ⟨.fnAbs, 1, 1⟩),
    ("sqrt".toList, ⟨.fnSqrt, 1, 1⟩), ("pow".toList, ⟨.fnPow, 2, 2⟩),
    ("sin".toList, ⟨.fnSin, 1, 1⟩), ("cos".toList, ⟨.fnCos, 1, 1⟩),
    ("tan".toList, ⟨.fnTan, 1, 1⟩), ("deadzone".toList, ⟨.fnDeadzone, 2, 2⟩),
    ("timer".toList, ⟨.fnTimer, 1, 1⟩), ("toggle".toList, ⟨.fnToggle, 1, 2⟩),
    ("hold".toList, ⟨.fnHold, 2, 2⟩), ("tap".toList, ⟨.fnTap, 2, 3⟩),
    ("pulse".toList, ⟨.fnPulse, 2, 2⟩), ("smooth".toList, ⟨.fnSmooth, 2, 3⟩)]

/-- A node, without the state of its evaluation. -/
inductive Node (D : Type) where
  | mk (kind : Kind) (literal : D) (input : List Char) (args : List (Node D))

/-! ## The lexer -/

inductive Token where
  | endOfText
  | input (text : List Char)
  | number (text : List Char)
  | ident (text : List Char)
  | op (text : Char)
  | lparen
  | rparen
  | comma
deriving DecidableEq

def isspace (c : Char) : Bool :=
  c = ' ' || c = '\t' || c = '\n' || c = '\x0b' || c = '\x0c' || c = '\r'

def isdigit (c : Char) : Bool :=
  '0' ≤ c && c ≤ '9'

def isalpha (c : Char) : Bool :=
  ('a' ≤ c && c ≤ 'z') || ('A' ≤ c && c ≤ 'Z')

def isalnum (c : Char) : Bool :=
  isalpha c || isdigit c

def operators : List Char :=
  ['!', '&', '|', '^', '+', '-', '*', '/', '>', '<', '=']

def isNumberChar (c : Char) : Bool :=
  isdigit c || c = '.'

def isIdentChar (c : Char) : Bool :=
  isalnum c || c = '_' || c = ' '

/-- `Lexer::Next`, on what is left of the text. -/
def next (text : List Char) : Except (List Char) (Token × List Char) :=
  match text.dropWhile isspace with
  | [] => .ok (.endOfText, [])
  | c :: tail =>
      if c = '\x60' then
        if '\x60' ∈ tail then
          .ok (.input (tail.takeWhile (· ≠ '\x60')), (tail.dropWhile (· ≠ '\x60')).drop 1)
        else .error "unterminated ` in expression".toList
      else if isdigit c || c = '.' then
        .ok (.number ((c :: tail).takeWhile isNumberChar), (c :: tail).dropWhile isNumberChar)
      else if isalpha c || c = '_' then
        -- the spaces behind an identifier do not belong to it
        let name := ((c :: tail).takeWhile isIdentChar).rdropWhile fun c => c = ' '
        .ok (.ident name, (c :: tail).drop name.length)
      else if c = '(' then .ok (.lparen, tail)
      else if c = ')' then .ok (.rparen, tail)
      else if c = ',' then .ok (.comma, tail)
      else if c ∈ operators then .ok (.op c, tail)
      else .error ("unexpected character '".toList ++ c :: "' in expression".toList)

/-! ## The parser -/

/-- The state of the parser: what its lexer has left, and the token ahead. -/
structure State where
  rest : List Char
  tok : Token
  lexError : List Char
  failed : Bool

/-- `Advance`: a failure of the lexer is recorded, and ends the tokens. -/
def State.advance (s : State) : State :=
  match next s.rest with
  | .ok (tok, rest) => { s with rest := rest, tok := tok }
  | .error e => { s with tok := .endOfText, lexError := e, failed := true }

/-- The parser of a text has the first token ahead. -/
def start (text : List Char) : State :=
  State.advance ⟨text, .endOfText, [], false⟩

def precedence (op : Char) : Int :=
  if op = '|' then 1
  else if op = '^' then 2
  else if op = '&' then 3
  else if op = '>' ∨ op = '<' ∨ op = '=' then 4
  else if op = '+' ∨ op = '-' then 5
  else if op = '*' ∨ op = '/' then 6
  else -1

def binaryKind (op : Char) : Kind :=
  if op = '|' then .or
  else if op = '^' then .xor
  else if op = '&' then .and
  else if op = '>' then .greater
  else if op = '<' then .less
  else if op = '=' then .equal
  else if op = '+' then .add
  else if op = '-' then .sub
  else if op = '*' then .mul
  else .div

/-- What a function of the parser gives: a value or an error, or nothing when the depth does
not suffice. -/
abbrev Outcome (α : Type) := Option (Except (List Char) α)

namespace Outcome

variable {α β : Type}

def done (a : α) : Outcome α :=
  some (.ok a)

def fail (error : List Char) : Outcome α :=
  some (.error error)

/-- Go on with a value. -/
def andThen (m : Outcome α) (f : α → Outcome β) : Outcome β :=
  match m with
  | none => none
  | some (.error e) => some (.error e)
  | some (.ok a) => f a

end Outcome

open Outcome

section Parser

variable {D : Type} [Zero D] (strtod : List Char → D)

def literalNode (value : D) : Node D :=
  ⟨.literal, value, [], []⟩

def inputNode (name : List Char) : Node D :=
  ⟨.input, 0, name, []⟩

def opNode (kind : Kind) (args : List (Node D)) : Node D :=
  ⟨kind, 0, [], args⟩

def prefixNode (op : Char) (inner : Node D) : Node D :=
  if op = '+' then inner
  else if op = '!' then opNode .not [inner]
  else opNode .sub [literalNode 0, inner]

mutual

def parseBinary : ℕ → Int → State → Outcome (Node D × State)
  | 0, _, _ => none
  | depth + 1, minPrec, s =>
      (parseUnary depth s).andThen fun lhs => binaryLoop depth minPrec lhs.1 lhs.2

/-- The loop of `ParseBinary`. -/
def binaryLoop : ℕ → Int → Node D → State → Outcome (Node D × State)
  | 0, _, _, _ => none
  | depth + 1, minPrec, lhs, s =>
      match s.tok with
      | .op op =>
          if precedence op < 0 ∨ precedence op < minPrec then done (lhs, s)
          else
            (parseBinary depth (precedence op + 1) s.advance).andThen fun rhs =>
              binaryLoop depth minPrec (opNode (binaryKind op) [lhs, rhs.1]) rhs.2
      | _ => done (lhs, s)

def parseUnary : ℕ → State → Outcome (Node D × State)
  | 0, _ => none
  | depth + 1, s =>
      if s.failed then fail s.lexError
      else
        match s.tok with
        | .op op =>
            if op = '!' ∨ op = '-' ∨ op = '+' then
              (parseUnary depth s.advance).andThen fun inner =>
                done (prefixNode op inner.1, inner.2)
            else parsePrimary depth s
        | _ => parsePrimary depth s

def parsePrimary : ℕ → State → Outcome (Node D × State)
  | 0, _ => none
  | depth + 1, s =>
      if s.failed then fail s.lexError
      else
        match s.tok with
        | .input name => done (inputNode name, s.advance)
        | .number text => done (literalNode (strtod text), s.advance)
        | .lparen =>
            (parseBinary depth 0 s.advance).andThen fun inner =>
              if inner.2.tok = .rparen then done (inner.1, inner.2.advance)
              else fail "expected closing paren".toList
        | .ident name =>
            -- a bare identifier is an input name
            if s.advance.tok ≠ .lparen then done (inputNode name, s.advance)
            else
              match functionTable.lookup name with
              | none => fail ("unknown function '".toList ++ name ++ "'".toList)
              | some info =>
                  (if s.advance.advance.tok = .rparen then done ([], s.advance.advance)
                  else parseArgs depth s.advance.advance).andThen fun args =>
                    if args.2.tok ≠ .rparen then
                      fail ("expected closing paren after ".toList ++ name ++
                        " arguments".toList)
                    else if args.1.length < info.minArgs ∨ info.maxArgs < args.1.length then
                      fail (name ++ " takes ".toList ++ (toString info.minArgs).toList ++
                        " to ".toList ++ (toString info.maxArgs).toList ++
                          " arguments".toList)
                    else done (opNode info.kind args.1, args.2.advance)
        | _ => fail "expected start of expression".toList

/-- The arguments of a call, up to the first token that is not a comma. -/
def parseArgs : ℕ → State → Outcome (List (Node D) × State)
  | 0, _ => none
  | depth + 1, s =>
      (parseBinary depth 0 s).andThen fun arg =>
        if arg.2.tok = .comma then
          (parseArgs depth arg.2.advance).andThen fun rest =>
            done (arg.1 :: rest.1, rest.2)
        else done ([arg.1], arg.2)

end

def parseExpression (depth : ℕ) (s : State) : Outcome (Node D) :=
  (parseBinary strtod depth 0 s).andThen fun node =>
    if node.2.failed then fail node.2.lexError
    else if node.2.tok ≠ .endOfText then
      fail "unexpected trailing input in expression".toList
    else done node.1

/-- `Trim(text).empty()`. -/
def isBlank (text : List Char) : Bool :=
  text.all fun c => c = ' ' || c = '\t' || c = '\r' || c = '\n'

def depthFor (text : List Char) : ℕ :=
  4 * text.length + 3

/-- `Expression::Parse`: whether the text is accepted, the expression and the error. -/
def parse (text error : List Char) : Option (Bool × Option (Node D) × List Char) :=
  if isBlank text then some (true, none, error)
  else
    (parseExpression strtod (depthFor text) (start text)).map fun result =>
      match result with
      | .ok root => (true, some root, error)
      | .error e => (false, none, e)

end Parser

end Wiicompiled.Input.InputExpr
