import Wiicompiled.Ir.RegisterDataFlow
import Wiicompiled.Translation.GqrConstantPropagation

/-!
# Executions of a function in SSA form

The machine against which the constant propagation of quantization registers is
judged: the words of the named values and the physical quantization registers.
Writing a version of a quantization register writes the register; a phi only
gives a further name to the value that the register has.
-/

namespace Wiicompiled.Translation.GqrConstantPropagation

open Ir

/-! ## SSA form -/

def isVersioned (name : String) : Bool :=
  stripNumericSuffixSpan (folded name) ≠ folded name

/-- The names an instruction defines, condition-register fields left out: these
are not versioned. -/
def ssaDefinitions : IrInstruction → List String
  | .setCrField .. => []
  | i => i.definitions

def phiSourcesVersioned : IrInstruction → Bool
  | .phi destination sources =>
      sources.entries.all fun source =>
        isVersioned source.2 &&
          stripNumericSuffixSpan (folded source.2) =
            stripNumericSuffixSpan (folded destination)
  | _ => true

/-- Every definition has a version of its own. -/
structure SsaForm (function : IrFunction) : Prop where
  versioned : ∀ block ∈ function.blocks, ∀ i ∈ block.instructions,
    ∀ name ∈ ssaDefinitions i, isVersioned name = true
  definedOnce : ((function.blocks.flatMap IrBasicBlock.instructions).flatMap
    fun i => (ssaDefinitions i).map folded).Nodup
  phis : ∀ block ∈ function.blocks, ∀ i ∈ block.instructions,
    phiSourcesVersioned i = true

/-! ## The machine -/

/-- The values of the names and the quantization registers. -/
structure Machine where
  registers : List Char → UInt32
  gqr : ℕ → UInt32

namespace Machine

/-- An unversioned `gqrN` is the physical register. -/
def read (m : Machine) (name : List Char) : UInt32 :=
  match gqrKey name with
  | some n => if name = gqrName n then m.gqr n else m.registers name
  | none => m.registers name

def setRegister (m : Machine) (name : List Char) (value : UInt32) : Machine :=
  { m with registers := Function.update m.registers name value }

/-- Write a register: a version of a quantization register is its new value. -/
def define (m : Machine) (name : List Char) (value : UInt32) : Machine :=
  { m.setRegister name value with
    gqr :=
      match gqrKey name with
      | some n => Function.update m.gqr n value
      | none => m.gqr }

end Machine

/-- The words that an operand may have; operands that are neither constants nor
registers may have any. -/
def Evaluates (m : Machine) (value : IrValue) (word : UInt32) : Prop :=
  if value.kind = "const" then
    ∀ immediate, value.constant = some immediate → word = truncate immediate
  else if value.kind = "register" then
    ∀ name, value.registerName = some name → word = m.read (folded name)
  else True

/-- The operators of words that the generated code computes. -/
def operatorMeaning (op : String) : Option (UInt32 → UInt32 → UInt32) :=
  if op = "add" then some fun a b => a + b
  else if op = "sub" then some fun a b => a - b
  else if op = "and" then some fun a b => a &&& b
  else if op = "or" then some fun a b => a ||| b
  else if op = "xor" then some fun a b => a ^^^ b
  else if op = "shl" then some fun a b => a <<< (b &&& 31)
  else if op = "rotl" then
    some fun a b => (a <<< (b &&& 31)) ||| (a >>> ((32 - b) &&& 31))
  else if op = "shr" then some fun a b => a >>> (b &&& 31)
  else none

/-- Any values for some names, one after the other. -/
inductive DefinesAll : List String → Machine → Machine → Prop
  | nil {m : Machine} : DefinesAll [] m m
  | cons {name : String} {names : List String} {m m' : Machine} (value : UInt32)
      (h : DefinesAll names (m.define (folded name) value) m') :
      DefinesAll (name :: names) m m'

/-- How calls change the quantization registers: target, before and after. -/
abbrev CallRuns := String → (ℕ → UInt32) → (ℕ → UInt32) → Prop

/-- Instructions whose effect on the machine is to define names. -/
def onlyDefines : IrInstruction → Bool
  | .assign .. | .binary .. | .phi .. | .call .. | .indirectCall ..
  | .setCrField .. => false
  | _ => true

/-- One execution of an instruction in a block that was entered with machine
`entered` from block `source`. -/
inductive Executes (function : IrFunction) (runs : CallRuns) (source : Option ℕ)
    (entered : Machine) : IrInstruction → Machine → Machine → Prop
  | assign {destination : String} {value : IrValue} {word : UInt32} {m : Machine}
      (hvalue : Evaluates m value word) :
      Executes function runs source entered (.assign destination value) m
        (m.define (folded destination) word)
  | binary {destination op : String} {left right : IrValue} {l r word : UInt32}
      {m : Machine} (hleft : Evaluates m left l) (hright : Evaluates m right r)
      (hword : ∀ f, operatorMeaning op = some f → word = f l r) :
      Executes function runs source entered (.binary destination left right op) m
        (m.define (folded destination) word)
  | phi {destination : String} {sources : PhiSources} {word : UInt32} {m : Machine}
      (hword : ∀ pair ∈ sources.entries, ∀ p, source = some p →
        IrCfg.ordinal function pair.1 = some p →
          word = entered.read (folded pair.2)) :
      -- Phis read the machine on the edge, whatever phis stand before them.
      Executes function runs source entered (.phi destination sources) m
        (m.setRegister (folded destination) word)
  | guestCall {destination target : String} {arguments : List IrValue}
      {m m' : Machine} {registers : List Char → UInt32} {gqr : ℕ → UInt32}
      (htarget : isGuestCall target = true) (hrun : runs target m.gqr gqr)
      (hdefines : DefinesAll
        (IrInstruction.call destination target arguments).definitions
        ⟨registers, gqr⟩ m') :
      Executes function runs source entered (.call destination target arguments) m m'
  | helperCall {destination target : String} {arguments : List IrValue}
      {m m' : Machine} {gqr : ℕ → UInt32}
      (htarget : isGuestCall target = false) (hrun : runs target m.gqr gqr)
      (hdefines : DefinesAll
        (IrInstruction.call destination target arguments).definitions
        ⟨m.registers, gqr⟩ m') :
      Executes function runs source entered (.call destination target arguments) m m'
  | indirectCall {destination : String} {target : IrValue}
      {arguments : List IrValue} {m m' : Machine} :
      Executes function runs source entered
        (.indirectCall destination target arguments) m m'
  | setCrField {fieldIndex : Int32} {left right : IrValue} {isUnsigned : Bool}
      {m : Machine} :
      Executes function runs source entered
        (.setCrField fieldIndex left right isUnsigned) m m
  | other {i : IrInstruction} {m m' : Machine} (hdefines : onlyDefines i = true)
      (h : DefinesAll i.definitions m m') :
      Executes function runs source entered i m m'

/-! ## Executions -/

/-- A position in a function, the block from which the current block was
entered, and the machine then and now. -/
structure Config where
  block : ℕ
  source : Option ℕ
  entered : Machine
  remaining : List IrInstruction
  machine : Machine

def enter (function : IrFunction) (block : ℕ) (source : Option ℕ) (m : Machine) :
    Config :=
  ⟨block, source, m, (function.blockAt block).instructions, m⟩

@[simp]
theorem enter_block
    (function : IrFunction) (block : ℕ) (source : Option ℕ) (m : Machine) :
    (enter function block source m).block = block :=
  rfl

inductive Step (function : IrFunction) (runs : CallRuns) : Config → Config → Prop
  | instruction {block : ℕ} {source : Option ℕ} {entered m m' : Machine}
      {i : IrInstruction} {rest : List IrInstruction}
      (htransfers : i.transfers = false) (hstops : i.stops = false)
      (hexecutes : Executes function runs source entered i m m') :
      Step function runs ⟨block, source, entered, i :: rest, m⟩
        ⟨block, source, entered, rest, m'⟩
  | transfer {block next : ℕ} {source : Option ℕ} {entered m : Machine}
      {i : IrInstruction} {rest : List IrInstruction} {label : String}
      (hlabel : label ∈ i.targets)
      (hnext : IrCfg.ordinal function label = some next) :
      Step function runs ⟨block, source, entered, i :: rest, m⟩
        (enter function next (some block) m)
  | continue {block : ℕ} {source : Option ℕ} {entered m : Machine}
      (hnext : block + 1 < function.blocks.length) :
      Step function runs ⟨block, source, entered, [], m⟩
        (enter function (block + 1) (some block) m)

/-- The configurations of all executions from the entry with allowed steps. -/
inductive Reachable (function : IrFunction) (runs : CallRuns)
    (allowed : Config → Config → Prop) (start : Machine) : Config → Prop
  | entry {block : ℕ}
      (hentry : IrCfg.ordinal function function.entryLabel = some block) :
      Reachable function runs allowed start (enter function block none start)
  | tail {c d : Config} (hc : Reachable function runs allowed start c)
      (hstep : Step function runs c d) (hallowed : allowed c d) :
      Reachable function runs allowed start d

/-! ## Access to a quantization register -/

/-- The quantization register that an access reads at run time. -/
def AccessIndex (m : Machine) (i : IrInstruction) (n : ℕ) : Prop :=
  match i with
  | .resolvedPsqLoad _ _ _ _ _ index _ _ => n = index.toNat
  | .resolvedPsqStore _ _ _ _ _ index _ _ => n = index.toNat
  | .call _ target arguments =>
      ∃ argument value, indexArgument target = some argument ∧
        arguments[argument]? = some value ∧
        ∀ word, Evaluates m value word → n = word.toNat
  | _ => False

/-- The callee of every guest call keeps the quantization registers that its
write mask leaves out. -/
def SoundMasks (masks : WriteMasks) (runs : CallRuns) : Prop :=
  ∀ target before after, isGuestCall target = true → runs target before after →
    ∀ n < 8, (callWriteMask target masks).getLsbD n = false → after n = before n

/-- The entry constants are values that quantization registers have. -/
def SoundEntryConstants (entryConstants : NameMap) (m : Machine) : Prop :=
  ∀ key value, entryConstants.lookup key = some value →
    ∃ n < 8, key = gqrName n ∧ m.gqr n = value

end Wiicompiled.Translation.GqrConstantPropagation
