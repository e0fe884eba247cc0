import Wiicompiled.CodeGen.EmittedRegisters
import Wiicompiled.Translation.GqrExecution

/-!
# Constant addresses

While it emits a block, the code generator follows the constants that its instructions
assign, under the versioned name and under the base name.  An access whose base has a
constant in the linked range of a module is emitted with its address in the guest.
-/

namespace Wiicompiled.CodeGen.CxxLinearCodeGenerator

open Ir

/-! ## The map of constants -/

/-- A dictionary that ignores case. -/
abbrev Constants := List Char → Option UInt32

def TryGetUIntConstant (value : IrValue) (constants : Constants) : Option UInt32 :=
  if value.kind = "const" ∧ value.constant.isSome then
    value.constant.map Translation.GqrConstantPropagation.truncate
  else if value.kind = "register" then
    value.registerName.bind fun name => constants (folded name)
  else none

def TryEvaluateUIntBinary (left right : IrValue) (op : String) (constants : Constants) :
    Option UInt32 :=
  match TryGetUIntConstant left constants, TryGetUIntConstant right constants with
  | some l, some r =>
      if op = "add" then some (l + r)
      else if op = "sub" then some (l - r)
      else if op = "and" then some (l &&& r)
      else if op = "or" then some (l ||| r)
      else if op = "xor" then some (l ^^^ r)
      else if op = "shl" then some (l <<< (r &&& 31))
      else if op = "rotl" then some ((l <<< (r &&& 31)) ||| (l >>> ((32 - r) &&& 31)))
      else if op = "shr" then some (l >>> (r &&& 31))
      else none
  | _, _ => none

/-- The destinations that the map follows. -/
def trackedDestination : IrInstruction → Option String
  | .assign destination _ | .binary destination _ _ _ | .load destination _ _
  | .call destination _ _ | .indirectCall destination _ _ => some destination
  | _ => none

def trackedConstant (instruction : IrInstruction) (constants : Constants) : Option UInt32 :=
  match instruction with
  | .assign _ value => TryGetUIntConstant value constants
  | .binary _ left right op => TryEvaluateUIntBinary left right op constants
  | _ => none

/-- `constants[name] = value`, or `constants.Remove(name)`. -/
def setOrRemove (constants : Constants) (name : String) (value : Option UInt32) : Constants :=
  Function.update constants (folded name) value

def UpdateKnownUIntConstants (instruction : IrInstruction) (constants : Constants) : Constants :=
  match trackedDestination instruction with
  | none => constants
  | some destination =>
      setOrRemove
        (setOrRemove constants destination (trackedConstant instruction constants))
        (getRegisterBaseName destination) (trackedConstant instruction constants)

/-- The map behind some instructions of a block, the latest of them first. -/
def localConstants (executed : List IrInstruction) : Constants :=
  executed.foldr UpdateKnownUIntConstants fun _ => none

/-! ## Addresses -/

structure LinkedAddressRemap where
  LinkBase : UInt32
  GuestBase : UInt32
  CodeSize : UInt32

/-- The constant found for a base register: under its own name, or under its base name. -/
def baseConstant (constants : Constants) (base : String) : Option UInt32 :=
  (constants (folded base)).or (constants (folded (getRegisterBaseName base)))

/-- The sum in checked arithmetic. -/
def checkedAdd (a b : UInt32) : Except Unit UInt32 :=
  if a.toNat + b.toNat < UInt32.size then .ok (a + b) else .error ()

def RemapAddress (address : IrAddress) (constants : Constants) (remap : LinkedAddressRemap) :
    Except Unit (Option UInt32) :=
  match baseConstant constants address.base with
  | none => .ok none
  | some baseValue => do
      let linkEnd ← checkedAdd remap.LinkBase remap.CodeSize
      if remap.LinkBase ≤ baseValue + address.offset.toUInt32 ∧
          baseValue + address.offset.toUInt32 < linkEnd then
        let relocated ← checkedAdd remap.GuestBase
          (baseValue + address.offset.toUInt32 - remap.LinkBase)
        return some relocated
      else return none

/-- The addresses that are emitted through `RemapAddress`. -/
def remappedAddresses : IrInstruction → List IrAddress
  | .load _ address _ | .store address _ _ => [address]
  | .resolveGuestMemoryRange _ base minOffset _ _ _ =>
      [⟨base.registerName.getD "", minOffset⟩]
  | .resolvedLoad _ _ originalAddress _ _ | .resolvedStore _ originalAddress _ _ _ =>
      [originalAddress]
  | .resolvedLoadPair _ _ _ first second _ _ _ | .resolvedStorePair _ first second _ _ _ _ _ =>
      [first, second]
  | _ => []

/-! ## Executions of the emitted code -/

/-- Where a name is kept: a field of the context for all versions of a machine register,
a local variable for any other name. -/
def location (name : String) : List Char :=
  if isCpuRegister name then baseKey name else name.toList

/-- The words in the context and in the local variables. -/
abbrev Registers := List Char → UInt32

def read (registers : Registers) (name : String) : UInt32 :=
  registers (location name)

/-- The value of a printed operand; one that is neither a constant nor a register is
printed as zero. -/
def operandValue (registers : Registers) (value : IrValue) : UInt32 :=
  if value.kind = "const" ∧ value.constant.isSome then
    Translation.GqrConstantPropagation.truncate (value.constant.getD 0)
  else if value.kind = "register" ∧ value.registerName.isSome then
    read registers (value.registerName.getD "")
  else 0

/-- The names that the statement for an instruction writes.  A phi prints nothing. -/
def emittedWrites : IrInstruction → List String
  | .assign destination _ | .binary destination _ _ _ | .load destination _ _
  | .resolveGuestMemoryRange destination _ _ _ _ _ | .resolvedLoad destination _ _ _ _
  | .resolvedPsqLoad destination _ _ _ _ _ _ _ => [destination]
  | .resolvedLoadPair firstDestination secondDestination _ _ _ _ _ _ =>
      [firstDestination, secondDestination]
  | .call destination _ _ | .indirectCall destination _ _ =>
      if isNullOrWhiteSpace destination then [] else [destination]
  | .setCrField .. => ["cr"]
  | _ => []

/-- The context registers that callees and helpers change. -/
abbrev Clobbers := IrInstruction → List Char → Prop

/-- The instructions whose value is computed from their operands. -/
def computes : IrInstruction → Bool
  | .assign .. | .binary .. => true
  | _ => false

/-- What one execution of an instruction may change. -/
def MayWrite (clobbers : Clobbers) (instruction : IrInstruction) (place : List Char) : Prop :=
  (∃ name ∈ emittedWrites instruction, location name = place) ∨ clobbers instruction place

/-- One execution of an instruction.  Assignments and the operators of words have their
value; loads, calls and all others may give any. -/
inductive Executes (clobbers : Clobbers) : IrInstruction → Registers → Registers → Prop
  | assign (destination : String) (value : IrValue) (registers : Registers) :
      Executes clobbers (.assign destination value) registers
        (Function.update registers (location destination) (operandValue registers value))
  | binary (destination : String) (left right : IrValue) (op : String) (registers : Registers)
      (word : UInt32)
      (hword : ∀ f, Translation.GqrConstantPropagation.operatorMeaning op = some f →
        word = f (operandValue registers left) (operandValue registers right)) :
      Executes clobbers (.binary destination left right op) registers
        (Function.update registers (location destination) word)
  | other {instruction : IrInstruction} {registers registers' : Registers}
      (hcomputes : computes instruction = false)
      (hframe : ∀ place, ¬ MayWrite clobbers instruction place →
        registers' place = registers place) :
      Executes clobbers instruction registers registers'

/-- A position in a function: the block, its instructions executed since it was entered,
the latest first, those that remain, and the registers. -/
structure Config where
  block : ℕ
  executed : List IrInstruction
  remaining : List IrInstruction
  registers : Registers

def enter (function : IrFunction) (block : ℕ) (registers : Registers) : Config :=
  ⟨block, [], (function.blockAt block).instructions, registers⟩

inductive Step (function : IrFunction) (clobbers : Clobbers) : Config → Config → Prop
  | instruction {block : ℕ} {executed rest : List IrInstruction} {i : IrInstruction}
      {registers registers' : Registers}
      (htransfers : i.transfers = false) (hstops : i.stops = false)
      (hexecutes : Executes clobbers i registers registers') :
      Step function clobbers ⟨block, executed, i :: rest, registers⟩
        ⟨block, i :: executed, rest, registers'⟩
  | transfer {block next : ℕ} {executed rest : List IrInstruction} {i : IrInstruction}
      {registers : Registers} {label : String}
      (hlabel : label ∈ i.targets) (hnext : function.ordinal label = some next) :
      Step function clobbers ⟨block, executed, i :: rest, registers⟩
        (enter function next registers)
  | continue {block : ℕ} {executed : List IrInstruction} {registers : Registers}
      (hnext : block + 1 < function.blocks.length) :
      Step function clobbers ⟨block, executed, [], registers⟩
        (enter function (block + 1) registers)

end Wiicompiled.CodeGen.CxxLinearCodeGenerator
