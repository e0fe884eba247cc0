import Mathlib.Data.List.AList
import Wiicompiled.Ir.IrCfg

/-!
# Constant propagation of quantization registers

The forward must-constant analysis that specializes paired-single accesses.  A
dictionary maps names without their case to words; a quantization register is
kept under its name without a version, every other name under the version that
the instruction spells.
-/

namespace Wiicompiled.Translation.GqrConstantPropagation

open Ir

/-- The constants known at one point, by folded name. -/
abbrev NameMap := AList fun _ : List Char => UInt32

/-- What callees may write, one bit for each quantization register. -/
abbrev WriteMasks := UInt32 → Option (BitVec 8)

/-! ## Names of quantization registers -/

/-- The name `gqrN`. -/
def gqrName (n : ℕ) : List Char :=
  'g' :: 'q' :: 'r' :: Nat.toDigits 10 n

/-- The number of the quantization register that a name is a version of. -/
def gqrKey (name : List Char) : Option ℕ :=
  (List.range 8).find? fun n => stripNumericSuffixSpan name = gqrName n

/-- The key under which an assignment keeps its destination. -/
def slot (name : List Char) : List Char :=
  match gqrKey name with
  | some n => gqrName n
  | none => name

/-! ## Values -/

/-- The word that a constant operand stands for. -/
def truncate (immediate : Int64) : UInt32 :=
  immediate.toUInt64.toUInt32

def tryValue (value : IrValue) (state : NameMap) : Option UInt32 :=
  if value.kind = "const" ∧ value.constant.isSome then
    value.constant.map truncate
  else if value.kind = "register" then
    value.registerName.bind fun name => state.lookup (folded name)
  else none

def tryBinary (op : String) (left right : UInt32) : Option UInt32 :=
  let named := fun names : List String => names.any fun n => folded op = n.toList
  if named ["add", "add_u"] then some (left + right)
  else if named ["sub", "sub_u"] then some (left - right)
  else if named ["or"] then some (left ||| right)
  else if named ["and"] then some (left &&& right)
  else if named ["xor"] then some (left ^^^ right)
  else if named ["shl"] then some (left <<< (right &&& 31))
  else if named ["rotl"] then
    some ((left <<< (right &&& 31)) ||| (left >>> ((32 - right) &&& 31)))
  else if named ["shr", "shr_u"] then some (left >>> (right &&& 31))
  else none

/-! ## Transfer -/

/-- `state[key] = value` or `state.Remove(key)`. -/
def assignOrRemove (state : NameMap) (key : List Char) (value : Option UInt32) :
    NameMap :=
  match value with
  | some v => state.insert key v
  | none => state.erase key

def setOrKill (destination : String) (value : IrValue) (state : NameMap) : NameMap :=
  assignOrRemove state (slot (folded destination)) (tryValue value state)

def isGuestCall (target : String) : Bool :=
  startsWithIgnoreCase target.toList "func_".toList ||
    startsWithIgnoreCase target.toList "0x".toList ||
    (tryParseUInt32 target.toList).isSome

/-- What the callee of a guest call may write; anything, when it is unknown. -/
def callWriteMask (target : String) (masks : WriteMasks) : BitVec 8 :=
  match tryParseAddressOrDecimal target with
  | some address => (masks address).getD 0xFF
  | none => 0xFF

/-- Keep the quantization registers that the callee leaves alone, oldest entry
first, so that of two versions of one register the newest remains. -/
def preserveUnmodifiedGqrsAcrossCall (target : String) (masks : WriteMasks)
    (state : NameMap) : NameMap :=
  state.entries.foldr
    (fun pair preserved =>
      match gqrKey pair.1 with
      | some n =>
          if (callWriteMask target masks).getLsbD n then preserved
          else preserved.insert (gqrName n) pair.2
      | none => preserved)
    ∅

/-- The one value that all sources of a phi have at the end of the blocks they
come from. -/
def phiValue (predecessorOut : String → Option NameMap) (sources : PhiSources) :
    Option UInt32 :=
  let incoming := sources.entries.map fun source =>
    (predecessorOut source.1).bind fun pred => pred.lookup (folded source.2)
  match incoming with
  | some value :: others =>
      if others.all fun other => other = some value then some value else none
  | _ => none

def transfer (predecessorOut : String → Option NameMap) (masks : WriteMasks)
    (i : IrInstruction) (state : NameMap) : NameMap :=
  match i with
  | .assign destination value => setOrKill destination value state
  | .binary destination left right op =>
      assignOrRemove state (folded destination)
        ((tryValue left state).bind fun l =>
          (tryValue right state).bind fun r => tryBinary op l r)
  | .phi destination sources =>
      assignOrRemove state (folded destination) (phiValue predecessorOut sources)
  | .load destination _ _ => state.erase (folded destination)
  | .call destination target _ =>
      if isGuestCall target then
        preserveUnmodifiedGqrsAcrossCall target masks state
      else if isNullOrWhiteSpace destination then state
      else state.erase (folded destination)
  | .indirectCall .. => ∅
  | _ => state

def transferBlock (predecessorOut : String → Option NameMap) (masks : WriteMasks)
    (instructions : List IrInstruction) (state : NameMap) : NameMap :=
  instructions.foldl (fun state i => transfer predecessorOut masks i state) state

/-! ## The fixpoint -/

/-- The entries of the first map on which all others agree. -/
def intersect (maps : List NameMap) : NameMap :=
  match maps with
  | [] => ∅
  | first :: others =>
      { entries := first.entries.filter fun pair =>
          others.all fun map => map.lookup pair.1 = some pair.2
        nodupKeys := first.nodupKeys.sublist List.filter_sublist }

def same (a b : NameMap) : Bool :=
  a.entries.length = b.entries.length &&
    a.entries.all fun pair => b.lookup pair.1 = some pair.2

/-- What the analysis keeps for one block. -/
structure BlockFlow where
  input : NameMap
  output : NameMap
  initialized : Bool

instance : Inhabited BlockFlow :=
  ⟨⟨∅, ∅, false⟩⟩

def flowAt (flows : List BlockFlow) (index : ℕ) : BlockFlow :=
  flows.getD index default

def isEntry (function : IrFunction) (index : ℕ) : Bool :=
  folded (function.blockAt index).label = folded function.entryLabel

/-- The predecessors of a block that take part in the meet: those other than the
block itself that have an output. -/
def meetPredecessors (function : IrFunction) (flows : List BlockFlow) (index : ℕ) :
    List ℕ :=
  (IrCfg.predecessors function index).filter fun p =>
    p ≠ index && (flowAt flows p).initialized

/-- The facts from which a block is recomputed. -/
def blockInput (function : IrFunction) (entryConstants : NameMap)
    (flows : List BlockFlow) (index : ℕ) : NameMap :=
  if isEntry function index then entryConstants
  else
    intersect ((meetPredecessors function flows index).map fun p =>
      (flowAt flows p).output)

def outputs (function : IrFunction) (flows : List BlockFlow) (label : String) :
    Option NameMap :=
  (IrCfg.ordinal function label).map fun p => (flowAt flows p).output

def blockOutput (function : IrFunction) (entryConstants : NameMap)
    (masks : WriteMasks) (flows : List BlockFlow) (index : ℕ) : NameMap :=
  transferBlock (outputs function flows) masks
    (function.blockAt index).instructions
    (blockInput function entryConstants flows index)

/-- A block that is not the entry and has no predecessor with an output. -/
def skipped (function : IrFunction) (flows : List BlockFlow) (index : ℕ) : Bool :=
  !isEntry function index && (meetPredecessors function flows index).isEmpty

/-- One visit of a block; the flag tells whether anything changed. -/
def visit (function : IrFunction) (entryConstants : NameMap) (masks : WriteMasks)
    (s : List BlockFlow × Bool) (index : ℕ) : List BlockFlow × Bool :=
  if skipped function s.1 index then s
  else
    let newInput := blockInput function entryConstants s.1 index
    let state := blockOutput function entryConstants masks s.1 index
    let old := flowAt s.1 index
    let sameInput := same old.input newInput
    let sameOutput := same old.output state
    (s.1.set index
      { input := if sameInput then old.input else newInput
        output := if sameOutput then old.output else state
        initialized := true },
      s.2 || !sameInput || !sameOutput || !old.initialized)

def round (function : IrFunction) (entryConstants : NameMap) (masks : WriteMasks)
    (flows : List BlockFlow) : List BlockFlow × Bool :=
  (List.range function.blocks.length).foldl (visit function entryConstants masks)
    (flows, false)

/-- Rounds until one changes nothing, if that happens within the given number. -/
def rounds (function : IrFunction) (entryConstants : NameMap) (masks : WriteMasks) :
    ℕ → List BlockFlow → Option (List BlockFlow)
  | 0, _ => none
  | fuel + 1, flows =>
      let next := round function entryConstants masks flows
      if next.2 then rounds function entryConstants masks fuel next.1
      else some next.1

def iterationLimit (function : IrFunction) : ℕ :=
  max 256 (function.blocks.length * 4 + 16)

/-- The constants known at the entry of each block, by ordinal.  Two blocks with
one label are an exception; when the limit is exceeded nothing is known. -/
def analyze (function : IrFunction) (entryConstants : NameMap) (masks : WriteMasks) :
    Option (List NameMap) :=
  if IrCfg.DistinctLabels function then
    let start := function.blocks.map fun _ => (default : BlockFlow)
    match rounds function entryConstants masks (iterationLimit function) start with
    | some flows => some (flows.map BlockFlow.input)
    | none => some (function.blocks.map fun _ => ∅)
  else none

/-! ## Specialization -/

/-- `{value:X8}`. -/
def hex8 (value : UInt32) : String :=
  let digits := (Nat.toDigits 16 value.toNat).map Char.toUpper
  String.ofList (List.replicate (8 - digits.length) '0' ++ digits)

/-- The form of a paired-single access for a known register value. -/
def knownForm (requireRuntimeGuard : Bool) (gqr : UInt32) :
    IrInstruction → IrInstruction
  | .resolvedPsqLoad destination range originalAddress rangeOffset w i _ _ =>
      .resolvedPsqLoad destination range originalAddress rangeOffset w i (some gqr)
        requireRuntimeGuard
  | .resolvedPsqStore range originalAddress rangeOffset source w i _ _ =>
      .resolvedPsqStore range originalAddress rangeOffset source w i (some gqr)
        requireRuntimeGuard
  | .call destination target arguments =>
      let suffix := if requireRuntimeGuard then "KnownGuarded" else "Known"
      .call destination (target ++ suffix ++ "_" ++ hex8 gqr) arguments
  | i => i

/-- The argument that holds the register number of a paired-single helper. -/
def indexArgument (target : String) : Option ℕ :=
  if equalsIgnoreCase target.toList "PPC_PsqL".toList then some 2
  else if equalsIgnoreCase target.toList "PPC_PsqSt".toList then some 3
  else none

/-- The number of the quantization register of a helper call, when it is known. -/
def knownIndex (target : String) (arguments : List IrValue) (state : NameMap) :
    Option ℕ :=
  (indexArgument target).bind fun argument =>
    (arguments[argument]?).bind fun value =>
      (tryValue value state).bind fun index =>
        if index < 8 then some index.toNat else none

def trySpecializePsq (requireRuntimeGuard resolvedOnly : Bool) (state : NameMap)
    (i : IrInstruction) : IrInstruction :=
  let specialized := fun n : ℕ =>
    match state.lookup (gqrName n) with
    | some gqr => knownForm requireRuntimeGuard gqr i
    | none => i
  match i with
  | .resolvedPsqLoad _ _ _ _ _ n none _ => specialized n.toNat
  | .resolvedPsqStore _ _ _ _ _ n none _ => specialized n.toNat
  | .call _ target arguments =>
      if resolvedOnly then i
      else
        match knownIndex target arguments state with
        | some n => specialized n
        | none => i
  | _ => i

/-- Specialize the instructions of a block one after the other; the phis of the
block are not known here. -/
def specializeBlock (requireRuntimeGuard resolvedOnly : Bool) (masks : WriteMasks) :
    List IrInstruction → NameMap → List IrInstruction
  | [], _ => []
  | i :: rest, state =>
      trySpecializePsq requireRuntimeGuard resolvedOnly state i ::
        specializeBlock requireRuntimeGuard resolvedOnly masks rest
          (transfer (fun _ => none) masks i state)

def specialize (function : IrFunction) (entryConstants : NameMap)
    (masks : WriteMasks) (requireRuntimeGuard resolvedOnly : Bool) :
    Option IrFunction :=
  (analyze function entryConstants masks).map fun flow =>
    { name := function.name
      entryLabel := function.entryLabel
      blocks := function.blocks.zipWith
        (fun block input =>
          ⟨block.label, specializeBlock requireRuntimeGuard resolvedOnly masks
            block.instructions input⟩) flow }

end Wiicompiled.Translation.GqrConstantPropagation
