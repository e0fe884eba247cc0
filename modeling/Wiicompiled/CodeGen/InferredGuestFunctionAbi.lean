import Mathlib.Data.List.Sort
import Wiicompiled.Support.Questions
import Wiicompiled.Support.TaintedPrewarm
import Wiicompiled.Translation.GqrConstantPropagation

/-!
# Inferring the ABI of a guest function

Which registers a function takes as arguments, which of them as scalar floating-point
numbers, and what it returns.  Both analyses of the arguments ask for the ABI of the
functions that are called, which may be in progress themselves.  The classification of
the returned value works on SSA form, asks for nothing and is a parameter.
-/

namespace Wiicompiled.CodeGen

open Ir Memoized Translation.GqrConstantPropagation

/-! ## Sets of names -/

/-- A hash set that ignores case and keeps the first spelling. -/
abbrev NameSet := List String

namespace NameSet

def has (s : NameSet) (name : String) : Bool :=
  s.any fun n => folded n = folded name

def add (s : NameSet) (name : String) : NameSet :=
  if s.has name then s else s ++ [name]

def unionWith (s t : NameSet) : NameSet :=
  t.foldl add s

def exceptWith (s t : NameSet) : NameSet :=
  s.filter fun name => !t.has name

def setEquals (s t : NameSet) : Bool :=
  s.all t.has && t.all s.has

end NameSet

/-! ## ABIs -/

structure GuestFunctionAbi where
  scalarFloatArgumentRegisters : NameSet
  argumentRegisters : NameSet
  returnsPairedScalarFloat : Bool
  writesFloatReturnRegister : Bool
deriving DecidableEq

namespace GuestFunctionAbi

def normalized (names : List String) : NameSet :=
  ((names.map stripNumericSuffix).filter fun r => !isNullOrWhiteSpace r).foldl NameSet.add []

/-- The constructor. -/
def create (scalarFloatArgumentRegisters : List String)
    (returnsPairedScalarFloat writesFloatReturnRegister : Bool)
    (argumentRegisters : List String) : GuestFunctionAbi where
  scalarFloatArgumentRegisters := normalized scalarFloatArgumentRegisters
  argumentRegisters := normalized argumentRegisters
  returnsPairedScalarFloat := returnsPairedScalarFloat
  writesFloatReturnRegister := writesFloatReturnRegister || returnsPairedScalarFloat

def empty : GuestFunctionAbi :=
  create [] false false []

def hasKnownArgumentRegisters (abi : GuestFunctionAbi) : Bool :=
  abi.argumentRegisters.length ≠ 0

def hasScalarFloatArgument (abi : GuestFunctionAbi) (registerName : String) : Bool :=
  abi.scalarFloatArgumentRegisters.has (stripNumericSuffix registerName)

def hasArgumentRegister (abi : GuestFunctionAbi) (registerName : String) : Bool :=
  abi.argumentRegisters.has (stripNumericSuffix registerName)

end GuestFunctionAbi

/-! ## Save and restore thunks -/

structure GuestSaveRestoreThunkRange where
  baseAddress : UInt32
  firstRegister : Int32
  lastRegister : Int32

structure GuestSaveRestoreThunks where
  saveGpr : Option GuestSaveRestoreThunkRange
  restGpr : Option GuestSaveRestoreThunkRange
  saveFpr : Option GuestSaveRestoreThunkRange
  restFpr : Option GuestSaveRestoreThunkRange

namespace GuestSaveRestoreThunks

/-- The start register of an address in a range.  The first register of the range is
taken as the bound of the index and the last one as its base. -/
def isInlineThunkRange (address : UInt32) :
    Option GuestSaveRestoreThunkRange → Option Int32
  | none => none
  | some ⟨baseAddress, count, baseRegister⟩ =>
      let delta := address - baseAddress
      let index := (delta / 4).toInt32
      if address < baseAddress ∨ delta % 4 ≠ 0 ∨ index < 0 ∨ count < index then none
      else if baseRegister + index ≤ 31 then some (baseRegister + index)
      else none

def isInlineSaveThunk (thunks : GuestSaveRestoreThunks) (target : String) : Bool :=
  match tryParseAddress target with
  | some address =>
      (isInlineThunkRange address thunks.saveGpr).isSome ||
        (isInlineThunkRange address thunks.saveFpr).isSome
  | none => false

def registersFrom (kind : String) (start : Int32) : List String :=
  (List.range (32 - start.toInt).toNat).map fun i => kind ++ toString (start.toInt + i)

def inlineThunkDefs (thunks : GuestSaveRestoreThunks) (target : String) : List String :=
  match tryParseAddress target with
  | none => []
  | some address =>
      match isInlineThunkRange address thunks.restGpr with
      | some gprStart => registersFrom "r" gprStart
      | none =>
          match isInlineThunkRange address thunks.restFpr with
          | some fprStart => registersFrom "f" fprStart
          | none => []

end GuestSaveRestoreThunks

/-! ## Names -/

def isGuestCallTarget (target : String) : Bool :=
  !isNullOrWhiteSpace target &&
    ((tryParseAddress target).isSome ||
      startsWithIgnoreCase (trim target.toList) "0x".toList ||
      startsWithIgnoreCase (trim target.toList) "func_".toList)

def isFloatRegister (name : String) : Bool :=
  match (stripNumericSuffix name).toList with
  | ['f', a] => a.isDigit
  | ['f', a, b] => a.isDigit && b.isDigit && decide (decimalValue [a, b] < 32)
  | _ => false

def isGprOrFprRegister (name : String) : Bool :=
  match (stripNumericSuffix name).toList with
  | kind :: a :: rest =>
      (kind = 'r' || kind = 'f') && a.isDigit && rest.length ≤ 1 && rest.all Char.isDigit &&
        decimalValue (a :: rest) < 32
  | _ => false

def isGuestRegisterName (name : String) : Bool :=
  !isNullOrWhiteSpace name &&
    (let baseName := stripNumericSuffix name
     isGprOrFprRegister baseName ||
      (match baseName.toList with
       | [c, r, digit] =>
          equalsIgnoreCase [c, r] "cr".toList && '0' ≤ digit && digit ≤ '7'
       | _ => false) ||
      ["cr", "lr", "ctr", "xer", "fpscr"].any fun r => folded baseName = folded r)

def registerUsesFromValues (values : List IrValue) : List String :=
  values.filterMap fun value =>
    match value with
    | ⟨"register", some name, _⟩ =>
        if isNullOrWhiteSpace name then none else some (stripNumericSuffix name)
    | _ => none

def isPairedConsumerTarget (target : String) : Bool :=
  let target := folded target
  if target = folded "PPC_PsqL" ∨ target = folded "PPC_StorePairedSingle" ∨
      target = folded "PPC_PsFromScalar" then false
  else
    target = folded "PPC_Fres" || startsWithIgnoreCase target "PPC_Ps".toList ||
      target = folded "PPC_LoadPairedSingle" || target = folded "PPC_PsqSt"

def isScalarFloatConsumerTarget (target : String) : Bool :=
  ["PPC_Fctiwz", "PPC_Fsqrt", "PPC_Frsqrte", "PPC_Fsel", "PPC_Fmadd", "PPC_Fmsub",
    "PPC_Fnmadd", "PPC_Fnmsub", "PPC_Fadds", "PPC_Fsubs", "PPC_Fmuls", "PPC_Fdivs",
    "PPC_Fmadds", "PPC_Fmsubs", "PPC_Fnmadds", "PPC_Fnmsubs", "PPC_Fcmp",
    "PPC_PsFromScalar"].any fun name => folded target = folded name

def isScalarHelperConsumer (target : String) : Bool :=
  folded target = folded "PPC_Fres" || folded target = folded "PPC_Frsqrte" ||
    (!isPairedConsumerTarget target && isScalarFloatConsumerTarget target)

/-! ## The provider -/

structure AddressRange where
  start : UInt32
  endAddress : UInt32

def AddressRange.contains (range : AddressRange) (address : UInt32) : Bool :=
  range.start ≤ address && address < range.endAddress

/-- What inference depends on: the addresses in use, the canonical code of functions and
the code built from the image, which may fail, the thunks of the project, and whether
the returned value is a paired and whether it is a floating-point number. -/
structure InferredGuestFunctionAbiProvider where
  usedRange : AddressRange
  canonicalIr : UInt32 → Option IrFunction
  buildLinearIr : UInt32 → Option IrFunction
  thunks : GuestSaveRestoreThunks
  classifyReturn : UInt32 → IrFunction → Bool × Bool

/-- A computation that asks for ABIs. -/
abbrev Inferring := Questions UInt32 (Answer GuestFunctionAbi)

namespace InferredGuestFunctionAbiProvider

variable (provider : InferredGuestFunctionAbiProvider)

def tryResolveTargetAddress (target : String) : Option UInt32 :=
  (tryParseAddress target).filter provider.usedRange.contains

/-- Ask for the ABI of a target; for no address of the image there is none. -/
def tryGetGuestFunctionAbi (target : String) : Inferring (Answer GuestFunctionAbi) :=
  match provider.tryResolveTargetAddress target with
  | some address => .ask address .done
  | none => .done ⟨false, .empty⟩

/-! ### Argument registers -/

def callArgumentsForArgumentInference (target : String) (arguments : List IrValue) :
    Inferring (List IrValue) :=
  if isGuestCallTarget target then
    (provider.tryGetGuestFunctionAbi target).bind fun answer => .done <|
      if answer.found ∧ answer.value.hasKnownArgumentRegisters then
        arguments.filter fun arg =>
          match arg with
          | ⟨"register", some name, _⟩ => answer.value.hasArgumentRegister name
          | _ => true
      else arguments
  else .done arguments

def addressBase (address : IrAddress) : List String :=
  if isNullOrWhiteSpace address.base then [] else [stripNumericSuffix address.base]

def instructionRegisterUsesForArgumentInference :
    IrInstruction → Inferring (List String)
  | .assign _ value => .done (registerUsesFromValues [value])
  | .binary _ left right _ => .done (registerUsesFromValues [left, right])
  | .load _ address _ => .done (addressBase address)
  | .store address source _ => .done (addressBase address ++ registerUsesFromValues [source])
  | .call _ target arguments =>
      if provider.thunks.isInlineSaveThunk target then .done []
      else
        (provider.callArgumentsForArgumentInference target arguments).bind fun arguments =>
          .done (registerUsesFromValues arguments)
  | .indirectCall _ target arguments => .done (registerUsesFromValues (target :: arguments))
  | .indirectJump target => .done (registerUsesFromValues [target])
  | .phi _ sources => .done (sources.entries.map fun source => stripNumericSuffix source.2)
  | .ret (some value) => .done (registerUsesFromValues [value])
  | .branch _ _ _ conditionRegister =>
      .done (if isGuestRegisterName conditionRegister then
        [stripNumericSuffix conditionRegister] else [])
  | .jumpTable selector _ =>
      .done (if isNullOrWhiteSpace selector then [] else [stripNumericSuffix selector])
  | .setCrField _ left right _ => .done (registerUsesFromValues [left, right])
  | _ => .done []

def destinationBase (destination : String) : List String :=
  if isNullOrWhiteSpace destination then [] else [stripNumericSuffix destination]

def instructionRegisterDefsForArgumentInference : IrInstruction → List String
  | .assign destination _ => [stripNumericSuffix destination]
  | .binary destination _ _ _ => [stripNumericSuffix destination]
  | .load destination _ _ => [stripNumericSuffix destination]
  | .call destination target _ =>
      destinationBase destination ++ provider.thunks.inlineThunkDefs target ++
        if isGuestCallTarget target then ["r3", "r4", "f1"] else []
  | .indirectCall destination _ _ => destinationBase destination ++ ["r3", "r4", "f1"]
  | .phi destination _ => [stripNumericSuffix destination]
  | _ => []

structure UsesAndDefs where
  uses : NameSet
  defs : NameSet
deriving DecidableEq

/-- The registers that a block uses before it defines them, and those it defines. -/
def blockUsesAndDefs (block : IrBasicBlock) : Inferring UsesAndDefs :=
  .fold (fun sets instruction =>
    (provider.instructionRegisterUsesForArgumentInference instruction).bind fun uses =>
      .done
        { uses := (uses.filter fun use => !sets.defs.has use).foldl NameSet.add sets.uses
          defs := (provider.instructionRegisterDefsForArgumentInference instruction).foldl
            NameSet.add sets.defs })
    block.instructions ⟨[], []⟩

structure Liveness where
  liveIn : List NameSet
  liveOut : List NameSet
  changed : Bool
deriving DecidableEq

def updateLiveness (function : IrFunction) (sets : List UsesAndDefs) (live : Liveness)
    (index : ℕ) : Liveness :=
  let block := sets.getD index ⟨[], []⟩
  let newOut : NameSet := (IrCfg.successors function index).foldl
    (fun (out : NameSet) successor => out.unionWith (live.liveIn.getD successor [])) []
  let newIn : NameSet := block.uses.unionWith (newOut.exceptWith block.defs)
  let outSame := newOut.setEquals (live.liveOut.getD index [])
  let inSame := newIn.setEquals (live.liveIn.getD index [])
  { liveIn := if inSame then live.liveIn else live.liveIn.set index newIn
    liveOut := if outSame then live.liveOut else live.liveOut.set index newOut
    changed := live.changed || !outSame || !inSame }

/-- One round, from the last block to the first. -/
def livenessRound (function : IrFunction) (sets : List UsesAndDefs) (live : Liveness) :
    Liveness :=
  (List.range function.blocks.length).reverse.foldl (updateLiveness function sets)
    { live with changed := false }

def entryLive (function : IrFunction) (live : Liveness) : NameSet :=
  match IrCfg.ordinal function function.entryLabel with
  | some entry => (live.liveIn.getD entry []).filter isGprOrFprRegister
  | none => []

/-! ### Scalar floating-point arguments -/

/-- A dictionary from registers to the argument registers they may hold. -/
abbrev AliasState := List (String × NameSet)

namespace AliasState

def lookup (aliases : AliasState) (name : String) : Option NameSet :=
  (aliases.find? fun entry => folded entry.1 = folded name).map Prod.snd

def remove (aliases : AliasState) (name : String) : AliasState :=
  aliases.filter fun entry => folded entry.1 ≠ folded name

def insert (aliases : AliasState) (name : String) (sources : NameSet) : AliasState :=
  if (aliases.lookup name).isSome then
    aliases.map fun entry =>
      if folded entry.1 = folded name then (entry.1, sources) else entry
  else aliases ++ [(name, sources)]

end AliasState

def abiFloatArgumentRegisters : List String :=
  (List.range' 1 13).map fun i => "f" ++ toString i

def createInitialArgumentAliasState : AliasState :=
  abiFloatArgumentRegisters.map fun r => (r, [r])

def unionPredecessorStates (predecessors : List ℕ) (outMap : List AliasState) : AliasState :=
  (predecessors.flatMap fun pred => outMap.getD pred []).foldl
    (fun result entry =>
      result.insert entry.1 (((result.lookup entry.1).getD []).unionWith entry.2)) []

def aliasStatesEqual (left right : AliasState) : Bool :=
  left.length = right.length &&
    left.all fun entry =>
      match right.lookup entry.1 with
      | some sources => NameSet.setEquals entry.2 sources
      | none => false

def markScalarUse (value : IrValue) (aliases : AliasState) (scalarArgs : NameSet) :
    NameSet :=
  match value with
  | ⟨"register", some name, _⟩ =>
      if isFloatRegister (stripNumericSuffix name) then
        (((aliases.lookup (stripNumericSuffix name)).getD []).filter
          (NameSet.has abiFloatArgumentRegisters)).foldl NameSet.add scalarArgs
      else scalarArgs
  | _ => scalarArgs

def markScalarUses (values : List IrValue) (aliases : AliasState) (scalarArgs : NameSet) :
    NameSet :=
  values.foldl (fun scalarArgs value => markScalarUse value aliases scalarArgs) scalarArgs

/-- The sources of a value that is copied, if it is a register that has any. -/
def copiedSources (value : IrValue) (aliases : AliasState) : Option NameSet :=
  match value with
  | ⟨"register", some name, _⟩ =>
      if isFloatRegister (stripNumericSuffix name) then
        aliases.lookup (stripNumericSuffix name)
      else none
  | _ => none

def propagateFloatAlias (destination : String) (value : IrValue) (aliases : AliasState) :
    AliasState :=
  let destBase := stripNumericSuffix destination
  if isFloatRegister destBase then
    match copiedSources value aliases with
    | some sources => aliases.insert destBase sources
    | none => aliases.remove destBase
  else aliases

def killFloatAlias (destination : String) (aliases : AliasState) : AliasState :=
  if !isNullOrWhiteSpace destination && isFloatRegister (stripNumericSuffix destination) then
    aliases.remove (stripNumericSuffix destination)
  else aliases

structure ScalarState where
  aliases : AliasState
  scalarArgs : NameSet
deriving DecidableEq

def scalarArguments (abi : GuestFunctionAbi) (arguments : List IrValue) : List IrValue :=
  arguments.filter fun arg =>
    match arg with
    | ⟨"register", some name, _⟩ => abi.hasScalarFloatArgument (stripNumericSuffix name)
    | _ => false

def processScalarArgumentCall (target : String) (arguments : List IrValue)
    (s : ScalarState) : Inferring ScalarState :=
  if isGuestCallTarget target then
    (provider.tryGetGuestFunctionAbi target).bind fun answer =>
      let writesFloatReturnRegister :=
        if answer.found then answer.value.writesFloatReturnRegister else true
      let scalarArgs :=
        if answer.found then
          markScalarUses (scalarArguments answer.value arguments) s.aliases s.scalarArgs
        else s.scalarArgs
      .done ⟨if writesFloatReturnRegister then s.aliases.remove "f1" else s.aliases,
        scalarArgs⟩
  else if isScalarHelperConsumer target then
    .done { s with scalarArgs := markScalarUses arguments s.aliases s.scalarArgs }
  else .done s

def processScalarArgumentInstruction (s : ScalarState) :
    IrInstruction → Inferring ScalarState
  | .assign destination value =>
      .done { s with aliases := propagateFloatAlias destination value s.aliases }
  | .binary destination left right _ =>
      .done ⟨killFloatAlias destination s.aliases,
        markScalarUses [left, right] s.aliases s.scalarArgs⟩
  | .load destination _ _ =>
      .done { s with aliases := killFloatAlias destination s.aliases }
  | .store _ source sizeBytes =>
      .done (if sizeBytes = 4 ∨ sizeBytes = 8 then
        { s with scalarArgs := markScalarUse source s.aliases s.scalarArgs } else s)
  | .call destination target arguments =>
      (provider.processScalarArgumentCall target arguments s).bind fun s =>
        .done { s with aliases := killFloatAlias destination s.aliases }
  | .indirectCall destination _ arguments =>
      .done ⟨killFloatAlias destination (s.aliases.remove "f1"),
        markScalarUses arguments s.aliases s.scalarArgs⟩
  | .setCrField _ left right _ =>
      .done { s with scalarArgs := markScalarUses [left, right] s.aliases s.scalarArgs }
  | .phi destination _ =>
      .done { s with aliases := killFloatAlias destination s.aliases }
  | _ => .done s

structure ScalarScan where
  inMap : List AliasState
  outMap : List AliasState
  scalarArgs : NameSet
  changed : Bool
deriving DecidableEq

def isEntryBlock (function : IrFunction) (index : ℕ) : Bool :=
  folded (function.blockAt index).label = folded function.entryLabel

def initialScan (function : IrFunction) : ScalarScan :=
  let initial := (List.range function.blocks.length).map fun index =>
    if isEntryBlock function index then createInitialArgumentAliasState else []
  ⟨initial, initial, [], true⟩

def scanBlock (function : IrFunction) (scan : ScalarScan) (index : ℕ) :
    Inferring ScalarScan :=
  let newIn :=
    if isEntryBlock function index then createInitialArgumentAliasState
    else unionPredecessorStates (IrCfg.predecessors function index) scan.outMap
  (Questions.fold provider.processScalarArgumentInstruction
    (function.blockAt index).instructions ⟨newIn, scan.scalarArgs⟩).bind fun s =>
      let inSame := aliasStatesEqual newIn (scan.inMap.getD index [])
      let outSame := aliasStatesEqual s.aliases (scan.outMap.getD index [])
      .done
        { inMap := if inSame then scan.inMap else scan.inMap.set index newIn
          outMap := if outSame then scan.outMap else scan.outMap.set index s.aliases
          scalarArgs := s.scalarArgs
          changed := scan.changed || !inSame || !outSame }

def scanRound (function : IrFunction) (scan : ScalarScan) : Inferring ScalarScan :=
  .fold (provider.scanBlock function) (List.range function.blocks.length)
    { scan with changed := false }

/-! ### Analysis -/

/-- Where the analysis of a function is: it has failed, collects the uses of blocks,
iterates the liveness of registers, is in a round of the scan for scalars, or is done. -/
inductive AnalysisState where
  | failed
  | collecting (entryPoint : UInt32) (linear : IrFunction)
      (sets : Inferring (List UsesAndDefs))
  | liveness (entryPoint : UInt32) (linear : IrFunction) (sets : List UsesAndDefs)
      (live : Liveness)
  | scanning (entryPoint : UInt32) (linear : IrFunction) (argumentRegisters : NameSet)
      (scan : Inferring ScalarScan)
  | done (abi : GuestFunctionAbi)

/-- The canonical code of a function, or the code built from the image. -/
def linearIr (entryPoint : UInt32) : Option IrFunction :=
  (provider.canonicalIr entryPoint).or (provider.buildLinearIr entryPoint)

/-- Whether inference throws: there is no code, or the graph of it cannot be built. -/
def InferenceFails (entryPoint : UInt32) : Prop :=
  ∀ linear, provider.linearIr entryPoint = some linear → ¬IrCfg.DistinctLabels linear

def startAnalysis (entryPoint : UInt32) : AnalysisState :=
  match provider.linearIr entryPoint with
  | some linear =>
      if IrCfg.DistinctLabels linear then
        .collecting entryPoint linear (.collect provider.blockUsesAndDefs linear.blocks)
      else .failed
  | none => .failed

def initialLiveness (linear : IrFunction) : Liveness :=
  ⟨linear.blocks.map fun _ => [], linear.blocks.map fun _ => [], true⟩

def nextAnalysis :
    AnalysisState → Action UInt32 GuestFunctionAbi AnalysisState
  | .failed => .finish none
  | .collecting entryPoint linear (.ask k f) =>
      .ask k fun answer => .collecting entryPoint linear (f answer)
  | .collecting entryPoint linear (.done sets) =>
      .silent (.liveness entryPoint linear sets (initialLiveness linear))
  | .liveness entryPoint linear sets live =>
      if live.changed then
        .silent (.liveness entryPoint linear sets (livenessRound linear sets live))
      else
        .silent (.scanning entryPoint linear (entryLive linear live)
          (provider.scanRound linear (initialScan linear)))
  | .scanning entryPoint linear argumentRegisters (.ask k f) =>
      .ask k fun answer => .scanning entryPoint linear argumentRegisters (f answer)
  | .scanning entryPoint linear argumentRegisters (.done scan) =>
      if scan.changed then
        .silent (.scanning entryPoint linear argumentRegisters
          (provider.scanRound linear scan))
      else
        let (returnsPairedScalarFloat, writesFloatReturnRegister) :=
          provider.classifyReturn entryPoint linear
        .silent (.done (.create scan.scalarArgs returnsPairedScalarFloat
          writesFloatReturnRegister argumentRegisters))
  | .done abi => .finish (some abi)

/-- The inference of the functions of the image. -/
def procedures : Procedures UInt32 GuestFunctionAbi AnalysisState where
  start := provider.startAnalysis
  next := provider.nextAnalysis
  fallback := .empty

/-! ### Prewarming -/

def functionTargetName (address : UInt32) : String :=
  "func_" ++ hex8 address

/-- The addresses of a prewarm, ascending and without repetitions. -/
def orderedAddresses (addresses : List UInt32) : List UInt32 :=
  addresses.dedup.insertionSort (· ≤ ·)

/-- The functions that a prewarm asks for; other addresses have no ABI. -/
def prewarmTargets (addresses : List UInt32) : List UInt32 :=
  (orderedAddresses addresses).filterMap fun address =>
    provider.tryResolveTargetAddress (functionTargetName address)

end InferredGuestFunctionAbiProvider

end Wiicompiled.CodeGen
