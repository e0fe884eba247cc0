import Wiicompiled.Disassembly.PpcDisassembler
import Wiicompiled.Translation.GqrConstantPropagation

/-!
# The front end

From the bytes of a function to its linear intermediate code: disassembly, basic blocks,
lifting, and blocks for the labels that are left open.  The lifting of single
instructions other than the unconditional branch never sees the entry points of other
functions and is a parameter.
-/

namespace Wiicompiled.Translation

open Ir Disassembly GqrConstantPropagation

/-! ## Text -/

/-- `0x{address:X8}`. -/
def labelFor (address : UInt32) : String :=
  "0x" ++ hex8 address

/-- `{value:X}`. -/
def hexUpper (value : ℕ) : String :=
  String.ofList ((Nat.toDigits 16 value).map Char.toUpper)

/-- `Math.Abs`, which has no result for the least number. -/
def absolute (value : Int32) : Except Failure ℕ :=
  if value = Int32.minValue then .error .overflow else .ok value.toInt.natAbs

/-- The hexadecimal text of a number with its sign. -/
def signedHex (value : Int32) : Except Failure String :=
  if value < 0 then (absolute value).map fun n => "-0x" ++ hexUpper n
  else .ok ("0x" ++ hexUpper value.toInt.toNat)

def toOperandString : PpcOperand → Except Failure String
  | .register name _ => .ok name
  | .immediate value preferHex =>
      if preferHex then signedHex value else .ok (toString value.toInt)
  | .displacement offset baseRegister _ =>
      (if offset = 0 then .ok "0" else signedHex offset).map fun text =>
        text ++ "(" ++ baseRegister ++ ")"
  | .branchTarget targetAddress => .ok (labelFor targetAddress)
  | .conditionRegister name _ => .ok name

def createTrace (ins : PpcInstruction) : Except Failure IrInstruction :=
  (ins.operands.mapM toOperandString).map fun operands =>
    let operandText := ", ".intercalate operands
    let disasm :=
      if isNullOrWhiteSpace operandText then ins.mnemonic
      else ins.mnemonic ++ " " ++ operandText
    .tracePpc ins.address disasm (labelFor ins.word)

/-! ## Basic blocks -/

structure BasicBlock where
  startAddress : UInt32
  instructions : List PpcInstruction

namespace BasicBlockBuilder

def leadersOf (previous : Option PpcInstruction) (ins : PpcInstruction) :
    Except Failure (List UInt32) := do
  let own ←
    match previous with
    | none => .ok []
    | some p =>
        if p.isReturn || p.isUnconditionalBranch then .ok [ins.address]
        else p.endAddress.map fun next => if next ≠ ins.address then [ins.address] else []
  let targets ←
    if ins.isConditionalBranch then
      ins.endAddress.map fun next => ins.branchTargets ++ [next]
    else if ins.isUnconditionalBranch then .ok ins.branchTargets
    else .ok []
  .ok (own ++ targets)

def owner (leaders : List UInt32) (address : UInt32) : Option UInt32 :=
  (leaders.filter fun leader => leader ≤ address).getLast?

def slice (instructions : List PpcInstruction) (leaders : List UInt32) :
    List BasicBlock :=
  (leaders.map fun leader =>
    (⟨leader, instructions.filter fun ins =>
      owner leaders ins.address = some leader &&
        -- the exclusive end of the last block
        !(leaders.getLast? = some leader && ins.address = 0xFFFFFFFF)⟩ : BasicBlock)).filter
    fun block => !block.instructions.isEmpty

def terminatorEnd (block : BasicBlock) : Except Failure Unit :=
  match block.instructions.getLast? with
  | some term =>
      if term.isConditionalBranch then term.endAddress.map fun _ => ()
      else if term.isUnconditionalBranch || term.isCall || term.isReturn then .ok ()
      else term.endAddress.map fun _ => ()
  | none => .ok ()

/-- The blocks of a list of instructions; the edges between them are not kept here. -/
def build (instructions : List PpcInstruction) (extraLeaders : List UInt32) :
    Except Failure (List BasicBlock) :=
  match instructions with
  | [] => .ok []
  | first :: rest => do
      let requested := (instructions.map PpcInstruction.address).filter fun address =>
        address ∈ extraLeaders
      let found ← ((none :: instructions.map some).zip instructions).mapM fun pair =>
        leadersOf pair.1 pair.2
      let leaders := (first.address :: (requested ++ found.flatten)).dedup.insertionSort
        (· ≤ ·)
      let blocks := slice (first :: rest) leaders
      let _ ← blocks.mapM terminatorEnd
      .ok blocks

end BasicBlockBuilder

/-! ## Lifting -/

/-- The parts of the front end that look at single words and instructions. -/
structure Stages where
  decoder : Decoder
  /-- Paired-single and floating-point instructions. -/
  liftFloating : PpcInstruction → Except Failure (Option (List IrInstruction))
  /-- All other instructions but the unconditional branch. -/
  liftOther : PpcInstruction → List UInt32 → List PpcInstruction → Bool →
    Except Failure (List IrInstruction)

def abiCallArguments : List IrValue :=
  ((List.range' 3 8).map fun n => .register ("r" ++ toString n)) ++
    (List.range' 1 13).map fun n => .register ("f" ++ toString n)

namespace PpcLifter

def targetLabel (ins : PpcInstruction) (validAddresses : List UInt32)
    (preferFallthrough : Bool) : Except Failure String :=
  match ins.branchTargets with
  | [] => .error .invalidOperation
  | target :: _ =>
      if target ∉ validAddresses ∧ preferFallthrough then ins.endAddress.map labelFor
      else .ok (labelFor target)

/-- The unconditional branch.  Whether it leads to a known function is asked, but the
answer is not used. -/
def liftBranch (ins : PpcInstruction) (validAddresses : List UInt32)
    (functionEntryPoint : UInt32) : Probing UInt32 (Except Failure (List IrInstruction)) :=
  let targetAddr := ins.branchTargets.headD 0
  if targetAddr ∈ validAddresses then
    .done ((targetLabel ins validAddresses true).map fun label => [.jump label])
  else
    let tailCall := (targetLabel ins validAddresses false).map fun label =>
      [IrInstruction.call "" label abiCallArguments, .ret none]
    if targetAddr ≠ functionEntryPoint then
      (Probing.peek targetAddr).andThen fun _branchesToKnownFunction => .done tailCall
    else .done tailCall

def liftInstruction (stages : Stages) (validAddresses : List UInt32)
    (instructions : List PpcInstruction) (allowUnsupported : Bool)
    (functionEntryPoint : UInt32) (ins : PpcInstruction) :
    Probing UInt32 (Except Failure (List IrInstruction)) :=
  match stages.liftFloating ins with
  | .error e => .done (.error e)
  | .ok (some lowered) => .done (.ok lowered)
  | .ok none =>
      if folded ins.mnemonic = "b".toList then
        liftBranch ins validAddresses functionEntryPoint
      else .done (stages.liftOther ins validAddresses instructions allowUnsupported)

/-- The lowered instructions by address; an address that occurs twice is an exception. -/
def lift (stages : Stages) (instructions : List PpcInstruction) (allowUnsupported : Bool)
    (functionEntryPoint : UInt32) :
    Probing UInt32 (Except Failure (List (UInt32 × List IrInstruction))) :=
  let validAddresses := instructions.map PpcInstruction.address
  if validAddresses.Nodup then
    .fold (fun lifted ins =>
      match lifted with
      | .error e => .done (.error e)
      | .ok lifted =>
          (liftInstruction stages validAddresses instructions allowUnsupported
            functionEntryPoint ins).andThenOk fun lowered =>
              .done (.ok (lifted ++ [(ins.address, lowered)])))
      instructions (.ok [])
  else .done (.error .argument)

end PpcLifter

/-! ## Open labels -/

/-- `IrValue.Imm((int)address)`. -/
def signedWord (address : UInt32) : IrValue :=
  .imm address.toInt32.toInt64

def tryParseHex (text : List Char) : Option UInt32 :=
  if text.all isWhiteSpace then none
  else
    let hex := trim text
    tryParseHexDigits (if startsWithIgnoreCase hex "0x".toList then hex.drop 2 else hex)

/-- The two addresses of a label that starts with a prefix. -/
def tryParseAddressPair (label : String) (pre : String) : Option (UInt32 × UInt32) :=
  if startsWithIgnoreCase label.toList pre.toList then
    match ((label.toList.drop pre.toList.length).splitOn '_').filter
        fun part => !part.isEmpty with
    | first :: second :: _ =>
        (tryParseHex first).bind fun a => (tryParseHex second).map fun b => (a, b)
    | _ => none
  else none

def tryBuildSyntheticBlock (label : String) : Option IrBasicBlock :=
  if startsWithIgnoreCase label.toList "indirect_ctr_".toList then
    some ⟨label, [.indirectJump (.register "ctr")]⟩
  else
    match tryParseAddressPair label "call_ctr_" with
    | some (_, fallthrough) =>
        some ⟨label, [.assign "lr" (signedWord fallthrough),
          .indirectCall "" (.register "ctr") abiCallArguments,
          .jump (labelFor fallthrough)]⟩
    | none =>
        match tryParseAddressPair label "call_lr_" with
        | some (callAddr, fallthrough) =>
            let temp := "addr_bclrl_" ++ hex8 callAddr ++ "_loc"
            some ⟨label, [.assign temp (.register "lr"),
              .assign "lr" (signedWord fallthrough),
              .indirectCall "" (.register temp) abiCallArguments,
              .jump (labelFor fallthrough)]⟩
        | none =>
            match tryParseAddressPair label "link_branch_" with
            | some (fallthrough, target) =>
                some ⟨label, [.assign "lr" (signedWord fallthrough),
                  .jump (labelFor target)]⟩
            | none =>
                (tryParseHex label.toList).map fun absoluteTarget =>
                  ⟨label, [.call "" (labelFor absoluteTarget) abiCallArguments,
                    .ret none]⟩

def isReturnLabel (label : String) : Bool :=
  equalsIgnoreCase label.toList "return".toList

def branchLabels : IrInstruction → List String
  | .branch _ trueLabel falseLabel _ =>
      [trueLabel, falseLabel].filter fun label => !isNullOrWhiteSpace label
  | _ => []

def jumpLabels : IrInstruction → List String
  | .jump targetLabel => [targetLabel].filter fun label => !isNullOrWhiteSpace label
  | _ => []

def needsReturn : IrInstruction → Bool
  | .branch _ trueLabel falseLabel _ => isReturnLabel trueLabel || isReturnLabel falseLabel
  | _ => false

def closeLabel (blocks : List IrBasicBlock) (label : String) : List IrBasicBlock :=
  if (blocks.map IrBasicBlock.label).contains label || isReturnLabel label then blocks
  else
    match tryBuildSyntheticBlock label with
    | some block => blocks ++ [block]
    | none => blocks ++ [⟨label, [.comment "synthetic missing target"]⟩]

/-- Every referenced label has a block, the return block comes last. -/
def closeLabels (blocks : List IrBasicBlock) : List IrBasicBlock :=
  let instructions := blocks.flatMap IrBasicBlock.instructions
  let closed := (instructions.flatMap branchLabels ++ instructions.flatMap jumpLabels).foldl
    closeLabel blocks
  if instructions.any needsReturn && !closed.any fun block => isReturnLabel block.label then
    closed ++ [⟨"return", [.ret none]⟩]
  else closed

/-! ## Linear code -/

structure TranslationOptions where
  preferredName : Option String
  maxInstructions : Int32
  maxBytes : Int32
  allowUnsupportedInstructions : Bool
  linkedCallFallthroughLrOverrides : AList fun _ : UInt32 => UInt32

/-- The constant that a write of the link register before a call is replaced with. -/
def lrOverride (overrides : AList fun _ : UInt32 => UInt32) :
    IrInstruction → IrInstruction → IrInstruction
  | .assign destination ⟨"const", name, some lrValue⟩, .call .. =>
      if equalsIgnoreCase (stripNumericSuffixSpan destination.toList) "lr".toList then
        match overrides.lookup (truncate lrValue) with
        | some overrideLr => .assign destination (signedWord overrideLr)
        | none => .assign destination ⟨"const", name, some lrValue⟩
      else .assign destination ⟨"const", name, some lrValue⟩
  | i, _ => i

def overrideLr (overrides : AList fun _ : UInt32 => UInt32) :
    List IrInstruction → List IrInstruction
  | i :: next :: rest => lrOverride overrides i next :: overrideLr overrides (next :: rest)
  | instructions => instructions

def endsFlow : IrInstruction → Bool
  | .branch .. | .jump .. | .ret .. | .indirectJump .. | .jumpTable .. | .undefined .. => true
  | _ => false

/-- The trace stands before the first instruction that ends the flow, else last. -/
def appendLoweredWithTrace (lowered : List IrInstruction) (trace : IrInstruction) :
    List IrInstruction :=
  lowered.takeWhile (fun i => !endsFlow i) ++
    trace :: lowered.dropWhile fun i => !endsFlow i

def lowerWithTrace (lifted : List (UInt32 × List IrInstruction)) (ins : PpcInstruction) :
    Except Failure (List IrInstruction) :=
  match lifted.find? fun entry => entry.1 = ins.address with
  | some entry => (createTrace ins).map fun trace => appendLoweredWithTrace entry.2 trace
  | none => .error .invalidOperation

/-- Where control goes from the end of a block that was not decoded further: to another
function when the address is one of the known entry points, and this is logged when it
is not. -/
def closeFallthrough (decodedAddresses : List UInt32) (last : PpcInstruction)
    (ir : List IrInstruction) : Probing UInt32 (Except Failure (List IrInstruction)) :=
  if last.isReturn || last.isConditionalBranch || last.isUnconditionalBranch then
    .done (.ok ir)
  else
    match last.endAddress with
    | .error e => .done (.error e)
    | .ok fallthroughAddress =>
        if fallthroughAddress ∈ decodedAddresses then .done (.ok ir)
        else
          (Probing.ask fallthroughAddress).andThen fun isBoundary =>
            .done (.ok (if isBoundary then ir ++ [.jump (labelFor fallthroughAddress)]
              else ir))

def buildBlock (decodedAddresses : List UInt32)
    (lifted : List (UInt32 × List IrInstruction)) (block : BasicBlock) :
    Probing UInt32 (Except Failure IrBasicBlock) :=
  match block.instructions.mapM (lowerWithTrace lifted), block.instructions.getLast? with
  | .error e, _ => .done (.error e)
  | .ok _, none => .done (.error .argument)
  | .ok lowered, some last =>
      (closeFallthrough decodedAddresses last lowered.flatten).andThenOk fun ir =>
        .done (.ok ⟨labelFor block.startAddress, ir⟩)

def buildBlocks (decodedAddresses : List UInt32)
    (lifted : List (UInt32 × List IrInstruction)) (blocks : List BasicBlock) :
    Probing UInt32 (Except Failure (List IrBasicBlock)) :=
  .fold (fun built block =>
    match built with
    | .error e => .done (.error e)
    | .ok built =>
        (buildBlock decodedAddresses lifted block).andThenOk fun ir =>
          .done (.ok (built ++ [ir])))
    blocks (.ok [])

def finishLinearIr (options : TranslationOptions) (entryPoint : UInt32)
    (blocks : List IrBasicBlock) : IrFunction :=
  let closed := closeLabels blocks
  let overridden :=
    if options.linkedCallFallthroughLrOverrides.keys.isEmpty then closed
    else
      closed.map fun block =>
        ⟨block.label, overrideLr options.linkedCallFallthroughLrOverrides
          block.instructions⟩
  let entryLabel := labelFor entryPoint
  { name := options.preferredName.getD ("func_" ++ hex8 entryPoint)
    entryLabel :=
      if overridden.any fun block =>
          equalsIgnoreCase block.label.toList entryLabel.toList then entryLabel
      else (overridden.head?.map IrBasicBlock.label).getD "entry"
    blocks := overridden }

/-- The linear code of a function with its instructions; nothing, when a body over the
budget is tolerated and this one is. -/
def buildLinearIr (stages : Stages) (image : ProgramImage) (entryPoint : UInt32)
    (options : TranslationOptions) (toleratesBudgetOverrun : Bool) :
    Probing UInt32 (Except Failure (Option (IrFunction × List PpcInstruction))) :=
  (disassembleFunctionCore stages.decoder image entryPoint options.maxInstructions.toInt
    options.maxBytes.toInt !toleratesBudgetOverrun).andThenOk fun decoded =>
      match decoded with
      | none => .done (.ok none)
      | some instructions =>
          match BasicBlockBuilder.build instructions [entryPoint] with
          | .error e => .done (.error e)
          | .ok basicBlocks =>
              (PpcLifter.lift stages instructions options.allowUnsupportedInstructions
                entryPoint).andThenOk fun lifted =>
                  (buildBlocks (instructions.map PpcInstruction.address) lifted
                    basicBlocks).andThenOk fun blocks =>
                      .done (.ok (some
                        (finishLinearIr options entryPoint blocks, instructions)))

/-! ## The front end can be replayed -/

section Replay

open Probing

theorem replayable_liftBranch (ins : PpcInstruction) (validAddresses : List UInt32)
    (functionEntryPoint : UInt32) :
    Replayable (PpcLifter.liftBranch ins validAddresses functionEntryPoint) := by
  rw [PpcLifter.liftBranch]
  split_ifs
  · exact replayable_done _
  · exact replayable_peek_unused _ (replayable_done _)
  · exact replayable_done _

theorem replayable_lift (stages : Stages) (instructions : List PpcInstruction)
    (allowUnsupported : Bool) (functionEntryPoint : UInt32) :
    Replayable (PpcLifter.lift stages instructions allowUnsupported functionEntryPoint) := by
  rw [PpcLifter.lift]
  split_ifs
  · apply replayable_fold
    rintro (e | lifted) ins
    · exact replayable_done _
    · refine Replayable.andThenOk ?_ fun _ => replayable_done _
      rw [PpcLifter.liftInstruction]
      split
      · exact replayable_done _
      · exact replayable_done _
      · split_ifs
        · exact replayable_liftBranch ins _ _
        · exact replayable_done _
  · exact replayable_done _

theorem replayable_buildBlocks (decodedAddresses : List UInt32)
    (lifted : List (UInt32 × List IrInstruction)) (blocks : List BasicBlock) :
    Replayable (buildBlocks decodedAddresses lifted blocks) := by
  apply replayable_fold
  rintro (e | built) block
  · exact replayable_done _
  · refine Replayable.andThenOk ?_ fun _ => replayable_done _
    rw [buildBlock]
    split
    · exact replayable_done _
    · exact replayable_done _
    · refine Replayable.andThenOk ?_ fun _ => replayable_done _
      rw [closeFallthrough]
      split_ifs
      · exact replayable_done _
      · split
        · exact replayable_done _
        · split_ifs
          · exact replayable_done _
          · exact (replayable_ask _).andThen fun _ => replayable_done _

/-- Every question on which the code of a function depends is logged when it is
answered with no. -/
theorem replayable_buildLinearIr (stages : Stages) (image : ProgramImage)
    (entryPoint : UInt32) (options : TranslationOptions) (toleratesBudgetOverrun : Bool) :
    Replayable (buildLinearIr stages image entryPoint options toleratesBudgetOverrun) := by
  apply (replayable_disassembleFunctionCore _ _ _ _ _ _).andThenOk
  rintro (_ | instructions)
  · exact replayable_done _
  · dsimp only
    split
    · exact replayable_done _
    · refine (replayable_lift stages _ _ _).andThenOk fun lifted => ?_
      exact (replayable_buildBlocks _ _ _).andThenOk fun _ => replayable_done _

end Replay

end Wiicompiled.Translation
