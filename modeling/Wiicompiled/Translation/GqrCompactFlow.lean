import Wiicompiled.Translation.GqrFunctionSummary

/-!
# Constant propagation over summaries

The evaluation of one caller in the interprocedural analysis: the constants that
reach its direct calls, computed from its summary.
-/

namespace Wiicompiled.Translation.GqrInterproceduralAnalysis

open Ir GqrConstantPropagation GqrFunctionSummary

/-- The constants known at one point, by number. -/
abbrev SlotMap := AList fun _ : ℕ => UInt32

/-! ## Transfer -/

def tryCompactValue (value : GqrSummaryValue) (state : SlotMap) : Option UInt32 :=
  match value with
  | .constantValue constant => some constant
  | .variableValue id => state.lookup id
  | .unknown => none

def tryCompactBinary (operation : GqrBinaryOperation) (left right : UInt32) :
    Option UInt32 :=
  match operation with
  | .add => some (left + right)
  | .subtract => some (left - right)
  | .or => some (left ||| right)
  | .and => some (left &&& right)
  | .xor => some (left ^^^ right)
  | .shiftLeft => some (left <<< (right &&& 31))
  | .rotateLeft => some ((left <<< (right &&& 31)) ||| (left >>> ((32 - right) &&& 31)))
  | .shiftRight => some (left >>> (right &&& 31))
  | .unknown => none

/-- `state[id] = value` or `state.Remove(id)`. -/
def assignOrRemoveCompact (state : SlotMap) (id : ℕ) (value : Option UInt32) : SlotMap :=
  match value with
  | some v => state.insert id v
  | none => state.erase id

/-- The constants of the eight registers: of the variables with the affinity of a
register, the newest entry. -/
def collectSlots (summary : GqrFunctionSummary) (state : SlotMap) (n : ℕ) :
    Option UInt32 :=
  (state.entries.find? fun pair => summary.getGqrAffinity pair.1 = some n).map Sigma.snd

/-- The map with the constants of the eight registers. -/
def slotMap (values : ℕ → Option UInt32) : SlotMap :=
  registerMap id values

def compactPhiValue (predecessorOut : Option (ℕ → SlotMap))
    (sources : List GqrPhiSource) : Option UInt32 :=
  let incoming := sources.map fun source =>
    predecessorOut.bind fun out =>
      source.predecessor.bind fun p => (out p).lookup source.variableId
  match incoming with
  | some value :: others =>
      if others.all fun other => other = some value then some value else none
  | _ => none

def transferCompact (summary : GqrFunctionSummary)
    (predecessorOut : Option (ℕ → SlotMap)) (calleeWriteMasks : WriteMasks)
    (i : GqrSummaryInstruction) (state : SlotMap) : SlotMap :=
  match i with
  | .assign destination value =>
      assignOrRemoveCompact state destination (tryCompactValue value state)
  | .binary destination left right operation =>
      assignOrRemoveCompact state destination
        ((tryCompactValue left state).bind fun l =>
          (tryCompactValue right state).bind fun r => tryCompactBinary operation l r)
  | .phi destination sources =>
      assignOrRemoveCompact state destination (compactPhiValue predecessorOut sources)
  | .kill destination => state.erase destination
  | .guestCall target =>
      let writeMask := (target.bind calleeWriteMasks).getD 0xFF
      if writeMask = 0xFF then ∅
      else
        slotMap fun n =>
          if writeMask.getLsbD n then none else collectSlots summary state n
  | .indirectCall => ∅

def transferBlockCompact (summary : GqrFunctionSummary)
    (predecessorOut : Option (ℕ → SlotMap)) (calleeWriteMasks : WriteMasks)
    (instructions : List GqrSummaryInstruction) (state : SlotMap) : SlotMap :=
  instructions.foldl
    (fun state i => transferCompact summary predecessorOut calleeWriteMasks i state) state

/-! ## The fixpoint -/

/-- The entries of the first output on which all others agree. -/
def compactIntersect (outputs : List SlotMap) : SlotMap :=
  match outputs with
  | [] => ∅
  | first :: others =>
      { entries := first.entries.filter fun pair =>
          others.all fun map => map.lookup pair.1 = some pair.2
        nodupKeys := first.nodupKeys.sublist List.filter_sublist }

def compactSame (left right : SlotMap) : Bool :=
  left.entries.length = right.entries.length &&
    left.entries.all fun pair => right.lookup pair.1 = some pair.2

/-- What the evaluation keeps for one block. -/
structure CompactBlockFlow where
  input : SlotMap
  output : SlotMap
  initialized : Bool

instance : Inhabited CompactBlockFlow :=
  ⟨⟨∅, ∅, false⟩⟩

def compactFlowAt (flows : List CompactBlockFlow) (index : ℕ) : CompactBlockFlow :=
  flows.getD index default

def summaryBlockAt (summary : GqrFunctionSummary) (index : ℕ) : GqrSummaryBlock :=
  summary.blocks.getD index ⟨[], []⟩

/-- The predecessors of a block that take part in the meet. -/
def compactPredecessors (summary : GqrFunctionSummary) (flows : List CompactBlockFlow)
    (index : ℕ) : List ℕ :=
  (summaryBlockAt summary index).predecessors.filter fun p =>
    p ≠ index && (compactFlowAt flows p).initialized

/-- The constants from which a block is recomputed. -/
def compactBlockInput (summary : GqrFunctionSummary) (entry : ℕ → Option UInt32)
    (flows : List CompactBlockFlow) (index : ℕ) : SlotMap :=
  if index = summary.entryBlock then slotMap entry
  else
    compactIntersect ((compactPredecessors summary flows index).map fun p =>
      (compactFlowAt flows p).output)

def compactBlockOutput (summary : GqrFunctionSummary) (entry : ℕ → Option UInt32)
    (calleeWriteMasks : WriteMasks) (flows : List CompactBlockFlow) (index : ℕ) : SlotMap :=
  transferBlockCompact summary (some fun p => (compactFlowAt flows p).output)
    calleeWriteMasks (summaryBlockAt summary index).instructions
    (compactBlockInput summary entry flows index)

/-- One visit of a block; the flag tells whether anything changed. -/
def compactVisit (summary : GqrFunctionSummary) (entry : ℕ → Option UInt32)
    (calleeWriteMasks : WriteMasks) (s : List CompactBlockFlow × Bool) (index : ℕ) :
    List CompactBlockFlow × Bool :=
  if index ≠ summary.entryBlock ∧ compactPredecessors summary s.1 index = [] then s
  else
    let newInput := compactBlockInput summary entry s.1 index
    let state := compactBlockOutput summary entry calleeWriteMasks s.1 index
    let old := compactFlowAt s.1 index
    let sameInput := compactSame old.input newInput
    let sameOutput := compactSame old.output state
    (s.1.set index
      { input := if sameInput then old.input else newInput
        output := if sameOutput then old.output else state
        initialized := true },
      s.2 || !sameInput || !sameOutput || !old.initialized)

def compactRound (summary : GqrFunctionSummary) (entry : ℕ → Option UInt32)
    (calleeWriteMasks : WriteMasks) (flows : List CompactBlockFlow) :
    List CompactBlockFlow × Bool :=
  (List.range summary.blocks.length).foldl (compactVisit summary entry calleeWriteMasks)
    (flows, false)

/-- Rounds until one changes nothing, if that happens within the given number. -/
def compactRounds (summary : GqrFunctionSummary) (entry : ℕ → Option UInt32)
    (calleeWriteMasks : WriteMasks) : ℕ → List CompactBlockFlow →
      Option (List CompactBlockFlow)
  | 0, _ => none
  | fuel + 1, flows =>
      let next := compactRound summary entry calleeWriteMasks flows
      if next.2 then compactRounds summary entry calleeWriteMasks fuel next.1
      else some next.1

/-- The constants known at the entry of each block; nothing, when the limit is
exceeded. -/
def compactInputs (summary : GqrFunctionSummary) (entry : ℕ → Option UInt32)
    (calleeWriteMasks : WriteMasks) : List SlotMap :=
  let iterationLimit := max 256 (summary.blocks.length * 4 + 16)
  let start := summary.blocks.map fun _ => (default : CompactBlockFlow)
  match compactRounds summary entry calleeWriteMasks iterationLimit start with
  | some flows => flows.map CompactBlockFlow.input
  | none => summary.blocks.map fun _ => ∅

/-! ## Call sites -/

/-- The constants that reach the direct calls of a block to the functions under
analysis. -/
def siteConstants (summary : GqrFunctionSummary) (calleeWriteMasks : WriteMasks)
    (known : UInt32 → Bool) :
    List GqrSummaryInstruction → SlotMap → List (UInt32 × (Fin 8 → Option UInt32))
  | [], _ => []
  | i :: rest, state =>
      let later := siteConstants summary calleeWriteMasks known rest
        (transferCompact summary none calleeWriteMasks i state)
      match i with
      | .guestCall (some target) =>
          if known target then
            (target, fun n => collectSlots summary state n) :: later
          else later
      | _ => later

/-- The targets of the direct calls of a function and the constants that reach them. -/
def evaluateCompactCaller (summary : GqrFunctionSummary) (entry : ℕ → Option UInt32)
    (calleeWriteMasks : WriteMasks) (known : UInt32 → Bool) :
    List (UInt32 × (Fin 8 → Option UInt32)) :=
  ((compactInputs summary entry calleeWriteMasks).zipWith
    (fun input block =>
      siteConstants summary calleeWriteMasks known block.instructions input)
    summary.blocks).flatten

end Wiicompiled.Translation.GqrInterproceduralAnalysis
