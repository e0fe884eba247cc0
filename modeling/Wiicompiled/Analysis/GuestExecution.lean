import Wiicompiled.Analysis.GuestHelperEffectCatalog
import Wiicompiled.Analysis.OperandMasks

/-!
# Register footprints of executions

The abstract machine against which the register analyses are judged.  A
configuration is a position in a function together with the registers written
since the start; a step executes one instruction, with the registers that it
reads and writes, or moves to another block.  Values are left out.
-/

namespace Wiicompiled.Analysis

open Ir GuestStateMask

/-- Runs of guest callees: address, whether the call came back, the registers
read before being written, and the registers written. -/
abbrev CalleeRuns := UInt32 → Bool → GuestStateMask → GuestStateMask → Prop

/-- The link register, when it is the destination of a call: it is written
before the callee starts. -/
def linkMask (destination : String) : GuestStateMask :=
  if ofSsaName destination = ofReg .lr then ofReg .lr else empty

/-- The registers that a helper call defines through its destination.  A packed
CR result stands for the fields the helper changes. -/
def helperDestination (destination : String) (effect : GuestHelperEffect) :
    GuestStateMask :=
  if (ofSsaName destination).cr = 0xFF ∧ effect.writes.cr ≠ 0 then empty
  else ofSsaName destination

/-- The register names that raw branch-condition text spells. -/
def specialRegistersInRawExpression (expression : String) : GuestStateMask :=
  let mentions := fun text : String =>
    containsText expression.toList text.toList
  { empty with
    cr := if mentions "ctx->cr" || mentions "GetCRBit(ctx" then 0xFF else 0
    xer := mentions "ctx->xer"
    ctr := mentions "ctx->ctr"
    lr := mentions "ctx->lr"
    fpscr := mentions "ctx->fpscr"
    hid := (if mentions "ctx->hid0" then 1 else 0) |||
      (if mentions "ctx->hid1" then 2 else 0) |||
      (if mentions "ctx->hid2" then 4 else 0) }

/-- The quantization register whose number is an argument. -/
def argumentGqr (arguments : List IrValue) (index : ℕ) : GuestStateMask :=
  { empty with
    gqr :=
      match GuestHelperEffectCatalog.constantArgument arguments index with
      | some i => 1#8 <<< (i &&& 7).toNatClampNeg
      | none => 0xFF }

/-- The quantization register that a paired-single helper reads from the
context; the forms with a known value do so only to check it. -/
def psqReads (target : String) (arguments : List IrValue) : GuestStateMask :=
  let named := fun pre : String =>
    startsWithIgnoreCase target.toList pre.toList
  if named "PPC_PsqLKnown_" || named "PPC_PsqStKnown_" then empty
  else if named "PPC_PsqL" then argumentGqr arguments 2
  else if named "PPC_PsqSt" then argumentGqr arguments 3
  else empty

/-- What an instruction reads beside its operands: the registers that a raw
branch condition names, and the context state behind a helper.  The FPSCR and
HID state of helpers is left out. -/
def hiddenReads : IrInstruction → GuestStateMask
  | .branch _ _ _ conditionRegister =>
      specialRegistersInRawExpression conditionRegister
  | .call _ target arguments =>
      if (tryParseAddress target).isSome then empty
      else
        (GuestHelperEffectCatalog.analyze target arguments).reads.union
          (psqReads target arguments)
  | _ => empty

/-- The registers read and written by one execution of an instruction; the flag
tells whether control comes back from a call. -/
inductive Footprint (runs : CalleeRuns) :
    IrInstruction → Bool → GuestStateMask → GuestStateMask → Prop
  | plain {i : IrInstruction} (h : isPlain i = true) :
      Footprint runs i true (namesMask i.uses) (namesMask i.definitions)
  | guestCall {destination target : String} {arguments : List IrValue}
      {address : UInt32} {finished : Bool} {reads writes : GuestStateMask}
      (haddress : tryParseAddress target = some address)
      (hrun : runs address finished reads writes) :
      Footprint runs (.call destination target arguments) finished
        (reads.except (linkMask destination))
        (writes.union (ofSsaName destination))
  | helperCall {destination target : String} {arguments : List IrValue}
      {writes : GuestStateMask} (haddress : tryParseAddress target = none)
      (hwrites : writes ≤ (GuestHelperEffectCatalog.analyze target arguments).writes) :
      Footprint runs (.call destination target arguments) true
        ((namesMask (IrInstruction.call destination target arguments).uses).union
          (hiddenReads (.call destination target arguments)))
        (writes.union (helperDestination destination
          (GuestHelperEffectCatalog.analyze target arguments)))
  | indirectCall (destination : String) (target : IrValue)
      (arguments : List IrValue) :
      -- The dispatcher takes the complete context and gives it back.
      Footprint runs (.indirectCall destination target arguments) true
        fullState fullState
  | indirectJump (target : IrValue) :
      Footprint runs (.indirectJump target) true fullState empty
  | branch (condition trueLabel falseLabel conditionRegister : String) :
      Footprint runs (.branch condition trueLabel falseLabel conditionRegister)
        true
        ((ofSsaName conditionRegister).union
          (hiddenReads (.branch condition trueLabel falseLabel conditionRegister)))
        empty
  | setCrField (fieldIndex : Int32) (left right : IrValue) (isUnsigned : Bool) :
      Footprint runs (.setCrField fieldIndex left right isUnsigned) true
        (namesMask (IrInstruction.setCrField fieldIndex left right isUnsigned).uses)
        (crFieldMask fieldIndex)

/-- A position in a function and the registers written so far. -/
structure Config where
  block : ℕ
  remaining : List IrInstruction
  written : GuestStateMask

inductive Step (function : IrFunction) (runs : CalleeRuns) :
    Config → Config → Prop
  | instruction {block : ℕ} {i : IrInstruction} {rest : List IrInstruction}
      {written reads writes : GuestStateMask}
      (htransfers : i.transfers = false) (hstops : i.stops = false)
      (hfootprint : Footprint runs i true reads writes) :
      Step function runs ⟨block, i :: rest, written⟩
        ⟨block, rest, written.union writes⟩
  | transfer {block next : ℕ} {i : IrInstruction} {rest : List IrInstruction}
      {written : GuestStateMask} {label : String}
      (hlabel : label ∈ i.targets) (hnext : function.ordinal label = some next) :
      Step function runs ⟨block, i :: rest, written⟩
        ⟨next, (function.blockAt next).instructions, written⟩
  | continue {block : ℕ} {written : GuestStateMask}
      (hnext : block + 1 < function.blocks.length) :
      Step function runs ⟨block, [], written⟩
        ⟨block + 1, (function.blockAt (block + 1)).instructions, written⟩

/-- The configurations of all executions from a start whose steps are all
allowed. -/
inductive Steps (function : IrFunction) (runs : CalleeRuns)
    (allowed : Config → Config → Prop) (start : Config) : Config → Prop
  | refl : Steps function runs allowed start start
  | tail {c d : Config} (hc : Steps function runs allowed start c)
      (hstep : Step function runs c d) (hallowed : allowed c d) :
      Steps function runs allowed start d

def anyStep (_ _ : Config) : Prop := True

/-- The start of an execution at the entry block. -/
def entryConfig (function : IrFunction) (entry : ℕ) : Config :=
  ⟨entry, (function.blockAt entry).instructions, empty⟩

/-- The configurations of all executions from the entry with allowed steps. -/
def Reachable (function : IrFunction) (runs : CalleeRuns)
    (allowed : Config → Config → Prop) (c : Config) : Prop :=
  ∃ entry, function.ordinal function.entryLabel = some entry ∧
    Steps function runs allowed (entryConfig function entry) c

/-- What every allowed step preserves holds along all executions. -/
theorem Steps.invariant
    {function : IrFunction} {runs : CalleeRuns}
    {allowed : Config → Config → Prop} {P : Config → Prop}
    (hstep : ∀ c d, P c → Step function runs c d → allowed c d → P d)
    {start c : Config} (hstart : P start)
    (h : Steps function runs allowed start c) : P c := by
  induction h with
  | refl => exact hstart
  | tail _ hcd hallowed ih => exact hstep _ _ ih hcd hallowed

end Wiicompiled.Analysis
