import Wiicompiled.Analysis.GuestHelperEffectCatalog
import Wiicompiled.CodeGen.AddressConstants

/-!
# Hoisted quantization registers

The emitter keeps the quantization registers that generic paired-single helpers read in
local variables of the emitted function.  They are loaded once in the prologue, and again
behind every instruction that the emitter takes for a writer.  A call that may come back
through the link register is followed by a dispatch to the local continuations.
-/

namespace Wiicompiled.CodeGen.CxxLinearCodeGenerator

open Ir Analysis Translation
open GqrConstantPropagation (WriteMasks gqrKey callWriteMask)

/-! ## The plan -/

/-- The register and the address argument of a paired-single helper in generic form. -/
def TryGetGenericGqrPsqSite (target : String) (arguments : List IrValue) :
    Option (ℕ × IrValue) :=
  let isLoad := equalsIgnoreCase target.toList "PPC_PsqL".toList ||
    startsWithIgnoreCase target.toList "PPC_PsqLKnownGuarded_".toList
  let isStore := equalsIgnoreCase target.toList "PPC_PsqSt".toList ||
    startsWithIgnoreCase target.toList "PPC_PsqStKnownGuarded_".toList
  let constant := GuestHelperEffectCatalog.constantArgument arguments
  if !isLoad && !isStore then none
  else if constant (if isLoad then 1 else 2) = some 0 ∨
      constant (if isLoad then 1 else 2) = some 1 then
    match constant (if isLoad then 2 else 3), arguments with
    | some index, address :: _ =>
        if 0 ≤ index ∧ index ≤ 7 then some (index.toInt.toNat, address) else none
    | _, _ => none
  else none

/-- The registers that generic helpers read.  Helpers on the stack do not take part. -/
def CollectHoistableGqrIndices (function : IrFunction) (isStackAddress : IrValue → Bool)
    (enabled : Bool) : List ℕ :=
  if enabled then
    ((function.blocks.flatMap IrBasicBlock.instructions).filterMap fun instruction =>
      match instruction with
      | .call _ target arguments =>
          (TryGetGenericGqrPsqSite target arguments).bind fun site =>
            if isStackAddress site.2 then none else some site.1
      | _ => none).dedup
  else []

/-- A helper that can leave a hoisted register stale.  The generic writer reaches the
registers through the numbers 912 to 919. -/
def HelperCallCanWriteGqrs (target : String) (arguments : List IrValue) : Bool :=
  if equalsIgnoreCase target.toList "PPC_WriteSpr".toList then
    match GuestHelperEffectCatalog.constantArgument arguments 0 with
    | some spr => 912 ≤ spr && spr ≤ 919
    | none => true
  else
    (GuestHelperEffectCatalog.analyze target arguments).boundaryFlags &&&
      (GuestCallBoundaryFlags.requiresCompleteContext ||| GuestCallBoundaryFlags.canSuspend |||
        GuestCallBoundaryFlags.canSwitchThreads |||
          GuestCallBoundaryFlags.invokesGuestCode) ≠ 0

/-- The hoisted registers that are loaded again behind an instruction. -/
def EmitHoistedGqrReloads (hoisted : List ℕ) (masks : WriteMasks) :
    IrInstruction → List ℕ
  | .assign destination _ | .phi destination _ =>
      hoisted.filter fun n => gqrKey (folded destination) = some n
  | .call _ target arguments =>
      match tryParseAddressOrDecimal target with
      | some _ => hoisted.filter fun n => (callWriteMask target masks).getLsbD n
      | none => if HelperCallCanWriteGqrs target arguments then hoisted else []
  | .indirectCall .. => hoisted
  | _ => []

/-! ## Calls that come back through the link register -/

/-- The hoisted registers, the call targets with which the emitter was called, and the
instructions that another plan has suppressed. -/
structure Emission where
  hoisted : List ℕ
  hoisted_lt : ∀ n ∈ hoisted, n < 8
  gqrCalleeWriteMasks : WriteMasks
  nonReturningCallTargets : List UInt32
  lrContinuationCallTargets : List UInt32
  suppressed : ℕ → ℕ → Bool

/-- The link register that the instruction before a call has assigned. -/
def TryGetLocalFallthroughLr (instructions : List IrInstruction) (index : ℕ) :
    Option UInt32 :=
  match (if index = 0 then none else instructions[index - 1]?), instructions[index]? with
  | some (.assign destination value), some (.call ..) =>
      if value.kind = "const" ∧
          equalsIgnoreCase (registerBaseSpan destination.toList) "lr".toList then
        value.constant.map GqrConstantPropagation.truncate
      else none
  | _, _ => none

/-- A call behind which the emitter dispatches on the link register. -/
def resumesThroughLinkRegister (emission : Emission) (instructions : List IrInstruction)
    (index : ℕ) : Bool :=
  match instructions[index]? with
  | some (.call _ target _) =>
      match tryParseAddress target with
      | some address =>
          emission.nonReturningCallTargets.contains address ||
            (emission.lrContinuationCallTargets.contains address &&
              (TryGetLocalFallthroughLr instructions index).isSome)
      | none => false
  | _ => false

/-- A call for which trace points get labels of their own. -/
def needsContinuationLabels (emission : Emission) : IrInstruction → Bool
  | .call _ target _ =>
      match tryParseAddress target with
      | some address => emission.nonReturningCallTargets.contains address ||
          emission.lrContinuationCallTargets.contains address
      | none => false
  | _ => false

/-- The labels of the emitted body that are addresses, with their positions: those of blocks
and, where calls need them, those of trace points. -/
def localContinuations (function : IrFunction) (emission : Emission) :
    List (UInt32 × ℕ × ℕ) :=
  let blocks := function.blocks.zipIdx.filterMap fun block =>
    (tryParseAddress block.1.label).map fun address => (address, block.2, 0)
  let traces := function.blocks.zipIdx.flatMap fun block =>
    block.1.instructions.zipIdx.filterMap fun instruction =>
      match instruction.1 with
      | .tracePpc address _ _ => some (address, block.2, instruction.2)
      | _ => none
  if (function.blocks.flatMap IrBasicBlock.instructions).any
      (needsContinuationLabels emission) then
    blocks ++ traces.filter fun trace => !(blocks.map Prod.fst).contains trace.1
  else blocks

/-! ## Executions -/

/-- The quantization registers of the context and their local copies `mkw_gqrN`. -/
structure GqrMachine where
  context : ℕ → UInt32
  copies : ℕ → UInt32

/-- The names that the statement for an instruction assigns.  A guest call leaves its
results in the context. -/
def assignedNames : IrInstruction → List String
  | .call destination target _ =>
      if (tryParseAddressOrDecimal target).isSome then []
      else if isNullOrWhiteSpace destination then [] else [destination]
  | instruction => emittedWrites instruction

/-- What the callee or the helper of an instruction may write beside the destination.
Callees keep to their masks. -/
def calleeMayWriteGqr (masks : WriteMasks) : IrInstruction → ℕ → Bool
  | .call _ target arguments, n =>
      match tryParseAddressOrDecimal target with
      | some _ => (callWriteMask target masks).getLsbD n
      | none =>
          if equalsIgnoreCase target.toList "PPC_WriteSpr".toList then
            match GuestHelperEffectCatalog.constantArgument arguments 0 with
            | some spr => spr.toInt = 912 + n
            | none => true
          else HelperCallCanWriteGqrs target arguments
  | .indirectCall .., _ => true
  | _, _ => false

def mayWriteGqr (masks : WriteMasks) (instruction : IrInstruction) (n : ℕ) : Prop :=
  (∃ name ∈ assignedNames instruction, gqrKey (folded name) = some n) ∨
    calleeMayWriteGqr masks instruction n = true

/-- A position of the emitted body, before the instruction with a given index. -/
structure GqrConfig where
  block : ℕ
  index : ℕ
  machine : GqrMachine

def loadCopies (reloaded : List ℕ) (copies context : ℕ → UInt32) : ℕ → UInt32 :=
  fun n => if n ∈ reloaded then context n else copies n

/-- The prologue loads the copies from the context. -/
def enterHoisted (emission : Emission) (entry : ℕ) (context : ℕ → UInt32) : GqrConfig :=
  ⟨entry, 0, context, loadCopies emission.hoisted (fun _ => 0) context⟩

/-- One step of the emitted body, and whether it goes on at another continuation. -/
inductive GqrStep (function : IrFunction) (emission : Emission) :
    Bool → GqrConfig → GqrConfig → Prop
  | suppressed {block index : ℕ} {m : GqrMachine}
      (hsuppressed : emission.suppressed block index = true) :
      GqrStep function emission false ⟨block, index, m⟩ ⟨block, index + 1, m⟩
  | instruction {block index : ℕ} {i : IrInstruction} {m : GqrMachine}
      {context : ℕ → UInt32}
      (hi : (function.blockAt block).instructions[index]? = some i)
      (hsuppressed : emission.suppressed block index = false)
      (hframe : ∀ n, ¬ mayWriteGqr emission.gqrCalleeWriteMasks i n →
        context n = m.context n) :
      GqrStep function emission false ⟨block, index, m⟩
        ⟨block, index + 1, context,
          loadCopies (EmitHoistedGqrReloads emission.hoisted emission.gqrCalleeWriteMasks i)
            m.copies context⟩
  | resume {block index nextBlock nextIndex : ℕ} {i : IrInstruction} {m : GqrMachine}
      {context : ℕ → UInt32} {lr : UInt32}
      (hi : (function.blockAt block).instructions[index]? = some i)
      (hsuppressed : emission.suppressed block index = false)
      (hresumes : resumesThroughLinkRegister emission
        (function.blockAt block).instructions index = true)
      (hlr : TryGetLocalFallthroughLr (function.blockAt block).instructions index ≠ some lr)
      (hcontinuation : (lr, nextBlock, nextIndex) ∈ localContinuations function emission)
      (hframe : ∀ n, ¬ mayWriteGqr emission.gqrCalleeWriteMasks i n →
        context n = m.context n) :
      -- The dispatch stands before the loads behind the call.
      GqrStep function emission true ⟨block, index, m⟩
        ⟨nextBlock, nextIndex, context, m.copies⟩
  | transfer {block index next : ℕ} {i : IrInstruction} {m : GqrMachine} {label : String}
      (hi : (function.blockAt block).instructions[index]? = some i)
      (hlabel : label ∈ i.targets) (hnext : IrCfg.ordinal function label = some next) :
      GqrStep function emission false ⟨block, index, m⟩ ⟨next, 0, m⟩
  | continue {block index : ℕ} {m : GqrMachine}
      (hend : (function.blockAt block).instructions.length ≤ index)
      (hnext : block + 1 < function.blocks.length) :
      GqrStep function emission false ⟨block, index, m⟩ ⟨block + 1, 0, m⟩

/-- The register that a paired-single access in generic form reads. -/
def genericAccessIndex : IrInstruction → Option ℕ
  | .call _ target arguments => (TryGetGenericGqrPsqSite target arguments).map Prod.fst
  | _ => none

end Wiicompiled.CodeGen.CxxLinearCodeGenerator
