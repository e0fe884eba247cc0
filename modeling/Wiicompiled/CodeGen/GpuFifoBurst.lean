import Wiicompiled.CodeGen.EmittedRegisters
import Wiicompiled.Ir.ControlFlow
import Wiicompiled.Support.DeferredWrites
import Mathlib.Data.BitVec

/-!
# Bursts of stores to the gather pipe

The planner looks for stores whose address is known to lie in the gather pipe.  A run of
at least four of them, with nothing but register and flag computation in between, is
written into a buffer field by field and pushed by one call behind its last store.
-/

namespace Wiicompiled.CodeGen.CxxLinearCodeGenerator

open Ir

/-! ## Classification -/

def MinimumGpuFifoBurstStores : ℕ := 4

structure GpuFifoStoreInfo where
  IsFloat : Bool
  ByteLength : ℕ
deriving DecidableEq

/-- The lookup of the emitter's map of constants. -/
abbrev KnownConstants := String → Option UInt32

def TryGetKnownEffectiveAddress (address : IrAddress) (knownConstants : KnownConstants) :
    Option UInt32 :=
  (knownConstants address.base).map fun baseAddress => baseAddress + address.offset.toUInt32

def IsGpuFifoAddress (address : UInt32) : Bool :=
  0xCC008000 ≤ address && address < 0xCC008100

/-- A store that the emitter can turn into a direct write to the gather pipe. -/
def TryGetKnownGpuFifoStore (address : IrAddress) (sizeBytes : Int32) (isFloatStore : Bool)
    (knownConstants : KnownConstants) : Option GpuFifoStoreInfo :=
  match TryGetKnownEffectiveAddress address knownConstants with
  | none => none
  | some effective =>
      if !IsGpuFifoAddress effective then none
      else if isFloatStore then
        if sizeBytes ≠ 4 then none else some ⟨true, 4⟩
      else if sizeBytes = 1 then some ⟨false, 1⟩
      else if sizeBytes = 2 then some ⟨false, 2⟩
      else if sizeBytes = 4 then some ⟨false, 4⟩
      else none

def isFloatSource (source : IrValue) : Bool :=
  source.kind = "register" && source.registerName.any isFloatRegister

def TryClassifyKnownGpuFifoStore (instruction : IrInstruction)
    (knownConstants : KnownConstants) : Option GpuFifoStoreInfo :=
  match instruction with
  | .store address source sizeBytes =>
      TryGetKnownGpuFifoStore address sizeBytes (isFloatSource source) knownConstants
  | _ => none

def IsGpuFifoBurstTransparent : IrInstruction → Bool
  | .assign .. | .binary .. | .comment .. | .tracePpc .. | .phi .. | .setCrField .. => true
  | _ => false

/-! ## The plan -/

structure GpuFifoBurstRun where
  BufferName : String
  TotalBytes : ℕ
deriving DecidableEq

structure GpuFifoBurstSlot where
  Run : GpuFifoBurstRun
  ByteOffset : ℕ
  Store : GpuFifoStoreInfo
deriving DecidableEq

/-- A store of a run and its index. -/
abbrev Member := ℕ × GpuFifoStoreInfo

/-- The inner loop from an index on: the members it adds and the number of instructions
it passes. -/
def scanRun (knownConstants : KnownConstants) : List IrInstruction → ℕ → List Member × ℕ
  | [], _ => ([], 0)
  | instruction :: rest, scan =>
      match TryClassifyKnownGpuFifoStore instruction knownConstants with
      | some store =>
          ((scan, store) :: (scanRun knownConstants rest (scan + 1)).1,
            (scanRun knownConstants rest (scan + 1)).2 + 1)
      | none =>
          if IsGpuFifoBurstTransparent instruction then
            ((scanRun knownConstants rest (scan + 1)).1,
              (scanRun knownConstants rest (scan + 1)).2 + 1)
          else ([], 0)

def totalBytes (members : List Member) : ℕ :=
  (members.map fun member => member.2.ByteLength).sum

def runSlots (run : GpuFifoBurstRun) : ℕ → List Member → List (ℕ × GpuFifoBurstSlot)
  | _, [] => []
  | offset, (index, store) :: members =>
      (index, ⟨run, offset, store⟩) :: runSlots run (offset + store.ByteLength) members

structure BlockPlan where
  slots : List (ℕ × GpuFifoBurstSlot)
  completions : List (ℕ × GpuFifoBurstRun)
  runs : List GpuFifoBurstRun

def burstRun (number : ℕ) (members : List Member) : GpuFifoBurstRun :=
  ⟨"mkw_fifo_burst_" ++ toString number, totalBytes members⟩

def BlockPlan.addRun (run : GpuFifoBurstRun) (members : List Member) (rest : BlockPlan) :
    BlockPlan where
  slots := runSlots run 0 members ++ rest.slots
  completions :=
    match members.getLast? with
    | some last => (last.1, run) :: rest.completions
    | none => rest.completions
  runs := run :: rest.runs

/-- The loop over a block from an index on; `skip` instructions have been passed by the
inner loop already. -/
def planBlock (knownConstants : KnownConstants) :
    List IrInstruction → ℕ → (skip count : ℕ) → BlockPlan
  | [], _, _, _ => ⟨[], [], []⟩
  | _ :: rest, index, skip + 1, count => planBlock knownConstants rest (index + 1) skip count
  | instruction :: rest, index, 0, count =>
      match TryClassifyKnownGpuFifoStore instruction knownConstants with
      | none => planBlock knownConstants rest (index + 1) 0 count
      | some firstStore =>
          if MinimumGpuFifoBurstStores ≤
              ((index, firstStore) :: (scanRun knownConstants rest (index + 1)).1).length then
            BlockPlan.addRun
              (burstRun count ((index, firstStore) :: (scanRun knownConstants rest (index + 1)).1))
              ((index, firstStore) :: (scanRun knownConstants rest (index + 1)).1)
              (planBlock knownConstants rest (index + 1)
                (scanRun knownConstants rest (index + 1)).2 (count + 1))
          else
            planBlock knownConstants rest (index + 1)
              (scanRun knownConstants rest (index + 1)).2 count

/-- The dictionaries of the plan, with the latest entries first. -/
structure GpuFifoBurstPlan where
  slots : List ((String × ℕ) × GpuFifoBurstSlot)
  completions : List ((String × ℕ) × GpuFifoBurstRun)
  Runs : List GpuFifoBurstRun

namespace GpuFifoBurstPlan

def Empty : GpuFifoBurstPlan :=
  ⟨[], [], []⟩

def Slot (plan : GpuFifoBurstPlan) (block : String) (index : ℕ) : Option GpuFifoBurstSlot :=
  plan.slots.lookup (block, index)

def Completion (plan : GpuFifoBurstPlan) (block : String) (index : ℕ) :
    Option GpuFifoBurstRun :=
  plan.completions.lookup (block, index)

def addBlock (plan : GpuFifoBurstPlan) (label : String) (blockPlan : BlockPlan) :
    GpuFifoBurstPlan where
  slots := blockPlan.slots.map (fun entry => ((label, entry.1), entry.2)) ++ plan.slots
  completions :=
    blockPlan.completions.map (fun entry => ((label, entry.1), entry.2)) ++ plan.completions
  Runs := plan.Runs ++ blockPlan.runs

end GpuFifoBurstPlan

def BuildGpuFifoBurstPlan (function : IrFunction) (knownConstants : KnownConstants)
    (enabled : Bool) : GpuFifoBurstPlan :=
  if !enabled then GpuFifoBurstPlan.Empty
  else
    function.blocks.foldl
      (fun plan block =>
        plan.addBlock block.label
          (planBlock knownConstants block.instructions 0 0 plan.Runs.length))
      GpuFifoBurstPlan.Empty

/-! ## The emitted statements -/

/-- The statements for a block, with the position of the instruction they are for: what an
expression prints as depends on it. -/
inductive Statement where
  /-- `GX_HLE_FIFO_Write8`, `16`, `32` or `Float` -/
  | fifoWrite (store : GpuFifoStoreInfo) (position : ℕ) (source : IrValue)
  /-- the bytes of a store put into a buffer -/
  | slotStore (slot : GpuFifoBurstSlot) (position : ℕ) (source : IrValue)
  /-- `GX_HLE_FIFO_WriteBurst` -/
  | writeBurst (run : GpuFifoBurstRun)
  | other (position : ℕ) (instruction : IrInstruction)

/-- `EmitInstruction` with the active slot. -/
def emitInstruction (knownConstants : KnownConstants) (slot : Option GpuFifoBurstSlot)
    (position : ℕ) (instruction : IrInstruction) : Statement :=
  match instruction, TryClassifyKnownGpuFifoStore instruction knownConstants with
  | .store _ source _, some store =>
      match slot with
      | some slot => .slotStore slot position source
      | none => .fifoWrite store position source
  | _, _ => .other position instruction

def emitFrom (knownConstants : KnownConstants) (slotAt : ℕ → Option GpuFifoBurstSlot)
    (completionAt : ℕ → Option GpuFifoBurstRun) : List IrInstruction → ℕ → List Statement
  | [], _ => []
  | instruction :: rest, position =>
      emitInstruction knownConstants (slotAt position) position instruction ::
        ((completionAt position).toList.map Statement.writeBurst ++
          emitFrom knownConstants slotAt completionAt rest (position + 1))

def emitBlock (knownConstants : KnownConstants) (plan : GpuFifoBurstPlan) (block : IrBasicBlock) :
    List Statement :=
  emitFrom knownConstants (plan.Slot block.label) (plan.Completion block.label)
    block.instructions 0

/-! ## Execution -/

/-- What the statements mean: register state `ρ`, and outside it memory and devices `ω`.
Assignments, operators and flags are printed on context registers and local variables
only. -/
structure Meaning (ρ ω : Type) where
  /-- an integer expression -/
  integer : ℕ → IrValue → ρ → ℤ
  /-- the bits of an expression cast to a single -/
  single : ℕ → IrValue → ρ → BitVec 32
  /-- what the outside does with one byte pushed to the FIFO -/
  push : UInt8 → ω → ω
  compute : ℕ → IrInstruction → ρ → ρ
  execute : ℕ → IrInstruction → ρ × ω → ρ × ω

/-- The machine, with the local buffers. -/
structure Machine (ρ ω : Type) where
  registers : ρ
  outside : ω
  buffers : String → ℕ → UInt8

def byteAbove (word : BitVec 32) (shift : ℕ) : UInt8 :=
  ⟨(word >>> shift).setWidth 8⟩

/-- The low bytes of a word, the highest of them first. -/
def bigEndianBytes (word : BitVec 32) (count : ℕ) : List UInt8 :=
  (List.range count).map fun byteIndex => byteAbove word ((count - 1 - byteIndex) * 8)

section Execution

variable {ρ ω : Type} (meaning : Meaning ρ ω)

/-- The bytes that the direct call for a store pushes: its argument is cast to the width of
the store. -/
def pushedBytes (store : GpuFifoStoreInfo) (position : ℕ) (source : IrValue) (registers : ρ) :
    List UInt8 :=
  if store.IsFloat then bigEndianBytes (meaning.single position source registers) 4
  else
    bigEndianBytes
      ((BitVec.ofInt (8 * store.ByteLength)
        (meaning.integer position source registers)).setWidth 32)
      store.ByteLength

/-- The bytes that `EmitGpuFifoBurstSlotStore` computes. -/
def slotBytes (store : GpuFifoStoreInfo) (position : ℕ) (source : IrValue) (registers : ρ) :
    List UInt8 :=
  if !store.IsFloat && store.ByteLength = 1 then
    [⟨BitVec.ofInt 8 (meaning.integer position source registers)⟩]
  else if store.IsFloat then
    bigEndianBytes (meaning.single position source registers) store.ByteLength
  else
    bigEndianBytes (BitVec.ofInt 32 (meaning.integer position source registers))
      store.ByteLength

def putBytes (buffer : ℕ → UInt8) (offset : ℕ) (bytes : List UInt8) : ℕ → UInt8 := fun place =>
  if offset ≤ place then bytes.getD (place - offset) (buffer place) else buffer place

def takeBytes (buffer : ℕ → UInt8) (count : ℕ) : List UInt8 :=
  (List.range count).map buffer

def runStatement (machine : Machine ρ ω) : Statement → Machine ρ ω
  | .fifoWrite store position source =>
      { machine with
        outside := DeferredWrites.pushAll meaning.push
          (pushedBytes meaning store position source machine.registers) machine.outside }
  | .slotStore slot position source =>
      { machine with
        buffers := Function.update machine.buffers slot.Run.BufferName
          (putBytes (machine.buffers slot.Run.BufferName) slot.ByteOffset
            (slotBytes meaning slot.Store position source machine.registers)) }
  | .writeBurst run =>
      { machine with
        outside := DeferredWrites.pushAll meaning.push
          (takeBytes (machine.buffers run.BufferName) run.TotalBytes) machine.outside }
  | .other position instruction =>
      if IsGpuFifoBurstTransparent instruction then
        { machine with registers := meaning.compute position instruction machine.registers }
      else
        { machine with
          registers := (meaning.execute position instruction
            (machine.registers, machine.outside)).1
          outside := (meaning.execute position instruction
            (machine.registers, machine.outside)).2 }

def runStatements (statements : List Statement) (machine : Machine ρ ω) : Machine ρ ω :=
  statements.foldl (runStatement meaning) machine

end Execution

end Wiicompiled.CodeGen.CxxLinearCodeGenerator
