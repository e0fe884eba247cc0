import Mathlib.Data.List.Nodup

/-!
# Intermediate representation

The nodes of the translator's intermediate representation, with the fields of
the source records.  C# `int`, `uint` and `long` fields are the fixed-width
types of Lean, and a phi's source dictionary is a list of entries in insertion
order that carries the distinctness of its keys.
-/

namespace Wiicompiled.Ir

/-- An operand: a kind tag with an optional register name and constant. -/
structure IrValue where
  kind : String
  registerName : Option String
  constant : Option Int64
deriving DecidableEq

namespace IrValue

/-- The factory for register operands. -/
def register (name : String) : IrValue :=
  ⟨"register", some name, none⟩

/-- The factory for constant operands. -/
def imm (value : Int64) : IrValue :=
  ⟨"const", none, some value⟩

end IrValue

/-- A base register together with a signed displacement. -/
structure IrAddress where
  base : String
  offset : Int32
deriving DecidableEq

structure IrJumpTableCase where
  targetAddress : UInt32
  targetLabel : String
deriving DecidableEq

/-- The source map of a phi: predecessor label to value name, with distinct
labels, in insertion order. -/
structure PhiSources where
  entries : List (String × String)
  nodup_keys : (entries.map Prod.fst).Nodup
deriving DecidableEq

/-- The instructions of the source, one constructor for each record. -/
inductive IrInstruction where
  | assign (destination : String) (value : IrValue)
  | binary (destination : String) (left right : IrValue) (op : String)
  | load (destination : String) (address : IrAddress) (sizeBytes : Int32)
  | store (address : IrAddress) (source : IrValue) (sizeBytes : Int32)
  | resolveGuestMemoryRange (destination : String) (base : IrValue)
      (minOffset length : Int32) (needsReadAccess needsWriteAccess : Bool)
  | resolvedLoad (destination range : String) (originalAddress : IrAddress)
      (rangeOffset sizeBytes : Int32)
  | resolvedStore (range : String) (originalAddress : IrAddress)
      (rangeOffset : Int32) (source : IrValue) (sizeBytes : Int32)
  | resolvedPsqLoad (destination range : String) (originalAddress : IrValue)
      (rangeOffset : Int32) (w i : UInt32) (knownGqr : Option UInt32)
      (guardKnownGqr : Bool)
  | resolvedPsqStore (range : String) (originalAddress : IrValue)
      (rangeOffset : Int32) (source : IrValue) (w i : UInt32)
      (knownGqr : Option UInt32) (guardKnownGqr : Bool)
  | resolvedLoadPair (firstDestination secondDestination range : String)
      (firstOriginalAddress secondOriginalAddress : IrAddress)
      (rangeOffset elementSizeBytes : Int32) (descending : Bool)
  | resolvedStorePair (range : String)
      (firstOriginalAddress secondOriginalAddress : IrAddress)
      (rangeOffset : Int32) (firstSource secondSource : IrValue)
      (elementSizeBytes : Int32) (descending : Bool)
  | call (destination target : String) (arguments : List IrValue)
  | indirectCall (destination : String) (target : IrValue)
      (arguments : List IrValue)
  | setCrField (fieldIndex : Int32) (left right : IrValue) (isUnsigned : Bool)
  | phi (destination : String) (sources : PhiSources)
  | branch (condition trueLabel falseLabel conditionRegister : String)
  | jump (targetLabel : String)
  | indirectJump (target : IrValue)
  | jumpTable (selector : String) (cases : List IrJumpTableCase)
  | ret (value : Option IrValue)
  | comment (text : String)
  | tracePpc (address : UInt32) (disassembly rawHex : String)
  | undefined (address rawInstruction : UInt32) (disassembly : String)
      (reason : Option String)
deriving DecidableEq

structure IrBasicBlock where
  label : String
  instructions : List IrInstruction
deriving DecidableEq

structure IrFunction where
  name : String
  entryLabel : String
  blocks : List IrBasicBlock
deriving DecidableEq

end Wiicompiled.Ir
