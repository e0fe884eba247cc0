import Mathlib.Data.List.Lex
import Mathlib.Data.List.Sort
import Wiicompiled.Ir.RegisterNames
import Wiicompiled.Support.BinaryCodec

/-!
# The canonical IR codec

The binary format in which the canonical IR store keeps front-end SSA: a magic,
a version, a table of distinct strings, and then the function with one opcode
byte for each instruction and string-table indices for every name.  Counts and
indices are base-128 varints, signed fields are zigzag-coded varints, and
addresses and constants are little-endian words.
-/

namespace Wiicompiled.CanonicalIrBinaryCodec

open BinaryCodec Ir

/-- The exceptions of the codec, with the messages of the source. -/
inductive CodecError where
  | invalidData (message : String)
  | endOfStream
  | keyNotFound (key : String)
  | nullValue
  | duplicateKey (key : String)
deriving DecidableEq

/-- The bytes of `MKWSSA01`. -/
def magic : List UInt8 :=
  [0x4D, 0x4B, 0x57, 0x53, 0x53, 0x41, 0x30, 0x31]

def formatVersion : UInt32 := 1

/-! ## Strings as bytes -/

def getBytes (value : String) : List UInt8 :=
  value.toByteArray.data.toList

/-- The number of bytes a lead byte announces; zero for an invalid lead. -/
def sequenceLength (lead : UInt8) : ℕ :=
  if lead < 0x80 then 1
  else if 0xC2 ≤ lead ∧ lead ≤ 0xDF then 2
  else if 0xE0 ≤ lead ∧ lead ≤ 0xEF then 3
  else if 0xF0 ≤ lead ∧ lead ≤ 0xF4 then 4
  else 0

/-- Whether `b` may follow `lead` as second byte. -/
def validSecond (lead b : UInt8) : Bool :=
  let lo : UInt8 := if lead = 0xE0 then 0xA0 else if lead = 0xF0 then 0x90 else 0x80
  let hi : UInt8 := if lead = 0xED then 0x9F else if lead = 0xF4 then 0x8F else 0xBF
  lo ≤ b && b ≤ hi

/-- Length of the maximal prefix of `bytes` that begins a well-formed sequence
announced by its first byte; at least one. -/
def maximalSubpart : List UInt8 → ℕ
  | [] => 0
  | [_] => 1
  | lead :: second :: rest =>
      if 2 ≤ sequenceLength lead ∧ validSecond lead second then
        let isContinuation := fun b : UInt8 => decide (0x80 ≤ b ∧ b ≤ 0xBF)
        2 + ((rest.take (sequenceLength lead - 2)).takeWhile isContinuation).length
      else 1

/-- Decoding with replacement: every maximal ill-formed subpart becomes one
replacement character.  The fuel is the number of bytes. -/
def decodeReplacing : ℕ → List UInt8 → List Char
  | 0, _ => []
  | _, [] => []
  | fuel + 1, lead :: rest =>
      let bytes := lead :: rest
      let n := maximalSubpart bytes
      match String.fromUTF8? ⟨(bytes.take n).toArray⟩ with
      | some s => s.toList ++ decodeReplacing fuel (bytes.drop n)
      | none => Char.ofNat 0xFFFD :: decodeReplacing fuel (bytes.drop n)

/-- `Encoding.UTF8.GetString`: ill-formed input is replaced, not rejected. -/
def getString (bytes : List UInt8) : String :=
  match String.fromUTF8? ⟨bytes.toArray⟩ with
  | some s => s
  | none => String.ofList (decodeReplacing bytes.length bytes)

/-! ## Varints -/

def writeVarUInt (value : UInt32) : ByteWriter CodecError Unit :=
  if value ≥ 0x80 then do
    write [value.toUInt8 ||| 0x80]
    writeVarUInt (value >>> 7)
  else
    write [value.toUInt8]
termination_by value.toNat
decreasing_by
  rename_i h
  have hlarge : 128 ≤ value.toNat := by simpa using UInt32.le_iff_toNat_le.mp h
  have hshift : (value >>> 7).toNat = value.toNat / 128 := by
    simp [Nat.shiftRight_eq_div_pow]
  omega

/-- The loop of `ReadVarUInt` over its remaining shift amounts. -/
def readVarUIntFrom (value : UInt32) :
    List UInt32 → ByteReader CodecError UInt32
  | [] => throw (.invalidData "Canonical SSA varint is too long.")
  | shift :: shifts => do
      let next ← readByte .endOfStream
      let value := value ||| ((next &&& 0x7F).toUInt32 <<< shift)
      if next &&& 0x80 = 0 then pure value
      else readVarUIntFrom value shifts

def readVarUInt : ByteReader CodecError UInt32 :=
  readVarUIntFrom 0 [0, 7, 14, 21, 28]

def writeVarInt (value : Int32) : ByteWriter CodecError Unit :=
  writeVarUInt ((value <<< 1) ^^^ (value >>> 31)).toUInt32

def readVarInt : ByteReader CodecError Int32 := do
  let value ← readVarUInt
  pure ((value >>> 1) ^^^ (0 - (value &&& 1))).toInt32

def writeCount (count : ℕ) : ByteWriter CodecError Unit :=
  writeVarUInt (UInt32.ofNat count)

/-- The largest count that `CheckedCount` lets through. -/
def maxCount : ℕ := 16000000

def readCount : ByteReader CodecError ℕ := do
  let value ← readVarUInt
  if value.toNat ≤ maxCount then pure value.toNat
  else throw (.invalidData "Canonical SSA count is unreasonable.")

/-! ## Fixed-width fields -/

def readFixed (n : ℕ) : ByteReader CodecError ℕ := do
  let bytes ← readAtMost n
  if bytes.length ≠ n then throw .endOfStream
  else pure (ofLeBytes bytes)

def writeUInt32 (value : UInt32) : ByteWriter CodecError Unit :=
  write (leBytes 4 value.toNat)

def readUInt32 : ByteReader CodecError UInt32 := do
  let value ← readFixed 4
  pure (UInt32.ofNat value)

def writeInt64 (value : Int64) : ByteWriter CodecError Unit :=
  write (leBytes 8 value.toUInt64.toNat)

def readInt64 : ByteReader CodecError Int64 := do
  let value ← readFixed 8
  pure (UInt64.ofNat value).toInt64

def writeBool (value : Bool) : ByteWriter CodecError Unit :=
  write [if value then 1 else 0]

def readBool : ByteReader CodecError Bool := do
  let b ← readByte .endOfStream
  pure (b != 0)

def writeString (value : String) : ByteWriter CodecError Unit := do
  writeCount (getBytes value).length
  write (getBytes value)

def readString : ByteReader CodecError String := do
  let length ← readCount
  let bytes ← readAtMost length
  if bytes.length ≠ length then throw .endOfStream
  else pure (getString bytes)

/-! ## The string table -/

/-- The error for an instruction kind that the front end never emits. -/
def notCanonical (typeName : String) : CodecError :=
  .invalidData
    ("Instruction " ++ typeName ++ " is not valid in canonical front-end SSA.")

/-- The class name in that error; empty for the canonical kinds. -/
def loweredTypeName : IrInstruction → String
  | .resolveGuestMemoryRange .. => "IrResolveGuestMemoryRange"
  | .resolvedLoad .. => "IrResolvedLoad"
  | .resolvedStore .. => "IrResolvedStore"
  | .resolvedPsqLoad .. => "IrResolvedPsqLoad"
  | .resolvedPsqStore .. => "IrResolvedPsqStore"
  | .resolvedLoadPair .. => "IrResolvedLoadPair"
  | .resolvedStorePair .. => "IrResolvedStorePair"
  | _ => ""

def valueStrings (value : IrValue) : List String :=
  value.registerName.toList ++
    if value.kind ≠ "register" ∧ value.kind ≠ "const" then [value.kind] else []

/-- `p.Key` order of a phi's sources. -/
def sourceLe (a b : String × String) : Prop :=
  ordinalKey a.1 ≤ ordinalKey b.1

instance : DecidableRel sourceLe :=
  fun a b => inferInstanceAs (Decidable (ordinalKey a.1 ≤ ordinalKey b.1))

def orderedSources (sources : PhiSources) : List (String × String) :=
  sources.entries.insertionSort sourceLe

/-- The strings an instruction adds to the table, in order. -/
def instructionStrings : IrInstruction → Except CodecError (List String)
  | .assign destination value => .ok (destination :: valueStrings value)
  | .binary destination left right op =>
      .ok (destination :: valueStrings left ++ valueStrings right ++ [op])
  | .load destination address _ => .ok [destination, address.base]
  | .store address source _ => .ok (address.base :: valueStrings source)
  | .call destination target arguments =>
      .ok (destination :: target :: arguments.flatMap valueStrings)
  | .indirectCall destination target arguments =>
      .ok (destination :: valueStrings target ++ arguments.flatMap valueStrings)
  | .setCrField _ left right _ => .ok (valueStrings left ++ valueStrings right)
  | .phi destination sources =>
      .ok (destination ::
        (orderedSources sources).flatMap fun pair => [pair.1, pair.2])
  | .branch condition trueLabel falseLabel conditionRegister =>
      .ok [condition, trueLabel, falseLabel, conditionRegister]
  | .jump targetLabel => .ok [targetLabel]
  | .indirectJump target => .ok (valueStrings target)
  | .jumpTable selector cases =>
      .ok (selector :: cases.map IrJumpTableCase.targetLabel)
  | .ret value => .ok (value.toList.flatMap valueStrings)
  | .comment text => .ok [text]
  | .tracePpc _ disassembly rawHex => .ok [disassembly, rawHex]
  | .undefined _ _ disassembly reason => .ok (disassembly :: reason.toList)
  | instruction => .error (notCanonical (loweredTypeName instruction))

def blockStrings (block : IrBasicBlock) : Except CodecError (List String) := do
  let strings ← block.instructions.mapM instructionStrings
  pure (block.label :: strings.flatten)

def addString (table : List String) (value : String) : List String :=
  if value ∈ table then table else table ++ [value]

def buildStringTable (function : IrFunction) :
    Except CodecError (List String) := do
  let strings ← function.blocks.mapM blockStrings
  pure ((function.name :: function.entryLabel :: strings.flatten).foldl
    addString [])

def writeId (strings : List String) (value : String) : ByteWriter CodecError Unit :=
  match strings.idxOf? value with
  | some index => writeCount index
  | none => throw (.keyNotFound value)

def readId (strings : List String) : ByteReader CodecError String := do
  let index ← readVarUInt
  match strings[index.toNat]? with
  | some value => pure value
  | none => throw (.invalidData "Canonical SSA string ID is out of range.")

/-! ## Values and addresses -/

def writeOptional {α : Type} (f : α → ByteWriter CodecError Unit) :
    Option α → ByteWriter CodecError Unit
  | none => writeBool false
  | some value => do
      writeBool true
      f value

def readOptional {α : Type} (p : ByteReader CodecError α) :
    ByteReader CodecError (Option α) := do
  if ← readBool then
    let value ← p
    pure (some value)
  else pure none

def writeValue (strings : List String) (value : IrValue) :
    ByteWriter CodecError Unit :=
  if value.kind = "register" then do
    write [0]
    match value.registerName with
    | some name => writeId strings name
    | none => throw .nullValue
  else if value.kind = "const" then do
    write [1]
    match value.constant with
    | some constant => writeInt64 constant
    | none => throw .nullValue
  else do
    write [2]
    writeId strings value.kind
    writeOptional (writeId strings) value.registerName
    writeOptional writeInt64 value.constant

def readValue (strings : List String) : ByteReader CodecError IrValue := do
  let kind ← readByte .endOfStream
  if kind = 0 then
    let name ← readId strings
    pure (IrValue.register name)
  else if kind = 1 then
    let constant ← readInt64
    pure (IrValue.imm constant)
  else if kind = 2 then
    let kind ← readId strings
    let registerName ← readOptional (readId strings)
    let constant ← readOptional readInt64
    pure ⟨kind, registerName, constant⟩
  else
    throw (.invalidData
      ("Unknown canonical SSA value kind " ++ toString kind.toNat ++ "."))

def writeValues (strings : List String) (values : List IrValue) :
    ByteWriter CodecError Unit := do
  writeCount values.length
  values.forM (writeValue strings)

def readValues (strings : List String) : ByteReader CodecError (List IrValue) := do
  let count ← readCount
  readMany (readValue strings) count

def writeAddress (strings : List String) (address : IrAddress) :
    ByteWriter CodecError Unit := do
  writeId strings address.base
  writeVarInt address.offset

def readAddress (strings : List String) : ByteReader CodecError IrAddress := do
  let base ← readId strings
  let offset ← readVarInt
  pure ⟨base, offset⟩

/-! ## Instructions -/

def writeSource (strings : List String) (pair : String × String) :
    ByteWriter CodecError Unit := do
  writeId strings pair.1
  writeId strings pair.2

def writeCase (strings : List String) (item : IrJumpTableCase) :
    ByteWriter CodecError Unit := do
  writeUInt32 item.targetAddress
  writeId strings item.targetLabel

def readCase (strings : List String) : ByteReader CodecError IrJumpTableCase := do
  let targetAddress ← readUInt32
  let targetLabel ← readId strings
  pure ⟨targetAddress, targetLabel⟩

/-- `Dictionary.Add`: a key that is present already is refused. -/
def addSource (sources : PhiSources) (key value : String) :
    Except CodecError PhiSources :=
  if h : key ∈ sources.entries.map Prod.fst then .error (.duplicateKey key)
  else .ok
    { entries := sources.entries ++ [(key, value)]
      nodup_keys := by
        rw [List.map_append]
        refine sources.nodup_keys.append (List.nodup_singleton _) ?_
        simpa using h }

def readSources (strings : List String) :
    ℕ → PhiSources → ByteReader CodecError PhiSources
  | 0, sources => pure sources
  | count + 1, sources => do
      let key ← readId strings
      let value ← readId strings
      let sources ← liftM (addSource sources key value)
      readSources strings count sources

/-- The opcode byte of each canonical kind, in the order of the source's enum. -/
inductive Op where
  | assign | binary | load | store | call | indirectCall | setCrField | phi
  | branch | jump | indirectJump | jumpTable | ret | comment | tracePpc
  | undefined

def Op.toByte : Op → UInt8
  | .assign => 0
  | .binary => 1
  | .load => 2
  | .store => 3
  | .call => 4
  | .indirectCall => 5
  | .setCrField => 6
  | .phi => 7
  | .branch => 8
  | .jump => 9
  | .indirectJump => 10
  | .jumpTable => 11
  | .ret => 12
  | .comment => 13
  | .tracePpc => 14
  | .undefined => 15

def Op.ofByte? : UInt8 → Option Op
  | 0 => some .assign
  | 1 => some .binary
  | 2 => some .load
  | 3 => some .store
  | 4 => some .call
  | 5 => some .indirectCall
  | 6 => some .setCrField
  | 7 => some .phi
  | 8 => some .branch
  | 9 => some .jump
  | 10 => some .indirectJump
  | 11 => some .jumpTable
  | 12 => some .ret
  | 13 => some .comment
  | 14 => some .tracePpc
  | 15 => some .undefined
  | _ => none

def writeOp (op : Op) : ByteWriter CodecError Unit :=
  write [op.toByte]

def readOp : ByteReader CodecError Op := do
  let b ← readByte .endOfStream
  match Op.ofByte? b with
  | some op => pure op
  | none =>
      throw (.invalidData
        ("Unknown canonical SSA opcode " ++ toString b.toNat ++ "."))

def writeInstruction (strings : List String) :
    IrInstruction → ByteWriter CodecError Unit
  | .assign destination value => do
      writeOp .assign
      writeId strings destination
      writeValue strings value
  | .binary destination left right op => do
      writeOp .binary
      writeId strings destination
      writeValue strings left
      writeValue strings right
      writeId strings op
  | .load destination address sizeBytes => do
      writeOp .load
      writeId strings destination
      writeAddress strings address
      writeVarInt sizeBytes
  | .store address source sizeBytes => do
      writeOp .store
      writeAddress strings address
      writeValue strings source
      writeVarInt sizeBytes
  | .call destination target arguments => do
      writeOp .call
      writeId strings destination
      writeId strings target
      writeValues strings arguments
  | .indirectCall destination target arguments => do
      writeOp .indirectCall
      writeId strings destination
      writeValue strings target
      writeValues strings arguments
  | .setCrField fieldIndex left right isUnsigned => do
      writeOp .setCrField
      writeVarInt fieldIndex
      writeValue strings left
      writeValue strings right
      writeBool isUnsigned
  | .phi destination sources => do
      writeOp .phi
      writeId strings destination
      writeCount (orderedSources sources).length
      (orderedSources sources).forM (writeSource strings)
  | .branch condition trueLabel falseLabel conditionRegister => do
      writeOp .branch
      writeId strings condition
      writeId strings trueLabel
      writeId strings falseLabel
      writeId strings conditionRegister
  | .jump targetLabel => do
      writeOp .jump
      writeId strings targetLabel
  | .indirectJump target => do
      writeOp .indirectJump
      writeValue strings target
  | .jumpTable selector cases => do
      writeOp .jumpTable
      writeId strings selector
      writeCount cases.length
      cases.forM (writeCase strings)
  | .ret value => do
      writeOp .ret
      writeOptional (writeValue strings) value
  | .comment text => do
      writeOp .comment
      writeId strings text
  | .tracePpc address disassembly rawHex => do
      writeOp .tracePpc
      writeUInt32 address
      writeId strings disassembly
      writeId strings rawHex
  | .undefined address rawInstruction disassembly reason => do
      writeOp .undefined
      writeUInt32 address
      writeUInt32 rawInstruction
      writeId strings disassembly
      writeOptional (writeId strings) reason
  | instruction => throw (notCanonical (loweredTypeName instruction))

/-- The fields that follow an opcode. -/
def readFields (strings : List String) :
    Op → ByteReader CodecError IrInstruction
  | .assign => do
      let destination ← readId strings
      let value ← readValue strings
      pure (.assign destination value)
  | .binary => do
      let destination ← readId strings
      let left ← readValue strings
      let right ← readValue strings
      let op ← readId strings
      pure (.binary destination left right op)
  | .load => do
      let destination ← readId strings
      let address ← readAddress strings
      let sizeBytes ← readVarInt
      pure (.load destination address sizeBytes)
  | .store => do
      let address ← readAddress strings
      let source ← readValue strings
      let sizeBytes ← readVarInt
      pure (.store address source sizeBytes)
  | .call => do
      let destination ← readId strings
      let target ← readId strings
      let arguments ← readValues strings
      pure (.call destination target arguments)
  | .indirectCall => do
      let destination ← readId strings
      let target ← readValue strings
      let arguments ← readValues strings
      pure (.indirectCall destination target arguments)
  | .setCrField => do
      let fieldIndex ← readVarInt
      let left ← readValue strings
      let right ← readValue strings
      let isUnsigned ← readBool
      pure (.setCrField fieldIndex left right isUnsigned)
  | .phi => do
      let destination ← readId strings
      let count ← readCount
      let sources ← readSources strings count ⟨[], List.nodup_nil⟩
      pure (.phi destination sources)
  | .branch => do
      let condition ← readId strings
      let trueLabel ← readId strings
      let falseLabel ← readId strings
      let conditionRegister ← readId strings
      pure (.branch condition trueLabel falseLabel conditionRegister)
  | .jump => do
      let targetLabel ← readId strings
      pure (.jump targetLabel)
  | .indirectJump => do
      let target ← readValue strings
      pure (.indirectJump target)
  | .jumpTable => do
      let selector ← readId strings
      let count ← readCount
      let cases ← readMany (readCase strings) count
      pure (.jumpTable selector cases)
  | .ret => do
      let value ← readOptional (readValue strings)
      pure (.ret value)
  | .comment => do
      let text ← readId strings
      pure (.comment text)
  | .tracePpc => do
      let address ← readUInt32
      let disassembly ← readId strings
      let rawHex ← readId strings
      pure (.tracePpc address disassembly rawHex)
  | .undefined => do
      let address ← readUInt32
      let rawInstruction ← readUInt32
      let disassembly ← readId strings
      let reason ← readOptional (readId strings)
      pure (.undefined address rawInstruction disassembly reason)

def readInstruction (strings : List String) :
    ByteReader CodecError IrInstruction := do
  let op ← readOp
  readFields strings op

/-! ## Functions -/

def writeBlock (strings : List String) (block : IrBasicBlock) :
    ByteWriter CodecError Unit := do
  writeId strings block.label
  writeCount block.instructions.length
  block.instructions.forM (writeInstruction strings)

def readBlock (strings : List String) : ByteReader CodecError IrBasicBlock := do
  let label ← readId strings
  let count ← readCount
  let instructions ← readMany (readInstruction strings) count
  pure ⟨label, instructions⟩

def writeFunction (strings : List String) (function : IrFunction) :
    ByteWriter CodecError Unit := do
  write magic
  writeVarUInt formatVersion
  writeCount strings.length
  strings.forM writeString
  writeId strings function.name
  writeId strings function.entryLabel
  writeCount function.blocks.length
  function.blocks.forM (writeBlock strings)

/-- Check the magic and the version. -/
def readHeader : ByteReader CodecError Unit := do
  let unsupported : CodecError :=
    .invalidData "Unsupported canonical SSA function payload."
  let bytes ← readAtMost magic.length
  if bytes ≠ magic then throw unsupported
  else
    let version ← readVarUInt
    if version ≠ formatVersion then throw unsupported
    else pure ()

def readFunction : ByteReader CodecError IrFunction := do
  readHeader
  let stringCount ← readCount
  let strings ← readMany readString stringCount
  let name ← readId strings
  let entryLabel ← readId strings
  let blockCount ← readCount
  let blocks ← readMany (readBlock strings) blockCount
  pure ⟨name, entryLabel, blocks⟩

def encode (function : IrFunction) : Except CodecError (List UInt8) := do
  let strings ← buildStringTable function
  let (_, bytes) ← writeFunction strings function []
  pure bytes

def decode (encoded : List UInt8) : Except CodecError IrFunction :=
  readAll readFunction
    (.invalidData "Canonical SSA function payload has trailing data.") encoded

end Wiicompiled.CanonicalIrBinaryCodec
