import Wiicompiled.Support.ByteImage

/-!
# Kamek files

Parsing a `Code.pul`: one raw chunk, or a table of four sizes and a chunk for each that is
not zero.  A chunk is a header of eight words, a code blob, and commands up to the end of
the chunk.  A failed check and a read behind the end of the array are exceptions.
-/

namespace Wiicompiled.Parsing

open ByteImage

/-! ## Commands -/

inductive KamekCommandId where
  | addr32
  | addr16Lo
  | addr16Hi
  | addr16Ha
  | rel24
  | write32
  | write16
  | write8
  | condWritePointer
  | condWrite32
  | condWrite16
  | condWrite8
  | branch
  | branchLink
deriving DecidableEq

namespace KamekCommandId

def value : KamekCommandId → ℕ
  | addr32 => 1
  | addr16Lo => 4
  | addr16Hi => 5
  | addr16Ha => 6
  | rel24 => 10
  | write32 => 32
  | write16 => 33
  | write8 => 34
  | condWritePointer => 35
  | condWrite32 => 36
  | condWrite16 => 37
  | condWrite8 => 38
  | branch => 64
  | branchLink => 65

def all : List KamekCommandId :=
  [addr32, addr16Lo, addr16Hi, addr16Ha, rel24, write32, write16, write8, condWritePointer,
    condWrite32, condWrite16, condWrite8, branch, branchLink]

def ofValue (rawId : ℕ) : Option KamekCommandId :=
  all.find? fun id => id.value = rawId

end KamekCommandId

structure KamekCommand where
  streamOffset : ℕ
  commandWord : BitVec 32
  id : KamekCommandId
  addressIsAbsolute : Bool
  address : BitVec 32
  arguments : List (BitVec 32)
deriving DecidableEq

/-! ## Chunks -/

structure KamekChunk where
  index : ℕ
  fileOffset : ℕ
  bssSize : BitVec 32
  codeSize : BitVec 32
  ctorStart : BitVec 32
  ctorEnd : BitVec 32
  chunkSize : BitVec 32
  codeBlob : List UInt8
  commands : List KamekCommand
deriving DecidableEq

namespace KamekChunk

def magic0 : BitVec 32 := 0x4B616D65

def magic1V2 : BitVec 32 := 0x6B000002

def magic1 : BitVec 32 := 0x6B000003

def headerSize : ℕ := 0x20

def isSupportedFormatVersion (version : BitVec 32) : Bool :=
  version = magic1V2 || version = magic1

def hasMagic (data : List UInt8) (offset : ℕ) : Bool :=
  decide (offset + 8 ≤ data.length) && readUInt32 data offset = some magic0 &&
    (readUInt32 data (offset + 4)).any isSupportedFormatVersion

def argumentCount : KamekCommandId → ℕ
  | .addr32 => 1
  | .addr16Lo => 1
  | .addr16Hi => 1
  | .addr16Ha => 1
  | .rel24 => 1
  | .write32 => 1
  | .write16 => 1
  | .write8 => 1
  | .condWritePointer => 2
  | .condWrite32 => 2
  | .condWrite16 => 2
  | .condWrite8 => 2
  | .branch => 1
  | .branchLink => 1

/-- Read `count` words. -/
def readWords (data : List UInt8) (position : ℕ) : ℕ → Option (List (BitVec 32))
  | 0 => some []
  | count + 1 => do
      let word ← readUInt32 data position
      let words ← readWords data (position + 4) count
      some (word :: words)

def absoluteAddress : BitVec 32 := 0x00FFFFFE

/-- Read the address of a command: whether it is absolute, the address, and the position
behind it. -/
def readAddress (data : List UInt8) (position : ℕ) (commandWord : BitVec 32) :
    Option (Bool × BitVec 32 × ℕ) :=
  if commandWord &&& 0x00FFFFFF = absoluteAddress then
    (readUInt32 data position).map fun address => (true, address, position + 4)
  else some (false, commandWord &&& 0x00FFFFFF, position)

def readCommand (data : List UInt8) (position : ℕ) : Option (KamekCommand × ℕ) := do
  let commandWord ← readUInt32 data position
  let id ← KamekCommandId.ofValue (commandWord >>> 24).toNat
  let (addressIsAbsolute, address, argsStart) ← readAddress data (position + 4) commandWord
  let args ← readWords data argsStart (argumentCount id)
  some (⟨position, commandWord, id, addressIsAbsolute, address, args⟩,
    argsStart + 4 * argumentCount id)

/-- The commands up to `commandEnd`, where the last of them must end.  Every command is
inside the array, so the number of bytes is fuel enough. -/
def readCommands (data : List UInt8) (commandEnd : ℕ) : ℕ → ℕ → Option (List KamekCommand)
  | 0, _ => none
  | fuel + 1, position =>
      if position < commandEnd then do
        let (command, next) ← readCommand data position
        let commands ← readCommands data commandEnd fuel next
        some (command :: commands)
      else do
        ensure (position = commandEnd)
        some []

def readBytes (data : List UInt8) (position count : ℕ) : Option (List UInt8) :=
  if position + count ≤ data.length then some (window data position count) else none

/-- Parse the chunk at `offset`; an expected size of 0 is none. -/
def parse (data : List UInt8) (offset expectedSize index : ℕ) : Option KamekChunk := do
  ensure (offset + headerSize ≤ data.length)
  let magic0' ← readUInt32 data offset
  let version ← readUInt32 data (offset + 4)
  ensure (magic0' = magic0 ∧ isSupportedFormatVersion version)
  let bssSize ← readUInt32 data (offset + 8)
  let codeSize ← readUInt32 data (offset + 12)
  let ctorStart ← readUInt32 data (offset + 16)
  let ctorEnd ← readUInt32 data (offset + 20)
  let declaredChunkSize ← readUInt32 data (offset + 24)
  let _reserved ← readUInt32 data (offset + 28)
  let chunkSize :=
    if version = magic1V2 then
      BitVec.ofNat 32 (if expectedSize ≠ 0 then expectedSize else data.length - offset)
    else declaredChunkSize
  -- the sum wraps
  ensure (BitVec.ofNat 32 headerSize + codeSize ≤ chunkSize)
  ensure (expectedSize ≠ 0 → chunkSize.toNat = expectedSize)
  ensure (offset + chunkSize.toNat ≤ data.length)
  ensure (ctorStart ≤ codeSize ∧ ctorEnd ≤ codeSize ∧ ctorStart ≤ ctorEnd ∧
    (ctorEnd - ctorStart) % 4 = 0)
  let codeLength ← checkedInt codeSize
  let codeBlob ← readBytes data (offset + headerSize) codeLength
  let chunkLength ← checkedInt chunkSize
  let commands ← readCommands data (offset + chunkLength) (data.length + 1)
    (offset + headerSize + codeLength)
  some ⟨index, offset, bssSize, codeSize, ctorStart, ctorEnd, chunkSize, codeBlob, commands⟩

end KamekChunk

/-! ## Files -/

structure KamekPulFile where
  isCombined : Bool
  combinedChunkSizes : List (BitVec 32)
  chunks : List KamekChunk
deriving DecidableEq

namespace KamekPulFile

open KamekChunk

/-- The chunks of a combined file from `offset` on.  The outer `none` is an exception, the
inner one tells that the file is not a combined one. -/
def parseChunks (data : List UInt8) :
    ℕ → ℕ → List (BitVec 32) → Option (Option (List KamekChunk))
  | _, _, [] => some (some [])
  | offset, i, size :: sizes =>
      if size = 0 then parseChunks data offset (i + 1) sizes
      else if size.toNat < headerSize ∨ data.length < offset + size.toNat ∨
          ¬ hasMagic data offset then some none
      else do
        let chunkLength ← checkedInt size
        let chunk ← KamekChunk.parse data offset chunkLength i
        let chunks ← parseChunks data (offset + chunkLength) (i + 1) sizes
        some (chunks.map fun chunks => chunk :: chunks)

/-- The size table, if the file is long enough and its sizes add up to it. -/
def combinedSizes (data : List UInt8) : Option (List (BitVec 32)) :=
  if data.length < 0x10 + headerSize then none
  else (readWords data 0 4).bind fun sizes =>
    if sizes.all (fun size => size = 0) ∨
        0x10 + (sizes.map BitVec.toNat).sum ≠ data.length then none
    else some sizes

def tryParseCombined (data : List UInt8) : Option (Option KamekPulFile) :=
  match combinedSizes data with
  | none => some none
  | some sizes =>
      (parseChunks data 0x10 0 sizes).map fun chunks =>
        chunks.map fun chunks => ⟨true, sizes, chunks⟩

/-- The longest array of bytes. -/
def maxArrayLength : ℕ := 0x7FFFFFC7

/-- An array of bytes. -/
structure Data where
  bytes : List UInt8
  length_le : bytes.length ≤ maxArrayLength

def parseRaw (data : List UInt8) : Option KamekPulFile := do
  ensure (hasMagic data 0)
  let rawChunk ← KamekChunk.parse data 0 0 0
  ensure (rawChunk.chunkSize.toNat = data.length)
  some ⟨false, [], [rawChunk]⟩

def parse (data : Data) : Option KamekPulFile := do
  ensure (headerSize ≤ data.bytes.length)
  match ← tryParseCombined data.bytes with
  | some combined => some combined
  | none => parseRaw data.bytes

end KamekPulFile
end Wiicompiled.Parsing
