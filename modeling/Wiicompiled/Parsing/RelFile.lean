import Wiicompiled.Support.ByteImage

/-!
# Relocatable modules

Loading a REL file and building its image at an address: the section table with
a place for the zero-initialized sections, the import table, and the relocation
records of each import.  Words are `uint`s, so sums wrap unless they are checked;
a read or a write that does not lie in its array is an exception.
-/

namespace Wiicompiled.Parsing

open ByteImage

namespace RelFile

/-! ## The file -/

structure RelSection where
  index : ℕ
  fileOffset : BitVec 32
  size : BitVec 32
  executable : Bool
deriving DecidableEq

/-- The constructor of a section; its address range must not wrap. -/
def relSection (index : ℕ) (fileOffset size : BitVec 32) (executable : Bool) :
    Option RelSection :=
  (checkedAdd fileOffset size).map fun _ => ⟨index, fileOffset, size, executable⟩

structure RelImportEntry where
  moduleId : BitVec 32
  relocationOffset : BitVec 32
deriving DecidableEq

end RelFile

/-- A loaded module. -/
structure RelFile where
  raw : List UInt8
  sections : List RelFile.RelSection
  imports : List RelFile.RelImportEntry
  totalSize : BitVec 32
deriving DecidableEq

namespace RelFile

/-! ## Loading -/

/-- The section table.  Bit 0 of the offset field marks executable sections. -/
def parseSections (raw : List UInt8) (offset count : BitVec 32) :
    Option (List RelSection) :=
  if count.toNat < 2 ^ 31 then
    (List.range count.toNat).mapM fun i => do
      let entryOffset ← checkedInt (offset + BitVec.ofNat 32 (i * 8))
      let offRaw ← readUInt32 raw entryOffset
      let size ← readUInt32 raw (entryOffset + 4)
      relSection i (offRaw &&& ~~~1) size (offRaw.getLsbD 0)
  else none

/-- The import table: an entry for every eight bytes begun before its end. -/
def parseImports (raw : List UInt8) (offset size : BitVec 32) :
    Option (List RelImportEntry) :=
  (List.range (((offset + size).toNat - offset.toNat + 7) / 8)).mapM fun i => do
    let moduleId ← readUInt32 raw (offset.toNat + 8 * i)
    let relocationOffset ← readUInt32 raw (offset.toNat + 8 * i + 4)
    some ⟨moduleId, relocationOffset⟩

def alignUp (value alignment : BitVec 32) : Option (BitVec 32) :=
  if alignment = 0 then some value
  else if alignment &&& (alignment - 1) ≠ 0 then none
  else (checkedAdd value (alignment - 1)).map fun sum => sum &&& ~~~(alignment - 1)

/-- The file with a 0x20-byte heap header, rounded up to 0x20 bytes. -/
def calculateBssOffset (fileSize : ℕ) : Option (BitVec 32) :=
  (checkedAdd (BitVec.ofNat 32 fileSize) 0x20).bind fun size => alignUp size 0x20

/-- Give the sections without file bytes their place, one after the other. -/
def placeBss (bssSectionIndex : UInt8) (bssEnd : BitVec 32) :
    List RelSection → BitVec 32 → Option (List RelSection × BitVec 32)
  | [], bssCursor => some ([], bssCursor)
  | s :: rest, bssCursor =>
      if s.fileOffset = 0 ∧ (s.size ≠ 0 ∨ s.index = bssSectionIndex.toNat) then do
        ensure (bssCursor ≤ bssEnd)
        let placed ← relSection s.index bssCursor s.size s.executable
        let next ← checkedAdd bssCursor s.size
        let (adjusted, bssCursor) ← placeBss bssSectionIndex bssEnd rest next
        some (placed :: adjusted, bssCursor)
      else do
        let (adjusted, bssCursor) ← placeBss bssSectionIndex bssEnd rest bssCursor
        some (s :: adjusted, bssCursor)

def applyBssLayout (sections : List RelSection) (bssSectionIndex : UInt8)
    (bssOffset bssSize : BitVec 32) : Option (List RelSection) := do
  let bssEnd ← checkedAdd bssOffset bssSize
  let (adjusted, bssCursor) ← placeBss bssSectionIndex bssEnd sections bssOffset
  ensure (bssCursor ≤ bssEnd)
  some adjusted

/-- The longest array of bytes; `ReadAllBytes` rejects longer files. -/
def maxArrayLength : ℕ := 0x7FFFFFC7

def load (raw : List UInt8) : Option RelFile := do
  ensure (raw.length ≤ maxArrayLength)
  let sectionCount ← readUInt32 raw 0x0C
  let sectionTableOffset ← readUInt32 raw 0x10
  let bssSize ← readUInt32 raw 0x20
  let importTableOffset ← readUInt32 raw 0x28
  let importTableSize ← readUInt32 raw 0x2C
  let bssSectionIndex ← raw[0x33]?
  let bssAlign ← readUInt32 raw 0x44
  -- the products and sums of the bounds checks wrap
  ensure ((sectionTableOffset + sectionCount * 8).toNat ≤ raw.length)
  ensure ((importTableOffset + importTableSize).toNat ≤ raw.length)
  let sections ← parseSections raw sectionTableOffset sectionCount
  let bssAlign := if bssAlign = 0 then 0x20 else bssAlign
  let bssStart ← calculateBssOffset raw.length
  let bssOffset ← alignUp bssStart bssAlign
  let totalSize ← checkedAdd bssOffset bssSize
  let adjustedSections ← applyBssLayout sections bssSectionIndex bssOffset bssSize
  let imports ← parseImports raw importTableOffset importTableSize
  some ⟨raw, adjustedSections, imports, totalSize⟩

/-! ## Relocation records -/

/-- The relocation types that the loader tells apart. -/
inductive RelocationType where
  | addr32
  | addr16Lo
  | addr16Ha
  | rel24
  | rvlNone
  | rvlSect
  | rvlStop
  | other (value : UInt8)
deriving DecidableEq

def relocationType (value : UInt8) : RelocationType :=
  if value = 1 then .addr32
  else if value = 4 then .addr16Lo
  else if value = 6 then .addr16Ha
  else if value = 10 then .rel24
  else if value = 201 then .rvlNone
  else if value = 202 then .rvlSect
  else if value = 203 then .rvlStop
  else .other value

structure Relocation where
  delta : BitVec 16
  type : RelocationType
  symbolSection : UInt8
  addend : BitVec 32
deriving DecidableEq

def readRelocation (raw : List UInt8) (cursor : ℕ) : Option Relocation := do
  let delta ← readUInt16 raw cursor
  let type ← raw[cursor + 2]?
  let symbolSection ← raw[cursor + 3]?
  let addend ← readUInt32 raw (cursor + 4)
  some ⟨delta, relocationType type, symbolSection, addend⟩

def ramBase : BitVec 32 := 0x80000000

def dolBaseAddress : BitVec 32 := 0x80004000

/-- The address that a record refers to.  Import 0 is the main executable, whose
offsets are relative to it; symbols of any other import are in this file. -/
def targetAddress (file : RelFile) (baseAddress dolBaseAddress moduleId : BitVec 32)
    (r : Relocation) : Option (BitVec 32) :=
  if moduleId = 0 then
    some (if r.addend < ramBase then dolBaseAddress + r.addend else r.addend)
  else
    (file.sections[r.symbolSection.toNat]?).map fun symbol =>
      baseAddress + symbol.fileOffset + r.addend

/-- A record at the address it patches. -/
structure Placed where
  type : RelocationType
  dst : BitVec 32
  target : BitVec 32

/-- The effect of one record on the image. -/
def patch (baseAddress : BitVec 32) (p : Placed) (memory : List UInt8) :
    Option (List UInt8) := do
  let memIndex ← checkedInt (p.dst - baseAddress)
  let orig ← readUInt32 memory memIndex
  match p.type with
  | .rvlNone => some memory
  | .addr32 => writeUInt32 memory memIndex p.target
  | .addr16Lo => writeUInt16 memory memIndex ((p.target &&& 0xFFFF).truncate 16)
  | .addr16Ha =>
      writeUInt16 memory memIndex (((p.target + 0x8000) >>> 16 &&& 0xFFFF).truncate 16)
  | .rel24 =>
      let disp := (p.target - p.dst) &&& 0x03FFFFFC
      writeUInt32 memory memIndex (orig &&& 0xFC000003 ||| disp)
  | _ => none

/-- The place of a record, with the accumulated offset before it: the new offset
and the patch. -/
def place (file : RelFile) (baseAddress dolBaseAddress moduleId : BitVec 32)
    (currentSection : UInt8) (currentOffset : BitVec 32) (r : Relocation) :
    Option (BitVec 32 × Placed) := do
  let currentOffset ← checkedAdd currentOffset (r.delta.zeroExtend 32)
  let dstSection ← file.sections[currentSection.toNat]?
  let target ← targetAddress file baseAddress dolBaseAddress moduleId r
  some (currentOffset, ⟨r.type, baseAddress + dstSection.fileOffset + currentOffset, target⟩)

/-- The records of one import from `cursor` on.  Every record is inside the file,
so the number of bytes is fuel enough. -/
def applyImport (file : RelFile) (baseAddress dolBaseAddress moduleId : BitVec 32) :
    ℕ → ℕ → UInt8 → BitVec 32 → List UInt8 → Option (List UInt8)
  | 0, _, _, _, _ => none
  | fuel + 1, cursor, currentSection, currentOffset, memory => do
      let r ← readRelocation file.raw cursor
      match r.type with
      | .rvlStop => some memory
      | .rvlSect =>
          applyImport file baseAddress dolBaseAddress moduleId fuel (cursor + 8)
            r.symbolSection 0 memory
      | _ =>
          let (currentOffset, p) ←
            place file baseAddress dolBaseAddress moduleId currentSection currentOffset r
          let memory ← patch baseAddress p memory
          applyImport file baseAddress dolBaseAddress moduleId fuel (cursor + 8)
            currentSection currentOffset memory

def applyRelocations (file : RelFile) (baseAddress dolBaseAddress : BitVec 32)
    (memory : List UInt8) : Option (List UInt8) :=
  file.imports.foldlM
    (fun memory entry =>
      applyImport file baseAddress dolBaseAddress entry.moduleId (file.raw.length + 1)
        entry.relocationOffset.toNat 0 0 memory)
    memory

/-- The file followed by zeros up to the total size. -/
def initialImage (file : RelFile) : List UInt8 :=
  file.raw ++ List.replicate (file.totalSize.toNat - file.raw.length) 0

/-- The image at `baseAddress`; its address range must not wrap. -/
def buildImage (file : RelFile) (baseAddress dolBaseAddress : BitVec 32)
    (relocate : Bool) : Option (List UInt8) := do
  let size ← checkedInt file.totalSize
  ensure (file.raw.length ≤ size)
  let buffer ←
    if relocate then
      applyRelocations file baseAddress dolBaseAddress (initialImage file)
    else some (initialImage file)
  let _ ← checkedAdd baseAddress (BitVec.ofNat 32 buffer.length)
  some buffer

end RelFile
end Wiicompiled.Parsing
