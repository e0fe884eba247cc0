import Wiicompiled.Loading.ProgramImageBuilder
import Wiicompiled.Mods.OverlayFunctionBuilder
import Wiicompiled.Parsing.RelFile

/-!
# The base manifest

The executable sections of the game and of its module are written to an image file each, and
the starts of the generated functions cut every executable section into ranges that name their
place in the image file.
-/

namespace Wiicompiled.Mods.BaseManifestBuilder

open ByteImage Ir Parsing
open Loading (RelImage)

/-- What the manifest is built with besides the files. -/
structure Options where
  fileStem : String := "base"
  lowMemoryStart : BitVec 32 := 0x80000000
  lowMemoryEnd : BitVec 32 := 0x80004000
  relSourceName : String := "module.rel"

/-- The section of a manifest with the place of its bytes in its image file. -/
structure BaseSection extends BaseSectionMetadata where
  imageOffset : BitVec 32

/-! ## Image files -/

/-- Pieces behind each other in a file, and where each of them begins; the last piece with a
key counts. -/
def writeImage {κ : Type} (pieces : List (κ × List UInt8)) :
    Option (List (κ × BitVec 32) × List UInt8) :=
  pieces.foldlM
    (fun (offsets, file) (key, bytes) => do
      ensure (file.length < 2 ^ 32)
      some ((key, BitVec.ofNat 32 file.length) :: offsets, file ++ bytes))
    ([], [])

/-- `TryGetValue`, with the value that stands for none. -/
def offsetOf {κ : Type} [DecidableEq κ] (offsets : List (κ × BitVec 32)) (key : κ) : BitVec 32 :=
  ((offsets.find? fun entry => entry.1 = key).map Prod.snd).getD 0

/-- The executable sections in the order of their addresses; names ignore case. -/
def dolPieces (dol : DolFile) : List (List Char × List UInt8) :=
  ((dol.sections.filter fun s => s.isExecutable && s.size ≠ 0).insertionSort
    fun a b => a.virtualAddress ≤ b.virtualAddress).map fun s => (folded s.name, s.data)

def writeDolExecutableImage (dol : DolFile) :
    Option (List (List Char × BitVec 32) × List UInt8) :=
  writeImage (dolPieces dol)

/-- The executable sections in the order of their offsets; one that does not lie in the image
is left out. -/
def relPieces (rel : RelFile) (relImage : RelImage) : List (ℕ × List UInt8) :=
  (((rel.sections.filter fun s => s.executable && s.size ≠ 0).insertionSort
    fun a b => a.fileOffset ≤ b.fileOffset).filter fun s =>
      (s.fileOffset + s.size).toNat ≤ relImage.data.length).map fun s =>
        (s.index, window relImage.data s.fileOffset.toNat s.size.toNat)

def writeRelExecutableImage (rel : RelFile) (relImage : RelImage) :
    Option (List (ℕ × BitVec 32) × List UInt8) :=
  writeImage (relPieces rel relImage)

def dolTextFile (options : Options) : String :=
  options.fileStem ++ "_main_text.bin"

def relTextFile (options : Options) : String :=
  options.fileStem ++ "_rel_text.bin"

/-! ## Sections -/

def lowMemorySection (options : Options) : BaseSection where
  name := "lowmem"
  guestStart := options.lowMemoryStart
  guestEnd := options.lowMemoryEnd
  executable := false
  imageFile := none
  imageOffset := 0

def dolSection (options : Options) (offsets : List (List Char × BitVec 32)) (s : DolSection) :
    Option BaseSection :=
  (checkedAdd s.virtualAddress s.size).map fun guestEnd =>
    { name := s.name
      guestStart := s.virtualAddress
      guestEnd := guestEnd
      executable := s.isExecutable
      imageFile := if s.isExecutable then some (dolTextFile options) else none
      imageOffset := if s.isExecutable then offsetOf offsets (folded s.name) else 0 }

def relSectionName (options : Options) (index : ℕ) : String :=
  options.relSourceName ++ ":" ++ toString index

def relSection (options : Options) (relImage : RelImage) (offsets : List (ℕ × BitVec 32))
    (s : RelFile.RelSection) : Option BaseSection :=
  let guestStart := relImage.baseAddress + s.fileOffset
  (checkedAdd guestStart s.size).map fun guestEnd =>
    { name := relSectionName options s.index
      guestStart := guestStart
      guestEnd := guestEnd
      executable := s.executable
      imageFile := if s.executable then some (relTextFile options) else none
      imageOffset := if s.executable then offsetOf offsets s.index else 0 }

/-! ## Function ranges -/

def BaseSection.contains (s : BaseSection) (address : BitVec 32) : Bool :=
  s.guestStart ≤ address && address < s.guestEnd

/-- The ranges of one section; each ends at the next start or at the end of the section. -/
def sectionRanges (s : BaseSection) : List (BitVec 32) → Option (List BaseFunctionRange)
  | [] => some []
  | start :: rest => do
      let stop := rest.headD s.guestEnd
      if stop ≤ start then sectionRanges s rest
      else do
        let offset ← checkedAdd s.imageOffset (start - s.guestStart)
        let ranges ← sectionRanges s rest
        some (⟨start, stop, s.name, offset⟩ :: ranges)

/-- The starts that lie in an executable section, each once, in order. -/
def canonicalStarts (sections : List BaseSection) (starts : List (BitVec 32)) :
    List (BitVec 32) :=
  ((starts.filter fun start => sections.any fun s => s.executable && s.contains start).dedup
    ).insertionSort (· ≤ ·)

def buildFunctionRanges (sections : List BaseSection) (starts : List (BitVec 32)) :
    Option (List BaseFunctionRange) :=
  let bySection := (sections.filter fun s => s.executable).insertionSort
    fun a b => a.guestStart ≤ b.guestStart
  (bySection.mapM fun s =>
    sectionRanges s ((canonicalStarts sections starts).filter fun start => s.contains start)).map
      List.flatten

/-- What is written: the sections, the ranges and the two image files. -/
structure BuildResult where
  sections : List BaseSection
  functions : List BaseFunctionRange
  dolText : List UInt8
  relText : List UInt8

def buildAndWrite (options : Options) (dol : DolFile) (rel : RelFile) (relImage : RelImage)
    (starts : List (BitVec 32)) : Option BuildResult := do
  let (dolOffsets, dolText) ← writeDolExecutableImage dol
  let dolSections ← (dol.sections.filter fun s => s.size ≠ 0).mapM (dolSection options dolOffsets)
  let (relOffsets, relText) ← writeRelExecutableImage rel relImage
  let relSections ← (rel.sections.filter fun s => s.size ≠ 0).mapM
    (relSection options relImage relOffsets)
  let sections := lowMemorySection options :: (dolSections ++ relSections)
  let functions ← buildFunctionRanges sections starts
  some ⟨sections, functions, dolText, relText⟩

def BuildResult.images (options : Options) (result : BuildResult) (file : String) :
    Option (List UInt8) :=
  if file = dolTextFile options then some result.dolText
  else if file = relTextFile options then some result.relText
  else none

end Wiicompiled.Mods.BaseManifestBuilder
