import Wiicompiled.Ir.RegisterNames
import Wiicompiled.Support.ByteImage
import Wiicompiled.Support.PartialMaps

/-!
# Main executables

Loading a DOL file: its text and data sections with their bytes, and the zero-initialized
section of the header.  A section that is not in the file and a range that wraps are
exceptions.
-/

namespace Wiicompiled.Parsing

open ByteImage Ir

inductive SectionKind where
  | text
  | data
  | bss
deriving DecidableEq

structure DolSection where
  index : ℕ
  name : String
  kind : SectionKind
  fileOffset : BitVec 32
  virtualAddress : BitVec 32
  size : BitVec 32
  data : List UInt8
deriving DecidableEq

def DolSection.isExecutable (s : DolSection) : Bool :=
  s.kind = .text

structure DolFile where
  sections : List DolSection
  entryPoint : BitVec 32
  bssAddress : BitVec 32
  bssSize : BitVec 32
  memoryStart : BitVec 32
  memoryEnd : BitVec 32
deriving DecidableEq

namespace DolFile

def textNames : List String :=
  [".init", ".text", "text2", "text3", "text4", "text5", "text6"]

def dataNames : List String :=
  ["extab", "extabindex", ".ctors", ".dtors", ".rodata", ".data", ".sdata", ".sdata2", "data8",
    "data9", "data10"]

def readArray (raw : List UInt8) (offset count : ℕ) : Option (List (BitVec 32)) :=
  (List.range count).mapM fun i => readUInt32 raw (offset + 4 * i)

def readSectionData (raw : List UInt8) (offset size : BitVec 32) : Option (List UInt8) := do
  let length ← checkedInt size
  ensure (offset.toNat + length ≤ raw.length)
  some (window raw offset.toNat length)

def readSections (raw : List UInt8) (kind : SectionKind) (names : List String)
    (offsets addresses sizes : List (BitVec 32)) : Option (List DolSection) :=
  ((List.range names.length).filter fun i => sizes.getD i 0 ≠ 0).mapM fun i => do
    let data ← readSectionData raw (offsets.getD i 0) (sizes.getD i 0)
    some
      { index := i
        name := names.getD i ""
        kind := kind
        fileOffset := offsets.getD i 0
        virtualAddress := addresses.getD i 0
        size := sizes.getD i 0
        data := data }

/-- The smallest range that has the sections so far and these. -/
def extendRange (start stop : BitVec 32) :
    List (BitVec 32 × BitVec 32) → Option (BitVec 32 × BitVec 32)
  | [] => some (start, stop)
  | (address, size) :: rest => do
      let next ← checkedAdd address size
      extendRange (if start ≤ address then start else address) (if next ≤ stop then stop else next)
        rest

/-- The ranges of the sections and of the zero-initialized section in the header. -/
def memoryRanges (sections : List DolSection) (bssAddress bssSize : BitVec 32) :
    List (BitVec 32 × BitVec 32) :=
  (sections.filter fun s => s.size ≠ 0).map (fun s => (s.virtualAddress, s.size)) ++
    if bssSize = 0 then [] else [(bssAddress, bssSize)]

def calculateRange (sections : List DolSection) (bssAddress bssSize : BitVec 32) :
    Option (BitVec 32 × BitVec 32) :=
  if memoryRanges sections bssAddress bssSize = [] then some (0, 0)
  else extendRange 0xFFFFFFFF 0 (memoryRanges sections bssAddress bssSize)

/-- The zero-initialized section of the header, when it has bytes. -/
def bssSections (index : ℕ) (bssAddress bssSize : BitVec 32) : List DolSection :=
  if bssSize = 0 then [] else [⟨index, ".bss", .bss, 0, bssAddress, bssSize, []⟩]

def load (raw : List UInt8) : Option DolFile := do
  let textOffsets ← readArray raw 0x00 7
  let dataOffsets ← readArray raw 0x1C 11
  let textAddresses ← readArray raw 0x48 7
  let dataAddresses ← readArray raw 0x64 11
  let textSizes ← readArray raw 0x90 7
  let dataSizes ← readArray raw 0xAC 11
  let bssAddress ← readUInt32 raw 0xD8
  let bssSize ← readUInt32 raw 0xDC
  let entryPoint ← readUInt32 raw 0xE0
  let text ← readSections raw .text textNames textOffsets textAddresses textSizes
  let data ← readSections raw .data dataNames dataOffsets dataAddresses dataSizes
  let bss := bssSections (text ++ data).length bssAddress bssSize
  let (memoryStart, memoryEnd) ← calculateRange (text ++ data ++ bss) bssAddress bssSize
  some ⟨text ++ data ++ bss, entryPoint, bssAddress, bssSize, memoryStart, memoryEnd⟩

/-! ## What a loaded file is like -/

/-- A section with bytes has as many as it says, and its range does not wrap. -/
structure SectionSound (s : DolSection) : Prop where
  size_ne_zero : s.size ≠ 0
  length_data : s.kind ≠ .bss → s.data.length = s.size.toNat
  fits : s.virtualAddress.toNat + s.size.toNat < 2 ^ 32

/-- The sections are sound, and no two have one name. -/
structure Sound (dol : DolFile) : Prop where
  sections : ∀ s ∈ dol.sections, SectionSound s
  names : ((dol.sections.map DolSection.name).map folded).Nodup
  known : ∀ s ∈ dol.sections, s.name ∈ textNames ++ dataNames ++ [".bss"]

variable {raw : List UInt8} {kind : SectionKind} {names : List String}
  {offsets addresses sizes : List (BitVec 32)} {sections : List DolSection} {s : DolSection}

theorem readSections_section
    (h : readSections raw kind names offsets addresses sizes = some sections)
    (hs : s ∈ sections) :
    s.kind = kind ∧ s.size ≠ 0 ∧ s.data.length = s.size.toNat := by
  obtain ⟨i, hi, hread⟩ := PartialMaps.mem_of_mapM h hs
  obtain ⟨data, hdata, hsection⟩ := Option.bind_eq_some_iff.mp hread
  obtain rfl := Option.some.inj hsection
  obtain ⟨length, hlength, hdata⟩ := Option.bind_eq_some_iff.mp hdata
  obtain ⟨_, hinside, hdata⟩ := Option.bind_eq_some_iff.mp hdata
  obtain rfl := Option.some.inj hdata
  obtain ⟨_, rfl⟩ := checkedInt_eq_some.mp hlength
  exact ⟨rfl, by simpa using (List.mem_filter.mp hi).2, length_window (ensure_eq_some.mp hinside)⟩

theorem readSections_names
    (h : readSections raw kind names offsets addresses sizes = some sections) :
    (sections.map DolSection.name).Sublist names := by
  have hnames : sections.map DolSection.name =
      ((List.range names.length).filter fun i => sizes.getD i 0 ≠ 0).map
        fun i => names.getD i "" := by
    refine PartialMaps.map_of_mapM h fun i _ s hread => ?_
    obtain ⟨data, _, hsection⟩ := Option.bind_eq_some_iff.mp hread
    rw [← Option.some.inj hsection]
  have hall : (List.range names.length).map (fun i => names.getD i "") = names := by
    refine List.ext_getElem (by simp) fun i hi hi' => ?_
    simp [List.getElem?_eq_getElem hi']
  rw [hnames]
  conv_rhs => rw [← hall]
  exact List.filter_sublist.map _

theorem fits_of_extendRange {ranges : List (BitVec 32 × BitVec 32)} {start stop : BitVec 32}
    {range : BitVec 32 × BitVec 32} (h : extendRange start stop ranges = some range) :
    ∀ r ∈ ranges, r.1.toNat + r.2.toNat < 2 ^ 32 := by
  induction ranges generalizing start stop with
  | nil => exact fun r hr => absurd hr List.not_mem_nil
  | cons first rest ih =>
      obtain ⟨next, hnext, hrest⟩ := Option.bind_eq_some_iff.mp h
      intro r hr
      rcases List.mem_cons.mp hr with rfl | hr
      · exact (checkedAdd_eq_some.mp hnext).1
      · exact ih hrest r hr

theorem fits_of_calculateRange {bssAddress bssSize : BitVec 32} {range : BitVec 32 × BitVec 32}
    (h : calculateRange sections bssAddress bssSize = some range) (hs : s ∈ sections)
    (hsize : s.size ≠ 0) : s.virtualAddress.toNat + s.size.toNat < 2 ^ 32 := by
  have hmem : (s.virtualAddress, s.size) ∈ memoryRanges sections bssAddress bssSize :=
    List.mem_append_left _
      (List.mem_map_of_mem (List.mem_filter.mpr ⟨hs, by simpa using hsize⟩))
  rw [calculateRange] at h
  split_ifs at h with hempty
  · rw [hempty] at hmem
    exact absurd hmem List.not_mem_nil
  · exact fits_of_extendRange h _ hmem

theorem sound_of_load {dol : DolFile} (h : load raw = some dol) : dol.Sound := by
  obtain ⟨textOffsets, -, h⟩ := Option.bind_eq_some_iff.mp h
  obtain ⟨dataOffsets, -, h⟩ := Option.bind_eq_some_iff.mp h
  obtain ⟨textAddresses, -, h⟩ := Option.bind_eq_some_iff.mp h
  obtain ⟨dataAddresses, -, h⟩ := Option.bind_eq_some_iff.mp h
  obtain ⟨textSizes, -, h⟩ := Option.bind_eq_some_iff.mp h
  obtain ⟨dataSizes, -, h⟩ := Option.bind_eq_some_iff.mp h
  obtain ⟨bssAddress, -, h⟩ := Option.bind_eq_some_iff.mp h
  obtain ⟨bssSize, -, h⟩ := Option.bind_eq_some_iff.mp h
  obtain ⟨entryPoint, -, h⟩ := Option.bind_eq_some_iff.mp h
  obtain ⟨text, htext, h⟩ := Option.bind_eq_some_iff.mp h
  obtain ⟨data, hdata, h⟩ := Option.bind_eq_some_iff.mp h
  obtain ⟨range, hrange, h⟩ := Option.bind_eq_some_iff.mp h
  obtain rfl := Option.some.inj h
  have hnames : ((text ++ data ++ bssSections (text ++ data).length bssAddress bssSize).map
      DolSection.name).Sublist (textNames ++ dataNames ++ [".bss"]) := by
    rw [List.map_append, List.map_append, bssSections]
    refine ((readSections_names htext).append (readSections_names hdata)).append ?_
    split_ifs
    · exact List.nil_sublist _
    · exact List.Sublist.refl _
  refine ⟨fun s hs => ?_, ?_, fun s hs => ?_⟩
  · have hsound : s.size ≠ 0 ∧ (s.kind ≠ .bss → s.data.length = s.size.toNat) := by
      rcases List.mem_append.mp hs with hs | hs
      · rcases List.mem_append.mp hs with hs | hs
        · obtain ⟨_, hsize, hlength⟩ := readSections_section htext hs
          exact ⟨hsize, fun _ => hlength⟩
        · obtain ⟨_, hsize, hlength⟩ := readSections_section hdata hs
          exact ⟨hsize, fun _ => hlength⟩
      · rw [bssSections] at hs
        split_ifs at hs with hzero
        · exact absurd hs List.not_mem_nil
        · rw [List.mem_singleton.mp hs]
          exact ⟨hzero, fun hkind => absurd rfl hkind⟩
    exact ⟨hsound.1, hsound.2, fits_of_calculateRange hrange hs hsound.1⟩
  · exact (hnames.map folded).nodup (by decide)
  · exact hnames.subset (List.mem_map_of_mem hs)

end DolFile
end Wiicompiled.Parsing
