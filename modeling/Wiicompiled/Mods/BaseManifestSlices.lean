import Wiicompiled.Mods.BaseManifestRanges
import Wiicompiled.Parsing.RelBssLayout
import Wiicompiled.Support.Numerals

/-!
# The image files hold the functions as memory does

Every published range names its section, and through it an image file and an offset.  The
bytes there are those of the loaded program, unless the range lies in a section of the module
that is not in the module's image: such a section is left out of the image file, but its
ranges are published with the offset of the first one.
-/

namespace Wiicompiled.Mods.BaseManifestBuilder

open ByteImage Ir Parsing
open Disassembly (ProgramImage)
open Loading (RelImage ProgramImageBuilder.build)

/-! ## What is claimed of the ranges -/

/-- The bytes that a range names: its section by name, the section's image file, and as many
bytes at the offset as the range has addresses. -/
def BuildResult.rangeBytes (options : Options) (result : BuildResult) (f : BaseFunctionRange) :
    Option (List UInt8) := do
  let s ← result.sections.find? fun s => folded s.name = folded f.sourceSection
  let imageFile ← s.imageFile
  let file ← result.images options imageFile
  ensure (f.sourceImageOffset.toNat + (f.stop.toNat - f.start.toNat) ≤ file.length)
  some (window file f.sourceImageOffset.toNat (f.stop.toNat - f.start.toNat))

def imageBytes (image : ProgramImage) (f : BaseFunctionRange) : Option (List UInt8) :=
  if image.contains (UInt32.ofBitVec f.start) (f.stop.toNat - f.start.toNat) = true then
    some (window image.memory (image.getOffset (UInt32.ofBitVec f.start))
      (f.stop.toNat - f.start.toNat))
  else none

/-- The ranges share no address, each lies in one executable section and has no other start in
it, and each names the bytes that the loaded program has at its addresses. -/
structure RangesSound (options : Options) (starts : List (BitVec 32)) (image : ProgramImage)
    (result : BuildResult) : Prop where
  disjoint : result.functions.Pairwise fun f g =>
    f.stop.toNat ≤ g.start.toNat ∨ g.stop.toNat ≤ f.start.toNat
  within : ∀ f ∈ result.functions, ∃ s ∈ result.sections, s.executable = true ∧
    s.name = f.sourceSection ∧ s.guestStart.toNat ≤ f.start.toNat ∧
    f.start.toNat < f.stop.toNat ∧ f.stop.toNat ≤ s.guestEnd.toNat
  alone : ∀ f ∈ result.functions, ∀ start ∈ starts, f.start.toNat ≤ start.toNat →
    start.toNat < f.stop.toNat → start = f.start
  bytes : ∀ f ∈ result.functions, ∃ bytes,
    result.rangeBytes options f = some bytes ∧ imageBytes image f = some bytes

/-- Two ranges, each a start and a length, have no address in common. -/
def RangesApart (a b : ℕ × ℕ) : Prop :=
  a.1 + a.2 ≤ b.1 ∨ b.1 + b.2 ≤ a.1

theorem RangesApart.symm {a b : ℕ × ℕ} (h : RangesApart a b) : RangesApart b a :=
  Or.symm h

def dolRange (s : DolSection) : ℕ × ℕ :=
  (s.virtualAddress.toNat, s.size.toNat)

def relRange (baseAddress : BitVec 32) (s : RelFile.RelSection) : ℕ × ℕ :=
  ((baseAddress + s.fileOffset).toNat, s.size.toNat)

def executableRanges (dol : DolFile) (rel : RelFile) (baseAddress : BitVec 32) : List (ℕ × ℕ) :=
  (dol.sections.filter fun s => s.isExecutable && s.size ≠ 0).map dolRange ++
    (rel.sections.filter fun s => s.executable && s.size ≠ 0).map (relRange baseAddress)

/-- The executable sections are apart from each other and from all that is loaded besides;
the module is loaded last and as a whole. -/
structure LayoutAssumed (dol : DolFile) (rel : RelFile) (relImage : RelImage) : Prop where
  executable : (executableRanges dol rel relImage.baseAddress).Pairwise RangesApart
  data : ∀ s ∈ dol.sections, s.isExecutable = true → ∀ t ∈ dol.sections, t.kind = .data →
    RangesApart (dolRange s) (dolRange t)
  image : ∀ s ∈ dol.sections, s.isExecutable = true →
    RangesApart (dolRange s) (relImage.baseAddress.toNat, relImage.data.length)

/-- Every executable section of the module that has a start in it lies in the module's image. -/
def StartsInImage (rel : RelFile) (relImage : RelImage) (starts : List (BitVec 32)) : Prop :=
  ∀ s ∈ rel.sections, s.executable = true →
    (∃ start ∈ starts, (relRange relImage.baseAddress s).1 ≤ start.toNat ∧
      start.toNat < (relRange relImage.baseAddress s).1 + s.size.toNat) →
    s.fileOffset.toNat + s.size.toNat ≤ relImage.data.length

/-! ## The sections of the manifest -/

variable {options : Options} {dol : DolFile} {rel : RelFile} {relImage : RelImage}
  {starts : List (BitVec 32)} {result : BuildResult}

structure Built (options : Options) (dol : DolFile) (rel : RelFile) (relImage : RelImage)
    (starts : List (BitVec 32)) (result : BuildResult)
    (dolOffsets : List (List Char × BitVec 32)) (dolSections : List BaseSection)
    (relOffsets : List (ℕ × BitVec 32)) (relSections : List BaseSection) : Prop where
  dolText : writeImage (dolPieces dol) = some (dolOffsets, result.dolText)
  mappedDol : (dol.sections.filter fun s => s.size ≠ 0).mapM (dolSection options dolOffsets) =
    some dolSections
  relText : writeImage (relPieces rel relImage) = some (relOffsets, result.relText)
  mappedRel : (rel.sections.filter fun s => s.size ≠ 0).mapM
    (relSection options relImage relOffsets) = some relSections
  sections : result.sections = lowMemorySection options :: (dolSections ++ relSections)
  functions : buildFunctionRanges result.sections starts = some result.functions

theorem built_of_buildAndWrite
    (h : buildAndWrite options dol rel relImage starts = some result) :
    ∃ dolOffsets dolSections relOffsets relSections,
      Built options dol rel relImage starts result dolOffsets dolSections relOffsets
        relSections := by
  obtain ⟨⟨dolOffsets, dolText⟩, hdolText, h⟩ := Option.bind_eq_some_iff.mp h
  obtain ⟨dolSections, hdolSections, h⟩ := Option.bind_eq_some_iff.mp h
  obtain ⟨⟨relOffsets, relText⟩, hrelText, h⟩ := Option.bind_eq_some_iff.mp h
  obtain ⟨relSections, hrelSections, h⟩ := Option.bind_eq_some_iff.mp h
  obtain ⟨functions, hfunctions, h⟩ := Option.bind_eq_some_iff.mp h
  obtain rfl := Option.some.inj h
  exact ⟨dolOffsets, dolSections, relOffsets, relSections, hdolText, hdolSections, hrelText,
    hrelSections, rfl, hfunctions⟩

variable {dolOffsets : List (List Char × BitVec 32)} {relOffsets : List (ℕ × BitVec 32)}
  {dolSections relSections : List BaseSection} {s : BaseSection}

theorem dolSection_eq_some {e : DolSection} (h : dolSection options dolOffsets e = some s) :
    s.name = e.name ∧ s.guestStart = e.virtualAddress ∧
      s.guestEnd.toNat = e.virtualAddress.toNat + e.size.toNat ∧
      s.executable = e.isExecutable ∧
      (e.isExecutable = true → s.imageFile = some (dolTextFile options) ∧
        s.imageOffset = offsetOf dolOffsets (folded e.name)) := by
  obtain ⟨guestEnd, hguestEnd, rfl⟩ := Option.map_eq_some_iff.mp h
  exact ⟨rfl, rfl, RelFile.toNat_of_checkedAdd hguestEnd, rfl,
    fun hexecutable => ⟨if_pos hexecutable, if_pos hexecutable⟩⟩

theorem relSection_eq_some {e : RelFile.RelSection}
    (h : relSection options relImage relOffsets e = some s) :
    s.name = relSectionName options e.index ∧
      s.guestStart = relImage.baseAddress + e.fileOffset ∧
      s.guestEnd.toNat = (relImage.baseAddress + e.fileOffset).toNat + e.size.toNat ∧
      s.executable = e.executable ∧
      (e.executable = true → s.imageFile = some (relTextFile options) ∧
        s.imageOffset = offsetOf relOffsets e.index) := by
  obtain ⟨guestEnd, hguestEnd, rfl⟩ := Option.map_eq_some_iff.mp h
  exact ⟨rfl, rfl, RelFile.toNat_of_checkedAdd hguestEnd, rfl,
    fun hexecutable => ⟨if_pos hexecutable, if_pos hexecutable⟩⟩

theorem folded_relSectionName (options : Options) (index : ℕ) :
    folded (relSectionName options index) =
      folded options.relSourceName ++ ':' :: (toString index).toList := by
  rw [folded, relSectionName, String.toList_append, String.toList_append, List.map_append,
    List.map_append, Numerals.map_toLower_toString, List.append_assoc]
  rfl

/-- No two sections of the manifest have one name, with case ignored. -/
theorem Built.names_nodup
    (h : Built options dol rel relImage starts result dolOffsets dolSections relOffsets
      relSections)
    (hdol : dol.Sound) (hrel : (rel.sections.map RelFile.RelSection.index).Nodup) :
    (result.sections.map fun s => folded s.name).Nodup := by
  have hdolNames : dolSections.map (fun s => folded s.name) =
      (dol.sections.filter fun s => s.size ≠ 0).map fun e => folded e.name :=
    PartialMaps.map_of_mapM h.mappedDol fun e _ s hs => by rw [(dolSection_eq_some hs).1]
  have hrelNames : relSections.map (fun s => folded s.name) =
      (rel.sections.filter fun s => s.size ≠ 0).map
        fun e => folded options.relSourceName ++ ':' :: (toString e.index).toList :=
    PartialMaps.map_of_mapM h.mappedRel fun e _ s hs => by
      rw [(relSection_eq_some hs).1, folded_relSectionName]
  have hdolNodup : (dolSections.map fun s => folded s.name).Nodup := by
    have hnames := hdol.names
    rw [List.map_map] at hnames
    rw [hdolNames]
    exact (List.filter_sublist.map _).nodup hnames
  have hrelNodup : (relSections.map fun s => folded s.name).Nodup := by
    rw [hrelNames]
    refine List.Nodup.map_on (fun a ha b hb heq => ?_) ((List.Nodup.of_map _ hrel).filter _)
    have hdigits := List.append_cancel_left heq
    exact List.inj_on_of_nodup_map hrel (List.mem_filter.mp ha).1 (List.mem_filter.mp hb).1
      (Numerals.toString_injective (List.cons.inj hdigits).2)
  have hdolColon : ∀ name ∈ dolSections.map (fun s => folded s.name),
      ':' ∉ name ∧ name ≠ folded "lowmem" := by
    rw [hdolNames]
    intro name hname
    obtain ⟨e, he, rfl⟩ := List.mem_map.mp hname
    have hknown := hdol.known e (List.mem_filter.mp he).1
    have hall : ∀ name ∈ DolFile.textNames ++ DolFile.dataNames ++ [".bss"],
        ':' ∉ folded name ∧ folded name ≠ folded "lowmem" := by decide
    exact hall e.name hknown
  have hrelColon : ∀ name ∈ relSections.map (fun s => folded s.name), ':' ∈ name := by
    rw [hrelNames]
    intro name hname
    obtain ⟨e, -, rfl⟩ := List.mem_map.mp hname
    exact List.mem_append_right _ List.mem_cons_self
  rw [h.sections, List.map_cons, List.map_append, List.nodup_cons, List.mem_append, not_or,
    List.nodup_append]
  refine ⟨⟨fun hmem => (hdolColon _ hmem).2 rfl, fun hmem => ?_⟩, hdolNodup, hrelNodup, ?_⟩
  · have hlow : ':' ∉ folded "lowmem" := by decide
    exact hlow (hrelColon _ hmem)
  · rintro name hname _ hname' rfl
    exact (hdolColon name hname).1 (hrelColon name hname')

theorem find?_of_nodup {α κ : Type} [DecidableEq κ] {key : α → κ} {l : List α} {a : α}
    (h : (l.map key).Nodup) (ha : a ∈ l) : (l.find? fun b => key b = key a) = some a := by
  induction l with
  | nil => exact absurd ha List.not_mem_nil
  | cons first rest ih =>
      rw [List.map_cons, List.nodup_cons] at h
      rcases List.mem_cons.mp ha with rfl | ha
      · rw [List.find?_cons_of_pos (by simp)]
      · have hne : key first ≠ key a := fun heq => h.1 (heq ▸ List.mem_map_of_mem ha)
        rw [List.find?_cons_of_neg (by simpa using hne), ih h.2 ha]

/-- An executable section of the manifest is one of the executable or one of the module. -/
theorem Built.executable_section
    (h : Built options dol rel relImage starts result dolOffsets dolSections relOffsets
      relSections)
    (hs : s ∈ result.sections) (hexecutable : s.executable = true) :
    (∃ e ∈ dol.sections, e.isExecutable = true ∧ e.size ≠ 0 ∧
      dolSection options dolOffsets e = some s) ∨
    ∃ e ∈ rel.sections, e.executable = true ∧ e.size ≠ 0 ∧
      relSection options relImage relOffsets e = some s := by
  rw [h.sections] at hs
  rcases List.mem_cons.mp hs with rfl | hs
  · exact absurd hexecutable Bool.false_ne_true
  · rcases List.mem_append.mp hs with hs | hs
    · obtain ⟨e, he, hmap⟩ := PartialMaps.mem_of_mapM h.mappedDol hs
      obtain ⟨hmem, hsize⟩ := List.mem_filter.mp he
      rw [(dolSection_eq_some hmap).2.2.2.1] at hexecutable
      exact Or.inl ⟨e, hmem, hexecutable, by simpa using hsize, hmap⟩
    · obtain ⟨e, he, hmap⟩ := PartialMaps.mem_of_mapM h.mappedRel hs
      obtain ⟨hmem, hsize⟩ := List.mem_filter.mp he
      rw [(relSection_eq_some hmap).2.2.2.1] at hexecutable
      exact Or.inr ⟨e, hmem, hexecutable, by simpa using hsize, hmap⟩

theorem dolRange_eq {e : DolSection} (h : dolSection options dolOffsets e = some s) :
    dolRange e = (s.guestStart.toNat, s.guestEnd.toNat - s.guestStart.toNat) := by
  obtain ⟨-, hstart, hend, -, -⟩ := dolSection_eq_some h
  rw [dolRange, hend, hstart, Nat.add_sub_cancel_left]

theorem relRange_eq {e : RelFile.RelSection}
    (h : relSection options relImage relOffsets e = some s) :
    relRange relImage.baseAddress e =
      (s.guestStart.toNat, s.guestEnd.toNat - s.guestStart.toNat) := by
  obtain ⟨-, hstart, hend, -, -⟩ := relSection_eq_some h
  rw [relRange, hend, hstart, Nat.add_sub_cancel_left]

theorem guestStart_le_guestEnd_of_dol {e : DolSection}
    (h : dolSection options dolOffsets e = some s) : s.guestStart.toNat ≤ s.guestEnd.toNat := by
  obtain ⟨-, hstart, hend, -, -⟩ := dolSection_eq_some h
  rw [hend, hstart]
  exact Nat.le_add_right _ _

theorem guestStart_le_guestEnd_of_rel {e : RelFile.RelSection}
    (h : relSection options relImage relOffsets e = some s) :
    s.guestStart.toNat ≤ s.guestEnd.toNat := by
  obtain ⟨-, hstart, hend, -, -⟩ := relSection_eq_some h
  rw [hend, hstart]
  exact Nat.le_add_right _ _

theorem apart_of_rangesApart {t : BaseSection} (hs : s.guestStart.toNat ≤ s.guestEnd.toNat)
    (ht : t.guestStart.toNat ≤ t.guestEnd.toNat)
    (h : RangesApart (s.guestStart.toNat, s.guestEnd.toNat - s.guestStart.toNat)
      (t.guestStart.toNat, t.guestEnd.toNat - t.guestStart.toNat)) : Apart s t := by
  rcases h with h | h
  · exact Or.inl (by dsimp only at h; omega)
  · exact Or.inr (by dsimp only at h; omega)

/-- The executable sections of the manifest are apart when those of the files are. -/
theorem Built.pairwise_apart
    (h : Built options dol rel relImage starts result dolOffsets dolSections relOffsets
      relSections)
    (hlayout : LayoutAssumed dol rel relImage) :
    (result.sections.filter fun s => s.executable).Pairwise Apart := by
  have hranges := hlayout.executable
  rw [executableRanges, List.pairwise_append, List.pairwise_map, List.pairwise_map] at hranges
  obtain ⟨hdol, hrel, hacross⟩ := hranges
  rw [h.sections, List.filter_cons_of_neg (by exact Bool.false_ne_true), List.filter_append,
    List.pairwise_append, List.pairwise_filter, List.pairwise_filter]
  refine ⟨?_, ?_, fun s hs t ht => ?_⟩
  · have hdol' : (dol.sections.filter fun s => s.size ≠ 0).Pairwise fun a b =>
        a.isExecutable = true → b.isExecutable = true → RangesApart (dolRange a) (dolRange b) := by
      rw [← List.filter_filter, List.pairwise_filter] at hdol
      exact hdol
    refine PartialMaps.pairwise_of_mapM h.mappedDol hdol' fun a b s t ha hb hab hs ht => ?_
    rw [(dolSection_eq_some ha).2.2.2.1] at hs
    rw [(dolSection_eq_some hb).2.2.2.1] at ht
    refine apart_of_rangesApart (guestStart_le_guestEnd_of_dol ha)
      (guestStart_le_guestEnd_of_dol hb) ?_
    rw [← dolRange_eq ha, ← dolRange_eq hb]
    exact hab hs ht
  · have hrel' : (rel.sections.filter fun s => s.size ≠ 0).Pairwise fun a b =>
        a.executable = true → b.executable = true →
          RangesApart (relRange relImage.baseAddress a) (relRange relImage.baseAddress b) := by
      rw [← List.filter_filter, List.pairwise_filter] at hrel
      exact hrel
    refine PartialMaps.pairwise_of_mapM h.mappedRel hrel' fun a b s t ha hb hab hs ht => ?_
    rw [(relSection_eq_some ha).2.2.2.1] at hs
    rw [(relSection_eq_some hb).2.2.2.1] at ht
    refine apart_of_rangesApart (guestStart_le_guestEnd_of_rel ha)
      (guestStart_le_guestEnd_of_rel hb) ?_
    rw [← relRange_eq ha, ← relRange_eq hb]
    exact hab hs ht
  · obtain ⟨hs, hsExecutable⟩ := List.mem_filter.mp hs
    obtain ⟨ht, htExecutable⟩ := List.mem_filter.mp ht
    obtain ⟨a, ha, hmapA⟩ := PartialMaps.mem_of_mapM h.mappedDol hs
    obtain ⟨b, hb, hmapB⟩ := PartialMaps.mem_of_mapM h.mappedRel ht
    rw [(dolSection_eq_some hmapA).2.2.2.1] at hsExecutable
    rw [(relSection_eq_some hmapB).2.2.2.1] at htExecutable
    refine apart_of_rangesApart (guestStart_le_guestEnd_of_dol hmapA)
      (guestStart_le_guestEnd_of_rel hmapB) ?_
    rw [← dolRange_eq hmapA, ← relRange_eq hmapB]
    refine hacross _ (List.mem_map_of_mem (List.mem_filter.mpr ⟨(List.mem_filter.mp ha).1, ?_⟩)) _
      (List.mem_map_of_mem (List.mem_filter.mpr ⟨(List.mem_filter.mp hb).1, ?_⟩))
    · rw [hsExecutable, Bool.true_and]
      exact (List.mem_filter.mp ha).2
    · rw [htExecutable, Bool.true_and]
      exact (List.mem_filter.mp hb).2

/-! ## Slices -/

theorem window_congr {α : Type*} {l l' : List α} {offset offset' width : ℕ}
    (h : ∀ i < width, l[offset + i]? = l'[offset' + i]?) :
    window l offset width = window l' offset' width := by
  refine List.ext_getElem? fun i => ?_
  rw [window, window, List.getElem?_take, List.getElem?_take, List.getElem?_drop,
    List.getElem?_drop]
  split_ifs with hi
  · exact h i hi
  · rfl

/-- The bytes of a section that a range of it covers. -/
structure SliceOf (image : ProgramImage) (file source : List UInt8) (imageOffset guestStart : ℕ) :
    Prop where
  file_length : imageOffset + source.length ≤ file.length
  file : ∀ i < source.length, file[imageOffset + i]? = source[i]?
  base : image.memoryBase.toNat ≤ guestStart
  memory : ∀ i < source.length,
    image.memory[guestStart - image.memoryBase.toNat + i]? = source[i]?

variable {image : ProgramImage} {f : BaseFunctionRange}

/-- A range of a section reads what memory has when the whole section does. -/
theorem bytes_of_sliceOf {file source : List UInt8} {imageFile : String}
    (hslice : SliceOf image file source s.imageOffset.toNat s.guestStart.toNat)
    (hlength : source.length = s.guestEnd.toNat - s.guestStart.toNat)
    (hrange : RangeOf s (startsIn result.sections starts s) f)
    (hfind : (result.sections.find? fun t => folded t.name = folded f.sourceSection) = some s)
    (himageFile : s.imageFile = some imageFile)
    (hfile : result.images options imageFile = some file) :
    ∃ bytes, result.rangeBytes options f = some bytes ∧ imageBytes image f = some bytes := by
  have hfrom := (contains_iff.mp (List.mem_filter.mp hrange.start_mem).2).1
  have hlt := hrange.start_lt
  have hstop := hrange.stop_le
  have hoffset := hrange.offset
  have hbase := hslice.base
  have hinFile := hslice.file_length
  have hget : image.getOffset (UInt32.ofBitVec f.start) =
      s.guestStart.toNat - image.memoryBase.toNat + (f.start.toNat - s.guestStart.toNat) := by
    change f.start.toNat - image.memoryBase.toNat = _
    omega
  have hlast : image.getOffset (UInt32.ofBitVec f.start) + (f.stop.toNat - f.start.toNat) ≤
      image.memory.length := by
    have hi : f.stop.toNat - s.guestStart.toNat - 1 < source.length := by omega
    have hbyte := hslice.memory _ hi
    rw [List.getElem?_eq_getElem hi] at hbyte
    have hmem := (List.getElem?_eq_some_iff.mp hbyte).1
    omega
  have hcontains : image.contains (UInt32.ofBitVec f.start) (f.stop.toNat - f.start.toNat) =
      true := by
    rw [ProgramImage.contains, Bool.and_eq_true, decide_eq_true_iff, decide_eq_true_iff]
    have hle : image.memoryBase.toNat ≤ f.start.toNat := hbase.trans hfrom
    exact ⟨hle, hlast⟩
  have hinside : f.sourceImageOffset.toNat + (f.stop.toNat - f.start.toNat) ≤ file.length := by
    omega
  refine ⟨window file f.sourceImageOffset.toNat (f.stop.toNat - f.start.toNat), ?_, ?_⟩
  · refine Option.bind_eq_some_iff.mpr ⟨s, hfind, ?_⟩
    refine Option.bind_eq_some_iff.mpr ⟨imageFile, himageFile, ?_⟩
    refine Option.bind_eq_some_iff.mpr ⟨file, hfile, ?_⟩
    exact Option.bind_eq_some_iff.mpr ⟨(), ensure_eq_some.mpr hinside, rfl⟩
  · rw [imageBytes, if_pos hcontains, hget, hoffset]
    refine congrArg some (window_congr fun i hi => ?_)
    have hin : f.start.toNat - s.guestStart.toNat + i < source.length := by omega
    rw [Nat.add_assoc, Nat.add_assoc, hslice.memory _ hin, hslice.file _ hin]

variable {ramBase : BitVec 32} {ramSize : ℕ}

theorem pairwise_filePieces (hlayout : LayoutAssumed dol rel relImage) :
    (dol.sections.filter fun s => s.size ≠ 0 && s.kind ≠ .bss).Pairwise fun a b =>
      a.isExecutable = true → RangesApart (dolRange a) (dolRange b) := by
  have hranges := (List.pairwise_append.mp hlayout.executable).1
  rw [List.pairwise_map, List.pairwise_filter] at hranges
  rw [List.pairwise_filter]
  refine hranges.imp_of_mem fun {a b} ha hb hab ha' hb' hexecutable => ?_
  rw [Bool.and_eq_true] at ha' hb'
  cases hkind : b.kind with
  | text =>
      have hb'' : b.isExecutable = true := by rw [DolSection.isExecutable, hkind]; rfl
      exact hab (by rw [hexecutable, ha'.1]; rfl) (by rw [hb'', hb'.1]; rfl)
  | data => exact hlayout.data a ha hexecutable b hb hkind
  | bss => simp [hkind] at hb'

/-- The image file and memory hold an executable section of the executable. -/
theorem Built.sliceOf_dol
    (h : Built options dol rel relImage starts result dolOffsets dolSections relOffsets
      relSections)
    (hdol : dol.Sound) (hlayout : LayoutAssumed dol rel relImage)
    (himage : ProgramImageBuilder.build dol (some relImage) ramBase ramSize = some image)
    {e : DolSection} (he : e ∈ dol.sections) (hexecutable : e.isExecutable = true)
    (hsection : dolSection options dolOffsets e = some s) :
    SliceOf image result.dolText e.data s.imageOffset.toNat s.guestStart.toNat := by
  obtain ⟨-, hstart, -, -, hoffset⟩ := dolSection_eq_some hsection
  have hbase : image.memoryBase.toNat = ramBase.toNat := by
    rw [(Loading.ProgramImageBuilder.build_eq_some.mp himage).2.2]
    rfl
  have hkind : e.kind ≠ .bss := by
    rw [DolSection.isExecutable, decide_eq_true_iff] at hexecutable
    rw [hexecutable]
    decide
  have hsound := hdol.sections e he
  have hkeys : ((dolPieces dol).map Prod.fst).Nodup := by
    have hnames := hdol.names
    rw [List.map_map] at hnames
    rw [dolPieces, List.map_map]
    exact ((List.perm_insertionSort _ _).map _).nodup_iff.mpr
      ((List.filter_sublist.map _).nodup hnames)
  have hmem : (folded e.name, e.data) ∈ dolPieces dol := by
    refine List.mem_map.mpr ⟨e, ?_, rfl⟩
    rw [List.mem_insertionSort, List.mem_filter, hexecutable, Bool.true_and]
    exact ⟨he, by simpa using hsound.size_ne_zero⟩
  obtain ⟨hfileLength, hfile⟩ := getElem?_writeImage h.dolText hkeys hmem
  rw [← (hoffset hexecutable).2] at hfileLength hfile
  have hpiece : e ∈ dol.sections.filter fun s => s.size ≠ 0 && s.kind ≠ .bss := by
    rw [List.mem_filter]
    exact ⟨he, by simpa using ⟨hsound.size_ne_zero, hkind⟩⟩
  obtain ⟨before, after, hsplit⟩ := List.append_of_mem hpiece
  have hafter := pairwise_filePieces hlayout
  rw [hsplit, List.pairwise_append, List.pairwise_cons] at hafter
  have hlast : ∀ i < e.data.length, ramBase.toNat ≤ e.virtualAddress.toNat ∧
      image.memory[e.virtualAddress.toNat - ramBase.toNat + i]? = e.data[i]? := by
    intro i hi
    refine Loading.ProgramImageBuilder.getElem?_memory_of_last
      (Loading.ProgramImageBuilder.bssPieces dol ++
        before.map fun s => (s.virtualAddress, s.data))
      (e.virtualAddress, e.data)
      ((after.map fun s => (s.virtualAddress, s.data)) ++
        [(relImage.baseAddress, relImage.data)]) himage ?_ hi ?_
    · rw [Loading.ProgramImageBuilder.filePieces, hsplit]
      simp [Loading.ProgramImageBuilder.relPieces]
    · have hlength := hsound.length_data hkind
      intro other hother
      rcases List.mem_append.mp hother with hother | hother
      · obtain ⟨t, ht, rfl⟩ := List.mem_map.mp hother
        have htMem : t ∈ dol.sections.filter fun s => s.size ≠ 0 && s.kind ≠ .bss := by
          rw [hsplit]
          exact List.mem_append_right _ (List.mem_cons_of_mem _ ht)
        rw [List.mem_filter, Bool.and_eq_true, decide_eq_true_iff, decide_eq_true_iff] at htMem
        have htLength := (hdol.sections t htMem.1).length_data htMem.2.2
        have hapart := hafter.2.1.1 t ht hexecutable
        rw [RangesApart, dolRange, dolRange] at hapart
        dsimp only at hapart ⊢
        omega
      · rw [List.mem_singleton.mp hother]
        have hapart := hlayout.image e he hexecutable
        rw [RangesApart, dolRange] at hapart
        dsimp only at hapart ⊢
        omega
  have hpos : 0 < e.data.length := by
    rw [hsound.length_data hkind]
    exact Nat.pos_of_ne_zero fun hzero => hsound.size_ne_zero (BitVec.eq_of_toNat_eq hzero)
  refine ⟨hfileLength, hfile, ?_, fun i hi => ?_⟩
  · rw [hbase, hstart]
    exact (hlast 0 hpos).1
  · rw [hbase, hstart]
    exact (hlast i hi).2

/-- The image file and memory hold an executable section of the module that lies in its
image. -/
theorem Built.sliceOf_rel
    (h : Built options dol rel relImage starts result dolOffsets dolSections relOffsets
      relSections)
    (hindex : (rel.sections.map RelFile.RelSection.index).Nodup)
    (himage : ProgramImageBuilder.build dol (some relImage) ramBase ramSize = some image)
    {e : RelFile.RelSection} (he : e ∈ rel.sections) (hexecutable : e.executable = true)
    (hsize : e.size ≠ 0)
    (hinside : e.fileOffset.toNat + e.size.toNat ≤ relImage.data.length)
    (hsection : relSection options relImage relOffsets e = some s) :
    SliceOf image result.relText (window relImage.data e.fileOffset.toNat e.size.toNat)
      s.imageOffset.toNat s.guestStart.toNat := by
  obtain ⟨-, hstart, -, -, hoffset⟩ := relSection_eq_some hsection
  have hbase : image.memoryBase.toNat = ramBase.toNat := by
    rw [(Loading.ProgramImageBuilder.build_eq_some.mp himage).2.2]
    rfl
  have hfits := relImage.fits
  have hkeys : ((relPieces rel relImage).map Prod.fst).Nodup := by
    rw [relPieces, List.map_map]
    refine (List.filter_sublist.map _).nodup ?_
    exact ((List.perm_insertionSort _ _).map _).nodup_iff.mpr
      ((List.filter_sublist.map _).nodup hindex)
  have hmem : (e.index, window relImage.data e.fileOffset.toNat e.size.toNat) ∈
      relPieces rel relImage := by
    refine List.mem_map.mpr ⟨e, ?_, rfl⟩
    rw [List.mem_filter, List.mem_insertionSort, List.mem_filter, hexecutable, Bool.true_and,
      decide_eq_true_iff, BitVec.toNat_add, Nat.mod_eq_of_lt (by omega)]
    exact ⟨⟨he, by simpa using hsize⟩, decide_eq_true hinside⟩
  obtain ⟨hfileLength, hfile⟩ := getElem?_writeImage h.relText hkeys hmem
  rw [← (hoffset hexecutable).2] at hfileLength hfile
  have hguest : s.guestStart.toNat = relImage.baseAddress.toNat + e.fileOffset.toNat := by
    rw [hstart, BitVec.toNat_add, Nat.mod_eq_of_lt (by omega)]
  have hlast : ∀ i < relImage.data.length, ramBase.toNat ≤ relImage.baseAddress.toNat ∧
      image.memory[relImage.baseAddress.toNat - ramBase.toNat + i]? = relImage.data[i]? := by
    intro i hi
    exact Loading.ProgramImageBuilder.getElem?_memory_of_last _
      (relImage.baseAddress, relImage.data) [] himage rfl hi
      fun other hother => absurd hother List.not_mem_nil
  have hlength := length_window hinside
  have hpos : 0 < e.size.toNat :=
    Nat.pos_of_ne_zero fun hzero => hsize (BitVec.eq_of_toNat_eq hzero)
  have hle := (hlast e.fileOffset.toNat (by omega)).1
  refine ⟨hfileLength, hfile, ?_, fun i hi => ?_⟩
  · omega
  · rw [hlength] at hi
    have hbyte := (hlast (e.fileOffset.toNat + i) (by omega)).2
    rw [window, List.getElem?_take_of_lt hi, List.getElem?_drop, ← hbyte, hguest, hbase]
    congr 1
    omega

theorem images_relTextFile (options : Options) (result : BuildResult) :
    result.images options (relTextFile options) = some result.relText := by
  have hne : relTextFile options ≠ dolTextFile options := by
    intro heq
    have hchars := congrArg (fun text => text.toList) heq
    simp only [relTextFile, dolTextFile, String.toList_append] at hchars
    exact absurd (List.append_cancel_left hchars) (by decide)
  rw [BuildResult.images, if_neg hne, if_pos rfl]

/-- The ranges are sound when no start lies in a section that is not in the module's image. -/
theorem rangesSound_of_startsInImage (hdol : dol.Sound)
    (hindex : (rel.sections.map RelFile.RelSection.index).Nodup)
    (hlayout : LayoutAssumed dol rel relImage) (hstarts : StartsInImage rel relImage starts)
    (hbuild : buildAndWrite options dol rel relImage starts = some result)
    (himage : ProgramImageBuilder.build dol (some relImage) ramBase ramSize = some image) :
    RangesSound options starts image result := by
  obtain ⟨dolOffsets, dolSections, relOffsets, relSections, h⟩ := built_of_buildAndWrite hbuild
  refine ⟨pairwise_functions h.functions (h.pairwise_apart hlayout), fun f hf => ?_,
    fun f hf start hstart hle hlt => ?_, fun f hf => ?_⟩
  · obtain ⟨s, hs, hexecutable, hrange⟩ := exists_section_of_mem h.functions hf
    have hfrom := (contains_iff.mp (List.mem_filter.mp hrange.start_mem).2).1
    exact ⟨s, hs, hexecutable, hrange.name.symm, hfrom, hrange.start_lt, hrange.stop_le⟩
  · obtain ⟨s, hs, hexecutable, hrange⟩ := exists_section_of_mem h.functions hf
    exact hrange.alone_of_section hs hexecutable hstart hle hlt
  · obtain ⟨s, hs, hexecutable, hrange⟩ := exists_section_of_mem h.functions hf
    have hfind : (result.sections.find? fun t => folded t.name = folded f.sourceSection) =
        some s := by
      rw [hrange.name]
      exact find?_of_nodup (h.names_nodup hdol hindex) hs
    rcases h.executable_section hs hexecutable with
      ⟨e, he, heExecutable, -, hsection⟩ | ⟨e, he, heExecutable, hsize, hsection⟩
    · obtain ⟨-, hstart, hend, -, hfile⟩ := dolSection_eq_some hsection
      have hkind : e.kind ≠ .bss := by
        rw [DolSection.isExecutable, decide_eq_true_iff] at heExecutable
        rw [heExecutable]
        decide
      refine bytes_of_sliceOf (h.sliceOf_dol hdol hlayout himage he heExecutable hsection) ?_
        hrange hfind (hfile heExecutable).1 (if_pos rfl)
      rw [(hdol.sections e he).length_data hkind, hend, hstart, Nat.add_sub_cancel_left]
    · obtain ⟨-, hstart, hend, -, hfile⟩ := relSection_eq_some hsection
      obtain ⟨hmem, hcontains⟩ := List.mem_filter.mp hrange.start_mem
      have hin := contains_iff.mp hcontains
      rw [hend, hstart] at hin
      have hinside := hstarts e he heExecutable
        ⟨f.start, (mem_canonicalStarts.mp hmem).1, hin.1, hin.2⟩
      refine bytes_of_sliceOf
        (h.sliceOf_rel hindex himage he heExecutable hsize hinside hsection) ?_ hrange hfind
        (hfile heExecutable).1 (images_relTextFile options result)
      rw [length_window hinside, hend, hstart, Nat.add_sub_cancel_left]

end Wiicompiled.Mods.BaseManifestBuilder
