import Wiicompiled.Mods.BaseManifestSlices

/-!
# When the published ranges address their own code

The builds do not look at the bytes of the module, so one layout stands for all contents.  A
range in a section that is not in the module's image reads bytes of other sections, and these
can be changed without changing what memory has in the range.
-/

namespace Wiicompiled.Mods.BaseManifestBuilder

open ByteImage Ir Parsing
open Disassembly (ProgramImage)
open Loading (RelImage ProgramImageBuilder.build)

/-! ## Concatenations -/

section Concatenation

variable {α β : Type} {size : α → ℕ} {l before after : List α} {t : α} {k : ℕ}

theorem exists_split_of_lt (hk : k < (l.map size).sum) :
    ∃ before t after, l = before ++ t :: after ∧ (before.map size).sum ≤ k ∧
      k < (before.map size).sum + size t := by
  induction l generalizing k with
  | nil => exact absurd hk (Nat.not_lt_zero _)
  | cons first rest ih =>
      rw [List.map_cons, List.sum_cons] at hk
      by_cases hfirst : k < size first
      · exact ⟨[], first, rest, rfl, Nat.zero_le _, by simpa using hfirst⟩
      · obtain ⟨before, t, after, rfl, hle, hlt⟩ := @ih (k - size first) (by omega)
        refine ⟨first :: before, t, after, rfl, ?_, ?_⟩
        · rw [List.map_cons, List.sum_cons]
          omega
        · rw [List.map_cons, List.sum_cons]
          omega

theorem length_flatten_map {contents : α → List β}
    (h : ∀ a ∈ l, (contents a).length = size a) :
    (l.map contents).flatten.length = (l.map size).sum := by
  rw [List.length_flatten, List.map_map]
  exact congrArg List.sum (List.map_congr_left h)

theorem getElem?_flatten_map {contents : α → List β}
    (h : ∀ a ∈ before ++ t :: after, (contents a).length = size a)
    (hle : (before.map size).sum ≤ k) (hlt : k < (before.map size).sum + size t) :
    ((before ++ t :: after).map contents).flatten[k]? =
      (contents t)[k - (before.map size).sum]? := by
  have hbefore := length_flatten_map (l := before) fun a ha => h a (List.mem_append_left _ ha)
  have ht := h t (List.mem_append_right _ List.mem_cons_self)
  rw [List.map_append, List.map_cons, List.flatten_append, List.flatten_cons,
    List.getElem?_append_right (by omega), List.getElem?_append_left (by omega), hbefore]

end Concatenation

/-! ## Contents of one layout -/

variable {options : Options} {dol : DolFile} {rel : RelFile} {relImage contents : RelImage}
  {starts : List (BitVec 32)} {result : BuildResult} {image : ProgramImage}
  {ramBase : BitVec 32} {ramSize : ℕ}

/-- Two images of the module with one address and one length. -/
structure SameLayout (relImage contents : RelImage) : Prop where
  base : contents.baseAddress = relImage.baseAddress
  length : contents.data.length = relImage.data.length

/-- What is published is right whenever the builds succeed. -/
def Published (options : Options) (dol : DolFile) (rel : RelFile) (relImage : RelImage)
    (starts : List (BitVec 32)) (ramBase : BitVec 32) (ramSize : ℕ) : Prop :=
  ∀ result image, buildAndWrite options dol rel relImage starts = some result →
    ProgramImageBuilder.build dol (some relImage) ramBase ramSize = some image →
    RangesSound options starts image result

def keptSections (rel : RelFile) (length : ℕ) : List RelFile.RelSection :=
  ((rel.sections.filter fun s => s.executable && s.size ≠ 0).insertionSort
    fun a b => a.fileOffset ≤ b.fileOffset).filter fun s =>
      (s.fileOffset + s.size).toNat ≤ length

theorem relPieces_eq (rel : RelFile) (relImage : RelImage) :
    relPieces rel relImage = (keptSections rel relImage.data.length).map fun s =>
      (s.index, window relImage.data s.fileOffset.toNat s.size.toNat) :=
  rfl

theorem mem_keptSections {length : ℕ} {e : RelFile.RelSection}
    (hfits : ∀ s ∈ rel.sections, s.fileOffset.toNat + s.size.toNat < 2 ^ 32) :
    e ∈ keptSections rel length ↔ e ∈ rel.sections ∧ e.executable = true ∧ e.size ≠ 0 ∧
      e.fileOffset.toNat + e.size.toNat ≤ length := by
  rw [keptSections, List.mem_filter, List.mem_insertionSort, List.mem_filter, Bool.and_eq_true,
    decide_eq_true_iff, decide_eq_true_iff, and_assoc, and_assoc]
  refine and_congr_right fun he => and_congr_right fun _ => and_congr_right fun _ => ?_
  rw [BitVec.toNat_add, Nat.mod_eq_of_lt (hfits e he)]

theorem length_window_of_kept (hfits : ∀ s ∈ rel.sections, s.fileOffset.toNat + s.size.toNat <
    2 ^ 32) (relImage : RelImage) :
    ∀ s ∈ keptSections rel relImage.data.length,
      (window relImage.data s.fileOffset.toNat s.size.toNat).length = s.size.toNat :=
  fun _ hs => length_window ((mem_keptSections hfits).mp hs).2.2.2

theorem relSection_congr (h : SameLayout relImage contents) (offsets : List (ℕ × BitVec 32)) :
    relSection options contents offsets = relSection options relImage offsets := by
  funext s
  rw [relSection, relSection, h.base]

theorem exists_buildAndWrite_of_sameLayout (h : SameLayout relImage contents)
    (hfits : ∀ s ∈ rel.sections, s.fileOffset.toNat + s.size.toNat < 2 ^ 32)
    (hbuild : buildAndWrite options dol rel relImage starts = some result) :
    ∃ relText, buildAndWrite options dol rel contents starts =
      some { result with relText := relText } := by
  obtain ⟨dol', hdol, hbuild⟩ := Option.bind_eq_some_iff.mp hbuild
  obtain ⟨dolSections, hdolSections, hbuild⟩ := Option.bind_eq_some_iff.mp hbuild
  obtain ⟨rel', hrel, hbuild⟩ := Option.bind_eq_some_iff.mp hbuild
  obtain ⟨relSections, hrelSections, hbuild⟩ := Option.bind_eq_some_iff.mp hbuild
  obtain ⟨functions, hfunctions, hbuild⟩ := Option.bind_eq_some_iff.mp hbuild
  obtain rfl := Option.some.inj hbuild
  rw [writeRelExecutableImage, relPieces_eq] at hrel
  have hlength := length_window_of_kept hfits contents
  rw [h.length] at hlength
  obtain ⟨relText, hrelText⟩ := writeImage_congr
    (fun s hs => (length_window_of_kept hfits relImage s hs).trans (hlength s hs).symm) hrel
  refine ⟨relText, Option.bind_eq_some_iff.mpr ⟨dol', hdol, ?_⟩⟩
  refine Option.bind_eq_some_iff.mpr ⟨dolSections, hdolSections, ?_⟩
  refine Option.bind_eq_some_iff.mpr ⟨(rel'.1, relText), ?_, ?_⟩
  · rw [writeRelExecutableImage, relPieces_eq, h.length]
    exact hrelText
  · rw [← relSection_congr h] at hrelSections
    refine Option.bind_eq_some_iff.mpr ⟨relSections, hrelSections, ?_⟩
    exact Option.bind_eq_some_iff.mpr ⟨functions, hfunctions, rfl⟩

theorem exists_build_of_sameLayout (h : SameLayout relImage contents)
    (himage : ProgramImageBuilder.build dol (some relImage) ramBase ramSize = some image) :
    ∃ image', ProgramImageBuilder.build dol (some contents) ramBase ramSize = some image' := by
  obtain ⟨hpos, hinside, -⟩ := Loading.ProgramImageBuilder.build_eq_some.mp himage
  refine ⟨_, Loading.ProgramImageBuilder.build_eq_some.mpr ⟨hpos, fun piece hpiece => ?_, rfl⟩⟩
  rcases List.mem_append.mp hpiece with hold | hrel
  · exact hinside piece (List.mem_append_left _ hold)
  · rw [List.mem_singleton.mp hrel, Loading.ProgramImageBuilder.Inside, h.base, h.length]
    exact hinside (relImage.baseAddress, relImage.data)
      (List.mem_append_right _ (List.mem_singleton_self _))

/-- Memory has the module where it lies, and elsewhere what does not depend on it. -/
theorem getElem?_memory_congr (h : SameLayout relImage contents) {image' : ProgramImage}
    (himage : ProgramImageBuilder.build dol (some relImage) ramBase ramSize = some image)
    (himage' : ProgramImageBuilder.build dol (some contents) ramBase ramSize = some image')
    {address : ℕ} (haddress : ramBase.toNat ≤ address)
    (hsame : ∀ i, address = relImage.baseAddress.toNat + i → i < relImage.data.length →
      contents.data[i]? = relImage.data[i]?) :
    image'.memory[address - ramBase.toNat]? = image.memory[address - ramBase.toNat]? := by
  obtain ⟨hmemory, hbase, hend⟩ := Loading.ProgramImageBuilder.memory_of_build himage
  obtain ⟨hmemory', -, hend'⟩ := Loading.ProgramImageBuilder.memory_of_build himage'
  rw [hmemory, hmemory', h.base]
  rw [h.base] at hend'
  by_cases hin : relImage.baseAddress.toNat ≤ address ∧
      address < relImage.baseAddress.toNat + relImage.data.length
  · have haddr : address - ramBase.toNat = relImage.baseAddress.toNat - ramBase.toNat +
        (address - relImage.baseAddress.toNat) := by omega
    have hlen := h.length
    rw [haddr, getElem?_splice_of_inside hend' (by omega),
      getElem?_splice_of_inside hend (by omega)]
    exact hsame _ (by omega) (by omega)
  · have hlen := h.length
    rw [getElem?_splice_of_outside hend' (by omega), getElem?_splice_of_outside hend (by omega)]

theorem getElem?_window_zero {α : Type*} {l : List α} {offset width : ℕ} (h : 0 < width) :
    (window l offset width)[0]? = l[offset]? := by
  rw [window, List.getElem?_take_of_lt h, List.getElem?_drop, Nat.add_zero]

/-- A range that starts in a section that was left out reads the image file from its
beginning. -/
theorem first_byte_of_skipped (hdol : dol.Sound)
    (hindex : (rel.sections.map RelFile.RelSection.index).Nodup)
    (hfits : ∀ s ∈ rel.sections, s.fileOffset.toNat + s.size.toNat < 2 ^ 32)
    (hbuild : buildAndWrite options dol rel relImage starts = some result)
    (himage : ProgramImageBuilder.build dol (some relImage) ramBase ramSize = some image)
    (hsound : RangesSound options starts image result) {e : RelFile.RelSection}
    (he : e ∈ rel.sections) (hexecutable : e.executable = true)
    (houtside : relImage.data.length < e.fileOffset.toNat + e.size.toNat)
    {start : BitVec 32} (hstart : start ∈ starts)
    (hle : (relRange relImage.baseAddress e).1 ≤ start.toNat)
    (hlt : start.toNat < (relRange relImage.baseAddress e).1 + e.size.toNat) :
    ramBase.toNat ≤ start.toNat ∧
      start.toNat - (relRange relImage.baseAddress e).1 < result.relText.length ∧
      image.memory[start.toNat - ramBase.toNat]? =
        result.relText[start.toNat - (relRange relImage.baseAddress e).1]? := by
  obtain ⟨dolOffsets, dolSections, relOffsets, relSections, h⟩ := built_of_buildAndWrite hbuild
  have hsize : e.size ≠ 0 := by
    rintro hzero
    rw [hzero] at hlt
    exact absurd hlt (not_lt.mpr hle)
  obtain ⟨s, hs, hsection⟩ := PartialMaps.exists_of_mem_mapM h.mappedRel
    (List.mem_filter.mpr ⟨he, by simpa using hsize⟩)
  have hs : s ∈ result.sections := by
    rw [h.sections]
    exact List.mem_cons_of_mem _ (List.mem_append_right _ hs)
  obtain ⟨-, hguest, hend, hsExecutable, hfile⟩ := relSection_eq_some hsection
  obtain ⟨himageFile, himageOffset⟩ := hfile hexecutable
  have hzero : s.imageOffset.toNat = 0 := by
    have hkey : e.index ∉ (relPieces rel relImage).map Prod.fst := by
      rw [relPieces_eq, List.map_map]
      intro hmem
      obtain ⟨t, ht, hindexEq⟩ := List.mem_map.mp hmem
      obtain ⟨htMem, -, -, htInside⟩ := (mem_keptSections hfits).mp ht
      obtain rfl := List.inj_on_of_nodup_map hindex htMem he hindexEq
      omega
    rw [himageOffset, (foldlM_writeImage h.relText).2.1 _ hkey]
    rfl
  have hcontains : s.contains start = true := by
    rw [contains_iff, hguest, hend]
    exact ⟨hle, hlt⟩
  obtain ⟨f, hf, rfl, hrange⟩ := exists_range_of_start h.functions hs
    (hsExecutable.trans hexecutable) hstart hcontains
  have hfind : (result.sections.find? fun t => folded t.name = folded f.sourceSection) =
      some s := by
    rw [hrange.name]
    exact find?_of_nodup (h.names_nodup hdol hindex) hs
  obtain ⟨bytes, hbytes, himageBytes⟩ := hsound.bytes f hf
  have hoffset : f.sourceImageOffset.toNat = f.start.toNat -
      (relRange relImage.baseAddress e).1 := by
    rw [hrange.offset, hzero, Nat.zero_add, hguest]
    rfl
  have hwidth : 0 < f.stop.toNat - f.start.toNat := Nat.sub_pos_of_lt hrange.start_lt
  obtain ⟨s', hfind', hbytes⟩ := Option.bind_eq_some_iff.mp hbytes
  obtain rfl := Option.some.inj (hfind.symm.trans hfind')
  obtain ⟨imageFile, himageFile', hbytes⟩ := Option.bind_eq_some_iff.mp hbytes
  obtain rfl := Option.some.inj (himageFile.symm.trans himageFile')
  obtain ⟨file, hfileText, hbytes⟩ := Option.bind_eq_some_iff.mp hbytes
  obtain rfl := Option.some.inj ((images_relTextFile options result).symm.trans hfileText)
  obtain ⟨_, hinside, hbytes⟩ := Option.bind_eq_some_iff.mp hbytes
  have hinside := ensure_eq_some.mp hinside
  have hfirst := congrArg (fun l => l[0]?) (Option.some.inj hbytes)
  rw [getElem?_window_zero hwidth, hoffset] at hfirst
  rw [imageBytes, Option.ite_none_right_eq_some] at himageBytes
  obtain ⟨hcontained, hwindow⟩ := himageBytes
  have hbase : image.memoryBase.toNat = ramBase.toNat := by
    rw [(Loading.ProgramImageBuilder.build_eq_some.mp himage).2.2]
    rfl
  rw [ProgramImage.contains, Bool.and_eq_true, decide_eq_true_iff, decide_eq_true_iff]
    at hcontained
  have hfromBase : image.memoryBase.toNat ≤ f.start.toNat := hcontained.1
  have hmemory := congrArg (fun l => l[0]?) (Option.some.inj hwindow)
  rw [getElem?_window_zero hwidth] at hmemory
  refine ⟨hbase ▸ hfromBase, by omega, ?_⟩
  rw [hfirst, ← hmemory, ← hbase]
  rfl

def oneByte (relImage : RelImage) (x : ℕ) (byte : UInt8) : RelImage where
  data := (List.replicate relImage.data.length 0).set x byte
  baseAddress := relImage.baseAddress
  fits := by
    rw [List.length_set, List.length_replicate]
    exact relImage.fits

theorem sameLayout_oneByte (relImage : RelImage) (x : ℕ) (byte : UInt8) :
    SameLayout relImage (oneByte relImage x byte) :=
  ⟨rfl, by rw [oneByte, List.length_set, List.length_replicate]⟩

instance : Std.Symm RangesApart :=
  ⟨fun _ _ h => h.symm⟩

/-- A section that was left out and a start in it are found out by some contents. -/
theorem startsInImage_of_published (hdol : dol.Sound)
    (hindex : (rel.sections.map RelFile.RelSection.index).Nodup)
    (hfits : ∀ s ∈ rel.sections, s.fileOffset.toNat + s.size.toNat < 2 ^ 32)
    (hlayout : LayoutAssumed dol rel relImage)
    (hbuild : buildAndWrite options dol rel relImage starts = some result)
    (himage : ProgramImageBuilder.build dol (some relImage) ramBase ramSize = some image)
    (h : ∀ contents, SameLayout relImage contents →
      Published options dol rel contents starts ramBase ramSize) :
    StartsInImage rel relImage starts := by
  rintro e he hexecutable ⟨start, hstart, hle, hlt⟩
  by_contra houtside
  rw [not_le] at houtside
  -- What any contents of this layout show at the start.
  have hshown : ∀ contents, SameLayout relImage contents → ∃ image' relText,
      ProgramImageBuilder.build dol (some contents) ramBase ramSize = some image' ∧
      relText = ((keptSections rel relImage.data.length).map fun s =>
        window contents.data s.fileOffset.toNat s.size.toNat).flatten ∧
      ramBase.toNat ≤ start.toNat ∧
      start.toNat - (relRange relImage.baseAddress e).1 < relText.length ∧
      image'.memory[start.toNat - ramBase.toNat]? =
        relText[start.toNat - (relRange relImage.baseAddress e).1]? := by
    intro contents hsame
    obtain ⟨relText, hbuild'⟩ := exists_buildAndWrite_of_sameLayout hsame hfits hbuild
    obtain ⟨image', himage'⟩ := exists_build_of_sameLayout hsame himage
    obtain ⟨_, _, _, _, hbuilt⟩ := built_of_buildAndWrite hbuild'
    have htext := (foldlM_writeImage hbuilt.relText).1
    rw [relPieces_eq, hsame.length, List.map_map] at htext
    have hfirst := first_byte_of_skipped hdol hindex hfits hbuild' himage'
      (h contents hsame _ _ hbuild' himage') he hexecutable (by rw [hsame.length]; exact houtside)
      hstart (by rw [hsame.base]; exact hle) (by rw [hsame.base]; exact hlt)
    rw [hsame.base] at hfirst
    exact ⟨image', relText, himage', htext, hfirst⟩
  have hkeptLength : ∀ contents, SameLayout relImage contents →
      ∀ s ∈ keptSections rel relImage.data.length,
        (window contents.data s.fileOffset.toNat s.size.toNat).length = s.size.toNat := by
    intro contents hsame
    rw [← hsame.length]
    exact length_window_of_kept hfits contents
  -- The byte of the image file that a range at the start begins with.
  obtain ⟨_, relText, -, htext, -, hinText, -⟩ := hshown _ (sameLayout_oneByte relImage 0 0)
  rw [htext, length_flatten_map (hkeptLength _ (sameLayout_oneByte relImage 0 0))] at hinText
  obtain ⟨before, t, after, hsplit, hbefore, hafter⟩ := exists_split_of_lt hinText
  have ht : t ∈ keptSections rel relImage.data.length := by
    rw [hsplit]
    exact List.mem_append_right _ List.mem_cons_self
  obtain ⟨htMem, htExecutable, htSize, htInside⟩ := (mem_keptSections hfits).mp ht
  set x := t.fileOffset.toNat + (start.toNat - (relRange relImage.baseAddress e).1 -
    (before.map fun s => s.size.toNat).sum) with hx
  have hxInside : x < relImage.data.length := by omega
  have hxText : ∀ contents, SameLayout relImage contents →
      ((keptSections rel relImage.data.length).map fun s =>
        window contents.data s.fileOffset.toNat s.size.toNat).flatten[
          start.toNat - (relRange relImage.baseAddress e).1]? = contents.data[x]? := by
    intro contents hsame
    have hlength := hkeptLength contents hsame
    rw [hsplit] at hlength ⊢
    rw [getElem?_flatten_map hlength hbefore hafter, window,
      List.getElem?_take_of_lt (by omega), List.getElem?_drop]
  -- The start is not the address of that byte, since the two sections are apart.
  have hapart : RangesApart (relRange relImage.baseAddress e) (relRange relImage.baseAddress t) := by
    have hranges := (List.pairwise_append.mp hlayout.executable).2.1
    rw [List.pairwise_map] at hranges
    have hsize : e.size ≠ 0 := by
      rintro hzero
      rw [hzero] at hlt
      exact absurd hlt (not_lt.mpr hle)
    have hne : e ≠ t := by
      rintro rfl
      omega
    have hsymm : Std.Symm fun a b => RangesApart (relRange relImage.baseAddress a)
      (relRange relImage.baseAddress b) := ⟨fun _ _ h => h.symm⟩
    refine hranges.forall (List.mem_filter.mpr ⟨he, ?_⟩) (List.mem_filter.mpr ⟨htMem, ?_⟩) hne
    · rw [hexecutable]
      simpa using hsize
    · rw [htExecutable]
      simpa using htSize
  have hother : start.toNat ≠ relImage.baseAddress.toNat + x := by
    have hfitsImage := relImage.fits
    have htRange : (relRange relImage.baseAddress t).1 =
        relImage.baseAddress.toNat + t.fileOffset.toNat := by
      rw [relRange, BitVec.toNat_add, Nat.mod_eq_of_lt (by omega)]
    rw [RangesApart, htRange] at hapart
    change _ + e.size.toNat ≤ _ ∨ _ + t.size.toNat ≤ _ at hapart
    omega
  -- Two contents that differ in that byte only.
  obtain ⟨image₀, text₀, himage₀, htext₀, hbase, -, hmemory₀⟩ :=
    hshown _ (sameLayout_oneByte relImage x 0)
  obtain ⟨image₁, text₁, himage₁, htext₁, -, -, hmemory₁⟩ :=
    hshown _ (sameLayout_oneByte relImage x 1)
  rw [htext₀, hxText _ (sameLayout_oneByte relImage x 0)] at hmemory₀
  rw [htext₁, hxText _ (sameLayout_oneByte relImage x 1)] at hmemory₁
  have hsameBoth : SameLayout (oneByte relImage x 0) (oneByte relImage x 1) :=
    ⟨rfl, by rw [(sameLayout_oneByte relImage x 1).length, (sameLayout_oneByte relImage x 0).length]⟩
  have hmemory := getElem?_memory_congr hsameBoth himage₀ himage₁ hbase fun i hi _ => by
    have hne : x ≠ i := by
      rintro rfl
      exact hother hi
    rw [oneByte, oneByte, List.getElem?_set_ne hne, List.getElem?_set_ne hne]
  rw [hmemory₀, hmemory₁, oneByte, oneByte,
    List.getElem?_set_self (by rw [List.length_replicate]; exact hxInside),
    List.getElem?_set_self (by rw [List.length_replicate]; exact hxInside)] at hmemory
  exact absurd (Option.some.inj hmemory) (by decide)

/-- For one layout the ranges address their own code whatever the module holds, exactly when
no start lies in an executable section that reaches over the end of the module's image. -/
theorem published_iff (dolRaw relRaw : List UInt8) (hdol : DolFile.load dolRaw = some dol)
    (hrel : RelFile.load relRaw = some rel) (hlayout : LayoutAssumed dol rel relImage)
    (hbuild : (buildAndWrite options dol rel relImage starts).isSome = true)
    (himage : (ProgramImageBuilder.build dol (some relImage) ramBase ramSize).isSome = true) :
    (∀ contents, SameLayout relImage contents →
      Published options dol rel contents starts ramBase ramSize) ↔
        StartsInImage rel relImage starts := by
  have hsound := DolFile.sound_of_load hdol
  obtain ⟨hindex, hfits⟩ := RelFile.sections_of_load hrel
  constructor
  · intro h
    obtain ⟨result, hresult⟩ := Option.isSome_iff_exists.mp hbuild
    obtain ⟨image, himage⟩ := Option.isSome_iff_exists.mp himage
    exact startsInImage_of_published hsound hindex hfits hlayout hresult himage h
  · intro hstarts contents hsame result image hbuild himage
    refine rangesSound_of_startsInImage hsound hindex ⟨?_, hlayout.data, ?_⟩ ?_ hbuild himage
    · rw [hsame.base]
      exact hlayout.executable
    · rw [hsame.base, hsame.length]
      exact hlayout.image
    · rw [StartsInImage, hsame.base, hsame.length]
      exact hstarts

/-! ## A module with a section that is too long -/

instance (a b : ℕ × ℕ) : Decidable (RangesApart a b) :=
  inferInstanceAs (Decidable (_ ∨ _))

/-- An executable with four bytes of code. -/
def smallDol : List UInt8 :=
  toBytes 4 0x100 ++ List.replicate 0x44 0 ++ toBytes 4 0x80004000 ++ List.replicate 0x44 0 ++
    toBytes 4 4 ++ List.replicate 0x6C 0 ++ toBytes 4 0x4E800020

def smallDolFile : DolFile where
  sections := [⟨0, ".init", .text, 0x100, 0x80004000, 4, [0x4E, 0x80, 0x00, 0x20]⟩]
  entryPoint := 0
  bssAddress := 0
  bssSize := 0
  memoryStart := 0x80004000
  memoryEnd := 0x80004004

/-- A module with two executable sections of four bytes; the second gives its own size. -/
def twoCode (size : ℕ) : List UInt8 :=
  List.replicate 0x0C 0 ++ toBytes 4 3 ++ toBytes 4 0x48 ++ List.replicate 0x34 0 ++
    -- the section table
    List.replicate 8 0 ++ toBytes 4 0x61 ++ toBytes 4 4 ++ toBytes 4 0x65 ++ toBytes 4 size ++
    toBytes 4 0x4E800020 ++ toBytes 4 0x60000000

def twoCodeFile (size : ℕ) : RelFile where
  raw := twoCode size
  sections := [⟨0, 0xA0, 0, false⟩, ⟨1, 0x60, 4, true⟩, ⟨2, 0x64, BitVec.ofNat 32 size, true⟩]
  imports := []
  totalSize := 0xA0

def twoCodeImage (size : ℕ) (h : (twoCode size).length = 0x68) : RelImage where
  data := twoCode size ++ List.replicate 0x38 0
  baseAddress := 0x80004010
  fits := by
    rw [List.length_append, h]
    decide

def smallStarts : List (BitVec 32) :=
  [0x80004000, 0x80004070, 0x80004074, 0x80004078]

/-- The module with the true size is published as it should be. -/
theorem twoCode_published :
    Published {} smallDolFile (twoCodeFile 4) (twoCodeImage 4 (by decide +kernel)) smallStarts
      0x80004000 0x100 :=
  (published_iff smallDol (twoCode 4) (by decide +kernel)
    (by decide +kernel) ⟨by decide +kernel, by decide +kernel, by decide +kernel⟩
    (by decide +kernel) (by decide +kernel)).mpr (fun s hs _ _ => by
      simp only [twoCodeFile, List.mem_cons, List.not_mem_nil, or_false] at hs
      rcases hs with rfl | rfl | rfl <;> decide +kernel) _ ⟨rfl, rfl⟩

/-- With a size that reaches over the image, the code of the first section is published as that
of the second. -/
theorem twoCode_not_published :
    DolFile.load smallDol = some smallDolFile ∧
      RelFile.load (twoCode 0x200) = some (twoCodeFile 0x200) ∧
      RelFile.buildImage (twoCodeFile 0x200) 0x80004010 RelFile.dolBaseAddress true =
        some (twoCodeImage 0x200 (by decide +kernel)).data ∧
      LayoutAssumed smallDolFile (twoCodeFile 0x200) (twoCodeImage 0x200 (by decide +kernel)) ∧
      ¬ Published {} smallDolFile (twoCodeFile 0x200) (twoCodeImage 0x200 (by decide +kernel))
        smallStarts 0x80004000 0x100 := by
  refine ⟨by decide +kernel, by decide +kernel, by decide +kernel,
    ⟨by decide +kernel, by decide +kernel, by decide +kernel⟩, fun h => ?_⟩
  have hread : ((buildAndWrite {} smallDolFile (twoCodeFile 0x200)
      (twoCodeImage 0x200 (by decide +kernel)) smallStarts).bind fun result =>
        (ProgramImageBuilder.build smallDolFile (some (twoCodeImage 0x200 (by decide +kernel)))
          0x80004000 0x100).map fun image => result.functions.map fun f =>
            (result.rangeBytes {} f, imageBytes image f)) =
      some [(some [0x4E, 0x80, 0x00, 0x20], some [0x4E, 0x80, 0x00, 0x20]),
        (some [0x4E, 0x80, 0x00, 0x20], some [0x4E, 0x80, 0x00, 0x20]),
        (some [0x4E, 0x80, 0x00, 0x20], some [0x60, 0x00, 0x00, 0x00]), (none, none)] := by
    decide +kernel
  obtain ⟨result, hresult, hread⟩ := Option.bind_eq_some_iff.mp hread
  obtain ⟨image, himage, hread⟩ := Option.map_eq_some_iff.mp hread
  have hmem : (some [(0x4E : UInt8), 0x80, 0x00, 0x20], some [(0x60 : UInt8), 0x00, 0x00, 0x00]) ∈
      result.functions.map fun f => (result.rangeBytes {} f, imageBytes image f) := by
    rw [hread]
    simp
  obtain ⟨f, hf, hpair⟩ := List.mem_map.mp hmem
  obtain ⟨bytes, hbytes, himageBytes⟩ := (h result image hresult himage).bytes f hf
  rw [hbytes, himageBytes] at hpair
  obtain ⟨hleft, hright⟩ := Prod.mk.inj hpair
  exact absurd (hleft.symm.trans hright) (by decide)

end Wiicompiled.Mods.BaseManifestBuilder
