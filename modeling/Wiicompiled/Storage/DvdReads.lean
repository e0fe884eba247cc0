import Wiicompiled.Storage.DvdExtents
import Wiicompiled.Storage.DvdFstRoundTrip
import Wiicompiled.Storage.DvdPlacement

/-!
# Reads of published files

The published files are the last registrations of their paths.  They are found by their
starts, and the files behind the base table keep clear of all others, unless files of the
base table share a byte or an empty one ends the table where the first other file is put.
-/

namespace Wiicompiled.Storage.DvdFst

open LastMatch

/-- A registered entry that its path leads to, with the words it is published at. -/
structure Slot (index : FileIndex) (final : List DVDFileEntry) (entryNum : ℕ)
    (entry : DVDFileEntry) (words : BitVec 32) : Prop where
  current : index.Current entryNum entry
  placed : PlacedAt final entryNum entry words

/-- The first entry that the base table has no offset for. -/
def FirstSynthetic (index : FileIndex) (fstFiles : List FstFileEntry) (entryNum : ℕ)
    (entry : DVDFileEntry) : Prop :=
  ¬index.Real fstFiles entryNum entry ∧ ∀ before other, before < entryNum →
    index.fileEntries[before]? = some other → index.Real fstFiles before other

def registrationOf (entry : DVDFileEntry) : RegisteredFile :=
  ⟨entry.hostPath, entry.dvdPath, entry.size, entry.discOffsetWords⟩

def FileIndex.tableEnd (index : FileIndex) (fstFiles : List FstFileEntry) : ℕ :=
  firstFreeByte fstFiles (index.placed fstFiles)

/-- The registered files are placed, and an image is built of them. -/
structure Publication (index : FileIndex) (fstFiles : List FstFileEntry)
    (final : List DVDFileEntry) (image : Image) : Prop where
  registered : index.Registered
  placed : placeSynthetic (index.tableEnd fstFiles) (index.placed fstFiles) = .ok final
  built : buildImage (final.map registrationOf) = .ok image

/-- The files that the base table has no offset for do not overlap with any other file. -/
def SyntheticDisjoint (fstFiles : List FstFileEntry) (entries : List IndexedEntry) : Prop :=
  ∀ index entry otherIndex other, FileAt entries index entry →
    FileAt entries otherIndex other → index ≠ otherIndex →
      baseWords fstFiles (normalizeLookupPath entry.dvdPath) = 0 →
        entry.startBytes + max entry.size.toNat 1 ≤ other.startBytes ∨
          other.startBytes + max other.size.toNat 1 ≤ entry.startBytes

/-! ## Published files are current entries -/

section Published

variable {index : FileIndex} {fstFiles : List FstFileEntry} {final : List DVDFileEntry}
  {image : Image} {entryNum later place otherPlace : ℕ} {entry other : DVDFileEntry}
  {published : IndexedEntry} {words words' : BitVec 32} {path : Text} {file : RegisteredFile}

theorem exists_publication {reservedSize : ℕ} (hregistered : index.Registered)
    (h : buildAndPublishRuntimeFst index fstFiles reservedSize = .ok image) :
    ∃ final, Publication index fstFiles final image := by
  rw [buildAndPublishRuntimeFst] at h
  obtain ⟨final, hfinal, h⟩ := exists_ok_of_bind h
  refine ⟨final, hregistered, hfinal, ?_⟩
  dsimp only at h
  have hregistrations : (final.map fun entry =>
      (⟨entry.hostPath, entry.dvdPath, entry.size, entry.discOffsetWords⟩ :
        RegisteredFile)) = final.map registrationOf := rfl
  rw [hregistrations] at h
  cases hbuild : buildImage (final.map registrationOf) with
  | error error =>
      rw [hbuild] at h
      cases h
  | ok built =>
      rw [hbuild] at h
      dsimp only at h
      by_cases hlarge : reservedSize < built.bytes.length
      · rw [if_pos hlarge] at h
        cases h
      · rw [if_neg hlarge] at h
        cases h
        rfl

theorem unplaced_placedEntry_iff (hregistered : index.Registered)
    (hentry : index.fileEntries[entryNum]? = some entry) :
    (placedEntry index fstFiles entryNum entry).Unplaced ↔
      ¬index.Real fstFiles entryNum entry := by
  have hfresh := hregistered.of_mem (List.mem_of_getElem? hentry)
  by_cases hreal : index.Real fstFiles entryNum entry
  · rw [placedEntry_of_real hreal, DVDFileEntry.Unplaced]
    exact ⟨fun hfree => absurd (Or.inr hreal.2) hfree, fun hnot => absurd hreal hnot⟩
  · rw [placedEntry_of_not_real hregistered hentry hreal, DVDFileEntry.Unplaced]
    simp [hreal, hfresh.1, hfresh.2]

theorem placedEntry_with_words :
    ({ placedEntry index fstFiles entryNum entry with discOffsetWords := words } :
      DVDFileEntry) = { entry with discOffsetWords := words } := by
  rw [placedEntry]
  by_cases hcurrent : index.pathToEntry (normalizeLookupPath entry.dvdPath) = some entryNum
  · rw [if_pos hcurrent]
  · rw [if_neg hcurrent]

theorem offset_spec (h : Publication index fstFiles final image)
    (hentry : index.fileEntries[entryNum]? = some entry) :
    ∃ words, PlacedAt final entryNum entry words ∧
      (index.Real fstFiles entryNum entry →
        words = baseWords fstFiles (normalizeLookupPath entry.dvdPath)) ∧
      (¬index.Real fstFiles entryNum entry →
        alignUp (index.tableEnd fstFiles) ≤ words.toNat * 4) ∧
      (FirstSynthetic index fstFiles entryNum entry →
        words.toNat * 4 = alignUp (index.tableEnd fstFiles)) := by
  have hplaced : (index.placed fstFiles)[entryNum]? =
      some (placedEntry index fstFiles entryNum entry) := by
    rw [getElem?_placed h.registered, hentry]
    rfl
  have hunplaced : (placedEntry index fstFiles entryNum entry).Unplaced ↔
      ¬index.Real fstFiles entryNum entry := unplaced_placedEntry_iff h.registered hentry
  obtain ⟨words, hwords, hkept, hfree⟩ := placeSynthetic_spec h.placed hplaced
  refine ⟨words, ?_, fun hreal => ?_, fun hreal => (hfree (hunplaced.mpr hreal)).1,
    fun hfirst => ?_⟩
  · rw [PlacedAt, placedEntry_with_words] at hwords
    exact hwords
  · rw [hkept fun h => hunplaced.mp h hreal, placedEntry_of_real hreal]
  · refine (hfree (hunplaced.mpr hfirst.1)).2 fun before other hbefore hother hfree => ?_
    rw [getElem?_placed h.registered] at hother
    obtain ⟨source, hsource, rfl⟩ := Option.map_eq_some_iff.mp hother
    exact (unplaced_placedEntry_iff h.registered hsource).mp hfree
      (hfirst.2 before source hbefore hsource)

/-- Entries without an offset in the base table are placed in order. -/
theorem offset_disjoint (h : Publication index fstFiles final image)
    (hlater : entryNum < later) (hentry : index.fileEntries[entryNum]? = some entry)
    (hother : index.fileEntries[later]? = some other)
    (hreal : ¬index.Real fstFiles entryNum entry) (hreal' : ¬index.Real fstFiles later other)
    (hplaced : PlacedAt final entryNum entry words)
    (hplaced' : PlacedAt final later other words') :
    words.toNat * 4 + max entry.size.toNat 4 ≤ words'.toNat * 4 := by
  have hplacedEntry := placedEntry_of_not_real h.registered hentry hreal
  have hplacedOther := placedEntry_of_not_real h.registered hother hreal'
  refine placeSynthetic_disjoint h.placed hlater ?_ ?_ ?_ ?_ hplaced hplaced'
  · rw [getElem?_placed h.registered, hentry, Option.map_some, hplacedEntry]
  · rw [getElem?_placed h.registered, hother, Option.map_some, hplacedOther]
  · rw [← hplacedEntry]
    exact (unplaced_placedEntry_iff h.registered hentry).mpr hreal
  · rw [← hplacedOther]
    exact (unplaced_placedEntry_iff h.registered hother).mpr hreal'

theorem exists_registered (h : Publication index fstFiles final image) (hfile : final[entryNum]? = some other) :
    ∃ entry, index.fileEntries[entryNum]? = some entry ∧
      PlacedAt final entryNum entry other.discOffsetWords := by
  obtain ⟨hlt, -⟩ := List.getElem?_eq_some_iff.mp hfile
  rw [length_placeSynthetic h.placed] at hlt
  have hplaced : (index.placed fstFiles)[entryNum]? =
      index.fileEntries[entryNum]?.map (placedEntry index fstFiles entryNum) :=
    getElem?_placed h.registered
  rw [List.getElem?_eq_getElem hlt] at hplaced
  obtain ⟨entry, hentry, -⟩ := Option.map_eq_some_iff.mp hplaced.symm
  obtain ⟨words, hwords, -⟩ := offset_spec h hentry
  refine ⟨entry, hentry, ?_⟩
  have heq : other.discOffsetWords = words := by
    rw [PlacedAt, hfile, Option.some_inj] at hwords
    rw [hwords]
  rwa [heq]

theorem lastRegistration_eq_some_iff (h : Publication index fstFiles final image) :
    lastRegistration (final.map registrationOf) path = some file ↔
      ∃ entryNum entry words, Slot index final entryNum entry words ∧
        normalizeLookupPath entry.dvdPath = path ∧
        file = registrationOf { entry with discOffsetWords := words } := by
  rw [lastRegistration, getLast?_filter_eq_some_iff]
  constructor
  · rintro ⟨entryNum, hlast⟩
    have hfile := hlast.getElem?
    rw [List.getElem?_map] at hfile
    obtain ⟨placed, hplaced, rfl⟩ := Option.map_eq_some_iff.mp hfile
    obtain ⟨entry, hentry, hwords⟩ := exists_registered h hplaced
    have heq : placed = { entry with discOffsetWords := placed.discOffsetWords } :=
      Option.some.inj (hplaced.symm.trans hwords)
    have hpath : normalizeLookupPath entry.dvdPath = path := by
      have hholds := hlast.holds
      rw [heq] at hholds
      exact hholds
    refine ⟨entryNum, entry, placed.discOffsetWords, ⟨⟨hentry, ?_⟩, hwords⟩, hpath, ?_⟩
    · rw [hpath, h.registered.pathToEntry_eq_some_iff]
      refine ⟨entry, hlast.transfer hentry fun later other hother => ?_⟩
      obtain ⟨words, hplaced, -⟩ := offset_spec h hother
      exact ⟨_, by rw [List.getElem?_map, hplaced]; rfl, Iff.rfl⟩
    · rw [← heq]
  · rintro ⟨entryNum, entry, words, hslot, rfl, rfl⟩
    obtain ⟨source, hlast⟩ := h.registered.pathToEntry_eq_some_iff.mp hslot.current.2
    refine ⟨entryNum, hlast.transfer ?_ fun later other hother => ?_⟩
    · rw [List.getElem?_map, hslot.placed]
      rfl
    · rw [List.getElem?_map] at hother
      obtain ⟨placed, hplaced, rfl⟩ := Option.map_eq_some_iff.mp hother
      obtain ⟨entry', hentry', hwords⟩ := exists_registered h hplaced
      have heq : placed = { entry' with discOffsetWords := placed.discOffsetWords } :=
        Option.some.inj (hplaced.symm.trans hwords)
      refine ⟨entry', hentry', ?_⟩
      rw [heq]
      exact Iff.rfl

theorem exists_slot (h : Publication index fstFiles final image)
    (hfile : FileAt image.entries place published) :
    ∃ entryNum entry, Slot index final entryNum entry published.discOffsetWords ∧
      normalizeLookupPath entry.dvdPath = normalizeLookupPath published.dvdPath ∧
      entry.size = published.size := by
  have hentry : entryFile published = some ⟨published.hostPath,
      normalizeLookupPath published.dvdPath, published.size, published.discOffsetWords⟩ := by
    rw [entryFile, if_neg (by rw [hfile.2]; decide)]
  have hlast := (exists_entryFile_iff h.built).mp
    ⟨published, List.mem_of_getElem? hfile.1, hentry⟩
  obtain ⟨last, hlast, hform⟩ := Option.map_eq_some_iff.mp hlast
  obtain ⟨entryNum, entry, words, hslot, hpath, rfl⟩ :=
    (lastRegistration_eq_some_iff h).mp hlast
  have hwords : words = published.discOffsetWords :=
    congrArg RegisteredFile.discOffsetWords hform
  have hsize : entry.size = published.size := congrArg RegisteredFile.size hform
  rw [← hwords]
  exact ⟨entryNum, entry, hslot, hpath, hsize⟩

theorem exists_published (h : Publication index fstFiles final image)
    (hslot : Slot index final entryNum entry words) :
    ∃ place published, FileAt image.entries place published ∧
      normalizeLookupPath published.dvdPath = normalizeLookupPath entry.dvdPath ∧
      published.size = entry.size ∧ published.discOffsetWords = words := by
  have hlast := (lastRegistration_eq_some_iff h).mpr
    ⟨entryNum, entry, words, hslot, rfl, rfl⟩
  have hform : (lastRegistration (final.map registrationOf) (lookupForm (registrationOf
      { entry with discOffsetWords := words })).dvdPath).map lookupForm =
      some (lookupForm (registrationOf { entry with discOffsetWords := words })) :=
    congrArg (Option.map lookupForm) hlast
  obtain ⟨published, hmem, hfile⟩ := (exists_entryFile_iff h.built).mpr hform
  obtain ⟨place, hplace⟩ := List.mem_iff_getElem?.mp hmem
  rw [entryFile] at hfile
  by_cases hdirectory : published.isDirectory
  · rw [if_pos hdirectory] at hfile
    cases hfile
  · rw [if_neg hdirectory, Option.some_inj] at hfile
    exact ⟨place, published, ⟨hplace, by simpa using hdirectory⟩,
      congrArg RegisteredFile.dvdPath hfile, congrArg RegisteredFile.size hfile,
      congrArg RegisteredFile.discOffsetWords hfile⟩

end Published

/-! ## When the extents are clear of each other -/

/-- No file of the base table starts within the reach of another one, and the first entry
that the base table has no offset for is put neither at zero nor on an empty file. -/
structure Separate (index : FileIndex) (fstFiles : List FstFileEntry) (reach : ℕ → ℕ) :
    Prop where
  real : ∀ entryNum entry otherNum other, index.Real fstFiles entryNum entry →
    index.Real fstFiles otherNum other → otherNum ≠ entryNum → 0 < entry.size.toNat →
      ¬(baseStart fstFiles entry ≤ baseStart fstFiles other ∧
        baseStart fstFiles other ≤ baseStart fstFiles entry + reach entry.size.toNat)
  nonempty : ∀ entryNum entry, index.Current entryNum entry →
    FirstSynthetic index fstFiles entryNum entry → 0 < entry.size.toNat →
      (∃ fstFile ∈ fstFiles, 0 < fstFile.stop) ∨
        ∃ otherNum other, index.Real fstFiles otherNum other
  clear : ∀ entryNum entry, index.Current entryNum entry →
    FirstSynthetic index fstFiles entryNum entry →
      ∀ emptyNum empty, index.Real fstFiles emptyNum empty → empty.size = 0 →
        32 ∣ baseStart fstFiles empty →
          (∃ fstFile ∈ fstFiles, baseStart fstFiles empty < fstFile.stop) ∨
            ∃ otherNum other, index.Real fstFiles otherNum other ∧
              baseStart fstFiles empty < baseStart fstFiles other + other.size.toNat

section Slots

variable {index : FileIndex} {fstFiles : List FstFileEntry} {final : List DVDFileEntry}
  {image : Image} {entryNum otherNum : ℕ} {entry other : DVDFileEntry}
  {words words' : BitVec 32} {reach : ℕ → ℕ}

theorem Slot.entryNum_eq (hslot : Slot index final entryNum entry words)
    (hslot' : Slot index final otherNum other words')
    (hpath : normalizeLookupPath entry.dvdPath = normalizeLookupPath other.dvdPath) :
    entryNum = otherNum := by
  have hlead := hslot.current.2
  rw [hpath, hslot'.current.2, Option.some_inj] at hlead
  exact hlead.symm

theorem Slot.of_real (h : Publication index fstFiles final image)
    (hslot : Slot index final entryNum entry words)
    (hreal : index.Real fstFiles entryNum entry) :
    words.toNat * 4 = baseStart fstFiles entry ∧ words ≠ 0 ∧
      words.toNat * 4 + entry.size.toNat ≤ index.tableEnd fstFiles := by
  obtain ⟨placedWords, hplaced, hbase, -⟩ := offset_spec h hslot.current.1
  have hwords : words = baseWords fstFiles (normalizeLookupPath entry.dvdPath) :=
    (hslot.placed.words_eq hplaced).trans (hbase hreal)
  have hend := ((firstFreeByte_placed_le_iff h.registered).mp le_rfl).2 entryNum entry hreal
  rw [hwords]
  exact ⟨rfl, hreal.2, hend⟩

/-- A slot behind the base table: the first one is at its end, and the others are behind. -/
theorem Slot.of_not_real (h : Publication index fstFiles final image)
    (hslot : Slot index final entryNum entry words)
    (hreal : ¬index.Real fstFiles entryNum entry) :
    FirstSynthetic index fstFiles entryNum entry ∧
        words.toNat * 4 = alignUp (index.tableEnd fstFiles) ∨
      alignUp (index.tableEnd fstFiles) + 4 ≤ words.toNat * 4 := by
  obtain ⟨placedWords, hplaced, -, -, hfirst⟩ := offset_spec h hslot.current.1
  rw [← hslot.placed.words_eq hplaced] at hfirst
  by_cases hbefore : ∀ before other, before < entryNum →
      index.fileEntries[before]? = some other → index.Real fstFiles before other
  · exact Or.inl ⟨⟨hreal, hbefore⟩, hfirst ⟨hreal, hbefore⟩⟩
  · simp only [not_forall] at hbefore
    obtain ⟨before, other, hlt, hother, hnot⟩ := hbefore
    obtain ⟨otherWords, hotherPlaced, -, hbehind, -⟩ := offset_spec h hother
    have hnext := offset_disjoint h hlt hother hslot.current.1 hnot hreal hotherPlaced
      hslot.placed
    have hle := hbehind hnot
    omega

theorem Slot.le_of_not_real (h : Publication index fstFiles final image)
    (hslot : Slot index final entryNum entry words)
    (hreal : ¬index.Real fstFiles entryNum entry) :
    index.tableEnd fstFiles ≤ words.toNat * 4 := by
  have hle : index.tableEnd fstFiles ≤ alignUp (index.tableEnd fstFiles) := le_alignUp
  rcases hslot.of_not_real h hreal with ⟨-, heq⟩ | hbehind
  · rw [heq]
    exact hle
  · omega

theorem Slot.disjoint_of_not_real (h : Publication index fstFiles final image)
    (hslot : Slot index final entryNum entry words)
    (hslot' : Slot index final otherNum other words') (hne : otherNum ≠ entryNum)
    (hreal : ¬index.Real fstFiles entryNum entry)
    (hreal' : ¬index.Real fstFiles otherNum other) :
    words.toNat * 4 + max entry.size.toNat 4 ≤ words'.toNat * 4 ∨
      words'.toNat * 4 + max other.size.toNat 4 ≤ words.toNat * 4 := by
  rcases Nat.lt_or_gt_of_ne hne with hlt | hgt
  · exact Or.inr (offset_disjoint h hlt hslot'.current.1 hslot.current.1 hreal' hreal
      hslot'.placed hslot.placed)
  · exact Or.inl (offset_disjoint h hgt hslot.current.1 hslot'.current.1 hreal hreal'
      hslot.placed hslot'.placed)

def SlotsAlone (index : FileIndex) (final : List DVDFileEntry) (reach : ℕ → ℕ) : Prop :=
  ∀ entryNum entry words, Slot index final entryNum entry words → 0 < entry.size.toNat →
    words ≠ 0 ∧ ∀ otherNum other words', Slot index final otherNum other words' →
      otherNum ≠ entryNum → words' ≠ 0 →
        ¬(words.toNat * 4 ≤ words'.toNat * 4 ∧
          words'.toNat * 4 ≤ words.toNat * 4 + reach entry.size.toNat)

/-- Files behind the base table keep clear of all others. -/
def SlotsDisjoint (index : FileIndex) (fstFiles : List FstFileEntry)
    (final : List DVDFileEntry) : Prop :=
  ∀ entryNum entry words otherNum other words', Slot index final entryNum entry words →
    Slot index final otherNum other words' → otherNum ≠ entryNum →
      ¬index.Real fstFiles entryNum entry →
        words.toNat * 4 + max entry.size.toNat 1 ≤ words'.toNat * 4 ∨
          words'.toNat * 4 + max other.size.toNat 1 ≤ words.toNat * 4

theorem toNat_eq_zero_iff : words.toNat * 4 = 0 ↔ words = 0 := by
  rw [Nat.mul_eq_zero, or_iff_left (by decide), ← BitVec.toNat_inj]
  rfl

/-- An empty file of the base table does not start where the first other file is put. -/
theorem Separate.start_ne (h : Publication index fstFiles final image)
    (hseparate : Separate index fstFiles reach)
    (hslot : Slot index final entryNum entry words)
    (hfirst : FirstSynthetic index fstFiles entryNum entry)
    (hwords : words.toNat * 4 = alignUp (index.tableEnd fstFiles))
    (hslot' : Slot index final otherNum other words')
    (hreal : index.Real fstFiles otherNum other) (hempty : other.size.toNat = 0) :
    words'.toNat * 4 ≠ words.toNat * 4 := by
  intro heq
  obtain ⟨hstart, -, hend⟩ := hslot'.of_real h hreal
  have hle : index.tableEnd fstFiles ≤ alignUp (index.tableEnd fstFiles) := le_alignUp
  have haligned : 32 ∣ baseStart fstFiles other := by
    rw [← hstart, heq, hwords, alignUp]
    exact Nat.dvd_mul_left 32 _
  have hbound := (firstFreeByte_placed_le_iff h.registered).mp (le_refl (index.tableEnd fstFiles))
  rcases hseparate.clear entryNum entry hslot.current hfirst otherNum other hreal
      (BitVec.eq_of_toNat_eq hempty) haligned with
    ⟨fstFile, hmem, hlt⟩ | ⟨lastNum, last, hlast, hlt⟩
  · have hstop := hbound.1 fstFile hmem
    omega
  · have hstop := hbound.2 lastNum last hlast
    omega

theorem tableEnd_pos (h : Publication index fstFiles final image)
    (hsome : (∃ fstFile ∈ fstFiles, 0 < fstFile.stop) ∨
      ∃ otherNum other, index.Real fstFiles otherNum other) : 0 < index.tableEnd fstFiles := by
  have hbound := (firstFreeByte_placed_le_iff h.registered).mp (le_refl (index.tableEnd fstFiles))
  rcases hsome with ⟨fstFile, hmem, hpos⟩ | ⟨otherNum, other, hreal⟩
  · exact lt_of_lt_of_le hpos (hbound.1 fstFile hmem)
  · have hend := hbound.2 otherNum other hreal
    have hne : baseStart fstFiles other ≠ 0 := fun hzero => hreal.2 (toNat_eq_zero_iff.mp hzero)
    omega

theorem slotsAlone_of_separate (h : Publication index fstFiles final image)
    (hreach : ∀ size, 0 < size → reach size < size)
    (hseparate : Separate index fstFiles reach) : SlotsAlone index final reach := by
  intro entryNum entry words hslot hsize
  have hreachSize := hreach entry.size.toNat hsize
  refine ⟨?_, ?_⟩
  · by_cases hreal : index.Real fstFiles entryNum entry
    · exact (hslot.of_real h hreal).2.1
    · have hle : index.tableEnd fstFiles ≤ alignUp (index.tableEnd fstFiles) := le_alignUp
      intro hzero
      have hzero' := toNat_eq_zero_iff.mpr hzero
      rcases hslot.of_not_real h hreal with ⟨hfirst, heq⟩ | hbehind
      · have hpos := tableEnd_pos h
          (hseparate.nonempty entryNum entry hslot.current hfirst hsize)
        omega
      · omega
  · rintro otherNum other words' hslot' hne hwords' ⟨hle, hge⟩
    by_cases hreal : index.Real fstFiles entryNum entry
    · obtain ⟨hstart, -, hend⟩ := hslot.of_real h hreal
      by_cases hreal' : index.Real fstFiles otherNum other
      · obtain ⟨hstart', -, -⟩ := hslot'.of_real h hreal'
        rw [hstart, hstart'] at hle hge
        exact hseparate.real entryNum entry otherNum other hreal hreal' hne hsize ⟨hle, hge⟩
      · have hbehind := hslot'.le_of_not_real h hreal'
        omega
    · by_cases hreal' : index.Real fstFiles otherNum other
      · -- the other file is empty and ends the table where this one starts
        obtain ⟨-, -, hend'⟩ := hslot'.of_real h hreal'
        have hend : index.tableEnd fstFiles ≤ alignUp (index.tableEnd fstFiles) := le_alignUp
        rcases hslot.of_not_real h hreal with ⟨hfirst, heq⟩ | hbehind
        · exact hseparate.start_ne h hslot hfirst heq hslot' hreal' (by omega) (by omega)
        · omega
      · rcases hslot.disjoint_of_not_real h hslot' hne hreal hreal' with hbefore | hafter
        · omega
        · omega

theorem slotsDisjoint_of_separate (h : Publication index fstFiles final image)
    (hseparate : Separate index fstFiles reach) : SlotsDisjoint index fstFiles final := by
  intro entryNum entry words otherNum other words' hslot hslot' hne hreal
  by_cases hreal' : index.Real fstFiles otherNum other
  · obtain ⟨-, -, hend⟩ := hslot'.of_real h hreal'
    have hbehind := hslot.le_of_not_real h hreal
    by_cases hempty : other.size.toNat = 0
    · have hne' : words'.toNat * 4 ≠ words.toNat * 4 := by
        intro heq
        rcases hslot.of_not_real h hreal with ⟨hfirst, hwords⟩ | hfar
        · exact hseparate.start_ne h hslot hfirst hwords hslot' hreal' hempty heq
        · have hle : index.tableEnd fstFiles ≤ alignUp (index.tableEnd fstFiles) := le_alignUp
          omega
      omega
    · omega
  · rcases hslot.disjoint_of_not_real h hslot' hne hreal hreal' with hbefore | hafter
    · omega
    · omega

theorem separate_of_slots (h : Publication index fstFiles final image)
    (halone : SlotsAlone index final reach) (hdisjoint : SlotsDisjoint index fstFiles final) :
    Separate index fstFiles reach := by
  have hslot : ∀ entryNum entry, index.Current entryNum entry →
      ∃ words, Slot index final entryNum entry words := by
    intro entryNum entry hcurrent
    obtain ⟨words, hplaced, -⟩ := offset_spec h hcurrent.1
    exact ⟨words, hcurrent, hplaced⟩
  refine ⟨?_, ?_, ?_⟩
  · rintro entryNum entry otherNum other hreal hreal' hne hsize ⟨hle, hge⟩
    obtain ⟨words, hwords⟩ := hslot entryNum entry hreal.1
    obtain ⟨words', hwords'⟩ := hslot otherNum other hreal'.1
    obtain ⟨hstart, -, -⟩ := hwords.of_real h hreal
    obtain ⟨hstart', hne', -⟩ := hwords'.of_real h hreal'
    rw [← hstart, ← hstart'] at hle hge
    exact (halone entryNum entry words hwords hsize).2 otherNum other words' hwords' hne hne'
      ⟨hle, hge⟩
  · intro entryNum entry hcurrent hfirst hsize
    obtain ⟨words, hwords⟩ := hslot entryNum entry hcurrent
    obtain ⟨placedWords, hplaced, -, -, hstart⟩ := offset_spec h hcurrent.1
    by_contra hnone
    rw [not_or, not_exists, not_exists] at hnone
    have hzero : index.tableEnd fstFiles ≤ 0 := by
      refine (firstFreeByte_placed_le_iff h.registered).mpr ⟨fun fstFile hmem => ?_, ?_⟩
      · exact not_lt.mp fun hlt => hnone.1 fstFile ⟨hmem, hlt⟩
      · exact fun otherNum other hreal => absurd ⟨other, hreal⟩ (hnone.2 otherNum)
    refine (halone entryNum entry words hwords hsize).1 (toNat_eq_zero_iff.mp ?_)
    rw [hwords.placed.words_eq hplaced, hstart hfirst, alignUp]
    omega
  · intro entryNum entry hcurrent hfirst emptyNum empty hreal hempty haligned
    obtain ⟨words, hwords⟩ := hslot entryNum entry hcurrent
    obtain ⟨words', hwords'⟩ := hslot emptyNum empty hreal.1
    obtain ⟨placedWords, hplaced, -, -, hstart⟩ := offset_spec h hcurrent.1
    obtain ⟨hstart', -, hend⟩ := hwords'.of_real h hreal
    by_contra hnone
    rw [not_or, not_exists, not_exists] at hnone
    -- nothing ends behind the empty file, so the first other file is put on it
    have hle : index.tableEnd fstFiles ≤ baseStart fstFiles empty := by
      refine (firstFreeByte_placed_le_iff h.registered).mpr ⟨fun fstFile hmem => ?_, ?_⟩
      · exact not_lt.mp fun hlt => hnone.1 fstFile ⟨hmem, hlt⟩
      · exact fun otherNum other hother =>
          not_lt.mp fun hlt => hnone.2 otherNum ⟨other, hother, hlt⟩
    have hsame : words.toNat * 4 = baseStart fstFiles empty := by
      rw [hwords.placed.words_eq hplaced, hstart hfirst, alignUp]
      obtain ⟨multiple, hmultiple⟩ := haligned
      omega
    have hne : emptyNum ≠ entryNum := by
      rintro rfl
      have heq := hreal.1.1.symm.trans hcurrent.1
      cases heq
      exact hfirst.1 hreal
    have hzero : empty.size.toNat = 0 := by rw [hempty]; rfl
    rcases hdisjoint entryNum entry words emptyNum empty words' hwords hwords' hne hfirst.1 with
      hbefore | hafter
    · omega
    · omega

end Slots

/-! ## Published reads -/

section Reads

variable {index : FileIndex} {fstFiles : List FstFileEntry} {final : List DVDFileEntry}
  {image : Image} {place otherPlace : ℕ} {published other : IndexedEntry} {reach : ℕ → ℕ}

theorem FileAt.place_eq (h : Publication index fstFiles final image)
    (hfile : FileAt image.entries place published)
    (hother : FileAt image.entries otherPlace other)
    (hpath : normalizeLookupPath published.dvdPath = normalizeLookupPath other.dvdPath) :
    place = otherPlace := by
  have hplace := (pathToEntry_eq_some_iff h.built).mpr ⟨published, hfile.1, hpath⟩
  have hotherPlace := (pathToEntry_eq_some_iff h.built).mpr ⟨other, hother.1, rfl⟩
  exact Option.some.inj (hplace.symm.trans hotherPlace)

theorem slotsAlone_iff (h : Publication index fstFiles final image) :
    SlotsAlone index final reach ↔ ∀ place published, FileAt image.entries place published →
      0 < published.size.toNat → AloneUpTo image.entries place published
        (published.startBytes + reach published.size.toNat) := by
  constructor
  · intro halone place published hfile hsize
    obtain ⟨entryNum, entry, hslot, hpath, hsizeEq⟩ := exists_slot h hfile
    rw [← hsizeEq] at hsize
    obtain ⟨hwords, hothers⟩ := halone entryNum entry _ hslot hsize
    refine ⟨hwords, fun otherPlace other hother hne hwords' => ?_⟩
    obtain ⟨otherNum, otherEntry, hslot', hpath', -⟩ := exists_slot h hother
    rw [← hsizeEq]
    refine hothers otherNum otherEntry _ hslot' (fun heq => hne ?_) hwords'
    rw [heq] at hslot'
    have hentry := Option.some.inj (hslot'.current.1.symm.trans hslot.current.1)
    exact hother.place_eq h hfile (by rw [← hpath', hentry, hpath])
  · intro halone entryNum entry words hslot hsize
    obtain ⟨place, published, hfile, hpath, hsizeEq, rfl⟩ := exists_published h hslot
    rw [← hsizeEq] at hsize ⊢
    obtain ⟨hwords, hothers⟩ := halone place published hfile hsize
    refine ⟨hwords, fun otherNum otherEntry words' hslot' hne hwords' => ?_⟩
    obtain ⟨otherPlace, other, hother, hpath', -, rfl⟩ := exists_published h hslot'
    refine hothers otherPlace other hother (fun heq => hne ?_) hwords'
    rw [heq] at hother
    have hpublished := Option.some.inj (hother.1.symm.trans hfile.1)
    exact hslot'.entryNum_eq hslot (by rw [← hpath', hpublished, hpath])

theorem slotsDisjoint_iff (h : Publication index fstFiles final image) :
    SlotsDisjoint index fstFiles final ↔ SyntheticDisjoint fstFiles image.entries := by
  constructor
  · intro hdisjoint place published otherPlace other hfile hother hne hbase
    obtain ⟨entryNum, entry, hslot, hpath, hsize⟩ := exists_slot h hfile
    obtain ⟨otherNum, otherEntry, hslot', hpath', hsize'⟩ := exists_slot h hother
    rw [← hsize, ← hsize']
    refine hdisjoint entryNum entry _ otherNum otherEntry _ hslot hslot' (fun heq => hne ?_)
      fun hreal => hreal.2 (by rw [hpath, hbase])
    rw [heq] at hslot'
    have hentry := Option.some.inj (hslot'.current.1.symm.trans hslot.current.1)
    exact hfile.place_eq h hother (by rw [← hpath, ← hentry, hpath'])
  · intro hdisjoint entryNum entry words otherNum otherEntry words' hslot hslot' hne hreal
    obtain ⟨place, published, hfile, hpath, hsize, rfl⟩ := exists_published h hslot
    obtain ⟨otherPlace, other, hother, hpath', hsize', rfl⟩ := exists_published h hslot'
    rw [← hsize, ← hsize']
    refine hdisjoint place published otherPlace other hfile hother (fun heq => hne ?_) ?_
    · rw [heq] at hfile
      have hpublished := Option.some.inj (hother.1.symm.trans hfile.1)
      exact hslot'.entryNum_eq hslot (by rw [← hpath', hpublished, hpath])
    · rw [hpath]
      by_contra hbase
      exact hreal ⟨hslot.current, hbase⟩

/-- Reads through the handles of published files read these files, and the files behind the
base table are clear of all others, exactly when no file of the base table shares the start
of one with bytes and the first other file is well placed.  Reads at positions inside the
files do so exactly when no file of the base table starts inside another one either. -/
theorem published_reads_iff {reservedSize : ℕ} (hregistered : index.Registered)
    (h : buildAndPublishRuntimeFst index fstFiles reservedSize = .ok image) :
    (HandlesResolve image.entries ∧ SyntheticDisjoint fstFiles image.entries ↔
        Separate index fstFiles fun _ => 0) ∧
      (PositionsResolve image.entries ∧ SyntheticDisjoint fstFiles image.entries ↔
        Separate index fstFiles fun size => size - 1) := by
  obtain ⟨final, hpublication⟩ := exists_publication hregistered h
  have hseparate : ∀ reach : ℕ → ℕ, (∀ size, 0 < size → reach size < size) →
      ((∀ place published, FileAt image.entries place published →
        0 < published.size.toNat → AloneUpTo image.entries place published
          (published.startBytes + reach published.size.toNat)) ∧
        SyntheticDisjoint fstFiles image.entries ↔ Separate index fstFiles reach) := by
    intro reach hreach
    rw [← slotsAlone_iff hpublication, ← slotsDisjoint_iff hpublication]
    exact ⟨fun ⟨halone, hdisjoint⟩ => separate_of_slots hpublication halone hdisjoint,
      fun hseparate => ⟨slotsAlone_of_separate hpublication hreach hseparate,
        slotsDisjoint_of_separate hpublication hseparate⟩⟩
  refine ⟨?_, ?_⟩
  · rw [handlesResolve_iff]
    exact hseparate (fun _ => 0) fun _ hsize => hsize
  · rw [positionsResolve_iff, ← hseparate (fun size => size - 1) fun _ hsize => by omega]
    refine and_congr_left fun _ => forall₂_congr fun place published =>
      forall₂_congr fun _ hsize => ?_
    rw [Nat.add_sub_assoc hsize]

end Reads

/-! ## Sample tables -/

/-- The file `/a` of eight bytes, and the empty file `/b`. -/
def sampleIndex : FileIndex :=
  registerFileEntry (registerFileEntry .empty [slash, 0x61] [] 8) [slash, 0x62] [] 0

/-- A base table that has the two files at the given starts. -/
def sampleFiles (start emptyStart : ℕ) : List FstFileEntry :=
  [⟨emptyStart, emptyStart, 0, [slash, 0x62]⟩, ⟨start, start + 8, 8, [slash, 0x61]⟩]

theorem registered_sampleIndex : sampleIndex.Registered :=
  .register _ _ _ (.register _ _ _ .empty)

theorem published_reads_iff_sample :
    ∃ image, buildAndPublishRuntimeFst sampleIndex (sampleFiles 32 64) 100 = .ok image ∧
      (HandlesResolve image.entries ∧ SyntheticDisjoint (sampleFiles 32 64) image.entries ↔
        Separate sampleIndex (sampleFiles 32 64) fun _ => 0) := by
  obtain ⟨image, himage⟩ : ∃ image,
      buildAndPublishRuntimeFst sampleIndex (sampleFiles 32 64) 100 = .ok image := ⟨_, rfl⟩
  exact ⟨image, himage, (published_reads_iff registered_sampleIndex himage).1⟩

/-- An empty file that shares its start with another file hides it. -/
theorem shared_start_hides_file :
    ¬∀ index fstFiles reservedSize image, index.Registered →
      buildAndPublishRuntimeFst index fstFiles reservedSize = .ok image →
        HandlesResolve image.entries ∧ SyntheticDisjoint fstFiles image.entries := by
  intro h
  obtain ⟨image, himage⟩ : ∃ image,
      buildAndPublishRuntimeFst sampleIndex (sampleFiles 32 32) 100 = .ok image := ⟨_, rfl⟩
  have hresolve := (h _ _ _ image registered_sampleIndex himage).1
  have hentries : image.entries =
      [⟨[], [slash], 0, 0, 0, 3, true⟩, ⟨[], [slash, 0x61], 8, 8, 0, 2, false⟩,
        ⟨[], [slash, 0x62], 0, 8, 0, 3, false⟩] := by
    cases himage
    decide +kernel
  rw [hentries] at hresolve
  have hread := hresolve _ ⟨.rfl, by decide⟩ 1 _ ⟨rfl, rfl⟩ 8 0 (by decide) (by decide)
    (by decide) (by decide)
  exact absurd hread (by decide)

end Wiicompiled.Storage.DvdFst
