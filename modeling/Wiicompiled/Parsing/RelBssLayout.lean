import Wiicompiled.Parsing.RelFile
import Wiicompiled.Support.PartialMaps

/-!
# Where the zero-initialized sections lie

The sections without file bytes are placed one after the other behind the file, and end
before the declared total size.  The section table of an accepted file lies in the file,
since every entry of it is read; the import table does only if the sum of its offset and its
size does not wrap, because a wrapped table is accepted and read as empty.
-/

namespace Wiicompiled.Parsing.RelFile

open ByteImage PartialMaps

/-! ## Checked words -/

theorem toNat_of_checkedAdd {a b sum : BitVec 32} (h : checkedAdd a b = some sum) :
    sum.toNat = a.toNat + b.toNat := by
  obtain ⟨hlt, rfl⟩ := checkedAdd_eq_some.mp h
  rw [BitVec.toNat_add, Nat.mod_eq_of_lt hlt]

theorem add_le_length_of_readUInt32 {data : List UInt8} {offset : ℕ} {word : BitVec 32}
    (h : readUInt32 data offset = some word) : offset + 4 ≤ data.length :=
  (read_eq_some_iff.mp (readUInt32_eq_some_iff.mp h)).1

theorem toNat_le_and_not_add (value mask : BitVec 32) :
    value.toNat ≤ (value &&& ~~~mask).toNat + mask.toNat := by
  have hdisjoint : (value &&& ~~~mask) &&& (value &&& mask) = 0#32 := by
    ext i hi
    simp
    tauto
  have hunion : (value &&& ~~~mask) ||| (value &&& mask) = value := by
    ext i hi
    simp only [BitVec.getElem_or, BitVec.getElem_and, BitVec.getElem_not]
    by_cases hbit : mask[i] = true
    · simp [hbit]
    · simp [hbit]
  have hsum := BitVec.add_eq_or_of_and_eq_zero _ _ hdisjoint
  rw [hunion] at hsum
  have hle : (value &&& mask).toNat ≤ mask.toNat := by
    rw [BitVec.toNat_and]
    exact Nat.and_le_right
  have htotal := congrArg BitVec.toNat hsum
  rw [BitVec.toNat_add] at htotal
  omega

theorem le_alignUp {value alignment aligned : BitVec 32}
    (h : alignUp value alignment = some aligned) : value.toNat ≤ aligned.toNat := by
  rw [alignUp] at h
  by_cases hzero : alignment = 0
  · rw [if_pos hzero] at h
    rw [Option.some.inj h]
  · rw [if_neg hzero] at h
    split at h
    · exact absurd h.symm (Option.some_ne_none _)
    · rw [Option.map_eq_some_iff] at h
      obtain ⟨sum, hsum, rfl⟩ := h
      have hvalue := toNat_of_checkedAdd hsum
      have hclear := toNat_le_and_not_add sum (alignment - 1)
      omega

theorem le_calculateBssOffset {fileSize : ℕ} {offset : BitVec 32} (hsize : fileSize < 2 ^ 32)
    (h : calculateBssOffset fileSize = some offset) : fileSize ≤ offset.toNat := by
  rw [calculateBssOffset, Option.bind_eq_some_iff] at h
  obtain ⟨size, hadd, halign⟩ := h
  have hle := le_alignUp halign
  have hvalue := toNat_of_checkedAdd hadd
  rw [BitVec.toNat_ofNat, Nat.mod_eq_of_lt hsize] at hvalue
  omega

/-! ## The placed sections -/

/-- A section without file bytes. -/
def IsBss (bssSectionIndex : UInt8) (s : RelSection) : Prop :=
  s.fileOffset = 0 ∧ (s.size ≠ 0 ∨ s.index = bssSectionIndex.toNat)

instance (bssSectionIndex : UInt8) (s : RelSection) : Decidable (IsBss bssSectionIndex s) :=
  inferInstanceAs (Decidable (_ ∧ _))

/-- The first address behind a section. -/
def RelSection.endOffset (s : RelSection) : ℕ :=
  s.fileOffset.toNat + s.size.toNat

/-- The sections that the layout gives a place, of the table and of its layout. -/
def placedSections (bssSectionIndex : UInt8) : List RelSection → List RelSection → List RelSection
  | s :: table, t :: adjusted =>
      if IsBss bssSectionIndex s then t :: placedSections bssSectionIndex table adjusted
      else placedSections bssSectionIndex table adjusted
  | _, _ => []

/-- The layout changes only the places of sections without file bytes. -/
def Keeps (bssSectionIndex : UInt8) (s t : RelSection) : Prop :=
  t.index = s.index ∧ t.size = s.size ∧ t.executable = s.executable ∧
    (¬ IsBss bssSectionIndex s → t = s)

theorem relSection_eq_some {index : ℕ} {fileOffset size : BitVec 32} {executable : Bool}
    {s : RelSection} (h : relSection index fileOffset size executable = some s) :
    s = ⟨index, fileOffset, size, executable⟩ ∧ fileOffset.toNat + size.toNat < 2 ^ 32 := by
  rw [relSection, Option.map_eq_some_iff] at h
  obtain ⟨sum, hsum, rfl⟩ := h
  exact ⟨rfl, (checkedAdd_eq_some.mp hsum).1⟩

/-- What the cursor has passed when a table has been laid out. -/
structure LaidOut (bssSectionIndex : UInt8) (table adjusted : List RelSection)
    (start stop : ℕ) : Prop where
  keeps : List.Forall₂ (Keeps bssSectionIndex) table adjusted
  start_le_stop : start ≤ stop
  within : ∀ t ∈ placedSections bssSectionIndex table adjusted,
    start ≤ t.fileOffset.toNat ∧ t.endOffset ≤ stop
  disjoint : (placedSections bssSectionIndex table adjusted).Pairwise fun a b =>
    a.endOffset ≤ b.fileOffset.toNat

theorem laidOut_placeBss {bssSectionIndex : UInt8} {bssEnd : BitVec 32}
    {table adjusted : List RelSection} {cursor cursor' : BitVec 32}
    (h : placeBss bssSectionIndex bssEnd table cursor = some (adjusted, cursor')) :
    LaidOut bssSectionIndex table adjusted cursor.toNat cursor'.toNat := by
  induction table generalizing adjusted cursor with
  | nil =>
      obtain ⟨rfl, rfl⟩ := Prod.mk.inj (Option.some.inj h)
      exact ⟨.nil, le_refl _, fun t ht => absurd ht List.not_mem_nil, List.Pairwise.nil⟩
  | cons s table ih =>
      rw [placeBss] at h
      by_cases hplace : s.fileOffset = 0 ∧ (s.size ≠ 0 ∨ s.index = bssSectionIndex.toNat)
      · have hbss : IsBss bssSectionIndex s := hplace
        rw [if_pos hplace] at h
        simp only [Option.bind_eq_bind, Option.bind_eq_some_iff] at h
        obtain ⟨_, _, placed, hplaced, next, hnext, ⟨later, last⟩, hlater, heq⟩ := h
        obtain ⟨rfl, rfl⟩ := Prod.mk.inj (Option.some.inj heq)
        obtain ⟨rfl, _⟩ := relSection_eq_some hplaced
        have hvalue := toNat_of_checkedAdd hnext
        obtain ⟨hkeeps, hle, hwithin, hdisjoint⟩ := ih hlater
        have hsections : placedSections bssSectionIndex (s :: table)
            (⟨s.index, cursor, s.size, s.executable⟩ :: later) =
            ⟨s.index, cursor, s.size, s.executable⟩ ::
              placedSections bssSectionIndex table later := by
          rw [placedSections, if_pos hbss]
        refine ⟨.cons ⟨rfl, rfl, rfl, fun hnot => absurd hbss hnot⟩ hkeeps, by omega, ?_, ?_⟩
        · rw [hsections]
          have hstop : next.toNat ≤ last.toNat := hle
          intro t ht
          rcases List.mem_cons.mp ht with rfl | ht
          · simp only [RelSection.endOffset]
            omega
          · have hin := hwithin t ht
            omega
        · rw [hsections, List.pairwise_cons]
          refine ⟨fun t ht => ?_, hdisjoint⟩
          have hin := hwithin t ht
          simp only [RelSection.endOffset]
          omega
      · have hbss : ¬ IsBss bssSectionIndex s := hplace
        rw [if_neg hplace] at h
        simp only [Option.bind_eq_bind, Option.bind_eq_some_iff] at h
        obtain ⟨⟨later, last⟩, hlater, heq⟩ := h
        obtain ⟨rfl, rfl⟩ := Prod.mk.inj (Option.some.inj heq)
        obtain ⟨hkeeps, hle, hwithin, hdisjoint⟩ := ih hlater
        have hsections : placedSections bssSectionIndex (s :: table) (s :: later) =
            placedSections bssSectionIndex table later := by
          rw [placedSections, if_neg hbss]
        refine ⟨.cons ⟨rfl, rfl, rfl, fun _ => rfl⟩ hkeeps, hle, ?_, ?_⟩
        · rw [hsections]
          exact hwithin
        · rw [hsections]
          exact hdisjoint

/-- The layout ends before the declared size of the zero-initialized data does. -/
theorem laidOut_applyBssLayout {table adjusted : List RelSection} {bssSectionIndex : UInt8}
    {bssOffset bssSize totalSize : BitVec 32}
    (h : applyBssLayout table bssSectionIndex bssOffset bssSize = some adjusted)
    (htotal : checkedAdd bssOffset bssSize = some totalSize) :
    LaidOut bssSectionIndex table adjusted bssOffset.toNat totalSize.toNat := by
  rw [applyBssLayout, htotal] at h
  simp only [Option.bind_eq_bind, Option.bind_eq_some_iff, Option.some.injEq, exists_eq_left'] at h
  obtain ⟨⟨later, last⟩, hplace, ⟨_, hend, rfl⟩⟩ := h
  have hle : last.toNat ≤ totalSize.toNat := ensure_eq_some.mp hend
  obtain ⟨hkeeps, hcursor, hwithin, hdisjoint⟩ := laidOut_placeBss hplace
  refine ⟨hkeeps, by omega, fun t ht => ?_, hdisjoint⟩
  have hin := hwithin t ht
  omega

/-! ## The sections of a loaded file -/

theorem parseSections_sections {raw : List UInt8} {offset count : BitVec 32}
    {table : List RelSection} (h : parseSections raw offset count = some table) :
    table.map RelSection.index = List.range count.toNat ∧
      ∀ s ∈ table, s.fileOffset.toNat + s.size.toNat < 2 ^ 32 := by
  rw [parseSections] at h
  split_ifs at h
  constructor
  · conv_rhs => rw [← List.map_id (List.range count.toNat)]
    refine map_of_mapM h fun i _ s hs => ?_
    simp only [Option.bind_eq_bind, Option.bind_eq_some_iff] at hs
    obtain ⟨_, _, _, _, _, _, hs⟩ := hs
    rw [(relSection_eq_some hs).1]
    rfl
  · intro s hs
    obtain ⟨i, -, hread⟩ := mem_of_mapM h hs
    simp only [Option.bind_eq_bind, Option.bind_eq_some_iff] at hread
    obtain ⟨_, _, _, _, _, _, hread⟩ := hread
    obtain ⟨rfl, hfits⟩ := relSection_eq_some hread
    exact hfits

/-- Placing sections keeps their numbers, and places none across the end of the addresses. -/
theorem placeBss_sections {bssSectionIndex : UInt8} {bssEnd : BitVec 32}
    {table adjusted : List RelSection} {cursor cursor' : BitVec 32}
    (h : placeBss bssSectionIndex bssEnd table cursor = some (adjusted, cursor'))
    (hfits : ∀ s ∈ table, s.fileOffset.toNat + s.size.toNat < 2 ^ 32) :
    adjusted.map RelSection.index = table.map RelSection.index ∧
      ∀ s ∈ adjusted, s.fileOffset.toNat + s.size.toNat < 2 ^ 32 := by
  induction table generalizing adjusted cursor with
  | nil =>
      obtain ⟨rfl, rfl⟩ := Prod.mk.inj (Option.some.inj h)
      exact ⟨rfl, hfits⟩
  | cons s table ih =>
      have hrest := fun t ht => hfits t (List.mem_cons_of_mem s ht)
      rw [placeBss] at h
      split_ifs at h
      · simp only [Option.bind_eq_bind, Option.bind_eq_some_iff] at h
        obtain ⟨_, _, placed, hplaced, next, hnext, ⟨later, last⟩, hlater, heq⟩ := h
        obtain ⟨rfl, rfl⟩ := Prod.mk.inj (Option.some.inj heq)
        obtain ⟨rfl, hplacedFits⟩ := relSection_eq_some hplaced
        obtain ⟨hindex, hall⟩ := ih hlater hrest
        exact ⟨by rw [List.map_cons, List.map_cons, hindex],
          List.forall_mem_cons.mpr ⟨hplacedFits, hall⟩⟩
      · simp only [Option.bind_eq_bind, Option.bind_eq_some_iff] at h
        obtain ⟨⟨later, last⟩, hlater, heq⟩ := h
        obtain ⟨rfl, rfl⟩ := Prod.mk.inj (Option.some.inj heq)
        obtain ⟨hindex, hall⟩ := ih hlater hrest
        exact ⟨by rw [List.map_cons, List.map_cons, hindex],
          List.forall_mem_cons.mpr ⟨hfits s List.mem_cons_self, hall⟩⟩

/-- The sections have numbers of their own and lie below the end of the addresses. -/
theorem sections_of_load {raw : List UInt8} {file : RelFile} (h : load raw = some file) :
    (file.sections.map RelSection.index).Nodup ∧
      ∀ s ∈ file.sections, s.fileOffset.toNat + s.size.toNat < 2 ^ 32 := by
  rw [load] at h
  -- the words of the header before the table of the sections
  iterate 10 obtain ⟨_, -, h⟩ := Option.bind_eq_some_iff.mp h
  obtain ⟨table, htable, h⟩ := Option.bind_eq_some_iff.mp h
  obtain ⟨_, -, h⟩ := Option.bind_eq_some_iff.mp h
  obtain ⟨_, -, h⟩ := Option.bind_eq_some_iff.mp h
  obtain ⟨_, -, h⟩ := Option.bind_eq_some_iff.mp h
  obtain ⟨adjusted, hadjusted, h⟩ := Option.bind_eq_some_iff.mp h
  obtain ⟨_, -, hfile⟩ := Option.bind_eq_some_iff.mp h
  obtain rfl := Option.some.inj hfile
  obtain ⟨hindex, hfits⟩ := parseSections_sections htable
  simp only [applyBssLayout, Option.bind_eq_bind, Option.bind_eq_some_iff] at hadjusted
  obtain ⟨_, _, ⟨placed, _⟩, hplaced, _, _, heq⟩ := hadjusted
  obtain rfl := Option.some.inj heq
  obtain ⟨hplacedIndex, hplacedFits⟩ := placeBss_sections hplaced hfits
  refine ⟨?_, hplacedFits⟩
  rw [hplacedIndex, hindex]
  exact List.nodup_range

/-! ## The tables -/

theorem add_le_length_of_parseSections {raw : List UInt8} {offset count : BitVec 32}
    {table : List RelSection} (hraw : raw.length < 2 ^ 31)
    (h : parseSections raw offset count = some table) (hcount : 0 < count.toNat) :
    offset.toNat + 8 * count.toNat ≤ raw.length := by
  rw [parseSections] at h
  split at h
  · rename_i hsmall
    have hentry : ∀ i, i < count.toNat →
        (offset + BitVec.ofNat 32 (i * 8)).toNat < 2 ^ 31 ∧
          (offset + BitVec.ofNat 32 (i * 8)).toNat + 8 ≤ raw.length := by
      intro i hi
      obtain ⟨s, -, hs⟩ := exists_of_mem_mapM h (List.mem_range.mpr hi)
      simp only [Option.bind_eq_bind, Option.bind_eq_some_iff] at hs
      obtain ⟨entryOffset, hentry, _, _, _, hsize, _⟩ := hs
      obtain ⟨hlt, rfl⟩ := checkedInt_eq_some.mp hentry
      have hread := add_le_length_of_readUInt32 hsize
      exact ⟨hlt, by omega⟩
    -- No entry before the last is read behind the file, so the offset never wraps.
    have hplain : ∀ i, i < count.toNat →
        (offset + BitVec.ofNat 32 (i * 8)).toNat = offset.toNat + 8 * i := by
      intro i
      induction i with
      | zero =>
          intro _
          simp
      | succ i ih =>
          intro hi
          have hbefore := ih (by omega)
          have hin := hentry i (by omega)
          rw [BitVec.toNat_add, BitVec.toNat_ofNat]
          omega
    have hlast := hentry (count.toNat - 1) (by omega)
    rw [hplain (count.toNat - 1) (by omega)] at hlast
    omega
  · exact absurd h.symm (Option.some_ne_none _)

/-! ## Accepted files -/

def sectionTable (raw : List UInt8) : Option (List RelSection) := do
  let sectionCount ← readUInt32 raw 0x0C
  let sectionTableOffset ← readUInt32 raw 0x10
  parseSections raw sectionTableOffset sectionCount

def SectionTableInside (raw : List UInt8) : Prop :=
  ∃ sectionCount sectionTableOffset, readUInt32 raw 0x0C = some sectionCount ∧
    readUInt32 raw 0x10 = some sectionTableOffset ∧
    sectionTableOffset.toNat + 8 * sectionCount.toNat ≤ raw.length

/-- The words of the header that give the import table, and their sum as numbers. -/
def ImportTableEnd (raw : List UInt8) (stop : ℕ) : Prop :=
  ∃ importTableOffset importTableSize, readUInt32 raw 0x28 = some importTableOffset ∧
    readUInt32 raw 0x2C = some importTableSize ∧
    importTableOffset.toNat + importTableSize.toNat = stop

def ImportTableInside (raw : List UInt8) : Prop :=
  ∃ stop, ImportTableEnd raw stop ∧ stop ≤ raw.length

/-- Every section with file bytes lies in the file. -/
def FileBackedInside (raw : List UInt8) : Prop :=
  ∀ table bssSectionIndex, sectionTable raw = some table → raw[0x33]? = some bssSectionIndex →
    ∀ s ∈ table, ¬ IsBss bssSectionIndex s → s.endOffset ≤ raw.length

/-- The sections of an accepted file: those without file bytes lie apart from each other,
behind the file and with it behind all other sections, and inside of the total size. -/
structure SectionsDisjoint (file : RelFile) (bssSectionIndex : UInt8)
    (table : List RelSection) : Prop where
  keeps : List.Forall₂ (Keeps bssSectionIndex) table file.sections
  disjoint : (placedSections bssSectionIndex table file.sections).Pairwise fun a b =>
    a.endOffset ≤ b.fileOffset.toNat
  after_file : ∀ t ∈ placedSections bssSectionIndex table file.sections,
    file.raw.length ≤ t.fileOffset.toNat
  after_sections : ∀ t ∈ placedSections bssSectionIndex table file.sections,
    ∀ s ∈ table, ¬ IsBss bssSectionIndex s → s.endOffset ≤ t.fileOffset.toNat
  in_total : ∀ t ∈ placedSections bssSectionIndex table file.sections,
    t.endOffset ≤ file.totalSize.toNat

/-- The layout of an accepted file is disjoint, and its tables lie in it. -/
def LoadSound (raw : List UInt8) (file : RelFile) : Prop :=
  (∃ table bssSectionIndex, sectionTable raw = some table ∧
    raw[0x33]? = some bssSectionIndex ∧ SectionsDisjoint file bssSectionIndex table) ∧
  SectionTableInside raw ∧ ImportTableInside raw

theorem load_sections {raw : List UInt8} {file : RelFile} (hload : load raw = some file)
    (hbacked : FileBackedInside raw) :
    (∃ table bssSectionIndex, sectionTable raw = some table ∧
      raw[0x33]? = some bssSectionIndex ∧ SectionsDisjoint file bssSectionIndex table) ∧
    SectionTableInside raw ∧
    ∃ importTableOffset importTableSize, readUInt32 raw 0x28 = some importTableOffset ∧
      readUInt32 raw 0x2C = some importTableSize ∧
      (importTableOffset + importTableSize).toNat ≤ raw.length := by
  rw [load] at hload
  obtain ⟨_, hlength, hload⟩ := Option.bind_eq_some_iff.mp hload
  obtain ⟨sectionCount, hcount, hload⟩ := Option.bind_eq_some_iff.mp hload
  obtain ⟨sectionTableOffset, htableOffset, hload⟩ := Option.bind_eq_some_iff.mp hload
  obtain ⟨bssSize, _, hload⟩ := Option.bind_eq_some_iff.mp hload
  obtain ⟨importTableOffset, himportOffset, hload⟩ := Option.bind_eq_some_iff.mp hload
  obtain ⟨importTableSize, himportSize, hload⟩ := Option.bind_eq_some_iff.mp hload
  obtain ⟨bssSectionIndex, hindex, hload⟩ := Option.bind_eq_some_iff.mp hload
  obtain ⟨bssAlign, _, hload⟩ := Option.bind_eq_some_iff.mp hload
  obtain ⟨_, htable, hload⟩ := Option.bind_eq_some_iff.mp hload
  obtain ⟨_, himport, hload⟩ := Option.bind_eq_some_iff.mp hload
  obtain ⟨table, hsections, hload⟩ := Option.bind_eq_some_iff.mp hload
  obtain ⟨bssStart, hstart, hload⟩ := Option.bind_eq_some_iff.mp hload
  obtain ⟨bssOffset, hoffset, hload⟩ := Option.bind_eq_some_iff.mp hload
  obtain ⟨totalSize, htotal, hload⟩ := Option.bind_eq_some_iff.mp hload
  obtain ⟨adjusted, hadjusted, hload⟩ := Option.bind_eq_some_iff.mp hload
  obtain ⟨imports, _, hfile⟩ := Option.bind_eq_some_iff.mp hload
  obtain rfl := Option.some.inj hfile
  have hlength := ensure_eq_some.mp hlength
  have htable := ensure_eq_some.mp htable
  have himport := ensure_eq_some.mp himport
  rw [maxArrayLength] at hlength
  have hbefore : raw.length ≤ bssOffset.toNat :=
    le_trans (le_calculateBssOffset (by omega) hstart) (le_alignUp hoffset)
  obtain ⟨hkeeps, _, hwithin, hdisjoint⟩ := laidOut_applyBssLayout hadjusted htotal
  have hsectionTable : sectionTable raw = some table := by
    rw [sectionTable, hcount, htableOffset]
    exact hsections
  refine ⟨⟨table, bssSectionIndex, hsectionTable, hindex, hkeeps, hdisjoint, ?_, ?_, ?_⟩, ?_,
    importTableOffset, importTableSize, himportOffset, himportSize, himport⟩
  · intro t ht
    exact le_trans hbefore (hwithin t ht).1
  · intro t ht s hs hnot
    have hend := hbacked table bssSectionIndex hsectionTable hindex s hs hnot
    exact le_trans hend (le_trans hbefore (hwithin t ht).1)
  · exact fun t ht => (hwithin t ht).2
  · refine ⟨sectionCount, sectionTableOffset, hcount, htableOffset, ?_⟩
    rcases Nat.eq_zero_or_pos sectionCount.toNat with hzero | hpos
    · have hnone : sectionCount = 0#32 := BitVec.eq_of_toNat_eq (by rw [hzero]; rfl)
      rw [hnone] at htable
      simpa [hzero] using htable
    · exact add_le_length_of_parseSections (by omega) hsections hpos

/-- The sections of an accepted file are laid out apart from each other, and its tables lie
in it, exactly when the sum of offset and size of its import table does not wrap. -/
theorem loadSound_iff {raw : List UInt8} {file : RelFile} (hload : load raw = some file)
    (hbacked : FileBackedInside raw) :
    LoadSound raw file ↔ ∃ stop, ImportTableEnd raw stop ∧ stop < 2 ^ 32 := by
  obtain ⟨hsections, htable, offset, size, hoffset, hsize, hsum⟩ := load_sections hload hbacked
  have hlength : raw.length ≤ maxArrayLength := by
    obtain ⟨_, hlength, _⟩ := Option.bind_eq_some_iff.mp hload
    exact ensure_eq_some.mp hlength
  rw [maxArrayLength] at hlength
  constructor
  · rintro ⟨_, _, stop, hstop, hle⟩
    exact ⟨stop, hstop, by omega⟩
  · rintro ⟨stop, ⟨offset', size', hoffset', hsize', hstop⟩, hlt⟩
    obtain rfl := Option.some.inj (hoffset.symm.trans hoffset')
    obtain rfl := Option.some.inj (hsize.symm.trans hsize')
    refine ⟨hsections, htable, stop, ⟨offset, size, hoffset, hsize, hstop⟩, ?_⟩
    rw [BitVec.toNat_add, Nat.mod_eq_of_lt (by omega)] at hsum
    omega

/-! ## A wrapped import table -/

/-- A module with a code section of four bytes and two zero-initialized sections, and with
the given import table. -/
def twoBss (importTableOffset importTableSize : ℕ) : List UInt8 :=
  List.replicate 0x0C 0 ++ toBytes 4 4 ++ toBytes 4 0x48 ++ List.replicate 0x0C 0 ++
    toBytes 4 0x30 ++ List.replicate 4 0 ++
    toBytes 4 importTableOffset ++ toBytes 4 importTableSize ++ List.replicate 0x18 0 ++
    -- the section table
    List.replicate 8 0 ++ toBytes 4 0x69 ++ toBytes 4 4 ++
    toBytes 4 0 ++ toBytes 4 0x10 ++ toBytes 4 0 ++ toBytes 4 0x20 ++
    -- the code section
    toBytes 4 0x4E800020

def twoBssFile (importTableOffset importTableSize : ℕ) : RelFile where
  raw := twoBss importTableOffset importTableSize
  sections := [⟨0, 0xA0, 0, false⟩, ⟨1, 0x68, 4, true⟩, ⟨2, 0xA0, 0x10, false⟩,
    ⟨3, 0xB0, 0x20, false⟩]
  imports := []
  totalSize := 0xD0

theorem twoBss_fileBackedInside {importTableOffset importTableSize : ℕ}
    (htable : sectionTable (twoBss importTableOffset importTableSize) =
      some [⟨0, 0, 0, false⟩, ⟨1, 0x68, 4, true⟩, ⟨2, 0, 0x10, false⟩, ⟨3, 0, 0x20, false⟩])
    (hlength : (twoBss importTableOffset importTableSize).length = 0x6C) :
    FileBackedInside (twoBss importTableOffset importTableSize) := by
  intro table bssSectionIndex hsections _ s hs hnot
  obtain rfl := Option.some.inj (htable.symm.trans hsections)
  rw [hlength]
  simp only [List.mem_cons, List.not_mem_nil, or_false] at hs
  rcases hs with rfl | rfl | rfl | rfl <;> decide

/-- The module without imports is laid out as it should be. -/
theorem twoBss_loadSound : LoadSound (twoBss 0 0) (twoBssFile 0 0) :=
  (loadSound_iff (by decide +kernel)
    (twoBss_fileBackedInside (by decide +kernel) (by decide +kernel))).mpr
    ⟨0, ⟨0, 0, by decide +kernel, by decide +kernel, rfl⟩, by decide⟩

/-- An import table of 0x10 bytes that begins 8 bytes before the end of the address space is
accepted, and read as empty. -/
theorem twoBss_not_loadSound :
    load (twoBss 0xFFFFFFF8 0x10) = some (twoBssFile 0xFFFFFFF8 0x10) ∧
      FileBackedInside (twoBss 0xFFFFFFF8 0x10) ∧
      ¬ LoadSound (twoBss 0xFFFFFFF8 0x10) (twoBssFile 0xFFFFFFF8 0x10) := by
  have hlength : (twoBss 0xFFFFFFF8 0x10).length = 0x6C := by decide +kernel
  have hoffset : readUInt32 (twoBss 0xFFFFFFF8 0x10) 0x28 = some 0xFFFFFFF8 := by
    decide +kernel
  have hsize : readUInt32 (twoBss 0xFFFFFFF8 0x10) 0x2C = some 0x10 := by decide +kernel
  refine ⟨by decide +kernel, twoBss_fileBackedInside (by decide +kernel) hlength, ?_⟩
  rintro ⟨_, _, stop, ⟨offset, size, hoffset', hsize', hstop⟩, hinside⟩
  obtain rfl := Option.some.inj (hoffset.symm.trans hoffset')
  obtain rfl := Option.some.inj (hsize.symm.trans hsize')
  rw [hlength, ← hstop] at hinside
  exact absurd hinside (by decide)

end Wiicompiled.Parsing.RelFile
