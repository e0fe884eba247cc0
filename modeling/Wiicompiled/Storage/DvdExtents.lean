import Wiicompiled.Storage.DvdPublish

/-!
# Lookups in published extents

A read finds its file by the last extent that starts up to the position.  Extents with one
start are in any order, so the file is found in every order only if no other file starts
between its own start and the position.
-/

namespace Wiicompiled.Storage.DvdFst

open SortedLookup

/-- The orders of the extents that sorting by their starts can leave. -/
abbrev SortedExtents (entries : List IndexedEntry) (extents : List PublishedExtent) : Prop :=
  Arranged PublishedExtent.startBytes (publishedExtents entries) extents

def FileAt (entries : List IndexedEntry) (index : ℕ) (entry : IndexedEntry) : Prop :=
  entries[index]? = some entry ∧ entry.isDirectory = false

/-- The first byte of a file. -/
def IndexedEntry.startBytes (entry : IndexedEntry) : ℕ :=
  entry.discOffsetWords.toNat * 4

/-- No other published file starts from the start of a file up to a position. -/
def AloneUpTo (entries : List IndexedEntry) (index : ℕ) (entry : IndexedEntry)
    (position : ℕ) : Prop :=
  entry.discOffsetWords ≠ 0 ∧ ∀ otherIndex other, FileAt entries otherIndex other →
    otherIndex ≠ index → other.discOffsetWords ≠ 0 →
      ¬(entry.startBytes ≤ other.startBytes ∧ other.startBytes ≤ position)

section Extents

variable {entries : List IndexedEntry} {extents : List PublishedExtent}
  {extent : PublishedExtent} {index position : ℕ} {entry : IndexedEntry}

theorem mem_publishedExtents_iff :
    extent ∈ publishedExtents entries ↔
      ∃ index entry, FileAt entries index entry ∧ entry.discOffsetWords ≠ 0 ∧
        extent = ⟨entry.startBytes, entry.startBytes + max entry.size.toNat 1, index⟩ := by
  rw [publishedExtents, List.mem_filterMap]
  constructor
  · rintro ⟨⟨entry, index⟩, hmem, hextent⟩
    have hentry := List.mk_mem_zipIdx_iff_getElem?.mp hmem
    rw [publishedExtent] at hextent
    by_cases hskip : entry.isDirectory ∨ entry.discOffsetWords = 0
    · rw [if_pos hskip] at hextent
      cases hextent
    · rw [if_neg hskip, Option.some_inj] at hextent
      rw [not_or, Bool.not_eq_true] at hskip
      exact ⟨index, entry, ⟨hentry, hskip.1⟩, hskip.2, hextent.symm⟩
  · rintro ⟨index, entry, ⟨hentry, hfile⟩, hwords, rfl⟩
    refine ⟨(entry, index), List.mk_mem_zipIdx_iff_getElem?.mpr hentry, ?_⟩
    rw [publishedExtent, if_neg]
    · rfl
    · rw [not_or, Bool.not_eq_true]
      exact ⟨hfile, hwords⟩

theorem find_of_alone (hsorted : SortedExtents entries extents)
    (hfile : FileAt entries index entry) (halone : AloneUpTo entries index entry position)
    (hstart : entry.startBytes ≤ position)
    (hend : position < entry.startBytes + max entry.size.toNat 1) :
    findPublishedExtentForByteOffset extents position =
      some ⟨entry.startBytes, entry.startBytes + max entry.size.toNat 1, index⟩ := by
  have hmem := mem_publishedExtents_iff.mpr ⟨index, entry, hfile, halone.1, rfl⟩
  have hlast := lastUpTo_of_unique hsorted hmem hstart (by
    intro other hother hne hbound
    obtain ⟨otherIndex, otherEntry, hotherFile, hwords, rfl⟩ := mem_publishedExtents_iff.mp hother
    have hindex : otherIndex ≠ index := by
      rintro rfl
      have heq := hfile.1.symm.trans hotherFile.1
      cases heq
      exact hne rfl
    have hbetween := halone.2 otherIndex otherEntry hotherFile hindex hwords
    dsimp only at hbound ⊢
    omega)
  rw [findPublishedExtentForByteOffset, hlast]
  exact if_pos ⟨hstart, hend⟩

theorem exists_file_of_find (hsorted : SortedExtents entries extents)
    (hfound : findPublishedExtentForByteOffset extents position = some extent) :
    ∃ entry, FileAt entries extent.entryIndex entry ∧ entry.discOffsetWords ≠ 0 := by
  rw [findPublishedExtentForByteOffset] at hfound
  cases hlast : lastUpTo PublishedExtent.startBytes position extents with
  | none =>
      rw [hlast] at hfound
      cases hfound
  | some last =>
      rw [hlast] at hfound
      dsimp only at hfound
      obtain ⟨index, entry, hfile, hwords, heq⟩ :=
        mem_publishedExtents_iff.mp (lastUpTo_eq_some hsorted hlast).1
      by_cases hinside : last.startBytes ≤ position ∧ position < last.endBytes
      · rw [if_pos hinside, Option.some_inj] at hfound
        rw [← hfound, heq]
        exact ⟨entry, hfile, hwords⟩
      · rw [if_neg hinside] at hfound
        cases hfound

theorem exists_sorted_find (hfile : FileAt entries index entry)
    (hwords : entry.discOffsetWords ≠ 0) :
    ∃ extents, SortedExtents entries extents ∧
      findPublishedExtentForByteOffset extents entry.startBytes =
        some ⟨entry.startBytes, entry.startBytes + max entry.size.toNat 1, index⟩ := by
  have hmem := mem_publishedExtents_iff.mpr ⟨index, entry, hfile, hwords, rfl⟩
  have hbound : PublishedExtent.startBytes ⟨entry.startBytes,
      entry.startBytes + max entry.size.toNat 1, index⟩ ≤ entry.startBytes := le_rfl
  obtain ⟨extents, hsorted, hlast⟩ := exists_lastUpTo hmem hbound fun _ _ hle => hle
  refine ⟨extents, hsorted, ?_⟩
  rw [findPublishedExtentForByteOffset, hlast]
  exact if_pos ⟨le_rfl, by dsimp only; omega⟩

end Extents

/-! ## Reads -/

/-- Every read through the handle of a file, in the range of the file, reads the file. -/
def HandlesResolve (entries : List IndexedEntry) : Prop :=
  ∀ extents, SortedExtents entries extents → ∀ index entry, FileAt entries index entry →
    ∀ length offset : BitVec 32, 0 ≤ length.toInt → 0 ≤ offset.toInt →
      offset.toNat < entry.size.toNat → offset.toNat + length.toNat ≤ entry.size.toNat →
        dvdReadPrio entries extents entry.discOffsetWords length offset =
          some ⟨index, offset.toNat, length.toNat⟩

/-- Every read at a position inside a file, in the range of the file, reads the file:
through a handle at a word of the file, or at an absolute byte. -/
structure PositionsResolve (entries : List IndexedEntry) : Prop where
  handle : ∀ extents, SortedExtents entries extents → ∀ index entry, FileAt entries index entry →
    ∀ (startWords length offset : BitVec 32) (bias : ℕ), 0 ≤ length.toInt → 0 ≤ offset.toInt →
      startWords.toNat * 4 = entry.startBytes + bias →
      bias + offset.toNat < entry.size.toNat →
      bias + offset.toNat + length.toNat ≤ entry.size.toNat →
        dvdReadPrio entries extents startWords length offset =
          some ⟨index, bias + offset.toNat, length.toNat⟩
  absolute : ∀ extents, SortedExtents entries extents → ∀ index entry,
    FileAt entries index entry → ∀ (position length : BitVec 32) (offset : ℕ), length ≠ 0 →
      position.toNat = entry.startBytes + offset →
      offset + length.toNat ≤ entry.size.toNat →
        resolveAbsRead entries extents position length = some ⟨index, offset, length.toNat⟩

section Reads

variable {entries : List IndexedEntry} {extents : List PublishedExtent} {index : ℕ}
  {entry : IndexedEntry}

theorem dvdReadPrio_of_find {startWords length offset : BitVec 32} {bias : ℕ}
    (hfile : FileAt entries index entry)
    (hfound : findPublishedExtentForByteOffset extents (startWords.toNat * 4) =
      some ⟨entry.startBytes, entry.startBytes + max entry.size.toNat 1, index⟩)
    (hlength : 0 ≤ length.toInt) (hoffset : 0 ≤ offset.toInt)
    (hstart : startWords.toNat * 4 = entry.startBytes + bias)
    (hlt : bias + offset.toNat < entry.size.toNat)
    (hrange : bias + offset.toNat + length.toNat ≤ entry.size.toNat) :
    dvdReadPrio entries extents startWords length offset =
      some ⟨index, bias + offset.toNat, length.toNat⟩ := by
  have hbias : startWords.toNat * 4 - entry.startBytes = bias := by omega
  have hsigned : ¬(offset.toInt < 0 ∨ length.toInt < 0) := by omega
  have hmin : min length.toNat (entry.size.toNat - (bias + offset.toNat)) = length.toNat := by
    omega
  rw [dvdReadPrio, hfound]
  dsimp only
  rw [hfile.1]
  dsimp only
  rw [if_neg hsigned, hbias, if_neg (not_le.mpr hlt), hmin]

theorem find_of_dvdReadPrio {startWords length offset : BitVec 32} {read : FileRead}
    (h : dvdReadPrio entries extents startWords length offset = some read) :
    ∃ extent, findPublishedExtentForByteOffset extents (startWords.toNat * 4) = some extent ∧
      extent.entryIndex = read.entryIndex := by
  rw [dvdReadPrio] at h
  dsimp only at h
  cases hfound : findPublishedExtentForByteOffset extents (startWords.toNat * 4) with
  | none =>
      rw [hfound] at h
      cases h
  | some extent =>
      rw [hfound] at h
      dsimp only at h
      refine ⟨extent, rfl, ?_⟩
      cases hentry : entries[extent.entryIndex]? with
      | none =>
          rw [hentry] at h
          cases h
      | some entry =>
          rw [hentry] at h
          dsimp only at h
          by_cases hsigned : offset.toInt < 0 ∨ length.toInt < 0
          · rw [if_pos hsigned] at h
            cases h
          · rw [if_neg hsigned] at h
            by_cases houtside : entry.size.toNat ≤
                startWords.toNat * 4 - extent.startBytes + offset.toNat
            · rw [if_pos houtside] at h
              cases h
            · rw [if_neg houtside, Option.some_inj] at h
              rw [← h]

theorem resolveAbsRead_of_find {position length : BitVec 32} {offset : ℕ}
    (hfile : FileAt entries index entry)
    (hfound : findPublishedExtentForByteOffset extents position.toNat =
      some ⟨entry.startBytes, entry.startBytes + max entry.size.toNat 1, index⟩)
    (hlength : length ≠ 0) (hposition : position.toNat = entry.startBytes + offset)
    (hrange : offset + length.toNat ≤ entry.size.toNat) :
    resolveAbsRead entries extents position length = some ⟨index, offset, length.toNat⟩ := by
  have hbias : position.toNat - entry.startBytes = offset := by omega
  have hoffset : (BitVec.ofNat 32 offset).toNat = offset := by
    rw [BitVec.toNat_ofNat, Nat.mod_eq_of_lt (by omega)]
  have hwhole : ¬(length = 0 ∨ entry.size < BitVec.ofNat 32 offset + length) := by
    rw [not_or, BitVec.lt_def, BitVec.toNat_add, hoffset, Nat.mod_eq_of_lt (by omega)]
    exact ⟨hlength, not_lt.mpr hrange⟩
  rw [resolveAbsRead, hfound]
  dsimp only
  rw [hfile.1]
  dsimp only
  rw [hbias, hoffset, if_neg hwhole]

/-- If a read through a handle at the start of a published file leads to a file in every
order, it is that one. -/
theorem index_eq_of_forall_read {startWords length offset : BitVec 32} {read : FileRead}
    {otherIndex : ℕ} {other : IndexedEntry}
    (h : ∀ extents, SortedExtents entries extents →
      dvdReadPrio entries extents startWords length offset = some read)
    (hother : FileAt entries otherIndex other) (hwords : other.discOffsetWords ≠ 0)
    (hstart : startWords.toNat * 4 = other.startBytes) : read.entryIndex = otherIndex := by
  obtain ⟨extents, hsorted, hfound⟩ := exists_sorted_find hother hwords
  obtain ⟨extent, hextent, hindex⟩ := find_of_dvdReadPrio (h extents hsorted)
  rw [hstart, hfound, Option.some_inj] at hextent
  rw [← hindex, ← hextent]

theorem words_ne_zero_of_forall_read {startWords length offset : BitVec 32} {read : FileRead}
    (h : ∀ extents, SortedExtents entries extents →
      dvdReadPrio entries extents startWords length offset = some read)
    (hfile : FileAt entries read.entryIndex entry) : entry.discOffsetWords ≠ 0 := by
  obtain ⟨extents, hsorted⟩ := exists_arranged PublishedExtent.startBytes
    (publishedExtents entries)
  obtain ⟨extent, hextent, hindex⟩ := find_of_dvdReadPrio (h extents hsorted)
  obtain ⟨found, hfound, hwords⟩ := exists_file_of_find hsorted hextent
  rw [hindex] at hfound
  have heq := hfile.1.symm.trans hfound.1
  cases heq
  exact hwords

theorem handlesResolve_iff :
    HandlesResolve entries ↔ ∀ index entry, FileAt entries index entry →
      0 < entry.size.toNat → AloneUpTo entries index entry entry.startBytes := by
  constructor
  · intro h index entry hfile hsize
    have hread : ∀ extents, SortedExtents entries extents →
        dvdReadPrio entries extents entry.discOffsetWords 0 0 = some ⟨index, 0, 0⟩ :=
      fun extents hsorted => h extents hsorted index entry hfile 0 0 (by decide) (by decide)
        hsize (Nat.zero_le _)
    refine ⟨words_ne_zero_of_forall_read hread hfile, ?_⟩
    rintro otherIndex other hother hne hwords ⟨hle, hge⟩
    exact hne (index_eq_of_forall_read hread hother hwords (le_antisymm hle hge)).symm
  · intro h extents hsorted index entry hfile length offset hlength hoffset hlt hrange
    have hfound := find_of_alone hsorted hfile (h index entry hfile (by omega)) le_rfl (by omega)
    have hread : dvdReadPrio entries extents entry.discOffsetWords length offset =
        some ⟨index, 0 + offset.toNat, length.toNat⟩ :=
      dvdReadPrio_of_find hfile hfound hlength hoffset rfl (by omega) (by omega)
    rwa [Nat.zero_add] at hread

theorem positionsResolve_iff :
    PositionsResolve entries ↔ ∀ index entry, FileAt entries index entry →
      0 < entry.size.toNat →
        AloneUpTo entries index entry (entry.startBytes + entry.size.toNat - 1) := by
  constructor
  · intro h index entry hfile hsize
    have hread := fun extents hsorted => h.handle extents hsorted index entry hfile
      entry.discOffsetWords 0 0 0 (by decide) (by decide) rfl hsize (Nat.zero_le _)
    refine ⟨words_ne_zero_of_forall_read hread hfile, ?_⟩
    rintro otherIndex other hother hne hwords ⟨hle, hge⟩
    -- a handle at the start of the other file is inside this one
    have hread' : ∀ extents, SortedExtents entries extents →
        dvdReadPrio entries extents other.discOffsetWords 0 0 =
          some ⟨index, other.startBytes - entry.startBytes + 0, 0⟩ := by
      intro extents hsorted
      refine h.handle extents hsorted index entry hfile other.discOffsetWords 0 0
        (other.startBytes - entry.startBytes) (by decide) (by decide) ?_ ?_ ?_
      · change other.startBytes = _
        omega
      · change other.startBytes - entry.startBytes + 0 < _
        omega
      · change other.startBytes - entry.startBytes + 0 + 0 ≤ _
        omega
    exact hne (index_eq_of_forall_read hread' hother hwords rfl).symm
  · intro h
    have hfound : ∀ extents, SortedExtents entries extents → ∀ index entry,
        FileAt entries index entry → ∀ offset, offset < entry.size.toNat →
          findPublishedExtentForByteOffset extents (entry.startBytes + offset) =
            some ⟨entry.startBytes, entry.startBytes + max entry.size.toNat 1, index⟩ := by
      intro extents hsorted index entry hfile offset hlt
      obtain ⟨hwords, halone⟩ := h index entry hfile (by omega)
      refine find_of_alone hsorted hfile ⟨hwords, ?_⟩ (by omega) (by omega)
      rintro otherIndex other hother hne hwords' ⟨hle, hge⟩
      exact halone otherIndex other hother hne hwords' ⟨hle, by omega⟩
    refine ⟨?_, ?_⟩
    · intro extents hsorted index entry hfile startWords length offset bias hlength hoffset
        hstart hlt hrange
      refine dvdReadPrio_of_find hfile ?_ hlength hoffset hstart hlt hrange
      rw [hstart]
      exact hfound extents hsorted index entry hfile bias (by omega)
    · intro extents hsorted index entry hfile position length offset hlength hposition hrange
      have hpositive : 0 < length.toNat := by
        rw [Nat.pos_iff_ne_zero]
        exact fun hzero => hlength (BitVec.eq_of_toNat_eq hzero)
      refine resolveAbsRead_of_find hfile ?_ hlength hposition hrange
      rw [hposition]
      exact hfound extents hsorted index entry hfile offset (by omega)

end Reads

end Wiicompiled.Storage.DvdFst
