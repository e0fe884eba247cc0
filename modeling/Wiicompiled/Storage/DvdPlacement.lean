import Wiicompiled.Storage.DvdPublish
import Wiicompiled.Storage.DvdFstTree
import Wiicompiled.Support.LastMatch

/-!
# Offsets of registered files

The last registration of each path keeps the offset of the base table.  All other entries
are put behind the end of the base table and of the files that are placed, each behind the
one before it.
-/

namespace Wiicompiled.Storage.DvdFst

open LastMatch

/-- An entry is the one that its path leads to. -/
def FileIndex.Current (index : FileIndex) (entryNum : ℕ) (entry : DVDFileEntry) : Prop :=
  index.fileEntries[entryNum]? = some entry ∧
    index.pathToEntry (normalizeLookupPath entry.dvdPath) = some entryNum

/-- The offset that the base table has for a path, zero when it has none. -/
def baseWords (fstFiles : List FstFileEntry) (path : Text) : BitVec 32 :=
  fstFiles.foldl
    (fun words fstFile =>
      if normalizeLookupPath fstFile.dvdPath = path then BitVec.ofNat 32 (fstFile.start / 4)
      else words)
    0

/-- The first byte that the base table has for an entry. -/
def baseStart (fstFiles : List FstFileEntry) (entry : DVDFileEntry) : ℕ :=
  (baseWords fstFiles (normalizeLookupPath entry.dvdPath)).toNat * 4

/-- An entry that keeps an offset of the base table. -/
def FileIndex.Real (index : FileIndex) (fstFiles : List FstFileEntry) (entryNum : ℕ)
    (entry : DVDFileEntry) : Prop :=
  index.Current entryNum entry ∧ baseWords fstFiles (normalizeLookupPath entry.dvdPath) ≠ 0

/-- The entries with the offsets of the base table. -/
def FileIndex.placed (index : FileIndex) (fstFiles : List FstFileEntry) : List DVDFileEntry :=
  fstFiles.foldl (placeFstFile index.pathToEntry) index.fileEntries

/-! ## Registered entries -/

section Registered

variable {index : FileIndex} {path : Text} {entryNum : ℕ} {entry : DVDFileEntry}

theorem FileIndex.Registered.of_mem (h : index.Registered) (hmem : entry ∈ index.fileEntries) :
    entry.discOffsetWords = 0 ∧ entry.isDirectory = false := by
  induction h with
  | empty => cases hmem
  | register dvdPath hostPath size h ih =>
      rcases List.mem_append.mp hmem with hold | hnew
      · exact ih hold
      · rw [List.mem_singleton.mp hnew]
        exact ⟨rfl, rfl⟩

def HasPath (path : Text) (entry : DVDFileEntry) : Prop :=
  normalizeLookupPath entry.dvdPath = path

theorem FileIndex.Registered.pathToEntry_eq_some_iff (h : index.Registered) :
    index.pathToEntry path = some entryNum ↔
      ∃ entry, IsLast (HasPath path) index.fileEntries entryNum entry := by
  induction h generalizing entryNum with
  | empty =>
      constructor
      · intro h
        cases h
      · rintro ⟨entry, h⟩
        cases h.getElem?
  | @register index dvdPath hostPath size h ih =>
      dsimp only [registerFileEntry]
      by_cases hnew : HasPath path ⟨hostPath, canonicalizePath dvdPath, size, 0, false⟩
      · simp only [isLast_append_singleton_of_pos hnew, exists_and_left, exists_eq, and_true]
        rw [if_pos hnew.symm, Option.some_inj]
        exact eq_comm
      · simp only [isLast_append_singleton_of_neg hnew]
        rw [if_neg fun heq => hnew heq.symm, ih]

theorem FileIndex.Registered.path_eq (h : index.Registered)
    (hentry : index.fileEntries[entryNum]? = some entry)
    (hpath : index.pathToEntry path = some entryNum) :
    normalizeLookupPath entry.dvdPath = path := by
  obtain ⟨other, hlast⟩ := h.pathToEntry_eq_some_iff.mp hpath
  have hother := hlast.getElem?
  rw [hentry] at hother
  cases hother
  exact hlast.holds

end Registered

/-! ## Offsets of the base table -/

section Placed

variable {index : FileIndex} {fstFiles : List FstFileEntry} {entryNum bound : ℕ}
  {entry : DVDFileEntry}

/-- An entry with the offset of the base table, when its path leads to it. -/
def placedEntry (index : FileIndex) (fstFiles : List FstFileEntry) (entryNum : ℕ)
    (entry : DVDFileEntry) : DVDFileEntry :=
  if index.pathToEntry (normalizeLookupPath entry.dvdPath) = some entryNum then
    { entry with discOffsetWords := baseWords fstFiles (normalizeLookupPath entry.dvdPath) }
  else entry

/-- A file of the base table changes the entry that its path leads to. -/
theorem getElem?_placeFstFile {pathToEntry : Text → Option ℕ} {entries : List DVDFileEntry}
    {fstFile : FstFileEntry} :
    (placeFstFile pathToEntry entries fstFile)[entryNum]? =
      entries[entryNum]?.map fun entry =>
        if pathToEntry (normalizeLookupPath fstFile.dvdPath) = some entryNum then
          { entry with discOffsetWords := BitVec.ofNat 32 (fstFile.start / 4) }
        else entry := by
  rw [placeFstFile]
  cases pathToEntry (normalizeLookupPath fstFile.dvdPath) with
  | none => simp
  | some other =>
      dsimp only
      rw [List.getElem?_modify]
      by_cases heq : other = entryNum
      · simp [heq]
      · simp [heq]

theorem baseWords_append {fstFile : FstFileEntry} {path : Text} :
    baseWords (fstFiles ++ [fstFile]) path =
      if normalizeLookupPath fstFile.dvdPath = path then BitVec.ofNat 32 (fstFile.start / 4)
      else baseWords fstFiles path := by
  rw [baseWords, List.foldl_append]
  rfl

theorem getElem?_placed (h : index.Registered) :
    (index.placed fstFiles)[entryNum]? =
      index.fileEntries[entryNum]?.map (placedEntry index fstFiles entryNum) := by
  cases hentry : index.fileEntries[entryNum]? with
  | none =>
      induction fstFiles using List.reverseRecOn with
      | nil => exact hentry
      | append_singleton fstFiles fstFile ih =>
          rw [FileIndex.placed, List.foldl_append, ← FileIndex.placed, List.foldl_cons,
            List.foldl_nil, getElem?_placeFstFile, ih]
          rfl
  | some entry =>
      rw [Option.map_some]
      induction fstFiles using List.reverseRecOn with
      | nil =>
          have hwords := (h.of_mem (List.mem_of_getElem? hentry)).1
          rw [FileIndex.placed, List.foldl_nil, hentry, placedEntry, baseWords, List.foldl_nil,
            ← hwords, ite_self]
      | append_singleton fstFiles fstFile ih =>
          rw [FileIndex.placed, List.foldl_append, ← FileIndex.placed, List.foldl_cons,
            List.foldl_nil, getElem?_placeFstFile, ih, Option.map_some]
          congr 1
          by_cases hpath : normalizeLookupPath fstFile.dvdPath = normalizeLookupPath entry.dvdPath
          · rw [hpath, placedEntry, placedEntry, baseWords_append, if_pos hpath]
            by_cases hcurrent :
                index.pathToEntry (normalizeLookupPath entry.dvdPath) = some entryNum
            · rw [if_pos hcurrent, if_pos hcurrent, if_pos hcurrent]
            · rw [if_neg hcurrent, if_neg hcurrent, if_neg hcurrent]
          · -- another path leads to another entry
            have hother : index.pathToEntry (normalizeLookupPath fstFile.dvdPath) ≠
                some entryNum := fun hlead => hpath (h.path_eq hentry hlead).symm
            rw [if_neg hother, placedEntry, placedEntry, baseWords_append, if_neg hpath]

theorem placedEntry_of_real (hreal : index.Real fstFiles entryNum entry) :
    placedEntry index fstFiles entryNum entry =
      { entry with
        discOffsetWords := baseWords fstFiles (normalizeLookupPath entry.dvdPath) } :=
  if_pos hreal.1.2

theorem placedEntry_of_not_real (h : index.Registered)
    (hentry : index.fileEntries[entryNum]? = some entry)
    (hreal : ¬index.Real fstFiles entryNum entry) :
    placedEntry index fstFiles entryNum entry = entry := by
  have hwords := (h.of_mem (List.mem_of_getElem? hentry)).1
  rw [placedEntry]
  by_cases hcurrent : index.pathToEntry (normalizeLookupPath entry.dvdPath) = some entryNum
  · have hbase : baseWords fstFiles (normalizeLookupPath entry.dvdPath) = 0 := by
      by_contra hne
      exact hreal ⟨⟨hentry, hcurrent⟩, hne⟩
    rw [if_pos hcurrent, hbase, ← hwords]
  · rw [if_neg hcurrent]

theorem foldl_max_le_iff {α : Type*} {p : α → Prop} [DecidablePred p] {stop : α → ℕ}
    {items : List α} {start : ℕ} :
    items.foldl (fun top item => if p item then max top (stop item) else top) start ≤ bound ↔
      start ≤ bound ∧ ∀ item ∈ items, p item → stop item ≤ bound := by
  induction items generalizing start with
  | nil => simp
  | cons item items ih =>
      rw [List.foldl_cons, ih, List.forall_mem_cons]
      by_cases hitem : p item
      · rw [if_pos hitem, Nat.max_le]
        simp [hitem, and_assoc]
      · rw [if_neg hitem]
        simp [hitem]

theorem firstFreeByte_le_iff {entries : List DVDFileEntry} :
    firstFreeByte fstFiles entries ≤ bound ↔
      (∀ fstFile ∈ fstFiles, fstFile.stop ≤ bound) ∧
        ∀ entry ∈ entries, entry.discOffsetWords ≠ 0 →
          entry.discOffsetWords.toNat * 4 + entry.size.toNat ≤ bound := by
  have hfst : fstFiles.foldl (fun nextFreeBytes fstFile => max nextFreeBytes fstFile.stop) 0 ≤
      bound ↔ ∀ fstFile ∈ fstFiles, fstFile.stop ≤ bound := by
    have h := @foldl_max_le_iff bound _ (fun _ => True) _ FstFileEntry.stop fstFiles 0
    simpa using h
  rw [firstFreeByte, foldl_max_le_iff, hfst]

theorem firstFreeByte_placed_le_iff (h : index.Registered) :
    firstFreeByte fstFiles (index.placed fstFiles) ≤ bound ↔
      (∀ fstFile ∈ fstFiles, fstFile.stop ≤ bound) ∧
        ∀ entryNum entry, index.Real fstFiles entryNum entry →
          baseStart fstFiles entry + entry.size.toNat ≤ bound := by
  rw [firstFreeByte_le_iff]
  refine and_congr_right fun _ => ⟨fun hall entryNum entry hreal => ?_, fun hall entry hmem => ?_⟩
  · have hplaced : (index.placed fstFiles)[entryNum]? =
        some (placedEntry index fstFiles entryNum entry) := by
      rw [getElem?_placed h, hreal.1.1]
      rfl
    rw [placedEntry_of_real hreal] at hplaced
    exact hall _ (List.mem_of_getElem? hplaced) hreal.2
  · obtain ⟨entryNum, hentryNum⟩ := List.mem_iff_getElem?.mp hmem
    rw [getElem?_placed h] at hentryNum
    obtain ⟨registered, hregistered, rfl⟩ := Option.map_eq_some_iff.mp hentryNum
    intro hwords
    by_cases hreal : index.Real fstFiles entryNum registered
    · rw [placedEntry_of_real hreal]
      exact hall entryNum registered hreal
    · rw [placedEntry_of_not_real h hregistered hreal] at hwords
      exact absurd (h.of_mem (List.mem_of_getElem? hregistered)).1 hwords

end Placed

/-! ## Offsets behind the base table -/

section Synthetic

variable {nextFreeBytes entryNum later : ℕ} {entry other : DVDFileEntry}
  {entries placed : List DVDFileEntry}

/-- An entry that still needs an offset. -/
def DVDFileEntry.Unplaced (entry : DVDFileEntry) : Prop :=
  ¬(entry.isDirectory ∨ entry.discOffsetWords ≠ 0)

theorem le_alignUp : nextFreeBytes ≤ alignUp nextFreeBytes := by
  rw [alignUp]
  omega

def PlacedAt (placed : List DVDFileEntry) (entryNum : ℕ) (entry : DVDFileEntry)
    (words : BitVec 32) : Prop :=
  placed[entryNum]? = some { entry with discOffsetWords := words }

theorem PlacedAt.words_eq {words words' : BitVec 32} (h : PlacedAt placed entryNum entry words)
    (h' : PlacedAt placed entryNum entry words') : words = words' :=
  congrArg DVDFileEntry.discOffsetWords (Option.some.inj (h.symm.trans h'))

theorem placeSynthetic_cons
    (h : placeSynthetic nextFreeBytes (entry :: entries) = .ok placed) :
    (¬entry.Unplaced ∧ ∃ rest, placeSynthetic nextFreeBytes entries = .ok rest ∧
      placed = entry :: rest) ∨
    (entry.Unplaced ∧ ∃ rest words, words.toNat * 4 = alignUp nextFreeBytes ∧
      placeSynthetic (alignUp nextFreeBytes + max entry.size.toNat 4) entries = .ok rest ∧
      placed = { entry with discOffsetWords := words } :: rest) := by
  rw [placeSynthetic] at h
  by_cases hkept : entry.isDirectory ∨ entry.discOffsetWords ≠ 0
  · rw [if_pos hkept] at h
    obtain ⟨rest, hrest, h⟩ := exists_ok_of_bind h
    cases h
    exact Or.inl ⟨not_not.mpr hkept, rest, hrest, rfl⟩
  · rw [if_neg hkept] at h
    dsimp only at h
    by_cases hfar : 0xFFFFFFFF < alignUp nextFreeBytes / 4
    · rw [if_pos hfar] at h
      cases h
    · rw [if_neg hfar] at h
      obtain ⟨rest, hrest, h⟩ := exists_ok_of_bind h
      cases h
      refine Or.inr ⟨hkept, rest, _, ?_, hrest, rfl⟩
      rw [BitVec.toNat_ofNat, Nat.mod_eq_of_lt (by omega), alignUp]
      omega

/-- Every entry keeps its place, and those that had no offset are behind the first free
byte, the first of them at the next aligned one. -/
theorem placeSynthetic_spec (h : placeSynthetic nextFreeBytes entries = .ok placed)
    (hentry : entries[entryNum]? = some entry) :
    ∃ words, PlacedAt placed entryNum entry words ∧
      (¬entry.Unplaced → words = entry.discOffsetWords) ∧
      (entry.Unplaced → alignUp nextFreeBytes ≤ words.toNat * 4 ∧
        ((∀ before other, before < entryNum → entries[before]? = some other →
          ¬other.Unplaced) → words.toNat * 4 = alignUp nextFreeBytes)) := by
  induction entries generalizing nextFreeBytes entryNum placed with
  | nil => cases hentry
  | cons head entries ih =>
      rcases placeSynthetic_cons h with ⟨hkept, rest, hrest, rfl⟩ |
        ⟨hfree, rest, words, hwords, hrest, rfl⟩
      · cases entryNum with
        | zero =>
            cases hentry
            exact ⟨entry.discOffsetWords, rfl, fun _ => rfl, fun hfree => absurd hfree hkept⟩
        | succ entryNum =>
            obtain ⟨words, hplaced, hsame, hbehind⟩ := ih hrest hentry
            refine ⟨words, hplaced, hsame, fun hfree => ⟨(hbehind hfree).1, fun hfirst => ?_⟩⟩
            exact (hbehind hfree).2 fun before other hbefore hother =>
              hfirst (before + 1) other (by omega) hother
      · cases entryNum with
        | zero =>
            cases hentry
            exact ⟨words, rfl, fun hkept => absurd hfree hkept,
              fun _ => ⟨hwords.ge, fun _ => hwords⟩⟩
        | succ entryNum =>
            obtain ⟨words', hplaced, hsame, hbehind⟩ := ih hrest hentry
            refine ⟨words', hplaced, hsame, fun hunplaced => ⟨?_, fun hfirst => ?_⟩⟩
            · have hnext := (hbehind hunplaced).1
              have hle : alignUp nextFreeBytes + max head.size.toNat 4 ≤
                  alignUp (alignUp nextFreeBytes + max head.size.toNat 4) := le_alignUp
              omega
            · exact absurd hfree (hfirst 0 head (Nat.succ_pos _) rfl)

theorem placeSynthetic_disjoint (h : placeSynthetic nextFreeBytes entries = .ok placed)
    (hlater : entryNum < later) (hentry : entries[entryNum]? = some entry)
    (hother : entries[later]? = some other) (hfree : entry.Unplaced) (hfree' : other.Unplaced)
    {words words' : BitVec 32} (hplaced : PlacedAt placed entryNum entry words)
    (hplaced' : PlacedAt placed later other words') :
    words.toNat * 4 + max entry.size.toNat 4 ≤ words'.toNat * 4 := by
  induction entries generalizing nextFreeBytes entryNum later placed with
  | nil => cases hentry
  | cons head entries ih =>
      obtain ⟨later, rfl⟩ : ∃ rest, later = rest + 1 := ⟨later - 1, by omega⟩
      rcases placeSynthetic_cons h with ⟨hkept, rest, hrest, rfl⟩ |
        ⟨-, rest, headWords, hwords, hrest, rfl⟩
      · cases entryNum with
        | zero =>
            cases hentry
            exact absurd hfree hkept
        | succ entryNum => exact ih hrest (by omega) hentry hother hplaced hplaced'
      · cases entryNum with
        | zero =>
            cases hentry
            have heq : headWords = words :=
              congrArg DVDFileEntry.discOffsetWords (Option.some.inj hplaced)
            obtain ⟨laterWords, hlaterPlaced, -, hbehind⟩ := placeSynthetic_spec hrest hother
            have hnext := (hbehind hfree').1
            rw [hlaterPlaced.words_eq hplaced'] at hnext
            have hle : alignUp nextFreeBytes + max entry.size.toNat 4 ≤
                alignUp (alignUp nextFreeBytes + max entry.size.toNat 4) := le_alignUp
            rw [← heq, hwords]
            omega
        | succ entryNum => exact ih hrest (by omega) hentry hother hplaced hplaced'

theorem length_placeSynthetic (h : placeSynthetic nextFreeBytes entries = .ok placed) :
    placed.length = entries.length := by
  induction entries generalizing nextFreeBytes placed with
  | nil =>
      cases h
      rfl
  | cons head entries ih =>
      rcases placeSynthetic_cons h with ⟨-, rest, hrest, rfl⟩ | ⟨-, rest, words, -, hrest, rfl⟩
      · rw [List.length_cons, List.length_cons, ih hrest]
      · rw [List.length_cons, List.length_cons, ih hrest]

end Synthetic

end Wiicompiled.Storage.DvdFst
