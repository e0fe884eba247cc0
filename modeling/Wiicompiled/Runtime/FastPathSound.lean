import Wiicompiled.Runtime.FastPathTables
import Wiicompiled.Runtime.DeferredReadGuards

/-!
# The checked memory path

The fast-path tables agree with what they are made from in every reachable state.  So a
pointer from the tables is one of the regions of its pages, a checked write does not
pass over translated code, and a checked read returns the bytes of memory.  A read that
runs over the end of a page is checked for a pending deferred read at its first page
only.
-/

namespace Wiicompiled.Runtime.MemoryInline

open GuestFlat RecompMod FlatMemory

/-! ## Bytes of regions -/

/-- A guest address of the region. -/
def HasByte (region : Region) (byte : ℕ) : Prop :=
  region.baseAddress.toNat ≤ byte ∧ byte < region.baseAddress.toNat + region.storageSize

instance (region : Region) (byte : ℕ) : Decidable (HasByte region byte) :=
  inferInstanceAs (Decidable (_ ∧ _))

def hostByte (region : Region) (byte : ℕ) : BitVec 64 :=
  region.storagePtr + BitVec.ofNat 64 (byte - region.baseAddress.toNat)

/-- The region that the entry of a page is built from, the last one that covers it. -/
def builtFrom (regions : List Region) (page : ℕ) : Option Region :=
  regions.reverse.find? fun region => (regionEntry region page).isSome

/-- Each byte of an access is in the region that the entry of its page is built from, and
this region has it at the host address. -/
def FastBacked (regions : List Region) (address length : ℕ) (pointer : BitVec 64) : Prop :=
  ∀ i < length, ∃ region, builtFrom regions ((address + i) / pageSize) = some region ∧
    HasByte region (address + i) ∧ hostByte region (address + i) = pointer + BitVec.ofNat 64 i

/-- The access stays in a page. -/
def InPage (address length : ℕ) : Prop :=
  address % pageSize + length ≤ pageSize

instance (address length : ℕ) : Decidable (InPage address length) :=
  inferInstanceAs (Decidable (_ ≤ _))

section Regions

variable {region : Region} {regions : List Region} {page : ℕ} {entry : PageEntry}
  {address : BitVec 32} {length width : ℕ} {pointer : BitVec 64}

theorem pageSize_pos : 0 < pageSize := by decide

theorem regionEntry_eq_some (h : regionEntry region page = some entry) :
    region.baseAddress.toNat ≤ page * pageSize ∧
      entry.base = hostByte region (page * pageSize) ∧ entry.limit ≤ pageSize ∧
      page * pageSize + entry.limit ≤ region.baseAddress.toNat + region.storageSize := by
  unfold regionEntry at h
  dsimp only at h
  rw [Option.ite_none_left_eq_some, Option.ite_none_left_eq_some,
    Option.ite_none_left_eq_some] at h
  obtain ⟨-, -, hoffset, hentry⟩ := h
  rw [not_or, Nat.not_lt, Nat.not_le] at hoffset
  obtain ⟨hbase, hsize⟩ := hoffset
  cases hentry
  refine ⟨hbase, rfl, min_le_left _ _, ?_⟩
  dsimp only
  generalize page * pageSize = start at *
  omega

theorem foldl_enterRegion (table : ℕ → Option PageEntry) :
    regions.foldl enterRegion table page =
      ((builtFrom regions page).bind (regionEntry · page)).or (table page) := by
  induction regions generalizing table with
  | nil => rfl
  | cons region regions ih =>
      rw [List.foldl_cons, ih, builtFrom, builtFrom, List.reverse_cons, List.find?_append]
      cases hfind : regions.reverse.find? fun region => (regionEntry region page).isSome with
      | some found =>
          have hsome : (regionEntry found page).isSome = true :=
            List.find?_some (p := fun region => (regionEntry region page).isSome) hfind
          obtain ⟨entry, hentry⟩ := Option.isSome_iff_exists.mp hsome
          simp [hentry]
      | none =>
          cases hentry : regionEntry region page with
          | some entry => simp [enterRegion, hentry]
          | none => simp [enterRegion, hentry]

theorem hostByte_of_entry (h : regionEntry region page = some entry) {offset : ℕ}
    (hoffset : offset < entry.limit) :
    HasByte region (page * pageSize + offset) ∧
      hostByte region (page * pageSize + offset) = entry.base + BitVec.ofNat 64 offset := by
  obtain ⟨hbase, hentry, -, hlimit⟩ := regionEntry_eq_some h
  refine ⟨⟨by omega, by omega⟩, ?_⟩
  rw [hentry, hostByte, hostByte, Nat.sub_add_comm hbase, BitVec.ofNat_add, add_assoc]

theorem div_pageSize_of_lt {offset : ℕ} (h : offset < pageSize) :
    (page * pageSize + offset) / pageSize = page := by
  rw [mul_comm, Nat.mul_add_div pageSize_pos, Nat.div_eq_of_lt h, add_zero]

theorem hostPointer_eq_hostByte (h : region.baseAddress.toNat ≤ address.toNat) :
    region.hostPointer address = hostByte region address.toNat := by
  rw [hostByte, Region.hostPointer]
  congr 1
  apply BitVec.eq_of_toNat_eq
  have hle : region.baseAddress ≤ address := h
  rw [BitVec.toNat_ofNat, BitVec.toNat_setWidth, BitVec.toNat_sub_of_le hle]

theorem FastBacked.exists_holds (hinPage : InPage address.toNat length) (hpos : 0 < length)
    (h : FastBacked regions address.toNat length pointer) :
    ∃ region ∈ regions, region.Holds address length ∧ pointer = region.hostPointer address := by
  obtain ⟨region, hbuilt, ⟨hbase, -⟩, hpointer⟩ := h 0 hpos
  obtain ⟨last, hbuilt', ⟨-, hend⟩, -⟩ := h (length - 1) (by omega)
  have hsplit : address.toNat = address.toNat / pageSize * pageSize + address.toNat % pageSize :=
    (Nat.div_add_mod' _ _).symm
  have hpage : ∀ i < length, (address.toNat + i) / pageSize = address.toNat / pageSize := by
    intro i hi
    rw [InPage] at hinPage
    calc (address.toNat + i) / pageSize
        = (address.toNat / pageSize * pageSize + (address.toNat % pageSize + i)) / pageSize := by
          rw [← add_assoc, ← hsplit]
      _ = address.toNat / pageSize := div_pageSize_of_lt (by omega)
  rw [hpage 0 hpos] at hbuilt
  rw [hpage _ (by omega), hbuilt] at hbuilt'
  cases hbuilt'
  refine ⟨region, ?_, ⟨hbase, by omega⟩, ?_⟩
  · exact List.mem_reverse.mp (List.mem_of_find?_eq_some hbuilt)
  · rw [add_zero] at hpointer hbase
    rw [hostPointer_eq_hostByte hbase, hpointer, BitVec.add_zero]

end Regions

/-! ## Agreement of the tables -/

/-- The page table is built from the regions, and the biases from it. -/
structure Mapped (regions : List Region) (tables : FastTables) : Prop where
  pageTable : ∀ page,
    tables.pageTable page = (builtFrom regions page).bind (regionEntry · page)
  full : ∀ page, tables.fullPageBias page ≠ 0 →
    ∃ bias, contiguousBias tables.pageTable page = some bias ∧
      tables.fullPageBias page = bias + 1

/-- A bias for reads or writes is that of the page, and stands only where it may. -/
structure Guarded (executables : Executables) (reads : List DeferredRead)
    (tables : FastTables) : Prop where
  readable : ∀ page, tables.fullReadablePageBias page ≠ 0 →
    tables.fullReadablePageBias page = tables.fullPageBias page ∧
      ∀ read ∈ reads, coversPage read page = false
  writable : ∀ page, tables.fullWritablePageBias page ≠ 0 →
    tables.fullWritablePageBias page = tables.fullPageBias page ∧
      executables.coarsePages page = false
  sparse : ∀ page table, tables.sparseWritablePageTables page = some table →
    ∀ subPage, table subPage ≠ 0 → table subPage = tables.fullPageBias page

section Tables

variable {regions : List Region} {tables : FastTables} {executables : Executables}
  {reads : List DeferredRead} {page : ℕ} {address : BitVec 32} {length : ℕ}
  {pointer bias : BitVec 64}

theorem Mapped.empty : Mapped [] FastTables.empty where
  pageTable := fun _ => rfl
  full := fun _ h => absurd rfl h

theorem Mapped.buildPageTable : Mapped regions (buildPageTable regions FastTables.empty) where
  pageTable := by
    intro page
    have hfold : regions.foldl enterRegion FastTables.empty.pageTable page = _ :=
      foldl_enterRegion FastTables.empty.pageTable
    rw [FastTables.empty, Option.or_none] at hfold
    exact hfold
  full := by
    intro page h
    unfold MemoryInline.buildPageTable at h ⊢
    dsimp only at h ⊢
    cases hbias : contiguousBias (regions.foldl enterRegion FastTables.empty.pageTable) page with
    | some bias => exact ⟨bias, rfl, rfl⟩
    | none =>
        rw [hbias] at h
        exact absurd rfl h

theorem Mapped.congr (h : Mapped regions tables) {tables' : FastTables}
    (hpageTable : tables'.pageTable = tables.pageTable)
    (hfull : tables'.fullPageBias = tables.fullPageBias) : Mapped regions tables' := by
  obtain ⟨htable, hbias⟩ := h
  constructor
  · rwa [hpageTable]
  · rwa [hpageTable, hfull]

theorem Mapped.refreshFastPathTables (h : Mapped regions tables) :
    Mapped regions (refreshFastPathTables executables reads tables) :=
  h.congr rfl rfl

theorem Guarded.empty : Guarded executables reads FastTables.empty where
  readable := fun _ h => absurd rfl h
  writable := fun _ h => absurd rfl h
  sparse := fun _ _ h => by cases h

theorem sparseWritablePageTable_apply {table : ℕ → BitVec 64} {subPage : ℕ}
    (h : sparseWritablePageTable executables bias page = some table)
    (hsub : table subPage ≠ 0) : table subPage = bias := by
  unfold sparseWritablePageTable at h
  dsimp only at h
  split_ifs at h
  cases h
  dsimp only at hsub ⊢
  split_ifs at hsub ⊢
  · exact absurd rfl hsub
  · rfl

theorem Guarded.refreshFastPathTables :
    Guarded executables reads (refreshFastPathTables executables reads tables) where
  readable := by
    intro page h
    unfold MemoryInline.refreshFastPathTables at h ⊢
    dsimp only at h ⊢
    by_cases hcovers : reads.any (coversPage · page) = true
    · exact absurd (if_pos hcovers) h
    · rw [if_neg hcovers]
      refine ⟨rfl, fun read hread => ?_⟩
      by_contra hread'
      exact hcovers (List.any_eq_true.mpr ⟨read, hread, by simpa using hread'⟩)
  writable := by
    intro page h
    unfold MemoryInline.refreshFastPathTables at h ⊢
    dsimp only at h ⊢
    by_cases hcoarse : executables.coarsePages page = true
    · exact absurd (if_pos hcoarse) h
    · rw [if_neg hcoarse]
      exact ⟨rfl, by simpa using hcoarse⟩
  sparse := by
    intro page table h subPage hsub
    exact sparseWritablePageTable_apply h hsub

theorem coversPage_eq_overlaps {read : DeferredRead} (h : read.Valid) :
    coversPage read page =
      decide (PageSpans.Overlaps (page * pageSize) pageSize read.start read.length) := by
  obtain ⟨hpos, -⟩ := h
  rw [coversPage, decide_eq_decide, PageSpans.Overlaps, Nat.le_div_iff_mul_le pageSize_pos,
    ← Nat.lt_succ_iff, Nat.div_lt_iff_lt_mul pageSize_pos, Nat.succ_mul]
  constructor
  · rintro ⟨hstart, hend⟩
    omega
  · rintro ⟨hend, hstart⟩
    omega

/-- The readable biases after deferred reads are taken out: a page of one of them is
computed again, and another page has no fewer than before. -/
theorem Guarded.refreshDeferredReadPages (h : Guarded executables reads tables)
    {reads' : List DeferredRead} (hsub : ∀ read ∈ reads', read ∈ reads)
    (hvalid : ∀ read ∈ reads', read.Valid) (affected : ℕ → Bool) :
    Guarded executables reads' (refreshDeferredReadPages affected reads' tables) where
  readable := by
    intro page hpage
    unfold MemoryInline.refreshDeferredReadPages at hpage ⊢
    dsimp only at hpage ⊢
    by_cases haffected : affected page = true
    · rw [if_pos haffected] at hpage ⊢
      by_cases hcovered : pageCovered reads' page = true
      · exact absurd (if_pos hcovered) hpage
      · rw [if_neg hcovered]
        refine ⟨rfl, fun read hread => ?_⟩
        by_contra hread'
        rw [coversPage_eq_overlaps (hvalid read hread)] at hread'
        exact hcovered (List.any_eq_true.mpr ⟨read, hread, by simpa using hread'⟩)
    · rw [if_neg haffected] at hpage ⊢
      obtain ⟨heq, hreads⟩ := h.readable page hpage
      exact ⟨heq, fun read hread => hreads read (hsub read hread)⟩
  writable := h.writable
  sparse := h.sparse

/-! ## Pointers of the tables -/

/-- A bias of the page gives up to eight bytes their host addresses, on the page and on
its successor. -/
theorem Mapped.biased (h : Mapped regions tables)
    (hbias : tables.fullPageBias (address.toNat / pageSize) ≠ 0) (hlength : length ≤ 8) :
    FastBacked regions address.toNat length
      (FastTables.biased (tables.fullPageBias (address.toNat / pageSize)) address) := by
  obtain ⟨bias, hcontiguous, hfull⟩ := h.full _ hbias
  have hsplit : address.toNat =
      address.toNat / pageSize * pageSize + address.toNat % pageSize :=
    (Nat.div_add_mod' _ _).symm
  have hoffset : address.toNat % pageSize < pageSize := Nat.mod_lt _ pageSize_pos
  have hsetWidth : address.setWidth 64 = BitVec.ofNat 64 address.toNat := by
    apply BitVec.eq_of_toNat_eq
    rw [BitVec.toNat_setWidth, BitVec.toNat_ofNat]
  rw [FastTables.biased, hfull, add_sub_cancel_right, hsetWidth]
  generalize address.toNat % pageSize = offset at hsplit hoffset
  generalize address.toNat / pageSize = page at hcontiguous hsplit
  unfold contiguousBias at hcontiguous
  rw [Option.ite_none_left_eq_some] at hcontiguous
  obtain ⟨-, hcontiguous⟩ := hcontiguous
  split at hcontiguous
  case h_2 => cases hcontiguous
  case h_1 current next hcurrent hnext =>
    rw [Option.ite_none_left_eq_some] at hcontiguous
    obtain ⟨hfacts, hvalue⟩ := hcontiguous
    cases hvalue
    simp only [not_or, not_lt, ne_eq, not_not] at hfacts
    obtain ⟨hlimit, hnextLimit, hnextBase⟩ := hfacts
    rw [h.pageTable, Option.bind_eq_some_iff] at hcurrent hnext
    obtain ⟨region, hbuilt, hentry⟩ := hcurrent
    obtain ⟨region', hbuilt', hentry'⟩ := hnext
    intro i hi
    rw [hsplit, add_assoc]
    rcases Nat.lt_or_ge (offset + i) pageSize with hin | hout
    · -- the byte is on the page itself
      obtain ⟨hhas, hbyte⟩ := hostByte_of_entry hentry (hlimit.symm ▸ hin)
      refine ⟨region, by rwa [div_pageSize_of_lt hin], hhas, ?_⟩
      rw [hbyte, BitVec.ofNat_add, BitVec.ofNat_add]
      ring
    · -- the byte is among the first seven of the successor
      obtain ⟨rest, hrest⟩ := Nat.exists_eq_add_of_le hout
      have hmax : maxFastScalarSize = 8 := rfl
      have hsucc : page * pageSize + (offset + i) = (page + 1) * pageSize + rest := by
        rw [hrest, Nat.succ_mul, Nat.add_assoc]
      have hbig : maxFastScalarSize ≤ pageSize := by decide
      have hsmall : rest < pageSize := by omega
      obtain ⟨hhas, hbyte⟩ := hostByte_of_entry hentry' (show rest < next.limit by omega)
      rw [hsucc]
      refine ⟨region', by rwa [div_pageSize_of_lt hsmall], hhas, ?_⟩
      have hoffset' : BitVec.ofNat 64 offset + BitVec.ofNat 64 i =
          BitVec.ofNat 64 pageSize + BitVec.ofNat 64 rest := by
        rw [← BitVec.ofNat_add, hrest, BitVec.ofNat_add]
      rw [hbyte, hnextBase, BitVec.ofNat_add, add_assoc, ← hoffset']
      ring

theorem Mapped.entryPointer (h : Mapped regions tables)
    (hpointer : tables.entryPointer address length = some pointer) :
    FastBacked regions address.toNat length pointer := by
  unfold FastTables.entryPointer at hpointer
  dsimp only at hpointer
  split at hpointer
  case h_1 => cases hpointer
  case h_2 entry hentry =>
    rw [Option.ite_none_left_eq_some] at hpointer
    obtain ⟨hlimit, hvalue⟩ := hpointer
    cases hvalue
    rw [h.pageTable, Option.bind_eq_some_iff] at hentry
    obtain ⟨region, hbuilt, hentry⟩ := hentry
    obtain ⟨-, -, hle, -⟩ := regionEntry_eq_some hentry
    have hsplit : address.toNat =
        address.toNat / pageSize * pageSize + address.toNat % pageSize :=
      (Nat.div_add_mod' _ _).symm
    generalize address.toNat % pageSize = offset at *
    generalize address.toNat / pageSize = page at *
    intro i hi
    rw [hsplit, add_assoc]
    obtain ⟨hhas, hbyte⟩ := hostByte_of_entry hentry (show offset + i < entry.limit by omega)
    refine ⟨region, by rwa [div_pageSize_of_lt (by omega)], hhas, ?_⟩
    rw [hbyte, BitVec.ofNat_add, add_assoc]

theorem Mapped.tryGetPointerFast (h : Mapped regions tables)
    (hpointer : tables.tryGetPointerFast address length = some pointer) :
    FastBacked regions address.toNat length pointer := by
  unfold FastTables.tryGetPointerFast at hpointer
  dsimp only at hpointer
  split_ifs at hpointer with hbias
  · cases hpointer
    exact h.biased hbias.2 hbias.1
  · exact h.entryPointer hpointer

theorem tryReadGuestScalar_backed (hmapped : Mapped regions tables)
    (hguarded : Guarded executables reads tables) (hlength : length ≤ 8)
    (hpointer : tables.tryReadGuestScalar address = some pointer) :
    FastBacked regions address.toNat length pointer ∧
      ∀ read ∈ reads, coversPage read (address.toNat / pageSize) = false := by
  unfold FastTables.tryReadGuestScalar at hpointer
  dsimp only at hpointer
  rw [Option.ite_none_left_eq_some] at hpointer
  obtain ⟨hbias, hvalue⟩ := hpointer
  cases hvalue
  obtain ⟨heq, hreads⟩ := hguarded.readable _ hbias
  rw [heq] at hbias ⊢
  exact ⟨hmapped.biased hbias hlength, hreads⟩

/-- The exact guards of the first and the last part are those of all bytes of a short
access. -/
theorem exactGuardHit_of_mem {byte : ℕ} (hlength : length ≤ 8) (haddress : address.toNat ≤ byte)
    (hbyte : byte < address.toNat + length)
    (hguard : executables.pages (byte / writableSubPageSize) = true) :
    FastTables.exactGuardHit executables address.toNat length = true := by
  have hsize : writableSubPageSize = 4096 := rfl
  rw [hsize] at hguard
  have hfirst : address.toNat / 4096 ≤ byte / 4096 := Nat.div_le_div_right haddress
  have hlast : byte / 4096 ≤ (address.toNat + (length - 1)) / 4096 :=
    Nat.div_le_div_right (by omega)
  have hcases : byte / 4096 = address.toNat / 4096 ∨
      byte / 4096 = (address.toNat + (length - 1)) / 4096 := by omega
  unfold FastTables.exactGuardHit
  dsimp only
  rw [hsize]
  rcases hcases with h | h <;> rw [h] at hguard
  · rw [hguard, Bool.true_or]
  · by_cases heq : (address.toNat + (length - 1)) / 4096 = address.toNat / 4096
    · rw [heq] at hguard
      rw [hguard, Bool.true_or]
    · simp [hguard, heq]

theorem div_writableSubPageSize (byte : ℕ) :
    byte / writableSubPageSize / 256 = byte / pageSize := by
  rw [Nat.div_div_eq_div_mul]
  rfl

theorem tryGetWritablePointerFast_spec (hmapped : Mapped regions tables)
    (hguarded : Guarded executables reads tables) (hmarked : executables.Marked)
    (hpointer : tables.tryGetWritablePointerFast executables address length = some pointer) :
    FastBacked regions address.toNat length pointer ∧
      ∀ byte, address.toNat ≤ byte → byte < address.toNat + length →
        executables.pages (byte / writableSubPageSize) = false := by
  unfold FastTables.tryGetWritablePointerFast at hpointer
  dsimp only at hpointer
  rw [Option.ite_none_left_eq_some] at hpointer
  obtain ⟨hbounds, hpointer⟩ := hpointer
  have hlength : length ≤ 8 := by omega
  -- an exact guard that is not set shows the bytes free
  have hexact : ¬FastTables.exactGuardHit executables address.toNat length = true →
      ∀ byte, address.toNat ≤ byte → byte < address.toNat + length →
        executables.pages (byte / writableSubPageSize) = false := by
    intro hfree byte haddress hbyte
    by_contra hguard
    exact hfree (exactGuardHit_of_mem hlength haddress hbyte (by simpa using hguard))
  by_cases hbias : tables.fullWritablePageBias (address.toNat / pageSize) ≠ 0
  · rw [if_pos hbias, Option.ite_none_left_eq_some] at hpointer
    obtain ⟨hcross, hvalue⟩ := hpointer
    cases hvalue
    obtain ⟨heq, hcoarse⟩ := hguarded.writable _ hbias
    rw [heq] at hbias ⊢
    refine ⟨hmapped.biased hbias hlength, fun byte haddress hbyte => ?_⟩
    by_contra hguard
    rw [Bool.not_eq_false] at hguard
    -- the first page has no code at all, and the guard of the last part was looked at
    have hpage := hmarked.coarse_of_page _ hguard
    rw [div_writableSubPageSize] at hpage
    have hsize : writableSubPageSize = 4096 := rfl
    have hpageSize : pageSize = 1048576 := rfl
    have hne : byte / pageSize ≠ address.toNat / pageSize := by
      rintro h
      rw [h, hcoarse] at hpage
      cases hpage
    rw [hpageSize] at hne hcross
    rw [hsize] at hguard hcross
    have hlast : (address.toNat + (length - 1)) / 4096 = byte / 4096 := by omega
    refine hcross ⟨by omega, ?_⟩
    rwa [hlast]
  · rw [if_neg hbias] at hpointer
    split at hpointer
    case h_1 subTable hsub =>
      rw [Option.ite_none_left_eq_some, Option.ite_none_left_eq_some] at hpointer
      obtain ⟨hzero, hhit, hvalue⟩ := hpointer
      cases hvalue
      have heq := hguarded.sparse _ _ hsub _ hzero
      rw [heq] at hzero ⊢
      exact ⟨hmapped.biased hzero hlength, hexact hhit⟩
    case h_2 =>
      split at hpointer
      case h_1 => cases hpointer
      case h_2 entryPointer hentry =>
        rw [Option.ite_none_left_eq_some] at hpointer
        obtain ⟨hhit, hvalue⟩ := hpointer
        cases hvalue
        exact ⟨hmapped.entryPointer hentry, hexact hhit⟩

theorem tryWriteGuestScalar_spec (hmapped : Mapped regions tables)
    (hguarded : Guarded executables reads tables) (hmarked : executables.Marked)
    (hlength : length ≤ 8)
    (hpointer : tables.tryWriteGuestScalar executables address length = some pointer) :
    FastBacked regions address.toNat length pointer ∧
      ∀ byte, address.toNat ≤ byte → byte < address.toNat + length →
        executables.pages (byte / writableSubPageSize) = false := by
  unfold FastTables.tryWriteGuestScalar at hpointer
  dsimp only at hpointer
  split_ifs at hpointer with hbounds hcross hbias
  · cases hpointer
    obtain ⟨heq, hcoarse⟩ := hguarded.writable _ hbias
    rw [heq] at hbias ⊢
    refine ⟨hmapped.biased hbias hlength, fun byte haddress hbyte => ?_⟩
    by_contra hguard
    rw [Bool.not_eq_false] at hguard
    have hpage := hmarked.coarse_of_page _ hguard
    have hsame : byte / pageSize = address.toNat / pageSize := by
      have hpageSize : pageSize = 1048576 := rfl
      rw [hpageSize] at hcross ⊢
      omega
    rw [div_writableSubPageSize, hsame, hcoarse] at hpage
    cases hpage
  · exact tryGetWritablePointerFast_spec hmapped hguarded hmarked hpointer

end Tables

/-! ## Reachable states -/

namespace MemoryState

/-- The tables agree with the regions, the executable ranges and the deferred reads. -/
structure Sound (state : MemoryState) : Prop where
  mapped : Mapped state.regions state.tables
  guarded : Guarded state.executables state.deferred.reads state.tables
  reads : ∀ read ∈ state.deferred.reads, read.Valid
  executables : state.executables.Marked

section Steps

variable {state state' : MemoryState} {system : HostSystem}

theorem sound_initial (host : HostMemory) : (initial host).Sound where
  mapped := Mapped.empty
  guarded := Guarded.empty
  reads := fun _ h => by cases h
  executables := Executables.marked_empty

theorem Sound.init (h : state.Sound) {layout : List Region} {cleared : HostMemory}
    (hinit : state.init layout cleared = some state') : state'.Sound := by
  unfold MemoryState.init at hinit
  rw [Option.ite_none_right_eq_some] at hinit
  obtain ⟨-, hinit⟩ := hinit
  cases hinit
  exact
    { mapped := Mapped.buildPageTable.refreshFastPathTables
      guarded := Guarded.refreshFastPathTables
      reads := h.reads
      executables := h.executables }

theorem Sound.clearDeferredReads (h : state.Sound) : state.clearDeferredReads.Sound where
  mapped := h.mapped.congr rfl rfl
  guarded := h.guarded.refreshDeferredReadPages (fun _ hread => by cases hread)
    (fun _ hread => by cases hread) _
  reads := fun _ hread => by cases hread
  executables := h.executables

theorem Sound.reset (h : state.Sound) : state.reset.Sound where
  mapped := Mapped.empty
  guarded := Guarded.empty
  reads := fun _ hread => by cases hread
  executables := h.executables

/-- Adding a range to the guard of the view changes nothing that the tables depend on. -/
theorem registerFlatExecutable_frame (state : MemoryState) (range : ExecutableRange) :
    (state.registerFlatExecutable range).regions = state.regions ∧
      (state.registerFlatExecutable range).tables = state.tables ∧
      (state.registerFlatExecutable range).executables = state.executables ∧
      (state.registerFlatExecutable range).deferred.reads = state.deferred.reads := by
  unfold registerFlatExecutable
  split_ifs <;> exact ⟨rfl, rfl, rfl, rfl⟩

theorem foldl_registerFlatExecutable_frame (state : MemoryState)
    (ranges : List ExecutableRange) :
    (ranges.foldl registerFlatExecutable state).regions = state.regions ∧
      (ranges.foldl registerFlatExecutable state).tables = state.tables ∧
      (ranges.foldl registerFlatExecutable state).executables = state.executables ∧
      (ranges.foldl registerFlatExecutable state).deferred.reads = state.deferred.reads := by
  induction ranges generalizing state with
  | nil => exact ⟨rfl, rfl, rfl, rfl⟩
  | cons range ranges ih =>
      obtain ⟨hregions, htables, hexecutables, hreads⟩ :=
        registerFlatExecutable_frame state range
      rw [List.foldl_cons, ← hregions, ← htables, ← hexecutables, ← hreads]
      exact ih _

theorem Sound.registerExecutableRange (h : state.Sound) {start stop : ℕ} {name : String}
    (hstop : stop ≤ 2 ^ 32) : (state.registerExecutableRange start stop name).Sound := by
  unfold MemoryState.registerExecutableRange
  split_ifs
  · exact h
  · obtain ⟨hregions, htables, hexecutables, hreads⟩ := foldl_registerFlatExecutable_frame
      ({ state with
        executables := state.executables.registerExecutableRange start stop name })
      ((state.executables.registerExecutableRange start stop name).ranges.drop
        state.executables.ranges.length)
    constructor
    · dsimp only
      rw [hregions]
      refine Mapped.refreshFastPathTables ?_
      rw [htables]
      exact h.mapped
    · dsimp only
      rw [hexecutables, hreads]
      exact Guarded.refreshFastPathTables
    · dsimp only
      rw [hreads]
      exact h.reads
    · dsimp only
      rw [hexecutables]
      exact h.executables.registerExecutableRange hstop

theorem registerDeferredRead_cases (state : MemoryState) (address length : ℕ)
    (hasCallback : Bool) :
    (state.registerDeferredRead address length hasCallback).2 = state ∨
      ∃ read : DeferredRead, read.Valid ∧
        (state.registerDeferredRead address length hasCallback).2.regions = state.regions ∧
        (state.registerDeferredRead address length hasCallback).2.executables =
          state.executables ∧
        (state.registerDeferredRead address length hasCallback).2.deferred.reads =
          state.deferred.reads ++ [read] ∧
        (state.registerDeferredRead address length hasCallback).2.tables =
          { state.tables with
            fullReadablePageBias := fun page =>
              if coversPage read page then 0 else state.tables.fullReadablePageBias page } := by
  unfold MemoryState.registerDeferredRead DeferredState.registerDeferredRead
  by_cases hrefused : length = 0 ∨ hasCallback = false ∨ 2 ^ 32 < address + length
  · rw [if_pos hrefused]
    exact Or.inl rfl
  · rw [if_neg hrefused]
    dsimp only
    split_ifs with htoken
    · exact Or.inl rfl
    all_goals
      refine Or.inr ⟨⟨_, address, length⟩, ⟨?_, ?_⟩, rfl, rfl, rfl, rfl⟩ <;> dsimp only <;> omega

theorem Sound.registerDeferredRead (h : state.Sound) (address length : ℕ)
    (hasCallback : Bool) :
    (state.registerDeferredRead address length hasCallback).2.Sound := by
  rcases registerDeferredRead_cases state address length hasCallback with
    hsame | ⟨read, hvalid, hregions, hexecutables, hreads, htables⟩
  · rwa [hsame]
  · constructor
    · rw [hregions, htables]
      exact h.mapped.congr rfl rfl
    · rw [hexecutables, hreads, htables]
      refine ⟨fun page hpage => ?_, h.guarded.writable, h.guarded.sparse⟩
      dsimp only at hpage ⊢
      by_cases hcovers : coversPage read page = true
      · exact absurd (if_pos hcovers) hpage
      · rw [if_neg hcovers] at hpage ⊢
        obtain ⟨heq, hold⟩ := h.guarded.readable page hpage
        refine ⟨heq, fun other hother => ?_⟩
        rcases List.mem_append.mp hother with hmem | hnew
        · exact hold other hmem
        · rw [List.mem_singleton.mp hnew]
          simpa using hcovers
    · rw [hreads]
      intro other hother
      rcases List.mem_append.mp hother with hmem | hnew
      · exact h.reads other hmem
      · rwa [List.mem_singleton.mp hnew]
    · rw [hexecutables]
      exact h.executables

theorem Sound.takeOut (h : state.Sound) {deferred : DeferredState} {host : HostMemory}
    (hsub : ∀ read ∈ deferred.reads, read ∈ state.deferred.reads) (affected : ℕ → Bool) :
    Sound { state with
      deferred := deferred
      tables := refreshDeferredReadPages affected deferred.reads state.tables
      host := host } where
  mapped := h.mapped.congr rfl rfl
  guarded := h.guarded.refreshDeferredReadPages hsub
    (fun read hread => h.reads read (hsub read hread)) affected
  reads := fun read hread => h.reads read (hsub read hread)
  executables := h.executables

theorem Sound.resolveDeferredReads (h : state.Sound) (renderer : Renderer)
    (address length : ℕ) : (state.resolveDeferredReads renderer address length).1.Sound :=
  h.takeOut (fun _ hread => (List.mem_filter.mp hread).1) _

theorem Sound.read (h : state.Sound) (renderer : Renderer) (address : BitVec 32)
    (width : ℕ) : (state.read renderer address width).2.Sound := by
  unfold MemoryState.read
  split
  · exact h
  · unfold readSlow
    split_ifs
    · exact h
    · have hresolved := h.resolveDeferredReads renderer address.toNat width
      split <;> rename_i heq <;> rw [heq] at hresolved
      · exact hresolved
      · split <;> exact hresolved

theorem reads_of_resumed {platform : Platform} {mapped : ℕ → Bool} {permitted : Bool}
    {materializes : DeferredRead → Bool} {deferred deferred' : DeferredState}
    {guestAddress : ℕ} {isWrite : Bool}
    (h : GuestFlat.handleAccessViolation platform mapped permitted materializes deferred
      guestAddress isWrite = .resumed deferred') :
    ∀ read ∈ deferred'.reads, read ∈ deferred.reads := by
  unfold GuestFlat.handleAccessViolation at h
  split at h
  · dsimp only at h
    split_ifs at h
    cases h
    exact fun read hread => (List.mem_filter.mp hread).1
  · dsimp only at h
    -- no other branch takes a read out
    split at h
    · split at h <;> cases h
      exact fun read hread => hread
    · split at h
      · cases h
      · split at h
        · split at h
          · cases h
            exact fun read hread => hread
          · split at h <;> cases h
            exact fun read hread => hread
        · cases h
          exact fun read hread => hread

theorem Sound.handleAccessViolation (h : state.Sound) {lr : Option (BitVec 32)}
    {guestAddress : ℕ} {isWrite : Bool} {events : List WriteEvent}
    (hfault : state.handleAccessViolation system lr guestAddress isWrite =
      (events, some state')) : state'.Sound := by
  unfold MemoryState.handleAccessViolation at hfault
  dsimp only at hfault
  split at hfault
  case h_1 deferred hresumed =>
    cases hfault
    exact h.takeOut (reads_of_resumed hresumed) _
  case h_2 => cases hfault

theorem Sound.step (h : state.Sound) (hstep : Step system state state') : state'.Sound := by
  cases hstep with
  | init layout cleared hinit => exact h.init hinit
  | reset => exact h.reset
  | registerExecutableRange start stop name =>
      exact h.registerExecutableRange stop.isLt.le
  | registerDeferredRead address length hasCallback =>
      exact h.registerDeferredRead address.toNat length hasCallback
  | clearDeferredReads => exact h.clearDeferredReads
  | resolveDeferredReads address length =>
      exact h.resolveDeferredReads system.renderer address.toNat length
  | read address width => exact h.read system.renderer address width
  | fault hfault => exact h.handleAccessViolation hfault
  | put host => exact ⟨h.mapped, h.guarded, h.reads, h.executables⟩

theorem Reachable.sound (h : Reachable system state) : state.Sound := by
  induction h with
  | initial host => exact sound_initial host
  | step _ hstep ih => exact ih.step hstep

end Steps

/-! ## Checked accesses -/

section Accesses

variable {state state' : MemoryState} {system : HostSystem} {renderer : Renderer}
  {address : BitVec 32} {width value : ℕ} {pointer : BitVec 64}

/-- The access has its bytes in a region, or runs on from a page into its successor with
each byte in the region of its own page. -/
def Backed (regions : List Region) (address : BitVec 32) (length : ℕ)
    (pointer : BitVec 64) : Prop :=
  (∃ region ∈ regions, region.Holds address length ∧ pointer = region.hostPointer address) ∨
    ¬InPage address.toNat length ∧ FastBacked regions address.toNat length pointer

theorem backed_of_fastBacked (hpos : 0 < width)
    (h : FastBacked state.regions address.toNat width pointer) :
    Backed state.regions address width pointer := by
  by_cases hinPage : InPage address.toNat width
  · exact Or.inl (h.exists_holds hinPage hpos)
  · exact Or.inr ⟨hinPage, h⟩

/-- The pointer of the slow path is one of the tables or of a region. -/
theorem Sound.getPointer (h : state.Sound) (hpos : 0 < width)
    (hpointer : state.getPointer address width = some pointer) :
    Backed state.regions address width pointer := by
  unfold MemoryState.getPointer at hpointer
  rw [Option.or_eq_some_iff] at hpointer
  rcases hpointer with hfast | ⟨-, hslow⟩
  · exact backed_of_fastBacked hpos (h.mapped.tryGetPointerFast hfast)
  · rw [Runtime.getPointer, Option.map_eq_some_iff] at hslow
    obtain ⟨region, hresolve, hvalue⟩ := hslow
    rw [tryResolveRegion] at hresolve
    have hholds := List.find?_some hresolve
    exact Or.inl ⟨region, List.mem_of_find?_eq_some hresolve, of_decide_eq_true hholds,
      hvalue.symm⟩

theorem not_overlaps_of_coversPage {read : DeferredRead} (hvalid : read.Valid)
    (hinPage : InPage address.toNat width)
    (h : coversPage read (address.toNat / pageSize) = false) :
    ¬PageSpans.Overlaps address.toNat width read.start read.length := by
  rw [coversPage_eq_overlaps hvalid, decide_eq_false_iff_not] at h
  rintro ⟨hleft, hright⟩
  refine h ⟨?_, ?_⟩
  · exact lt_of_le_of_lt (Nat.div_mul_le_self _ _) hleft
  · have hsplit := Nat.div_add_mod' address.toNat pageSize
    rw [InPage] at hinPage
    omega

theorem Sound.read_ok (h : state.Sound) (hpos : 0 < width) (hwidth : width ≤ 8)
    (hread : state.read renderer address width = (.ok value, state')) :
    (∃ pointer, Backed state'.regions address width pointer ∧
        value = loadScalar state'.host pointer width) ∧
      (InPage address.toNat width ∨ state.tables.tryReadGuestScalar address = none →
        ∀ read ∈ state'.deferred.reads,
          ¬PageSpans.Overlaps address.toNat width read.start read.length) := by
  unfold MemoryState.read at hread
  split at hread
  case h_1 pointer hpointer =>
    cases hread
    obtain ⟨hbacked, hreads⟩ := tryReadGuestScalar_backed h.mapped h.guarded hwidth hpointer
    refine ⟨⟨pointer, backed_of_fastBacked hpos hbacked, rfl⟩, fun hchecked read hmem => ?_⟩
    rcases hchecked with hinPage | hnone
    · exact not_overlaps_of_coversPage (h.reads read hmem) hinPage (hreads read hmem)
    · rw [hpointer] at hnone
      cases hnone
  case h_2 =>
    unfold readSlow at hread
    split_ifs at hread
    · cases hread
    have hresolved := h.resolveDeferredReads renderer address.toNat width
    have hreads : ∀ read ∈ (state.resolveDeferredReads renderer address.toNat
        width).1.deferred.reads,
        ¬PageSpans.Overlaps address.toNat width read.start read.length := by
      intro read hmem
      have hmeets := (List.mem_filter.mp hmem).2
      simpa [DeferredState.meets] using hmeets
    split at hread <;> rename_i heq <;> rw [heq] at hresolved hreads
    · cases hread
    · split at hread
      · cases hread
      case h_2 pointer hpointer =>
        cases hread
        exact ⟨⟨pointer, hresolved.getPointer hpos hpointer, rfl⟩, fun _ => hreads⟩

/-- A checked write to a guarded part of memory comes to the handler first. -/
theorem Sound.write_handled (h : state.Sound) (hwidth : width ≤ 8)
    {lr : Option (BitVec 32)} {bytes : List UInt8} {byte : ℕ}
    (hput : WriteEvent.put pointer bytes ∈ (state.write lr address width value).1)
    (haddress : address.toNat ≤ byte) (hbyte : byte < address.toNat + width)
    (hguard : state.executables.pages (byte / writableSubPageSize) = true) :
    (state.write lr address width value).1 =
      [.handleExecutableWrite address.toNat width, .put pointer bytes] := by
  unfold MemoryState.write at hput ⊢
  split
  case h_1 pointer' hpointer =>
    obtain ⟨-, hfree⟩ :=
      tryWriteGuestScalar_spec h.mapped h.guarded h.executables hwidth hpointer
    rw [hfree byte haddress hbyte] at hguard
    cases hguard
  case h_2 hnone =>
    rw [hnone] at hput
    unfold writeSlow at hput ⊢
    dsimp only at hput ⊢
    split_ifs at hput ⊢
    · simp at hput
    · simp at hput
    split at hput
    · simp at hput
    · split at hput
      · simp at hput
      · simp only [List.mem_cons, reduceCtorEq, List.not_mem_nil, or_false, false_or] at hput
        rw [hput]

/-- A host address that the tables give for an access. -/
def FastPointer (state : MemoryState) (address : BitVec 32) (width : ℕ)
    (pointer : BitVec 64) : Prop :=
  state.tables.tryGetPointerFast address width = some pointer ∨
    state.tables.tryReadGuestScalar address = some pointer ∨
    state.tables.tryGetWritablePointerFast state.executables address width = some pointer ∨
    state.tables.tryWriteGuestScalar state.executables address width = some pointer

theorem Sound.fastPointer (h : state.Sound) (hwidth : width ≤ 8)
    (hpointer : FastPointer state address width pointer) :
    FastBacked state.regions address.toNat width pointer := by
  rcases hpointer with hget | hread | hwritable | hwrite
  · exact h.mapped.tryGetPointerFast hget
  · exact (tryReadGuestScalar_backed h.mapped h.guarded hwidth hread).1
  · exact (tryGetWritablePointerFast_spec h.mapped h.guarded h.executables hwritable).1
  · exact (tryWriteGuestScalar_spec h.mapped h.guarded h.executables hwidth hwrite).1

/-- In every reachable state, a checked read that returns has the big-endian number of
the bytes of a region, or of the regions of two pages that are mapped behind each other.
If it stays in a page or takes the slow path, no deferred read that is pending overlaps
it.  A pointer of the tables has each byte of the access in the region of its page.  A
checked write puts nothing to a guarded part of memory before the handler was called, and
a pointer of the writable tables has no guarded byte. -/
theorem checked_path_sound (h : Reachable system state) (hwidth : width ∈ [1, 2, 4, 8]) :
    (∀ value state', state.read system.renderer address width = (.ok value, state') →
      (∃ pointer, Backed state'.regions address width pointer ∧
        value = loadScalar state'.host pointer width) ∧
      (InPage address.toNat width ∨ state.tables.tryReadGuestScalar address = none →
        ∀ read ∈ state'.deferred.reads,
          ¬PageSpans.Overlaps address.toNat width read.start read.length)) ∧
    (∀ pointer, FastPointer state address width pointer →
      FastBacked state.regions address.toNat width pointer) ∧
    (∀ lr value pointer bytes byte,
      WriteEvent.put pointer bytes ∈ (state.write lr address width value).1 →
      address.toNat ≤ byte → byte < address.toNat + width →
      state.executables.pages (byte / writableSubPageSize) = true →
      (state.write lr address width value).1 =
        [.handleExecutableWrite address.toNat width, .put pointer bytes]) ∧
    (∀ pointer byte,
      state.tables.tryGetWritablePointerFast state.executables address width = some pointer →
      address.toNat ≤ byte → byte < address.toNat + width →
      state.executables.pages (byte / writableSubPageSize) = false) := by
  have hsound := h.sound
  have hbounds : 0 < width ∧ width ≤ 8 := by
    simp only [List.mem_cons, List.not_mem_nil, or_false] at hwidth
    omega
  obtain ⟨hpos, hle⟩ := hbounds
  refine ⟨fun value state' hread => hsound.read_ok hpos hle hread,
    fun pointer hpointer => hsound.fastPointer hle hpointer,
    fun lr value pointer bytes byte hput haddress hbyte hguard =>
      hsound.write_handled hle hput haddress hbyte hguard,
    fun pointer byte hpointer haddress hbyte => ?_⟩
  exact (tryGetWritablePointerFast_spec hsound.mapped hsound.guarded hsound.executables
    hpointer).2 byte haddress hbyte

end Accesses

/-! ## Two regions behind each other -/

/-- A host whose graphics processor fills every deferred read with nothing. -/
def exampleSystem : HostSystem where
  platform := .posix
  mapped := fun _ => false
  renderer := ⟨fun _ => true, fun _ host => host⟩

/-- Two regions of one page each that are mapped behind each other. -/
def exampleLayout : List Region :=
  [⟨0x80000000#32, 2 ^ 20, 0x10000#64⟩, ⟨0x80100000#32, 2 ^ 20, 0x110000#64⟩]

/-- The state after the two regions are mapped. -/
def exampleState : MemoryState :=
  ((initial fun _ => 0).init exampleLayout fun _ => 0).getD (initial fun _ => 0)

theorem reachable_exampleState : Reachable exampleSystem exampleState :=
  .step (.initial fun _ => 0) (.init exampleLayout (fun _ => 0) rfl)

theorem read_exampleState :
    exampleState.read exampleSystem.renderer 0x800FFFFE#32 4 = (.ok 0, exampleState) := by
  have hpointer : exampleState.tables.tryReadGuestScalar 0x800FFFFE#32 =
      some 0x10FFFE#64 := by decide +kernel
  have hvalue : loadScalar exampleState.host 0x10FFFE#64 4 = 0 := by decide +kernel
  rw [MemoryState.read, hpointer]
  dsimp only
  rw [hvalue]

/-- A read over the end of a page takes bytes through the entry of a region that does not
have them. -/
theorem fast_pointer_leaves_region :
    Reachable exampleSystem exampleState ∧
      exampleState.tables.tryReadGuestScalar 0x800FFFFE#32 = some 0x10FFFE#64 ∧
      exampleState.read exampleSystem.renderer 0x800FFFFE#32 4 = (.ok 0, exampleState) ∧
      ∃ region, builtFrom exampleState.regions (0x800FFFFE / pageSize) = some region ∧
        ¬region.Holds 0x800FFFFE#32 4 :=
  ⟨reachable_exampleState, by decide +kernel, read_exampleState,
    ⟨0x80000000#32, 2 ^ 20, 0x10000#64⟩, by decide +kernel, by decide +kernel⟩

/-- The bytes of the read are those of the two regions. -/
theorem fast_pointer_backed :
    ∃ pointer, Backed exampleState.regions 0x800FFFFE#32 4 pointer ∧
      0 = loadScalar exampleState.host pointer 4 :=
  ((checked_path_sound reachable_exampleState (by decide)).1 0 exampleState
    read_exampleState).1

end MemoryState

end Wiicompiled.Runtime.MemoryInline
