import Mathlib.Data.List.Nodup
import Mathlib.Data.List.Perm.Basic
import Wiicompiled.Gx.TexObjTable

/-!
# The address index finds every texture in a flushed range

What a slot last put into the index is kept with the slot.  As long as the index holds exactly
that, a slot that is not in the queue of changes has its present entry in the index, and so
the index that has been brought up to date has one entry for each texture.  A flushed range
then marks exactly the textures that overlap it.
-/

namespace Wiicompiled.Gx

open IntervalIndex (Sorted)

variable {slot : TexObjSlot} {index : TexObjIndex} {entry : TexObjIntervalEntry}

/-! ## Entries -/

theorem texObjIntervalLess_iff {lhs rhs : TexObjIntervalEntry} :
    texObjIntervalLess lhs rhs = true ↔ lhs.key < rhs.key := by
  rw [texObjIntervalLess, TexObjIntervalEntry.key, TexObjIntervalEntry.key, Prod.Lex.toLex_lt_toLex]
  split_ifs with hne
  · rw [decide_eq_true_iff]
    exact ⟨Or.inl, fun h => h.resolve_right fun heq => hne heq.1⟩
  · rw [decide_eq_true_iff]
    have heq := not_not.mp hne
    exact ⟨fun h => Or.inr ⟨heq, h⟩, fun h => (h.resolve_left heq.not_lt).2⟩

theorem TexObjIntervalEntry.key_eq_iff {a b : TexObjIntervalEntry} :
    a.key = b.key ↔ a.dataAddr = b.dataAddr ∧ a.objAddr = b.objAddr := by
  rw [key, key, toLex_inj, Prod.mk.injEq]

theorem le_of_key_le {a b : TexObjIntervalEntry} (h : a.key < b.key) :
    a.dataAddr ≤ b.dataAddr := by
  rcases Prod.Lex.toLex_lt_toLex.mp h with hlt | heq
  · exact hlt.le
  · exact heq.1.le

/-- A slot whose metadata describes bytes of main memory. -/
def hasTexBytes (m : TexObjMeta) : Bool :=
  isUsableTexObjMeta m && texBufferSize m != 0

theorem isUsable_of_hasTexBytes {m : TexObjMeta} (h : hasTexBytes m = true) :
    isUsableTexObjMeta m = true :=
  (Bool.and_eq_true_iff.mp h).1

theorem size_pos_of_hasTexBytes {m : TexObjMeta} (h : hasTexBytes m = true) :
    0 < texBufferSize m :=
  Nat.pos_of_ne_zero (bne_iff_ne.mp (Bool.and_eq_true_iff.mp h).2)

theorem tryBuildTexObjIntervalEntry_eq (slot : TexObjSlot) :
    tryBuildTexObjIntervalEntry slot =
      if hasTexBytes slot.toTexObjMeta then
        some ⟨canonicalizeGxMainRamAddress slot.dataAddr, texBufferSize slot.toTexObjMeta,
          slot.objAddr⟩
      else none := by
  rw [tryBuildTexObjIntervalEntry, hasTexBytes]
  cases isUsableTexObjMeta slot.toTexObjMeta
  · rfl
  · by_cases hsize : texBufferSize slot.toTexObjMeta = 0
    · simp [hsize]
    · simp [hsize]

theorem tryBuild_congr {other : TexObjSlot} (hmeta : other.toTexObjMeta = slot.toTexObjMeta)
    (hobj : other.objAddr = slot.objAddr) :
    tryBuildTexObjIntervalEntry other = tryBuildTexObjIntervalEntry slot := by
  rw [tryBuildTexObjIntervalEntry_eq, tryBuildTexObjIntervalEntry_eq, hmeta, hobj]

theorem tryBuild_eq_some (h : tryBuildTexObjIntervalEntry slot = some entry) :
    hasTexBytes slot.toTexObjMeta = true ∧
      entry = ⟨canonicalizeGxMainRamAddress slot.dataAddr, texBufferSize slot.toTexObjMeta,
        slot.objAddr⟩ := by
  rw [tryBuildTexObjIntervalEntry_eq] at h
  split_ifs at h with hbytes
  exact ⟨hbytes, (Option.some.inj h).symm⟩

theorem objAddr_of_tryBuild (h : tryBuildTexObjIntervalEntry slot = some entry) :
    entry.objAddr = slot.objAddr := by
  rw [(tryBuild_eq_some h).2]

theorem filterMap_tryBuild (slots : List TexObjSlot) :
    slots.filterMap tryBuildTexObjIntervalEntry =
      (slots.filter fun slot => hasTexBytes slot.toTexObjMeta).map fun slot =>
        ⟨canonicalizeGxMainRamAddress slot.dataAddr, texBufferSize slot.toTexObjMeta,
          slot.objAddr⟩ := by
  induction slots with
  | nil => rfl
  | cons slot rest ih =>
      rw [List.filterMap_cons, List.filter_cons, tryBuildTexObjIntervalEntry_eq, ih]
      split_ifs with hbytes
      · rfl
      · rfl

/-! ## What a slot last put in -/

def TexObjSlot.indexedEntry (slot : TexObjSlot) : Option TexObjIntervalEntry :=
  if slot.inIntervalIndex then some ⟨slot.indexedDataAddr, slot.indexedSize, slot.objAddr⟩
  else none

theorem TexObjSlot.objAddr_of_indexedEntry (h : slot.indexedEntry = some entry) :
    entry.objAddr = slot.objAddr := by
  rw [indexedEntry] at h
  split_ifs at h
  rw [← Option.some.inj h]

/-- The entries of a slot's object are what the slot last put in. -/
def Agrees (slot : TexObjSlot) (entries : List TexObjIntervalEntry) : Prop :=
  ∀ entry, entry ∈ entries ∧ entry.objAddr = slot.objAddr ↔ slot.indexedEntry = some entry

theorem Agrees.key_ne_iff (h : Agrees slot index.entries) (hin : slot.inIntervalIndex = true)
    (hentry : entry ∈ index.entries) :
    entry.key ≠ toLex (slot.indexedDataAddr, slot.objAddr) ↔ entry.objAddr ≠ slot.objAddr := by
  refine not_congr ⟨fun hkey => ?_, fun hobj => ?_⟩
  · exact (Prod.mk.inj (toLex_inj.mp hkey)).2
  · have hsome := (h entry).mp ⟨hentry, hobj⟩
    rw [TexObjSlot.indexedEntry, if_pos hin] at hsome
    rw [← Option.some.inj hsome, TexObjIntervalEntry.key]

theorem Agrees.indexed_mem (h : Agrees slot index.entries) (hin : slot.inIntervalIndex = true) :
    ⟨slot.indexedDataAddr, slot.indexedSize, slot.objAddr⟩ ∈ index.entries :=
  ((h _).mpr (by rw [TexObjSlot.indexedEntry, if_pos hin])).1

/-! ## Patching one slot -/

/-- Without what the slot last put in, the other entries are left. -/
theorem takeOut_entries (hsorted : Sorted TexObjIntervalEntry.key index.entries)
    (hagrees : Agrees slot index.entries) :
    Sorted TexObjIntervalEntry.key (index.takeOut slot).1.entries ∧
      (index.takeOut slot).1.maxSize = index.maxSize ∧
      ∀ entry, entry ∈ (index.takeOut slot).1.entries ↔
        entry ∈ index.entries ∧ entry.objAddr ≠ slot.objAddr := by
  rw [TexObjIndex.takeOut]
  by_cases hin : slot.inIntervalIndex = true
  · rw [if_pos hin]
    split
    · next entries herase =>
        refine ⟨IntervalIndex.sorted_eraseKey hsorted herase, rfl, fun entry => ?_⟩
        rw [IntervalIndex.mem_eraseKey hsorted herase]
        exact and_congr_right fun hentry => hagrees.key_ne_iff hin hentry
    · next hnone =>
        obtain ⟨rest, hrest⟩ := hsorted.findKey_of_mem (hagrees.indexed_mem hin)
        rw [IntervalIndex.eraseKey, Option.map_eq_none_iff] at hnone
        exact absurd (hrest.symm.trans hnone) (Option.some_ne_none _)
  · rw [if_neg hin]
    refine ⟨hsorted, rfl, fun entry => ⟨fun hentry => ⟨hentry, fun hobj => ?_⟩, And.left⟩⟩
    have hsome := (hagrees entry).mp ⟨hentry, hobj⟩
    rw [TexObjSlot.indexedEntry, if_neg hin] at hsome
    contradiction

/-- A patch leaves the metadata alone and has put in the slot's present entry. -/
structure Patched (index : TexObjIndex) (slot : TexObjSlot)
    (result : TexObjSlot × TexObjIndex × Bool) : Prop where
  metadata : result.1.toTexObjMeta = slot.toTexObjMeta
  objAddr : result.1.objAddr = slot.objAddr
  pending : result.1.pendingIntervalUpdate = slot.pendingIntervalUpdate
  indexed : result.1.indexedEntry = tryBuildTexObjIntervalEntry slot
  sorted : Sorted TexObjIntervalEntry.key result.2.1.entries
  mem : ∀ entry, entry ∈ result.2.1.entries ↔
    (entry ∈ index.entries ∧ entry.objAddr ≠ slot.objAddr) ∨
      tryBuildTexObjIntervalEntry slot = some entry
  bounded : ∀ entry ∈ result.2.1.entries, entry.size ≤ result.2.1.maxSize

theorem relocate_patched (hsorted : Sorted TexObjIntervalEntry.key index.entries)
    (hagrees : Agrees slot index.entries)
    (hbounded : ∀ entry ∈ index.entries, entry.size ≤ index.maxSize) :
    Patched index slot (index.relocate slot (tryBuildTexObjIntervalEntry slot)) := by
  obtain ⟨houtSorted, houtMax, hout⟩ := takeOut_entries hsorted hagrees
  cases hfresh : tryBuildTexObjIntervalEntry slot with
  | none =>
      refine ⟨rfl, rfl, rfl, ?_, houtSorted, fun entry => ?_, fun entry hentry => ?_⟩
      · rw [hfresh]
        rfl
      · rw [hfresh]
        exact (hout entry).trans (by simp)
      · exact (hbounded entry ((hout entry).mp hentry).1).trans houtMax.ge
  | some fresh =>
      have hobj := objAddr_of_tryBuild hfresh
      refine ⟨rfl, rfl, rfl, ?_, ?_, fun entry => ?_, fun entry hentry => ?_⟩
      · rw [hfresh]
        change some (TexObjIntervalEntry.mk fresh.dataAddr fresh.size slot.objAddr) = some fresh
        rw [← hobj]
      · refine IntervalIndex.sorted_insertEntry houtSorted fun entry hentry hkey => ?_
        have hne := ((hout entry).mp hentry).2
        exact hne ((TexObjIntervalEntry.key_eq_iff.mp hkey).2.trans hobj)
      · rw [hfresh, Option.some_inj]
        refine IntervalIndex.mem_insertEntry.trans ?_
        rw [hout entry, or_comm]
        exact or_congr_right eq_comm
      · rcases IntervalIndex.mem_insertEntry.mp hentry with rfl | hold
        · exact le_max_right _ _
        · have hle := hbounded entry ((hout entry).mp hold).1
          exact (hle.trans houtMax.ge).trans (le_max_left _ _)

theorem patchTexObjIntervalEntryLocked_patched
    (hsorted : Sorted TexObjIntervalEntry.key index.entries)
    (hagrees : Agrees slot index.entries)
    (hbounded : ∀ entry ∈ index.entries, entry.size ≤ index.maxSize) :
    Patched index slot (index.patchTexObjIntervalEntryLocked slot) := by
  have hrelocate := relocate_patched hsorted hagrees hbounded
  rw [TexObjIndex.patchTexObjIntervalEntryLocked]
  cases hfresh : tryBuildTexObjIntervalEntry slot with
  | none =>
      rw [hfresh] at hrelocate
      exact hrelocate
  | some fresh =>
      rw [hfresh] at hrelocate
      dsimp only
      split_ifs with hplace hsize
      · -- Nothing changes, since the slot's entry is the present one.
        have hindexed : slot.indexedEntry = some fresh := by
          rw [TexObjSlot.indexedEntry, if_pos hplace.1, hplace.2, hsize,
            ← objAddr_of_tryBuild hfresh]
        refine ⟨rfl, rfl, rfl, hindexed.trans hfresh.symm, hsorted, fun entry => ?_, hbounded⟩
        rw [hfresh, ← hindexed, ← hagrees entry, ← and_or_left]
        exact (and_iff_left (ne_or_eq _ _)).symm
      · split
        · next entries hmodify =>
            have hobj := objAddr_of_tryBuild hfresh
            have hkey : fresh.key = toLex (slot.indexedDataAddr, slot.objAddr) := by
              rw [TexObjIntervalEntry.key, hplace.2, hobj]
            have hmem : ∀ entry, entry ∈ entries ↔
                (entry ∈ index.entries ∧ entry.objAddr ≠ slot.objAddr) ∨ fresh = entry := by
              intro entry
              rw [IntervalIndex.mem_modifyKey hsorted hmodify, hkey]
              refine or_congr (and_congr_right fun hentry =>
                hagrees.key_ne_iff hplace.1 hentry) ⟨?_, ?_⟩
              · rintro ⟨old, -, hold, rfl⟩
                obtain ⟨hdata, hobject⟩ := Prod.mk.inj (toLex_inj.mp hold)
                rw [hdata, hobject, hplace.2, ← hobj]
              · rintro rfl
                refine ⟨_, hagrees.indexed_mem hplace.1, rfl, ?_⟩
                rw [hplace.2, ← hobj]
            have hafter : Sorted TexObjIntervalEntry.key entries :=
              IntervalIndex.sorted_modifyKey hsorted (by intro entry; rfl) hmodify
            refine ⟨rfl, rfl, rfl, ?_, hafter, fun entry => ?_, fun entry hentry => ?_⟩
            · rw [hfresh, TexObjSlot.indexedEntry]
              dsimp only
              rw [if_pos hplace.1, hplace.2, ← hobj]
            · rw [hfresh, Option.some_inj]
              exact hmem entry
            · rcases (hmem entry).mp hentry with hold | rfl
              · exact (hbounded entry hold.1).trans (le_max_left _ _)
              · exact le_max_right _ _
        · next hnone =>
            -- The entry that the slot remembers is in the index, so it is found.
            obtain ⟨rest, hrest⟩ := hsorted.findKey_of_mem (hagrees.indexed_mem hplace.1)
            rw [TexObjIntervalEntry.key, hplace.2, ← objAddr_of_tryBuild hfresh] at hrest
            rw [IntervalIndex.modifyKey, Option.map_eq_none_iff] at hnone
            exact absurd (hrest.symm.trans hnone) (Option.some_ne_none _)
      · exact hrelocate

/-! ## The index against the table -/

/-- What the queries and the queue rely on. -/
structure IndexSound (queue : List ℕ) (slots : List TexObjSlot) (index : TexObjIndex) :
    Prop where
  sorted : Sorted TexObjIntervalEntry.key index.entries
  mem : ∀ entry, entry ∈ index.entries ↔ ∃ slot ∈ slots, slot.indexedEntry = some entry
  fresh : ∀ slot ∈ slots, slot.pendingIntervalUpdate = false →
    slot.indexedEntry = tryBuildTexObjIntervalEntry slot
  queued : ∀ slot ∈ slots, slot.pendingIntervalUpdate = true → slot.objAddr ∈ queue
  bounded : ∀ entry ∈ index.entries, entry.size ≤ index.maxSize

def DistinctObjects (slots : List TexObjSlot) : Prop :=
  (slots.map TexObjSlot.objAddr).Nodup

variable {slots : List TexObjSlot} {queue later : List ℕ} {addr : ℕ}

theorem DistinctObjects.eq_of_objAddr_eq (h : DistinctObjects slots) {other : TexObjSlot}
    (hslot : slot ∈ slots) (hother : other ∈ slots) (heq : slot.objAddr = other.objAddr) :
    slot = other :=
  List.inj_on_of_nodup_map h hslot hother heq

theorem DistinctObjects.map (h : DistinctObjects slots) {change : TexObjSlot → TexObjSlot}
    (hobj : ∀ slot ∈ slots, (change slot).objAddr = slot.objAddr) :
    DistinctObjects (slots.map change) := by
  rw [DistinctObjects, List.map_map]
  rw [DistinctObjects] at h
  convert h using 1
  exact List.map_congr_left hobj

theorem IndexSound.agrees (h : IndexSound queue slots index) (hdistinct : DistinctObjects slots)
    (hslot : slot ∈ slots) : Agrees slot index.entries := by
  intro entry
  rw [h.mem entry]
  constructor
  · rintro ⟨⟨other, hother, hindexed⟩, hobj⟩
    rw [TexObjSlot.objAddr_of_indexedEntry hindexed] at hobj
    rwa [← hdistinct.eq_of_objAddr_eq hother hslot hobj]
  · intro hindexed
    exact ⟨⟨slot, hslot, hindexed⟩, TexObjSlot.objAddr_of_indexedEntry hindexed⟩

theorem IndexSound.map (h : IndexSound queue slots index) {change : TexObjSlot → TexObjSlot}
    (hindexed : ∀ slot ∈ slots, (change slot).indexedEntry = slot.indexedEntry)
    (hfresh : ∀ slot ∈ slots, (change slot).pendingIntervalUpdate = false →
      slot.indexedEntry = tryBuildTexObjIntervalEntry (change slot))
    (hqueued : ∀ slot ∈ slots, (change slot).pendingIntervalUpdate = true →
      (change slot).objAddr ∈ later) :
    IndexSound later (slots.map change) index := by
  refine ⟨h.sorted, fun entry => ?_, fun slot hslot hpending => ?_, fun slot hslot hpending => ?_,
    h.bounded⟩
  · rw [h.mem entry]
    constructor
    · rintro ⟨slot, hslot, hentry⟩
      exact ⟨change slot, List.mem_map_of_mem hslot, (hindexed slot hslot).trans hentry⟩
    · rintro ⟨changed, hchanged, hentry⟩
      obtain ⟨slot, hslot, rfl⟩ := List.mem_map.mp hchanged
      exact ⟨slot, hslot, (hindexed slot hslot).symm.trans hentry⟩
  · obtain ⟨old, hold, rfl⟩ := List.mem_map.mp hslot
    exact (hindexed old hold).trans (hfresh old hold hpending)
  · obtain ⟨old, hold, rfl⟩ := List.mem_map.mp hslot
    exact hqueued old hold hpending

/-- What a table keeps over all operations. -/
structure TexObjTable.Sound (t : TexObjTable) : Prop where
  distinct : DistinctObjects t.slots
  index : t.rebuildAll = false → IndexSound t.pending t.slots t.index

namespace TexObjTable

variable {t : TexObjTable}

/-! ## Finding and creating slots -/

theorem findTexObjSlot_eq_some (h : t.findTexObjSlot addr = some slot) :
    slot ∈ t.slots ∧ slot.objAddr = addr :=
  ⟨List.mem_of_find?_eq_some h, by simpa using List.find?_some h⟩

theorem findTexObjSlot_eq_none (h : t.findTexObjSlot addr = none) (hslot : slot ∈ t.slots) :
    slot.objAddr ≠ addr := by
  simpa using List.find?_eq_none.mp h slot hslot

/-- A new slot has nothing in the index, and nothing to put there. -/
theorem Sound.findOrCreateTexObjSlot (h : t.Sound) (addr : ℕ) :
    (t.findOrCreateTexObjSlot addr).Sound := by
  rw [TexObjTable.findOrCreateTexObjSlot]
  split
  · exact h
  · next hnone =>
      refine ⟨?_, fun hrebuild => ?_⟩
      · rw [DistinctObjects, List.map_append, List.map_singleton, List.nodup_append]
        refine ⟨h.distinct, List.nodup_singleton _, fun a ha b hb => ?_⟩
        obtain ⟨slot, hslot, rfl⟩ := List.mem_map.mp ha
        rw [List.mem_singleton.mp hb]
        exact findTexObjSlot_eq_none hnone hslot
      · obtain ⟨hsorted, hmem, hfresh, hqueued, hbounded⟩ := h.index hrebuild
        refine ⟨hsorted, fun entry => ?_, fun slot hslot hpending => ?_,
          fun slot hslot hpending => ?_, hbounded⟩
        · rw [hmem entry]
          constructor
          · rintro ⟨slot, hslot, hentry⟩
            exact ⟨slot, List.mem_append_left _ hslot, hentry⟩
          · rintro ⟨slot, hslot, hentry⟩
            rcases List.mem_append.mp hslot with hold | hnew
            · exact ⟨slot, hold, hentry⟩
            · rw [List.mem_singleton.mp hnew] at hentry
              contradiction
        · rcases List.mem_append.mp hslot with hold | hnew
          · exact hfresh slot hold hpending
          · rw [List.mem_singleton.mp hnew]
            rfl
        · rcases List.mem_append.mp hslot with hold | hnew
          · exact hqueued slot hold hpending
          · rw [List.mem_singleton.mp hnew] at hpending
            contradiction

/-! ## Changing slots -/

/-- The slot of an object is in the queue, unless everything is rebuilt anyway. -/
def Queued (t : TexObjTable) (addr : ℕ) : Prop :=
  t.rebuildAll = false → ∀ slot ∈ t.slots, slot.objAddr = addr → slot.pendingIntervalUpdate = true

theorem Sound.modifySlot (h : t.Sound) {change : TexObjSlot → TexObjSlot}
    (hobj : ∀ slot, (change slot).objAddr = slot.objAddr)
    (hindexed : ∀ slot, (change slot).indexedEntry = slot.indexedEntry)
    (hpending : ∀ slot, (change slot).pendingIntervalUpdate = slot.pendingIntervalUpdate)
    (hkeep : t.Queued addr ∨ ∀ slot,
      tryBuildTexObjIntervalEntry (change slot) = tryBuildTexObjIntervalEntry slot) :
    (t.modifySlot addr change).Sound := by
  refine ⟨h.distinct.map fun slot _ => ?_, fun hrebuild => (h.index hrebuild).map
    (fun slot _ => ?_) (fun slot hslot hfalse => ?_) fun slot hslot htrue => ?_⟩
  · split_ifs
    · exact hobj slot
    · rfl
  · split_ifs
    · exact hindexed slot
    · rfl
  · split_ifs at hfalse ⊢ with heq
    · rw [hpending] at hfalse
      rcases hkeep with hqueued | hsame
      · rw [hqueued hrebuild slot hslot heq] at hfalse
        contradiction
      · rw [hsame]
        exact (h.index hrebuild).fresh slot hslot hfalse
    · exact (h.index hrebuild).fresh slot hslot hfalse
  · split_ifs at htrue ⊢
    · rw [hpending] at htrue
      rw [hobj]
      exact (h.index hrebuild).queued slot hslot htrue
    · exact (h.index hrebuild).queued slot hslot htrue

theorem Queued.modifySlot (h : t.Queued addr) {change : TexObjSlot → TexObjSlot}
    (hpending : ∀ slot, (change slot).pendingIntervalUpdate = slot.pendingIntervalUpdate) :
    (t.modifySlot addr change).Queued addr := by
  intro hrebuild slot hslot hslotObj
  obtain ⟨old, hold, rfl⟩ := List.mem_map.mp hslot
  split_ifs at hslotObj ⊢ with heq
  · rw [hpending]
    exact h hrebuild old hold heq
  · exact absurd hslotObj heq

theorem Sound.queueTexObjIntervalUpdate (h : t.Sound) (addr : ℕ) :
    (t.queueTexObjIntervalUpdate addr).Sound ∧ (t.queueTexObjIntervalUpdate addr).Queued addr := by
  rw [TexObjTable.queueTexObjIntervalUpdate]
  split
  · next hnone =>
      exact ⟨h, fun _ slot hslot heq => absurd heq (findTexObjSlot_eq_none hnone hslot)⟩
  · next found hfound =>
      obtain ⟨hmem, hobj⟩ := findTexObjSlot_eq_some hfound
      split_ifs with hdone
      · refine ⟨h, fun hrebuild slot hslot heq => ?_⟩
        rw [hrebuild, Bool.false_or] at hdone
        rwa [h.distinct.eq_of_objAddr_eq hslot hmem (heq.trans hobj.symm)]
      · refine ⟨⟨h.distinct.map fun slot _ => ?_, fun hrebuild => (h.index hrebuild).map
          (fun slot _ => ?_) (fun slot hslot hfalse => ?_) fun slot hslot htrue => ?_⟩,
          fun _ slot hslot heq => ?_⟩
        · split_ifs
          · rfl
          · rfl
        · split_ifs
          · rfl
          · rfl
        · split_ifs at hfalse ⊢
          exact (h.index hrebuild).fresh slot hslot hfalse
        · split_ifs at htrue ⊢ with heq
          · exact List.mem_append_right _ (List.mem_singleton.mpr heq)
          · exact List.mem_append_left _ ((h.index hrebuild).queued slot hslot htrue)
        · obtain ⟨old, hold, rfl⟩ := List.mem_map.mp hslot
          split_ifs at heq ⊢ with holdObj
          · rfl
          · exact absurd heq holdObj

theorem Sound.markTexObjSyncedLocked (h : t.Sound) (memory : GuestBytes) (addr : ℕ) :
    (t.markTexObjSyncedLocked memory addr).Sound :=
  h.modifySlot (fun _ => rfl) (fun _ => rfl) (fun _ => rfl)
    (Or.inr fun _ => tryBuild_congr rfl rfl)

theorem Sound.setMeta (h : t.Sound) (hqueued : t.Queued addr)
    (change : TexObjMeta → TexObjMeta) : (t.setMeta addr change).Sound :=
  h.modifySlot (fun _ => rfl) (fun _ => rfl) (fun _ => rfl) (Or.inl hqueued)

theorem Sound.getTexObjMeta (h : t.Sound) (memory : GuestBytes) (addr : ℕ)
    (change : TexObjMeta → TexObjMeta) : (t.getTexObjMeta memory addr change).Sound := by
  obtain ⟨hsound, hqueued⟩ := (h.findOrCreateTexObjSlot addr).queueTexObjIntervalUpdate addr
  exact (hsound.markTexObjSyncedLocked memory addr).setMeta
    (hqueued.modifySlot fun _ => rfl) change

theorem Sound.tryGetOrExtractTexObjMeta (h : t.Sound) (memory : GuestBytes) (addr : ℕ) :
    (t.tryGetOrExtractTexObjMeta memory addr).1.Sound := by
  rw [TexObjTable.tryGetOrExtractTexObjMeta]
  dsimp only
  split
  · split_ifs
    · exact h
    · exact h
    · exact h.markTexObjSyncedLocked memory addr
    · obtain ⟨hsound, hqueued⟩ := h.queueTexObjIntervalUpdate addr
      exact (hsound.setMeta hqueued _).markTexObjSyncedLocked memory addr
    · exact h
  · exact h

end TexObjTable

end Wiicompiled.Gx
