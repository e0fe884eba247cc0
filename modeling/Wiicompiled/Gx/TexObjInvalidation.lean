import Wiicompiled.Gx.TexObjIntervals

/-!
# Flushed ranges mark exactly the textures they overlap

Bringing the index up to date empties the queue: each patched slot leaves it, and a rebuild in
the middle of the queue takes all slots at once.  After that the index has the present entry
of every slot, and the walk of a query meets those that overlap the range.
-/

namespace Wiicompiled.Gx

namespace TexObjTable

variable {t : TexObjTable} {addr : ℕ} {rest : List ℕ}

def metadata (t : TexObjTable) : List (ℕ × TexObjMeta) :=
  t.slots.map fun slot => (slot.objAddr, slot.toTexObjMeta)

/-- The index has the present entry of every slot. -/
structure Current (t : TexObjTable) : Prop where
  distinct : DistinctObjects t.slots
  built : t.rebuildAll = false
  index : IndexSound [] t.slots t.index

theorem Current.sound (h : t.Current) : t.Sound :=
  ⟨h.distinct, fun _ => ⟨h.index.sorted, h.index.mem, h.index.fresh,
    fun slot hslot hpending => absurd (h.index.queued slot hslot hpending) List.not_mem_nil,
    h.index.bounded⟩⟩

theorem Current.mem_entries (h : t.Current) (entry : TexObjIntervalEntry) :
    entry ∈ t.index.entries ↔
      ∃ slot ∈ t.slots, tryBuildTexObjIntervalEntry slot = some entry := by
  rw [h.index.mem entry]
  refine exists_congr fun slot => and_congr_right fun hslot => ?_
  rw [h.index.fresh slot hslot]
  rw [← Bool.not_eq_true]
  exact fun hpending => absurd (h.index.queued slot hslot hpending) List.not_mem_nil

/-! ## Rebuilding -/

theorem rebuildSlot_metadata (slot : TexObjSlot) :
    (rebuildSlot slot).toTexObjMeta = slot.toTexObjMeta ∧
      (rebuildSlot slot).objAddr = slot.objAddr ∧
      (rebuildSlot slot).pendingIntervalUpdate = false := by
  rw [rebuildSlot]
  split
  · exact ⟨rfl, rfl, rfl⟩
  · exact ⟨rfl, rfl, rfl⟩

theorem rebuildSlot_indexedEntry (slot : TexObjSlot) :
    (rebuildSlot slot).indexedEntry = tryBuildTexObjIntervalEntry slot := by
  rw [rebuildSlot]
  split
  · next entry hentry =>
      rw [hentry, TexObjSlot.indexedEntry]
      dsimp only
      rw [if_pos rfl, ← objAddr_of_tryBuild hentry]
  · next hnone =>
      rw [hnone]
      rfl

theorem le_foldl_max (entries : List TexObjIntervalEntry) (size : ℕ) :
    size ≤ entries.foldl (fun size entry => max size entry.size) size ∧
      ∀ entry ∈ entries,
        entry.size ≤ entries.foldl (fun size entry => max size entry.size) size := by
  induction entries generalizing size with
  | nil => exact ⟨le_rfl, fun entry hentry => absurd hentry List.not_mem_nil⟩
  | cons first rest ih =>
      obtain ⟨hsize, hrest⟩ := ih (max size first.size)
      rw [List.foldl_cons]
      refine ⟨(le_max_left _ _).trans hsize, fun entry hentry => ?_⟩
      rcases List.mem_cons.mp hentry with rfl | hentry
      · exact (le_max_right _ _).trans hsize
      · exact hrest entry hentry

theorem pairwise_objAddr_filterMap {slots : List TexObjSlot} (h : DistinctObjects slots) :
    (slots.filterMap tryBuildTexObjIntervalEntry).Pairwise fun a b => a.objAddr ≠ b.objAddr := by
  refine List.Pairwise.filterMap _ ?_ (List.pairwise_map.mp h)
  intro slot other hne entry hentry otherEntry hother
  rw [objAddr_of_tryBuild hentry, objAddr_of_tryBuild hother]
  exact hne

/-- Sorting by the order of the index leaves no two entries in one place. -/
theorem sorted_mergeSort {entries : List TexObjIntervalEntry}
    (h : entries.Pairwise fun a b => a.objAddr ≠ b.objAddr) :
    IntervalIndex.Sorted TexObjIntervalEntry.key
      (entries.mergeSort fun lhs rhs => !texObjIntervalLess rhs lhs) := by
  have hle : ∀ a b : TexObjIntervalEntry,
      (!texObjIntervalLess b a) = true ↔ a.key ≤ b.key := by
    intro a b
    rw [Bool.not_eq_true', ← Bool.not_eq_true, texObjIntervalLess_iff, not_lt]
  have hsorted : (entries.mergeSort fun lhs rhs => !texObjIntervalLess rhs lhs).Pairwise
      fun lhs rhs => (!texObjIntervalLess rhs lhs) = true := by
    refine List.pairwise_mergeSort (fun a b c hab hbc => ?_) (fun a b => ?_) entries
    · exact (hle a c).mpr (((hle a b).mp hab).trans ((hle b c).mp hbc))
    · rw [Bool.or_eq_true, hle, hle]
      exact le_total _ _
  have hdistinct := (List.mergeSort_perm entries
    fun lhs rhs => !texObjIntervalLess rhs lhs).symm.pairwise h fun hne => hne.symm
  refine (hsorted.and hdistinct).imp fun {a b} hab => lt_of_le_of_ne ((hle a b).mp hab.1) ?_
  exact fun hkey => hab.2 (TexObjIntervalEntry.key_eq_iff.mp hkey).2

theorem rebuild_current (h : DistinctObjects t.slots) :
    t.rebuildTexObjIntervalsLocked.Current := by
  have hpairwise := pairwise_objAddr_filterMap h
  refine ⟨h.map fun slot _ => (rebuildSlot_metadata slot).2.1, rfl, sorted_mergeSort hpairwise,
    fun entry => ?_, fun slot hslot _ => ?_, fun slot hslot hpending => ?_,
    fun entry hentry => ?_⟩
  · rw [rebuildTexObjIntervalsLocked, List.mem_mergeSort, List.mem_filterMap]
    constructor
    · rintro ⟨slot, hslot, hentry⟩
      exact ⟨rebuildSlot slot, List.mem_map_of_mem hslot,
        (rebuildSlot_indexedEntry slot).trans hentry⟩
    · rintro ⟨changed, hchanged, hentry⟩
      obtain ⟨slot, hslot, rfl⟩ := List.mem_map.mp hchanged
      exact ⟨slot, hslot, (rebuildSlot_indexedEntry slot).symm.trans hentry⟩
  · obtain ⟨old, -, rfl⟩ := List.mem_map.mp hslot
    obtain ⟨hmeta, hobj, -⟩ := rebuildSlot_metadata old
    exact (rebuildSlot_indexedEntry old).trans (tryBuild_congr hmeta hobj).symm
  · obtain ⟨old, -, rfl⟩ := List.mem_map.mp hslot
    rw [(rebuildSlot_metadata old).2.2] at hpending
    contradiction
  · exact (le_foldl_max _ 0).2 entry (List.mem_mergeSort.mp hentry)

theorem rebuild_metadata (t : TexObjTable) :
    t.rebuildTexObjIntervalsLocked.metadata = t.metadata := by
  rw [metadata, rebuildTexObjIntervalsLocked, List.map_map]
  refine List.map_congr_left fun slot _ => ?_
  obtain ⟨hmeta, hobj, -⟩ := rebuildSlot_metadata slot
  rw [Function.comp_apply, hmeta, hobj]

/-! ## Patching the queue -/

theorem patchSlot_sound (hdistinct : DistinctObjects t.slots)
    (hsound : IndexSound (addr :: rest) t.slots t.index) :
    DistinctObjects (t.patchSlot addr).1.slots ∧
      IndexSound rest (t.patchSlot addr).1.slots (t.patchSlot addr).1.index := by
  rw [patchSlot]
  split
  · next hnone =>
      refine ⟨hdistinct, hsound.sorted, hsound.mem, hsound.fresh, fun slot hslot hpending => ?_,
        hsound.bounded⟩
      exact List.mem_of_ne_of_mem (findTexObjSlot_eq_none hnone hslot)
        (hsound.queued slot hslot hpending)
  · next found hfound =>
      obtain ⟨hmem, hobj⟩ := findTexObjSlot_eq_some hfound
      have hagrees : Agrees found t.index.entries := hsound.agrees hdistinct hmem
      have hpatched : Patched t.index { found with pendingIntervalUpdate := false } _ :=
        patchTexObjIntervalEntryLocked_patched hsound.sorted hagrees hsound.bounded
      generalize t.index.patchTexObjIntervalEntryLocked
        { found with pendingIntervalUpdate := false } = result at hpatched
      have hresultObj : result.1.objAddr = addr := hpatched.objAddr.trans hobj
      have hother : ∀ slot ∈ t.slots, slot.objAddr ≠ addr →
          slot ∈ (t.modifySlot addr fun _ => result.1).slots :=
        fun slot hslot hne => List.mem_map.mpr ⟨slot, hslot, if_neg hne⟩
      have hslots : ∀ slot ∈ (t.modifySlot addr fun _ => result.1).slots,
          slot = result.1 ∨ (slot ∈ t.slots ∧ slot.objAddr ≠ addr) := by
        intro slot hslot
        obtain ⟨old, hold, rfl⟩ := List.mem_map.mp hslot
        split_ifs with heq
        · exact Or.inl rfl
        · exact Or.inr ⟨hold, heq⟩
      refine ⟨hdistinct.map fun slot _ => ?_, hpatched.sorted, fun entry => ?_,
        fun slot hslot hpending => ?_, fun slot hslot hpending => ?_, hpatched.bounded⟩
      · split_ifs with heq
        · exact hresultObj.trans heq.symm
        · rfl
      · rw [hpatched.mem entry]
        constructor
        · rintro (⟨hentry, hne⟩ | hnew)
          · obtain ⟨slot, hslot, hindexed⟩ := (hsound.mem entry).mp hentry
            rw [TexObjSlot.objAddr_of_indexedEntry hindexed] at hne
            exact ⟨slot, hother slot hslot fun heq => hne (heq.trans hobj.symm), hindexed⟩
          · exact ⟨result.1, List.mem_map.mpr ⟨found, hmem, if_pos hobj⟩,
              hpatched.indexed.trans hnew⟩
        · rintro ⟨slot, hslot, hindexed⟩
          rcases hslots slot hslot with rfl | ⟨hold, hne⟩
          · exact Or.inr (hpatched.indexed.symm.trans hindexed)
          · refine Or.inl ⟨(hsound.mem entry).mpr ⟨slot, hold, hindexed⟩, fun heq => hne ?_⟩
            rw [← TexObjSlot.objAddr_of_indexedEntry hindexed, heq]
            exact hobj
      · rcases hslots slot hslot with rfl | ⟨hold, -⟩
        · exact hpatched.indexed.trans (tryBuild_congr hpatched.metadata hpatched.objAddr).symm
        · exact hsound.fresh slot hold hpending
      · rcases hslots slot hslot with rfl | ⟨hold, hne⟩
        · rw [hpatched.pending] at hpending
          contradiction
        · exact List.mem_of_ne_of_mem hne (hsound.queued slot hold hpending)

theorem patchSlot_metadata (hdistinct : DistinctObjects t.slots)
    (hsound : IndexSound (addr :: rest) t.slots t.index) :
    (t.patchSlot addr).1.metadata = t.metadata := by
  rw [patchSlot]
  split
  · rfl
  · next found hfound =>
      obtain ⟨hmem, hobj⟩ := findTexObjSlot_eq_some hfound
      have hagrees : Agrees found t.index.entries := hsound.agrees hdistinct hmem
      have hpatched : Patched t.index { found with pendingIntervalUpdate := false } _ :=
        patchTexObjIntervalEntryLocked_patched hsound.sorted hagrees hsound.bounded
      rw [metadata, metadata]
      refine (List.map_map ..).trans (List.map_congr_left fun slot hslot => ?_)
      rw [Function.comp_apply]
      split_ifs with heq
      · rw [hpatched.metadata, hpatched.objAddr,
          hdistinct.eq_of_objAddr_eq hslot hmem (heq.trans hobj.symm)]
      · rfl

theorem patchSlot_rebuildAll (t : TexObjTable) (addr : ℕ) :
    (t.patchSlot addr).1.rebuildAll = t.rebuildAll := by
  rw [patchSlot]
  split
  · rfl
  · rfl

theorem patchPending_current (queue : List ℕ) (moves : ℕ) (hdistinct : DistinctObjects t.slots)
    (hbuilt : t.rebuildAll = false) (hsound : IndexSound queue t.slots t.index) :
    (patchPending moves queue t).Current ∧ (patchPending moves queue t).metadata = t.metadata := by
  induction queue generalizing moves t with
  | nil => exact ⟨⟨hdistinct, hbuilt, hsound⟩, rfl⟩
  | cons addr rest ih =>
      obtain ⟨hpatchedDistinct, hpatchedSound⟩ := patchSlot_sound hdistinct hsound
      have hmetadata := patchSlot_metadata hdistinct hsound
      rw [patchPending]
      dsimp only
      rw [← hmetadata]
      by_cases hmany : kMaxTexObjIntervalPatchMoves ≤
          (if (t.patchSlot addr).2 = true then moves + 1 else moves) ∧
          kMaxTexObjIntervalPatchMoves < rest.length
      · rw [if_pos hmany]
        exact ⟨rebuild_current hpatchedDistinct, rebuild_metadata _⟩
      · rw [if_neg hmany]
        exact ih _ hpatchedDistinct ((patchSlot_rebuildAll t addr).trans hbuilt) hpatchedSound

theorem Sound.ensure_current (h : t.Sound) :
    t.ensureTexObjIntervalsLocked.Current ∧
      t.ensureTexObjIntervalsLocked.metadata = t.metadata := by
  rw [ensureTexObjIntervalsLocked]
  split_ifs with hrebuild hempty
  · exact ⟨rebuild_current h.distinct, rebuild_metadata t⟩
  · rw [Bool.not_eq_true] at hrebuild
    have hsound := h.index hrebuild
    rw [List.isEmpty_iff.mp hempty] at hsound
    exact ⟨⟨h.distinct, hrebuild, hsound⟩, rfl⟩
  · rw [Bool.not_eq_true] at hrebuild
    exact patchPending_current t.pending 0 h.distinct hrebuild (h.index hrebuild)

/-! ## Marking -/

/-- Two ranges have a byte in common. -/
def RangesOverlap (start size otherStart otherSize : ℕ) : Prop :=
  ∃ byte, start ≤ byte ∧ byte < start + size ∧ otherStart ≤ byte ∧ byte < otherStart + otherSize

theorem rangesOverlap_iff {start size otherStart otherSize : ℕ} :
    RangesOverlap start size otherStart otherSize ↔
      0 < size ∧ 0 < otherSize ∧ start < otherStart + otherSize ∧ otherStart < start + size := by
  constructor
  · rintro ⟨byte, h1, h2, h3, h4⟩
    omega
  · rintro ⟨h1, h2, h3, h4⟩
    exact ⟨max start otherStart, by omega⟩

instance (start size otherStart otherSize : ℕ) :
    Decidable (RangesOverlap start size otherStart otherSize) :=
  decidable_of_iff _ rangesOverlap_iff.symm

/-- Usable metadata whose texture overlaps a flushed range. -/
def Flushed (addr size : ℕ) (m : TexObjMeta) : Prop :=
  isUsableTexObjMeta m = true ∧
    RangesOverlap (canonicalizeGxMainRamAddress m.dataAddr) (texBufferSize m)
      (canonicalizeGxMainRamAddress addr) size

instance (addr size : ℕ) (m : TexObjMeta) : Decidable (Flushed addr size m) :=
  inferInstanceAs (Decidable (_ ∧ _))

theorem foldl_setNeedsUpload_metadata (entries : List TexObjIntervalEntry) (t : TexObjTable) :
    (entries.foldl (fun t entry => t.setNeedsUpload entry.objAddr) t).metadata =
      t.metadata.map fun slot =>
        (slot.1, if slot.1 ∈ entries.map TexObjIntervalEntry.objAddr then
          { slot.2 with needsUpload := true } else slot.2) := by
  induction entries generalizing t with
  | nil => exact (List.map_id' _).symm
  | cons first rest ih =>
      rw [List.foldl_cons, ih, metadata, metadata, List.map_map, List.map_map]
      refine (List.map_map ..).trans (List.map_congr_left fun slot _ => ?_)
      simp only [Function.comp_apply, List.map_cons, List.mem_cons]
      by_cases hfirst : slot.objAddr = first.objAddr
      · simp [hfirst]
      · simp [hfirst]

theorem Current.mem_walk (h : t.Current) {addr size : ℕ} (hsize : size ≠ 0)
    {slot : TexObjSlot} (hslot : slot ∈ t.slots) :
    slot.objAddr ∈ (IntervalIndex.walk TexObjIntervalEntry.dataAddr TexObjIntervalEntry.size
      t.index.maxSize (canonicalizeGxMainRamAddress addr)
      (canonicalizeGxMainRamAddress addr + size) t.index.entries).map
        TexObjIntervalEntry.objAddr ↔ Flushed addr size slot.toTexObjMeta := by
  have hwalk : ∀ entry, entry ∈ IntervalIndex.walk TexObjIntervalEntry.dataAddr
      TexObjIntervalEntry.size t.index.maxSize (canonicalizeGxMainRamAddress addr)
      (canonicalizeGxMainRamAddress addr + size) t.index.entries ↔ entry ∈ t.index.entries ∧
        entry.dataAddr < canonicalizeGxMainRamAddress addr + size ∧
        canonicalizeGxMainRamAddress addr < entry.dataAddr + entry.size := by
    intro entry
    refine IntervalIndex.mem_walk (h.index.sorted.imp le_of_key_le) h.index.bounded
      (fun entry hentry => ?_) (by omega)
    obtain ⟨slot, -, hbuild⟩ := (h.mem_entries entry).mp hentry
    exact (tryBuild_eq_some hbuild).2 ▸ size_pos_of_hasTexBytes (tryBuild_eq_some hbuild).1
  rw [List.mem_map, Flushed, rangesOverlap_iff]
  constructor
  · rintro ⟨entry, hentry, hobj⟩
    obtain ⟨hmem, hstart, hend⟩ := (hwalk entry).mp hentry
    obtain ⟨other, hother, hbuild⟩ := (h.mem_entries entry).mp hmem
    obtain rfl := h.distinct.eq_of_objAddr_eq hother hslot
      ((objAddr_of_tryBuild hbuild).symm.trans hobj)
    obtain ⟨hbytes, rfl⟩ := tryBuild_eq_some hbuild
    exact ⟨isUsable_of_hasTexBytes hbytes, size_pos_of_hasTexBytes hbytes,
      Nat.pos_of_ne_zero hsize, hstart, hend⟩
  · rintro ⟨husable, hpos, -, hstart, hend⟩
    have hbytes : hasTexBytes slot.toTexObjMeta = true := by
      rw [hasTexBytes, husable, Bool.true_and, bne_iff_ne]
      exact hpos.ne'
    have hbuild : tryBuildTexObjIntervalEntry slot =
        some ⟨canonicalizeGxMainRamAddress slot.dataAddr, texBufferSize slot.toTexObjMeta,
          slot.objAddr⟩ := by
      rw [tryBuildTexObjIntervalEntry_eq, if_pos hbytes]
    have hmem := (h.mem_entries _).mpr ⟨slot, hslot, hbuild⟩
    exact ⟨_, (hwalk _).mpr ⟨hmem, hstart, hend⟩, rfl⟩

theorem Sound.markTexObjsDirtyForRange_metadata (h : t.Sound) (addr size : ℕ) :
    (t.markTexObjsDirtyForRange addr size).metadata =
      t.metadata.map fun slot => (slot.1,
        if Flushed addr size slot.2 then { slot.2 with needsUpload := true } else slot.2) := by
  rw [markTexObjsDirtyForRange]
  split_ifs with hsize
  · have hnone : ∀ m : TexObjMeta, ¬ Flushed addr size m := by
      rintro m ⟨-, hoverlap⟩
      rw [rangesOverlap_iff, hsize] at hoverlap
      exact absurd hoverlap.2.1 (lt_irrefl 0)
    simp only [hnone, if_false]
    exact (List.map_id' _).symm
  · obtain ⟨hcurrent, hmetadata⟩ := h.ensure_current
    dsimp only
    rw [foldl_setNeedsUpload_metadata, ← hmetadata, metadata, List.map_map, List.map_map]
    refine List.map_congr_left fun slot hslot => ?_
    simp only [Function.comp_apply, hcurrent.mem_walk hsize hslot]

/-! ## Runs -/

theorem Sound.setNeedsUpload (h : t.Sound) (addr : ℕ) : (t.setNeedsUpload addr).Sound :=
  h.modifySlot (fun _ => rfl) (fun _ => rfl) (fun _ => rfl) (Or.inr fun _ => rfl)

theorem Sound.markTexObjsDirtyForRange (h : t.Sound) (addr size : ℕ) :
    (t.markTexObjsDirtyForRange addr size).Sound := by
  rw [TexObjTable.markTexObjsDirtyForRange]
  split_ifs
  · exact h
  · exact List.foldlRecOn _ _ h.ensure_current.1.sound
      fun t ht entry _ => ht.setNeedsUpload entry.objAddr

theorem Sound.step (h : t.Sound) (op : TexObjOp) : (t.step op).Sound := by
  cases op with
  | getTexObjMeta memory addr change => exact h.getTexObjMeta memory addr change
  | tryGetOrExtractTexObjMeta memory addr => exact h.tryGetOrExtractTexObjMeta memory addr
  | createHostTexObj addr => exact h.findOrCreateTexObjSlot addr
  | markTexObjsDirtyForRange addr size => exact h.markTexObjsDirtyForRange addr size

theorem sound_run (ops : List TexObjOp) : (run ops).Sound := by
  refine List.foldlRecOn _ _ ⟨List.nodup_nil, fun h => ?_⟩ fun t ht op _ => ht.step op
  contradiction

/-- The entries of an index that is up to date are those of the textures with bytes. -/
theorem Current.perm_entries (h : t.Current) :
    t.index.entries.Perm (t.slots.filterMap tryBuildTexObjIntervalEntry) := by
  have hnodup : (t.slots.filterMap tryBuildTexObjIntervalEntry).Nodup :=
    (pairwise_objAddr_filterMap h.distinct).imp fun hne heq => hne (by rw [heq])
  rw [List.perm_ext_iff_of_nodup h.index.sorted.nodup hnodup]
  intro entry
  rw [h.mem_entries, List.mem_filterMap]

theorem filterMap_tryBuild_eq (t : TexObjTable) :
    t.slots.filterMap tryBuildTexObjIntervalEntry =
      (t.metadata.filter fun slot => hasTexBytes slot.2).map fun slot =>
        ⟨canonicalizeGxMainRamAddress slot.2.dataAddr, texBufferSize slot.2, slot.1⟩ := by
  rw [filterMap_tryBuild, metadata, List.filter_map, List.map_map]
  rfl

/-- After any run, a flush marks exactly the usable textures that overlap it and changes no
other metadata; objects have one slot each; and the index that has been brought up to date is
sorted, with one entry for every usable texture of at least a byte. -/
theorem markTexObjsDirtyForRange_exact (ops : List TexObjOp) (addr size : ℕ) :
    (((run ops).markTexObjsDirtyForRange addr size).metadata =
      (run ops).metadata.map fun slot => (slot.1,
        if Flushed addr size slot.2 then { slot.2 with needsUpload := true } else slot.2)) ∧
    ((run ops).metadata.map Prod.fst).Nodup ∧
    (run ops).ensureTexObjIntervalsLocked.index.entries.Pairwise
      (fun lhs rhs => texObjIntervalLess lhs rhs = true) ∧
    (run ops).ensureTexObjIntervalsLocked.index.entries.Perm
      (((run ops).metadata.filter fun slot => hasTexBytes slot.2).map fun slot =>
        ⟨canonicalizeGxMainRamAddress slot.2.dataAddr, texBufferSize slot.2, slot.1⟩) := by
  have hsound := sound_run ops
  obtain ⟨hcurrent, hmetadata⟩ := hsound.ensure_current
  refine ⟨hsound.markTexObjsDirtyForRange_metadata addr size, ?_, ?_, ?_⟩
  · rw [metadata, List.map_map]
    exact hsound.distinct
  · exact hcurrent.index.sorted.imp texObjIntervalLess_iff.mpr
  · rw [← hmetadata, ← filterMap_tryBuild_eq]
    exact hcurrent.perm_entries

end TexObjTable

end Wiicompiled.Gx
