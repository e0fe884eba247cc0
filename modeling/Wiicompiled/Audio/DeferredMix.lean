import Wiicompiled.Audio.AxMix

/-!
# The deferred mix equals the synchronous mix

The memory that the worker sees, with the shadowed blocks published, is the memory of the
synchronous mix with the writes of the guest.  This holds before each access, as long as
the buffers of the list are kept apart.
-/

namespace Wiicompiled.Audio.AxDsp

open FlatMemory PendingStores

/-! ## Buffers that are kept apart -/

/-- The blocks of aux input with their places. -/
def readBlocks (accesses : List Access) : List (UInt32 × BitVec 32) :=
  accesses.filterMap fun
    | .readAuxIn addr physical => some (addr, physical)
    | _ => none

/-- The blocks of aux output with their places. -/
def writtenBlocks (accesses : List Access) : List (UInt32 × BitVec 32) :=
  accesses.filterMap fun
    | .writeAuxOut addr physical => some (addr, physical)
    | _ => none

def auxBlocksOf (accesses : List Access) : List (UInt32 × BitVec 32) :=
  readBlocks accesses ++ writtenBlocks accesses

/-- The aux blocks are few, identical or apart from each other, and apart from the other
output buffers; the guest writes none of them. -/
structure Separate (accesses : List Access) (turns : List (List GuestWrite)) : Prop where
  auxIn : (readBlocks accesses).length ≤ auxBlocks
  auxOut : (writtenBlocks accesses).length ≤ auxBlocks
  blocks : ∀ a ∈ auxBlocksOf accesses, ∀ b ∈ auxBlocksOf accesses,
    a.2 = b.2 ∨ Apart a.2 auxBytes b.2 auxBytes
  outputs : ∀ physical bytes, .write physical bytes ∈ accesses →
    ∀ block ∈ auxBlocksOf accesses, Apart physical bytes block.2 auxBytes
  guestBlocks : ∀ write ∈ turns.flatten, ∀ block ∈ auxBlocksOf accesses,
    write.1 ∉ range block.2 auxBytes
  guestOutputs : ∀ write ∈ turns.flatten, ∀ physical bytes, .write physical bytes ∈ accesses →
    write.1 ∉ range physical bytes

/-- In addition all buffers lie in main memory, identical blocks have one address, the
other input buffers are apart from the aux output, and the guest writes none of them. -/
structure Isolated (accesses : List Access) (turns : List (List GuestWrite)) : Prop
    extends Separate accesses turns where
  inside : .outside ∉ accesses
  oneAddress : ∀ a ∈ auxBlocksOf accesses, ∀ b ∈ auxBlocksOf accesses, a.2 = b.2 → a.1 = b.1
  inputs : ∀ physical bytes, .read physical bytes ∈ accesses →
    ∀ block ∈ writtenBlocks accesses, Apart physical bytes block.2 auxBytes
  guestInputs : ∀ write ∈ turns.flatten, ∀ physical bytes, .read physical bytes ∈ accesses →
    write.1 ∉ range physical bytes

/-! ## Samples and their bytes -/

theorem MixResolveRange_le
    {map : MixMap} {addr : UInt32} {bytes : ℕ} {physical : BitVec 32}
    (h : MixResolveRange map addr bytes = some physical) : bytes ≤ kMem2Size := by
  unfold MixResolveRange at h
  split at h
  · cases h
  · omega

theorem length_storeBigEndian32 (block : AuxBlock) (count : ℕ) :
    (storeBigEndian32 block count).length = count * 4 := by
  simp [storeBigEndian32]

theorem fromBytes_sample (sample : Int32) :
    ByteImage.fromBytes [sampleByte sample 0, sampleByte sample 1, sampleByte sample 2,
      sampleByte sample 3] = sample.toUInt32.toNat := by
  have hlt := sample.toUInt32.toNat_lt
  simp only [ByteImage.fromBytes, sampleByte, List.foldl_cons, List.foldl_nil,
    UInt8.toNat_ofNat']
  omega

theorem loadBigEndian32_storeBigEndian32 (block : AuxBlock) :
    loadBigEndian32 (storeBigEndian32 block kAxSamplesPerFrame) = copyBlock block := by
  funext i
  unfold loadBigEndian32 copyBlock
  by_cases hi : i < kAxSamplesPerFrame
  · have hbytes : ((storeBigEndian32 block kAxSamplesPerFrame).drop (i * 4)).take 4 =
        [sampleByte (block i) 0, sampleByte (block i) 1, sampleByte (block i) 2,
          sampleByte (block i) 3] := by
      have hget : ∀ j < 4, (storeBigEndian32 block kAxSamplesPerFrame)[i * 4 + j]? =
          some (sampleByte (block i) j) := by
        intro j hj
        rw [storeBigEndian32, List.getElem?_map, List.getElem?_range (by omega),
          Option.map_some, show (i * 4 + j) / 4 = i by omega, show (i * 4 + j) % 4 = j by omega]
      apply List.ext_getElem?
      intro j
      rcases j with _ | _ | _ | _ | j
      · rw [List.getElem?_take_of_lt (by omega), List.getElem?_drop, hget 0 (by omega)]
        rfl
      · rw [List.getElem?_take_of_lt (by omega), List.getElem?_drop, hget 1 (by omega)]
        rfl
      · rw [List.getElem?_take_of_lt (by omega), List.getElem?_drop, hget 2 (by omega)]
        rfl
      · rw [List.getElem?_take_of_lt (by omega), List.getElem?_drop, hget 3 (by omega)]
        rfl
      · rw [List.getElem?_eq_none (by rw [List.length_take]; omega),
          List.getElem?_eq_none (by simp)]
    rw [if_pos hi, hbytes, fromBytes_sample]
    simp
  · rw [if_neg hi, List.drop_eq_nil_of_le (by rw [length_storeBigEndian32]; omega)]
    rfl

/-! ## The worker's view -/

def pendingStores (map : MixMap) (auxOut : List (UInt32 × AuxBlock)) : List (Pending 32 UInt8) :=
  auxOut.map fun block =>
    ⟨(MixResolveRange map block.1 auxBytes).getD 0,
      storeBigEndian32 block.2 kAxSamplesPerFrame⟩

theorem applyGuestWrites_of_notMem
    {memory : BitVec 32 → UInt8} {writes : List GuestWrite} {x : BitVec 32}
    (h : ∀ write ∈ writes, write.1 ≠ x) : applyGuestWrites memory writes x = memory x := by
  induction writes generalizing memory with
  | nil => rfl
  | cons write writes ih =>
      refine (ih fun other hother => h other (List.mem_cons_of_mem _ hother)).trans ?_
      exact Function.update_of_ne (h write List.mem_cons_self).symm _ _

/-- What the guest leaves at an address depends on that address only. -/
theorem applyGuestWrites_congr
    {memory memory' : BitVec 32 → UInt8} {writes : List GuestWrite} {x : BitVec 32}
    (h : memory' x = memory x) :
    applyGuestWrites memory' writes x = applyGuestWrites memory writes x := by
  induction writes generalizing memory memory' with
  | nil => exact h
  | cons write writes ih =>
      refine ih ?_
      simp only [Function.update_apply, h]

theorem applyGuestWrites_append
    (memory : BitVec 32 → UInt8) (xs ys : List GuestWrite) :
    applyGuestWrites memory (xs ++ ys) = applyGuestWrites (applyGuestWrites memory xs) ys :=
  List.foldl_append

/-- Guest writes and pending stores of other addresses can be made in either order. -/
theorem publish_applyGuestWrites
    {memory : BitVec 32 → UInt8} {writes : List GuestWrite} {pending : List (Pending 32 UInt8)}
    (h : ∀ write ∈ writes, ∀ store ∈ pending,
      write.1 ∉ range store.address store.bytes.length) :
    publish (applyGuestWrites memory writes) pending =
      applyGuestWrites (publish memory pending) writes := by
  funext x
  by_cases hx : ∃ write ∈ writes, write.1 = x
  · obtain ⟨write, hwrite, rfl⟩ := hx
    rw [publish_of_notMem (h write hwrite)]
    exact applyGuestWrites_congr (publish_of_notMem (h write hwrite)).symm
  · have hne : ∀ write ∈ writes, write.1 ≠ x := fun write hwrite heq =>
      hx ⟨write, hwrite, heq⟩
    rw [applyGuestWrites_of_notMem hne]
    exact publish_congr (applyGuestWrites_of_notMem hne)

/-- What all accesses of a mix have to keep to: the aux blocks, those of them that are
written, and what the guest writes. -/
structure Setting where
  map : MixMap
  mail : GuestMemory
  auxInAddrs : List UInt32
  blocks : List (UInt32 × BitVec 32)
  written : List (UInt32 × BitVec 32)
  guest : List GuestWrite
  known : ∀ block ∈ blocks, MixResolveRange map block.1 auxBytes = some block.2
  subset : ∀ block ∈ written, block ∈ blocks
  apart : ∀ a ∈ blocks, ∀ b ∈ blocks, a.1 = b.1 ∨ Apart a.2 auxBytes b.2 auxBytes
  untouched : ∀ write ∈ guest, ∀ block ∈ blocks, write.1 ∉ range block.2 auxBytes

def Setting.Allows (c : Setting) : Access → Prop
  | .read physical bytes =>
      (∀ block ∈ c.written, Apart physical bytes block.2 auxBytes) ∧
        ∀ write ∈ c.guest, write.1 ∉ range physical bytes
  | .write physical bytes =>
      (∀ block ∈ c.blocks, Apart physical bytes block.2 auxBytes) ∧
        ∀ write ∈ c.guest, write.1 ∉ range physical bytes
  | .readAuxIn addr physical => (addr, physical) ∈ c.blocks
  | .writeAuxOut addr physical => (addr, physical) ∈ c.written
  | .outside => False

/-- The worker against the synchronous mix: with the shadowed blocks published its memory
is the synchronous one with what the guest has written, and the aux blocks in its memory
are those of the mail. -/
structure Follows (c : Setting) (done : List GuestWrite) (memory : GuestMemory)
    (s : WorkerState) : Prop where
  main : publish s.memory.main (pendingStores c.map s.auxOut) =
    applyGuestWrites memory.main done
  outside : s.memory.outside = memory.outside
  guest : ∀ write ∈ done, write ∈ c.guest
  shadowed : ∀ block ∈ s.auxOut, ∃ physical, (block.1, physical) ∈ c.written
  nonnull : ∀ block ∈ s.auxOut, block.1 ≠ 0
  copied : ∀ block ∈ s.auxOut, copyBlock block.2 = block.2
  kept : ∀ block ∈ c.blocks, ∀ x ∈ range block.2 auxBytes,
    s.memory.main x = c.mail.main x
  snapshot : s.auxIn = snapshotAuxIn c.map c.mail c.auxInAddrs

section Steps

variable {c : Setting} {done : List GuestWrite} {memory : GuestMemory} {s : WorkerState}

theorem auxBytes_le : auxBytes ≤ 2 ^ 32 := by
  decide

theorem length_blockBytes (block : AuxBlock) :
    (storeBigEndian32 block kAxSamplesPerFrame).length = auxBytes :=
  length_storeBigEndian32 block kAxSamplesPerFrame

theorem Follows.mem_pendingStores
    (h : Follows c done memory s) {store : Pending 32 UInt8}
    (hstore : store ∈ pendingStores c.map s.auxOut) :
    ∃ addr, (addr, store.address) ∈ c.written ∧ store.bytes.length = auxBytes := by
  obtain ⟨block, hblock, rfl⟩ := List.mem_map.mp hstore
  obtain ⟨physical, hwritten⟩ := h.shadowed block hblock
  refine ⟨block.1, ?_, length_blockBytes block.2⟩
  simp only
  rw [c.known _ (c.subset _ hwritten)]
  exact hwritten

theorem Follows.main_eq
    (h : Follows c done memory s) {x : BitVec 32}
    (hblocks : ∀ block ∈ c.written, x ∉ range block.2 auxBytes)
    (hguest : ∀ write ∈ c.guest, write.1 ≠ x) : s.memory.main x = memory.main x := by
  have hpublished : publish s.memory.main (pendingStores c.map s.auxOut) x =
      s.memory.main x := by
    refine publish_of_notMem fun store hstore => ?_
    obtain ⟨addr, hwritten, hlen⟩ := h.mem_pendingStores hstore
    rw [hlen]
    exact hblocks _ hwritten
  rw [← hpublished, h.main]
  exact applyGuestWrites_of_notMem fun write hwrite => hguest write (h.guest write hwrite)

theorem Follows.guestWrites
    (h : Follows c done memory s) {writes : List GuestWrite}
    (hwrites : ∀ write ∈ writes, write ∈ c.guest) :
    Follows c (done ++ writes) memory (s.guestWrites writes) where
  main := by
    have hcomm : publish (applyGuestWrites s.memory.main writes)
        (pendingStores c.map s.auxOut) =
          applyGuestWrites (publish s.memory.main (pendingStores c.map s.auxOut)) writes := by
      refine publish_applyGuestWrites fun write hwrite store hstore => ?_
      obtain ⟨addr, hwritten, hlen⟩ := h.mem_pendingStores hstore
      rw [hlen]
      exact c.untouched write (hwrites write hwrite) _ (c.subset _ hwritten)
    rw [applyGuestWrites_append, ← h.main]
    exact hcomm
  outside := h.outside
  guest write hwrite := (List.mem_append.mp hwrite).elim (h.guest write) (hwrites write)
  shadowed := h.shadowed
  nonnull := h.nonnull
  copied := h.copied
  kept := by
    intro block hblock x hx
    have hsame : applyGuestWrites s.memory.main writes x = s.memory.main x := by
      refine applyGuestWrites_of_notMem fun write hwrite heq => ?_
      subst heq
      exact c.untouched write (hwrites write hwrite) block hblock hx
    exact hsame.trans (h.kept block hblock x hx)
  snapshot := h.snapshot

theorem Follows.read
    (h : Follows c done memory s) {addr : UInt32} {bytes : ℕ}
    (hallows : c.Allows (accessOf c.map addr bytes (.read · bytes))) :
    s.read c.map addr bytes = memory.read c.map addr bytes := by
  unfold accessOf at hallows
  unfold WorkerState.read GuestMemory.read
  cases hresolve : MixResolveRange c.map addr bytes with
  | none =>
      rw [hresolve] at hallows
      exact hallows.elim
  | some physical =>
      rw [hresolve] at hallows
      obtain ⟨hblocks, hguest⟩ := hallows
      have hsize : bytes ≤ 2 ^ 32 := by
        have hle := MixResolveRange_le hresolve
        unfold kMem2Size at hle
        omega
      refine load_congr hsize fun x hx => ?_
      refine h.main_eq (fun block hblock => (hblocks block hblock).notMem hx) ?_
      rintro write hwrite rfl
      exact hguest write hwrite hx

theorem Follows.write
    (h : Follows c done memory s) {addr : UInt32} {data : List UInt8}
    (hallows : c.Allows (accessOf c.map addr data.length (.write · data.length))) :
    Follows c done (memory.write c.map addr data) (s.write c.map addr data) := by
  unfold accessOf at hallows
  unfold WorkerState.write GuestMemory.write
  cases hresolve : MixResolveRange c.map addr data.length with
  | none =>
      rw [hresolve] at hallows
      exact hallows.elim
  | some physical =>
      rw [hresolve] at hallows
      obtain ⟨hblocks, hguest⟩ := hallows
      refine ⟨?_, h.outside, h.guest, h.shadowed, h.nonnull, h.copied, ?_, h.snapshot⟩
      · funext x
        by_cases hx : x ∈ range physical data.length
        · have hpublished : publish (store s.memory.main physical data)
              (pendingStores c.map s.auxOut) x = store s.memory.main physical data x := by
            refine publish_of_notMem fun pending hpending => ?_
            obtain ⟨addr, hwritten, hlen⟩ := h.mem_pendingStores hpending
            rw [hlen]
            exact (hblocks _ (c.subset _ hwritten)).notMem hx
          have hmain : s.memory.main x = memory.main x := by
            refine h.main_eq
              (fun block hblock => (hblocks block (c.subset _ hblock)).notMem hx) ?_
            rintro write hwrite rfl
            exact hguest write hwrite hx
          have hkeep : applyGuestWrites (store memory.main physical data) done x =
              store memory.main physical data x := by
            refine applyGuestWrites_of_notMem ?_
            rintro write hwrite rfl
            exact hguest write (h.guest write hwrite) hx
          exact (hpublished.trans (store_apply_congr hmain)).trans hkeep.symm
        · have hleft : publish (store s.memory.main physical data)
              (pendingStores c.map s.auxOut) x =
                publish s.memory.main (pendingStores c.map s.auxOut) x :=
            publish_congr (store_of_notMem hx)
          have hright : applyGuestWrites (store memory.main physical data) done x =
              applyGuestWrites memory.main done x :=
            applyGuestWrites_congr (store_of_notMem hx)
          exact (hleft.trans (congrFun h.main x)).trans hright.symm
      · intro block hblock x hx
        have hnot : x ∉ range physical data.length :=
          (hblocks block hblock).symm.notMem hx
        exact (store_of_notMem hnot).trans (h.kept block hblock x hx)

theorem copyBlock_copyBlock (block : AuxBlock) :
    copyBlock (copyBlock block) = copyBlock block := by
  funext i
  unfold copyBlock
  split
  · rfl
  · rfl

/-- A block of aux output is shadowed where the synchronous mix writes it. -/
theorem Follows.writeAuxOut
    (h : Follows c done memory s) {addr : UInt32} {block : AuxBlock} (haddr : addr ≠ 0)
    (hallows : c.Allows (accessOf c.map addr auxBytes (.writeAuxOut addr)))
    (hroom : s.auxOut.length < auxBlocks) :
    Follows c done (memory.writeBlock c.map addr block) (s.writeAuxOut addr block) := by
  unfold accessOf at hallows
  cases hresolve : MixResolveRange c.map addr auxBytes with
  | none =>
      rw [hresolve] at hallows
      exact hallows.elim
  | some physical =>
      rw [hresolve] at hallows
      have hwritten : (addr, physical) ∈ c.written := hallows
      have hcopy : storeBigEndian32 (copyBlock block) kAxSamplesPerFrame =
          storeBigEndian32 block kAxSamplesPerFrame := by
        refine List.map_congr_left fun i hi => ?_
        have hlt : i / 4 < kAxSamplesPerFrame := by
          rw [List.mem_range] at hi
          omega
        rw [copyBlock, if_pos hlt]
      have hworker : s.writeAuxOut addr block =
          { s with auxOut := s.auxOut ++ [(addr, copyBlock block)] } := by
        unfold WorkerState.writeAuxOut
        rw [if_neg haddr, if_neg (Nat.not_le.mpr hroom)]
      have hmemory : memory.writeBlock c.map addr block =
          { memory with
            main := store memory.main physical
              (storeBigEndian32 block kAxSamplesPerFrame) } := by
        unfold GuestMemory.writeBlock GuestMemory.write
        rw [if_neg haddr, length_blockBytes, hresolve]
      have hpending : pendingStores c.map (s.auxOut ++ [(addr, copyBlock block)]) =
          pendingStores c.map s.auxOut ++
            [⟨physical, storeBigEndian32 block kAxSamplesPerFrame⟩] := by
        rw [pendingStores, List.map_append, List.map_singleton, hresolve, Option.getD_some,
          hcopy]
        rfl
      rw [hworker, hmemory]
      refine ⟨?_, h.outside, h.guest, ?_, ?_, ?_, h.kept, h.snapshot⟩
      · rw [hpending, publish_append_one, h.main]
        funext x
        by_cases hx : x ∈ range physical auxBytes
        · have huntouched : ∀ write ∈ done, write.1 ≠ x := by
            rintro write hwrite rfl
            exact c.untouched write (h.guest write hwrite) _ (c.subset _ hwritten) hx
          rw [applyGuestWrites_of_notMem huntouched]
          exact store_apply_congr (applyGuestWrites_of_notMem huntouched)
        · have hnot : x ∉ range physical
              (storeBigEndian32 block kAxSamplesPerFrame).length := by
            rw [length_blockBytes]
            exact hx
          rw [store_of_notMem hnot]
          exact (applyGuestWrites_congr (store_of_notMem hnot)).symm
      · intro shadowed hmem
        rcases List.mem_append.mp hmem with hmem | hmem
        · exact h.shadowed shadowed hmem
        · rw [List.mem_singleton.mp hmem]
          exact ⟨physical, hwritten⟩
      · intro shadowed hmem
        rcases List.mem_append.mp hmem with hmem | hmem
        · exact h.nonnull shadowed hmem
        · rw [List.mem_singleton.mp hmem]
          exact haddr
      · intro shadowed hmem
        rcases List.mem_append.mp hmem with hmem | hmem
        · exact h.copied shadowed hmem
        · rw [List.mem_singleton.mp hmem]
          exact copyBlock_copyBlock block

/-- The latest shadowed block of an address, with the blocks that were shadowed since. -/
theorem find?_reverse_split
    {auxOut : List (UInt32 × AuxBlock)} {addr : UInt32} {found : UInt32 × AuxBlock}
    (h : (auxOut.reverse.find? fun block => block.1 = addr) = some found) :
    found.1 = addr ∧ ∃ front back, auxOut = front ++ found :: back ∧
      ∀ other ∈ back, other.1 ≠ addr := by
  obtain ⟨hfound, before, after, hsplit, hbefore⟩ := List.find?_eq_some_iff_append.mp h
  refine ⟨by simpa using hfound, after.reverse, before.reverse, ?_, ?_⟩
  · have hreverse := congrArg List.reverse hsplit
    simpa using hreverse
  · intro other hother
    simpa using hbefore other (List.mem_reverse.mp hother)

theorem Follows.readAuxIn
    (h : Follows c done memory s) {addr : UInt32}
    (hallows : c.Allows (accessOf c.map addr auxBytes (.readAuxIn addr))) :
    s.readAuxIn c.map addr = memory.readBlock c.map addr := by
  unfold accessOf at hallows
  cases hresolve : MixResolveRange c.map addr auxBytes with
  | none =>
      rw [hresolve] at hallows
      exact hallows.elim
  | some physical =>
      rw [hresolve] at hallows
      have hblock : (addr, physical) ∈ c.blocks := hallows
      have huntouched : ∀ x ∈ range physical auxBytes, ∀ write ∈ done, write.1 ≠ x := by
        rintro x hx write hwrite rfl
        exact c.untouched write (h.guest write hwrite) _ hblock hx
      have hsync : memory.readBlock c.map addr =
          loadBigEndian32 (load memory.main physical auxBytes) := by
        unfold GuestMemory.readBlock GuestMemory.read
        rw [hresolve]
      -- The synchronous mix reads what the worker would publish.
      have hpublished : load memory.main physical auxBytes =
          load (publish s.memory.main (pendingStores c.map s.auxOut)) physical auxBytes := by
        refine load_congr auxBytes_le fun x hx => ?_
        rw [h.main]
        exact (applyGuestWrites_of_notMem (huntouched x hx)).symm
      rw [hsync, hpublished]
      unfold WorkerState.readAuxIn
      cases hfind : s.auxOut.reverse.find? fun block => block.1 = addr with
      | some found =>
          obtain ⟨hfound, front, back, hsplit, hback⟩ := find?_reverse_split hfind
          have hcopied : loadBigEndian32 (storeBigEndian32 found.2 kAxSamplesPerFrame) =
              copyBlock found.2 := loadBigEndian32_storeBigEndian32 found.2
          have hpending : pendingStores c.map s.auxOut = pendingStores c.map front ++
              ⟨physical, storeBigEndian32 found.2 kAxSamplesPerFrame⟩ ::
                pendingStores c.map back := by
            rw [hsplit, pendingStores, List.map_append, List.map_cons, hfound, hresolve,
              Option.getD_some]
            rfl
          have hapart : ∀ other ∈ pendingStores c.map back,
              Apart physical auxBytes other.address other.bytes.length := by
            intro other hother
            obtain ⟨shadowed, hshadowed, rfl⟩ := List.mem_map.mp hother
            obtain ⟨place, hplace⟩ := h.shadowed shadowed (by
              rw [hsplit]
              exact List.mem_append_right _ (List.mem_cons_of_mem _ hshadowed))
            have hknown := c.known _ (c.subset _ hplace)
            simp only
            rw [hknown, Option.getD_some, length_blockBytes]
            exact (c.apart _ hblock _ (c.subset _ hplace)).resolve_left
              (hback shadowed hshadowed).symm
          have hload := load_publish_append_cons s.memory.main (pendingStores c.map front)
            ⟨physical, storeBigEndian32 found.2 kAxSamplesPerFrame⟩ (pendingStores c.map back)
            (by rw [length_blockBytes]; exact auxBytes_le)
            (by rw [length_blockBytes]; exact hapart)
          rw [length_blockBytes] at hload
          rw [hpending, hload, hcopied]
          exact (h.copied found (by
            rw [hsplit]
            exact List.mem_append_right _ List.mem_cons_self)).symm
      | none =>
          -- No block of this address is shadowed: the worker's memory is the one of the mail.
          have hapart : ∀ other ∈ pendingStores c.map s.auxOut,
              Apart physical auxBytes other.address other.bytes.length := by
            intro other hother
            obtain ⟨shadowed, hshadowed, rfl⟩ := List.mem_map.mp hother
            obtain ⟨place, hplace⟩ := h.shadowed shadowed hshadowed
            have hne : shadowed.1 ≠ addr := by
              have hnot := List.find?_eq_none.mp hfind shadowed (List.mem_reverse.mpr hshadowed)
              simpa using hnot
            have hknown := c.known _ (c.subset _ hplace)
            simp only
            rw [hknown, Option.getD_some, length_blockBytes]
            exact (c.apart _ hblock _ (c.subset _ hplace)).resolve_left hne.symm
          rw [load_publish_of_apart auxBytes_le hapart, h.snapshot]
          cases hsnapshot : (snapshotAuxIn c.map c.mail c.auxInAddrs).find?
              fun block => block.1 = addr with
          | some found =>
              have hfound : found.1 = addr := by simpa using List.find?_some hsnapshot
              obtain ⟨taken, _, rfl⟩ := List.mem_map.mp (List.mem_of_find?_eq_some hsnapshot)
              simp only at hfound
              subst hfound
              simp only
              unfold GuestMemory.readBlock GuestMemory.read
              rw [hresolve]
              refine congrArg loadBigEndian32 (load_congr auxBytes_le fun x hx => ?_)
              exact (h.kept _ hblock x hx).symm
          | none =>
              simp only
              unfold WorkerState.read
              rw [hresolve]

end Steps

/-! ## A whole mix -/

theorem headD_append_flatten_tail (turns : List (List GuestWrite)) :
    turns.headD [] ++ turns.tail.flatten = turns.flatten := by
  cases turns with
  | nil => rfl
  | cons writes turns => rfl

theorem Follows.turn
    {c : Setting} {done : List GuestWrite} {memory : GuestMemory} {s : WorkerState}
    {turns : List (List GuestWrite)} (h : Follows c done memory s)
    (hturns : ∀ write ∈ turns.flatten, write ∈ c.guest) :
    Follows c (done ++ turns.headD []) memory (s.guestWrites (turns.headD [])) ∧
      (∀ write ∈ turns.tail.flatten, write ∈ c.guest) ∧
        done ++ turns.headD [] ++ turns.tail.flatten = done ++ turns.flatten := by
  have hsplit := headD_append_flatten_tail turns
  refine ⟨h.guestWrites fun write hwrite => hturns write ?_, fun write hwrite =>
    hturns write ?_, ?_⟩
  · rw [← hsplit]
    exact List.mem_append_left _ hwrite
  · rw [← hsplit]
    exact List.mem_append_right _ hwrite
  · rw [List.append_assoc, hsplit]

theorem length_writtenBlocks_cons (access : Access) (accesses : List Access) :
    (writtenBlocks accesses).length ≤ (writtenBlocks (access :: accesses)).length := by
  cases access <;> simp [writtenBlocks]

theorem writtenBlocks_append (xs ys : List Access) :
    writtenBlocks (xs ++ ys) = writtenBlocks xs ++ writtenBlocks ys :=
  List.filterMap_append

/-- A program of accesses gives the same value on the worker, and is followed to its end. -/
theorem Follows.run
    {α : Type} {c : Setting} (program : Mix α) {done : List GuestWrite} {memory : GuestMemory}
    {s : WorkerState} {turns : List (List GuestWrite)} (h : Follows c done memory s)
    (hturns : ∀ write ∈ turns.flatten, write ∈ c.guest)
    (hallows : ∀ access ∈ program.accesses c.map memory, c.Allows access)
    (hroom : s.auxOut.length + (writtenBlocks (program.accesses c.map memory)).length ≤
      auxBlocks) :
    (program.runDeferred c.map turns s).1 = (program.runSync c.map memory).1 ∧
      (∀ write ∈ (program.runDeferred c.map turns s).2.1.flatten, write ∈ c.guest) ∧
      ∃ done', done' ++ (program.runDeferred c.map turns s).2.1.flatten =
          done ++ turns.flatten ∧
        Follows c done' (program.runSync c.map memory).2
          (program.runDeferred c.map turns s).2.2 := by
  induction program generalizing done memory s turns with
  | done value => exact ⟨rfl, hturns, done, rfl, h⟩
  | read addr bytes next ih =>
      obtain ⟨hturn, htail, hdone⟩ := h.turn hturns
      obtain ⟨haccess, hrest⟩ := List.forall_mem_cons.mp hallows
      have hsame := hturn.read haccess
      have hnext := ih _ hturn htail hrest
        ((Nat.add_le_add_left (length_writtenBlocks_cons _ _) _).trans hroom)
      rw [hdone] at hnext
      unfold Mix.runDeferred Mix.runSync
      simp only
      rw [hsame]
      exact hnext
  | write addr data next ih =>
      obtain ⟨hturn, htail, hdone⟩ := h.turn hturns
      obtain ⟨haccess, hrest⟩ := List.forall_mem_cons.mp hallows
      have hlength : ((s.guestWrites (turns.headD [])).write c.map addr data).auxOut =
          s.auxOut := by
        unfold WorkerState.write
        split
        · rfl
        · rfl
      have hnext := ih (hturn.write haccess) htail hrest (by
        rw [hlength]
        exact (Nat.add_le_add_left (length_writtenBlocks_cons _ _) _).trans hroom)
      rw [hdone] at hnext
      exact hnext
  | contains addr bytes next ih =>
      obtain ⟨hturn, htail, hdone⟩ := h.turn hturns
      obtain ⟨haccess, hrest⟩ := List.forall_mem_append.mp hallows
      have hfound : (MixResolveRange c.map addr bytes).isSome =
          ((MixResolveRange c.map addr bytes).isSome || c.map.contains addr bytes) := by
        by_cases hknown : (MixResolveRange c.map addr bytes).isSome ||
            !c.map.contains addr bytes
        · cases hresolve : (MixResolveRange c.map addr bytes).isSome with
          | true => rfl
          | false =>
              rw [hresolve] at hknown
              simpa using hknown.symm
        · rw [if_neg hknown] at haccess
          exact (haccess _ List.mem_cons_self).elim
      have hwritten : writtenBlocks ((Mix.contains addr bytes next).accesses c.map memory) =
          writtenBlocks ((next ((MixResolveRange c.map addr bytes).isSome ||
            c.map.contains addr bytes)).accesses c.map memory) := by
        refine (writtenBlocks_append _ _).trans ?_
        split
        · rfl
        · rfl
      rw [hwritten] at hroom
      have hnext := ih _ hturn htail hrest hroom
      rw [hdone, ← hfound] at hnext
      unfold Mix.runDeferred Mix.runSync
      simp only
      rw [← hfound]
      exact hnext
  | readAuxIn addr next ih =>
      obtain ⟨hturn, htail, hdone⟩ := h.turn hturns
      obtain ⟨haccess, hrest⟩ := List.forall_mem_cons.mp hallows
      have hsame := hturn.readAuxIn haccess
      have hnext := ih _ hturn htail hrest
        ((Nat.add_le_add_left (length_writtenBlocks_cons _ _) _).trans hroom)
      rw [hdone] at hnext
      unfold Mix.runDeferred Mix.runSync
      simp only
      rw [hsame]
      exact hnext
  | writeAuxOut addr block next ih =>
      obtain ⟨hturn, htail, hdone⟩ := h.turn hturns
      obtain ⟨haccess, hrest⟩ := List.forall_mem_append.mp hallows
      by_cases haddr : addr = 0
      · -- Neither thread writes a block at the null address.
        have hworker : (s.guestWrites (turns.headD [])).writeAuxOut addr block =
            s.guestWrites (turns.headD []) := if_pos haddr
        have hmemory : memory.writeBlock c.map addr block = memory := if_pos haddr
        have haccesses : (Mix.writeAuxOut addr block next).accesses c.map memory =
            next.accesses c.map memory := by
          change (if addr = 0 then [] else [_]) ++
            next.accesses c.map (memory.writeBlock c.map addr block) = _
          rw [if_pos haddr, hmemory, List.nil_append]
        rw [haccesses] at hroom
        rw [hmemory] at hrest
        have hnext := ih hturn htail hrest hroom
        rw [hdone] at hnext
        unfold Mix.runDeferred Mix.runSync
        simp only
        rw [hworker, hmemory]
        exact hnext
      · have hknown := haccess
        rw [if_neg haddr] at hknown
        have hallowed := hknown _ List.mem_cons_self
        have hwritten : (writtenBlocks ((Mix.writeAuxOut addr block next).accesses c.map
            memory)).length = (writtenBlocks (next.accesses c.map
              (memory.writeBlock c.map addr block))).length + 1 := by
          refine (congrArg List.length (writtenBlocks_append _ _)).trans ?_
          rw [if_neg haddr]
          unfold accessOf at hallowed ⊢
          cases hresolve : MixResolveRange c.map addr auxBytes with
          | none =>
              rw [hresolve] at hallowed
              exact hallowed.elim
          | some physical => rfl
        rw [hwritten] at hroom
        have hlt : (s.guestWrites (turns.headD [])).auxOut.length < auxBlocks := by
          change s.auxOut.length < auxBlocks
          omega
        have hlength : ((s.guestWrites (turns.headD [])).writeAuxOut addr block).auxOut.length =
            s.auxOut.length + 1 := by
          unfold WorkerState.writeAuxOut
          rw [if_neg haddr, if_neg (Nat.not_le.mpr hlt)]
          exact List.length_append
        have hnext := ih (hturn.writeAuxOut haddr hallowed hlt) htail hrest (by
          rw [hlength]
          omega)
        rw [hdone] at hnext
        exact hnext

/-! ## The join -/

theorem PublishAuxOutputs_eq
    (map : MixMap) (memory : GuestMemory) (auxOut auxIn : List (UInt32 × AuxBlock))
    (h : ∀ block ∈ auxOut, block.1 ≠ 0 ∧ (MixResolveRange map block.1 auxBytes).isSome) :
    PublishAuxOutputs map ⟨memory, auxOut, auxIn⟩ =
      { memory with main := publish memory.main (pendingStores map auxOut) } := by
  unfold PublishAuxOutputs
  simp only
  induction auxOut generalizing memory with
  | nil => rfl
  | cons block auxOut ih =>
      obtain ⟨hblock, hrest⟩ := List.forall_mem_cons.mp h
      obtain ⟨physical, hresolve⟩ := Option.isSome_iff_exists.mp hblock.2
      have hmemory : memory.writeBlock map block.1 block.2 =
          { memory with
            main := store memory.main physical
              (storeBigEndian32 block.2 kAxSamplesPerFrame) } := by
        unfold GuestMemory.writeBlock GuestMemory.write
        rw [if_neg hblock.1, length_blockBytes, hresolve]
      have hpending : pendingStores map (block :: auxOut) =
          ⟨physical, storeBigEndian32 block.2 kAxSamplesPerFrame⟩ ::
            pendingStores map auxOut := by
        rw [pendingStores, List.map_cons, hresolve]
        rfl
      rw [List.foldl_cons, hmemory, ih _ hrest, hpending]
      rfl

/-- An aux block is where its address resolves to. -/
def Access.Resolves (map : MixMap) : Access → Prop
  | .readAuxIn addr physical | .writeAuxOut addr physical =>
      MixResolveRange map addr auxBytes = some physical
  | _ => True

theorem resolves_accessOf
    {map : MixMap} {addr : UInt32} {bytes : ℕ} {access : BitVec 32 → Access}
    (h : ∀ physical, MixResolveRange map addr bytes = some physical →
      (access physical).Resolves map) : (accessOf map addr bytes access).Resolves map := by
  unfold accessOf
  cases hresolve : MixResolveRange map addr bytes with
  | none => trivial
  | some physical => exact h physical hresolve

theorem resolves_accesses
    {α : Type} {map : MixMap} {program : Mix α} {memory : GuestMemory} :
    ∀ access ∈ program.accesses map memory, access.Resolves map := by
  induction program generalizing memory with
  | done value => exact fun _ haccess => absurd haccess List.not_mem_nil
  | read addr bytes next ih =>
      exact List.forall_mem_cons.mpr ⟨resolves_accessOf fun _ _ => trivial, ih _⟩
  | write addr data next ih =>
      exact List.forall_mem_cons.mpr ⟨resolves_accessOf fun _ _ => trivial, ih⟩
  | contains addr bytes next ih =>
      refine List.forall_mem_append.mpr ⟨?_, ih _⟩
      split
      · exact fun _ haccess => absurd haccess List.not_mem_nil
      · exact List.forall_mem_singleton.mpr trivial
  | readAuxIn addr next ih =>
      exact List.forall_mem_cons.mpr ⟨resolves_accessOf fun _ hresolve => hresolve, ih _⟩
  | writeAuxOut addr block next ih =>
      refine List.forall_mem_append.mpr ⟨?_, ih⟩
      split
      · exact fun _ haccess => absurd haccess List.not_mem_nil
      · exact List.forall_mem_singleton.mpr (resolves_accessOf fun _ hresolve => hresolve)

theorem mem_readBlocks {accesses : List Access} {block : UInt32 × BitVec 32} :
    block ∈ readBlocks accesses ↔ .readAuxIn block.1 block.2 ∈ accesses := by
  unfold readBlocks
  rw [List.mem_filterMap]
  constructor
  · rintro ⟨access, haccess, hblock⟩
    cases access with
    | readAuxIn addr physical =>
        cases hblock
        exact haccess
    | _ => cases hblock
  · exact fun haccess => ⟨_, haccess, rfl⟩

theorem mem_writtenBlocks {accesses : List Access} {block : UInt32 × BitVec 32} :
    block ∈ writtenBlocks accesses ↔ .writeAuxOut block.1 block.2 ∈ accesses := by
  unfold writtenBlocks
  rw [List.mem_filterMap]
  constructor
  · rintro ⟨access, haccess, hblock⟩
    cases access with
    | writeAuxOut addr physical =>
        cases hblock
        exact haccess
    | _ => cases hblock
  · exact fun haccess => ⟨_, haccess, rfl⟩

/-- A mix on the worker and its join leave what the synchronous mix leaves, with what the
guest writes in between. -/
theorem deferAndJoin_eq
    {α : Type} (map : MixMap) (program : Mix α) (auxInAddrs : List UInt32)
    (turns : List (List GuestWrite)) (memory : GuestMemory)
    (h : Isolated (program.accesses map memory) turns) :
    deferAndJoin map program auxInAddrs turns memory =
      ((program.runSync map memory).1,
        { (program.runSync map memory).2 with
          main := applyGuestWrites (program.runSync map memory).2.main turns.flatten }) := by
  let accesses := program.accesses map memory
  have hknown : ∀ block ∈ auxBlocksOf accesses,
      MixResolveRange map block.1 auxBytes = some block.2 := by
    intro block hblock
    rcases List.mem_append.mp hblock with hblock | hblock
    · exact resolves_accesses _ (mem_readBlocks.mp hblock)
    · exact resolves_accesses _ (mem_writtenBlocks.mp hblock)
  let c : Setting :=
    { map := map
      mail := memory
      auxInAddrs := auxInAddrs
      blocks := auxBlocksOf accesses
      written := writtenBlocks accesses
      guest := turns.flatten
      known := hknown
      subset := fun block hblock => List.mem_append_right _ hblock
      apart := fun a ha b hb => (h.blocks a ha b hb).imp_left (h.oneAddress a ha b hb)
      untouched := h.guestBlocks }
  have hallows : ∀ access ∈ accesses, c.Allows access := by
    intro access haccess
    cases access with
    | read physical bytes =>
        exact ⟨h.inputs physical bytes haccess,
          fun write hwrite => h.guestInputs write hwrite physical bytes haccess⟩
    | write physical bytes =>
        exact ⟨h.outputs physical bytes haccess,
          fun write hwrite => h.guestOutputs write hwrite physical bytes haccess⟩
    | readAuxIn addr physical =>
        exact List.mem_append_left _ (mem_readBlocks.mpr haccess)
    | writeAuxOut addr physical => exact mem_writtenBlocks.mpr haccess
    | outside => exact h.inside haccess
  have hstart : Follows c [] memory ⟨memory, [], snapshotAuxIn map memory auxInAddrs⟩ :=
    ⟨rfl, rfl, fun _ hwrite => absurd hwrite List.not_mem_nil,
      fun _ hblock => absurd hblock List.not_mem_nil,
      fun _ hblock => absurd hblock List.not_mem_nil,
      fun _ hblock => absurd hblock List.not_mem_nil, fun _ _ _ _ => rfl, rfl⟩
  obtain ⟨hvalue, hrest, done, hdone, hend⟩ := hstart.run program (fun _ hwrite => hwrite)
    hallows ((Nat.zero_add _).trans_le h.auxOut)
  have hjoined := hend.guestWrites hrest
  have hblocks : ∀ block ∈ (program.runDeferred map turns
      ⟨memory, [], snapshotAuxIn map memory auxInAddrs⟩).2.2.auxOut,
      block.1 ≠ 0 ∧ (MixResolveRange map block.1 auxBytes).isSome := by
    intro block hblock
    obtain ⟨physical, hwritten⟩ := hjoined.shadowed block hblock
    refine ⟨hjoined.nonnull block hblock, ?_⟩
    rw [hknown _ (List.mem_append_right _ hwritten)]
    rfl
  have hmain := hjoined.main
  rw [hdone, List.nil_append] at hmain
  unfold deferAndJoin
  simp only
  rw [hvalue]
  refine congrArg (Prod.mk _) ((PublishAuxOutputs_eq _ _ _ _ hblocks).trans ?_)
  refine GuestMemory.mk.injEq _ _ _ _ ▸ ⟨hmain, hjoined.outside⟩

end Wiicompiled.Audio.AxDsp
