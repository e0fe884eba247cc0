import Wiicompiled.Gx.DisplayListRecording

/-!
# Recorded display lists

While what is recorded fits, the cursor is the list's start moved on by the number of bytes,
and the list begins with the bytes so far.  Beginning and ending a recording touch the
objects of the GX library only, and never the wrap flag.
-/

namespace Wiicompiled.Gx

open ByteImage FlatMemory

variable {π : Type*}

/-! ## What begin and end touch -/

/-- A range of the GX data, the FIFO objects and the saved context that does not have the wrap
flag in it. -/
def InObjects (address : BitVec 32) (size : ℕ) : Prop :=
  (0x803437C0 ≤ address.toNat ∧ address.toNat + size ≤ 0x80343DC0) ∨
    (0x80344090 ≤ address.toNat ∧ address.toNat + size ≤ 0x803440B0) ∨
    (0x803440B1 ≤ address.toNat ∧ address.toNat + size ≤ 0x80344790)

instance (address : BitVec 32) (size : ℕ) : Decidable (InObjects address size) :=
  inferInstanceAs (Decidable (_ ∨ _))

def wrapFlagAddr : BitVec 32 := kDlFifoAddr + kDlWrapFlagOffset

/-- Only the objects of the library change. -/
def Touches (mem mem' : Memory) : Prop :=
  ∀ a, ¬ InObjects a 1 → mem' a = mem a

theorem Touches.refl (mem : Memory) : Touches mem mem := fun _ _ => rfl

theorem InObjects.of_mem {address a : BitVec 32} {size : ℕ} (h : InObjects address size)
    (ha : a ∈ range address size) : InObjects a 1 := by
  rw [mem_range_iff, BitVec.toNat_sub] at ha
  have hlt := address.isLt
  rcases h with h | h | h
  · exact .inl (by omega)
  · exact .inr (.inl (by omega))
  · exact .inr (.inr (by omega))

section

variable {mem mem' : Memory} {address : BitVec 32}

theorem Touches.store {bytes : List UInt8} (h : Touches mem mem')
    (haddress : InObjects address bytes.length) : Touches mem (store mem' address bytes) := by
  intro a ha
  rw [store_of_notMem fun hmem => ha (haddress.of_mem hmem), h a ha]

theorem Touches.write8 {value : BitVec 8} (h : Touches mem mem')
    (haddress : InObjects address 1) : Touches mem (write8 mem' address value) :=
  h.store (by rwa [length_toBytes])

theorem Touches.write32 {value : BitVec 32} (h : Touches mem mem')
    (haddress : InObjects address 4) : Touches mem (write32 mem' address value) :=
  h.store (by rwa [length_toBytes])

theorem Touches.memcpy {src : BitVec 32} {size : ℕ} (h : Touches mem mem')
    (haddress : InObjects address size) : Touches mem (memcpy mem' address src size) :=
  h.store (by rwa [length_load])

theorem read32_congr (h : ∀ a ∈ range address 4, mem' a = mem a) :
    read32 mem' address = read32 mem address := by
  rw [read32, read32, load_congr (by decide) h]

theorem Touches.pointer (h : Touches mem mem') :
    read32 mem' kGXDataPtrAddr = read32 mem kGXDataPtrAddr := by
  apply read32_congr
  intro a ha
  apply h
  rw [mem_range_iff, kGXDataPtrAddr] at ha
  rw [BitVec.toNat_sub] at ha
  have hword : (0x803886C8 : BitVec 32).toNat = 0x803886C8 := rfl
  rintro (h | h | h) <;> omega

theorem Touches.wrapFlag (h : Touches mem mem') : mem' wrapFlagAddr = mem wrapFlagAddr :=
  h wrapFlagAddr (by decide)

end

theorem touches_saveContext {mem : Memory} (hgd : read32 mem kGXDataPtrAddr = kGXDataAddr) :
    Touches mem (saveContext kGXDataAddr mem) := by
  have hdirty : Touches mem (if read32 mem (kGXDataAddr + 0x5FC) = 0 then mem
      else setDirtyState mem) := by
    split
    · exact Touches.refl mem
    · rw [setDirtyState, hgd]
      split
      · exact Touches.refl mem
      · exact (Touches.refl mem).write32 (by decide)
  have hcopy : ∀ mem', Touches mem mem' →
      Touches mem (if read8 mem' (kGXDataAddr + 0x5F9) = 0 then mem'
        else memcpy mem' 0x80344110 kGXDataAddr 0x600) := by
    intro mem' h
    split
    · exact h
    · exact h.memcpy (by decide)
  exact hcopy _ hdirty

theorem touches_initFifoObject {mem mem' : Memory} (la s : BitVec 32) (h : Touches mem mem') :
    Touches mem (initFifoObject la s mem') :=
  (((((h.write32 (by decide)).write32 (by decide)).write32 (by decide)).write32
    (by decide)).write32 (by decide)).write32 (by decide)

theorem touches_restoreContext {mem : Memory} : Touches mem (restoreContext kGXDataAddr mem) := by
  rw [restoreContext]
  apply Touches.write8 _ (by decide)
  split
  · exact Touches.refl mem
  · exact ((Touches.refl mem).memcpy (by decide)).write32 (by decide)

/-- The GX data is where the initialization puts it, and no overflow is left over. -/
structure Ready (mem : Memory) : Prop where
  gxData : read32 mem kGXDataPtrAddr = kGXDataAddr
  wrapFlag : mem wrapFlagAddr = 0

theorem Ready.of_touches {mem mem' : Memory} (h : Ready mem) (htouches : Touches mem mem') :
    Ready mem' :=
  ⟨htouches.pointer.trans h.gxData, htouches.wrapFlag.trans h.wrapFlag⟩

/-! ## Words -/

section

variable {mem : Memory} {address dst value : BitVec 32} {bytes : List UInt8}

theorem read32_write32 : read32 (write32 mem address value) address = value := by
  have hload := @load_store_self 32 UInt8 mem address (toBytes 4 value.toNat)
    (by rw [length_toBytes]; decide)
  have hlt : value.toNat < 256 ^ 4 := value.isLt
  rw [length_toBytes] at hload
  rw [read32, write32, hload, fromBytes_toBytes, Nat.mod_eq_of_lt hlt, BitVec.ofNat_toNat,
    BitVec.setWidth_eq]

theorem read32_store_of_apart
    (h : ∀ a ∈ range address 4, a ∉ range dst bytes.length) :
    read32 (store mem dst bytes) address = read32 mem address :=
  read32_congr fun a ha => store_of_notMem (h a ha)

theorem notMem_range_of_le {a : BitVec 32} {n m : ℕ}
    (h : (address.toNat + n ≤ dst.toNat ∧ dst.toNat + m ≤ 2 ^ 32) ∨
      (dst.toNat + m ≤ address.toNat ∧ address.toNat + n ≤ 2 ^ 32))
    (ha : a ∈ range address n) : a ∉ range dst m := by
  rw [mem_range_iff, BitVec.toNat_sub] at ha ⊢
  have haddress := address.isLt
  have hdst := dst.isLt
  omega

theorem read32_write32_of_le
    (h : (address.toNat + 4 ≤ dst.toNat ∧ dst.toNat + 4 ≤ 2 ^ 32) ∨
      (dst.toNat + 4 ≤ address.toNat ∧ address.toNat + 4 ≤ 2 ^ 32)) :
    read32 (write32 mem dst value) address = read32 mem address :=
  read32_store_of_apart fun _ ha => by
    rw [length_toBytes]
    exact notMem_range_of_le h ha

end

theorem count_initFifoObject (la s : BitVec 32) (mem : Memory) :
    read32 (initFifoObject la s mem) kDlCountAddr = 0 := by
  rw [initFifoObject, read32_write32_of_le (by decide), read32_write32_of_le (by decide),
    read32_write32_of_le (by decide), read32_write32_of_le (by decide)]
  exact read32_write32

theorem count_restoreContext (mem : Memory) :
    read32 (restoreContext kGXDataAddr mem) kDlCountAddr = read32 mem kDlCountAddr := by
  rw [restoreContext, write8, read32_store_of_apart fun a ha => by
    rw [length_toBytes]
    exact notMem_range_of_le (by decide) ha]
  split
  · rfl
  · rw [read32_write32_of_le (by decide), memcpy, read32_store_of_apart fun a ha => by
      rw [length_load]
      exact notMem_range_of_le (by decide) ha]

/-! ## Begin and end -/

/-- The state right behind a begin. -/
structure Begun (la s : BitVec 32) (mem : Memory) (st : GxState π) : Prop where
  dl : st.dl = beginDisplayListRecording la s
  cpuFifo : st.cpuFifo = kDlFifoAddr
  touches : Touches mem st.mem
  count : read32 st.mem kDlCountAddr = 0
  listBytes : st.listBytes = []

theorem begun_beginDisplayList {st : GxState π} (hready : Ready st.mem) (la s : BitVec 32) :
    Begun la s st.mem (beginDisplayList la s st) := by
  have hgd : ¬ kGXDataAddr = 0 := by decide
  rw [beginDisplayList, hready.gxData, if_neg hgd]
  refine ⟨rfl, rfl, ?_, ?_, rfl⟩
  · exact ((touches_initFifoObject la s (touches_saveContext hready.gxData)).write8
      (by decide)).memcpy (by decide)
  · rw [setCPUFifo, getCPUFifo, memcpy, read32_store_of_apart fun a ha => by
      rw [length_load]
      exact notMem_range_of_le (by decide) ha]
    rw [write8, read32_store_of_apart fun a ha => by
      rw [length_toBytes]
      exact notMem_range_of_le (by decide) ha]
    exact count_initFifoObject la s _

theorem memcpy_self (mem : Memory) (address : BitVec 32) {size : ℕ} (hsize : size ≤ 2 ^ 32) :
    memcpy mem address address size = mem := by
  rw [memcpy, store_eq_self_iff (by rwa [length_load]), length_load]

theorem getCPUFifo_self {st : GxState π} (hfifo : st.cpuFifo = kDlFifoAddr) :
    getCPUFifo 0x80344090 st = st := by
  have hcopy : memcpy st.mem 0x80344090 st.cpuFifo fifoObjSize = st.mem := by
    rw [hfifo]
    exact memcpy_self st.mem _ (by decide)
  rw [getCPUFifo, hcopy]

theorem endDisplayList_of_active {st : GxState π} (hready : Ready st.mem)
    (hfifo : st.cpuFifo = kDlFifoAddr) (hactive : st.dl.active = true) :
    (endDisplayList st).1 = st.dl.count ∧ Touches st.mem (endDisplayList st).2.mem ∧
      (endDisplayList st).2.listBytes = st.listBytes := by
  have hgd : ¬ kGXDataAddr = 0 := by decide
  have hflag : read8 st.mem (kDlFifoAddr + kDlWrapFlagOffset) = 0 := hready.wrapFlag
  rw [endDisplayList, getCPUFifo_self hfifo]
  simp only [setCPUFifo, hready.gxData, if_neg hgd, endDisplayListRecording, hactive, if_true]
  refine ⟨?_, ?_, trivial⟩
  · rw [if_pos hflag, read32_write32]
  · exact (touches_restoreContext.write32 (by decide)).write32 (by decide)

theorem endDisplayList_of_inactive {st : GxState π} (hready : Ready st.mem)
    (hfifo : st.cpuFifo = kDlFifoAddr) (hactive : st.dl.active = false) :
    (endDisplayList st).1 = read32 st.mem kDlCountAddr ∧
      Touches st.mem (endDisplayList st).2.mem ∧
      (endDisplayList st).2.listBytes = st.listBytes := by
  have hgd : ¬ kGXDataAddr = 0 := by decide
  have hflag : read8 st.mem (kDlFifoAddr + kDlWrapFlagOffset) = 0 := hready.wrapFlag
  rw [endDisplayList, getCPUFifo_self hfifo]
  simp only [setCPUFifo, hready.gxData, if_neg hgd, endDisplayListRecording, hactive,
    Bool.false_eq_true, if_false]
  refine ⟨?_, touches_restoreContext, trivial⟩
  rw [if_pos hflag, count_restoreContext]

/-! ## Writes on an open list -/

/-- The state after `bytes` have been recorded on a list. -/
structure Recorded (base size : BitVec 32) (mem : Memory) (bytes : List UInt8)
    (st : GxState π) : Prop where
  dl : st.dl = ⟨base, size, base + BitVec.ofNat 32 bytes.length, BitVec.ofNat 32 bytes.length,
    true⟩
  cpuFifo : st.cpuFifo = kDlFifoAddr
  mem : st.mem = store mem base bytes
  inside : ∀ a ∈ st.listBytes, a ∈ range base size.toNat

/-- A list that can be recorded: it does not begin at address 0, and its end does not wrap. -/
structure Open (base size : BitVec 32) : Prop where
  base_ne_zero : base ≠ 0
  size_ne_zero : size ≠ 0
  end_lt : base.toNat + size.toNat < 2 ^ 32

section

variable {base size : BitVec 32} {mem : Memory} {bytes piece : List UInt8} {st : GxState π}
  {processor : Processor π}

/-- The cursor is not 0 as long as it does not pass the end of the list. -/
theorem Open.guard (hopen : Open base size) (h : Recorded base size mem bytes st)
    (hfits : bytes.length ≤ size.toNat) :
    (!st.dl.active || st.dl.base == 0 || st.dl.size == 0 || st.dl.writePtr == 0) = false := by
  have hbase : base.toNat ≠ 0 := fun hzero => hopen.base_ne_zero (BitVec.eq_of_toNat_eq hzero)
  have hptr : base + BitVec.ofNat 32 bytes.length ≠ 0 := by
    intro hzero
    have hend := hopen.end_lt
    have hvalue := congrArg BitVec.toNat hzero
    rw [BitVec.toNat_add, BitVec.toNat_ofNat, Nat.mod_eq_of_lt (a := bytes.length) (by omega),
      Nat.mod_eq_of_lt (by omega)] at hvalue
    exact hbase (by simpa using (Nat.add_eq_zero_iff.mp hvalue).1)
  rw [h.dl]
  simp only [Bool.not_true, Bool.false_or, Bool.or_eq_false_iff, beq_eq_false_iff_ne]
  exact ⟨⟨hopen.base_ne_zero, hopen.size_ne_zero⟩, hptr⟩

theorem mem_range_of_piece (hopen : Open base size) {i : ℕ}
    (hfits : bytes.length + piece.length ≤ size.toNat) (hi : i < piece.length) :
    base + BitVec.ofNat 32 bytes.length + BitVec.ofNat 32 i ∈ range base size.toNat := by
  rw [mem_range_iff, add_assoc, add_sub_cancel_left, BitVec.toNat_add, BitVec.toNat_ofNat,
    BitVec.toNat_ofNat]
  omega

theorem Recorded.storeList (hopen : Open base size) (h : Recorded base size mem bytes st)
    (hfits : bytes.length + piece.length ≤ size.toNat) {st' : GxState π}
    (hst : st' = { st.storeList st.dl.writePtr piece.length (store st.mem st.dl.writePtr piece) with
      dl := { st.dl with
        writePtr := st.dl.writePtr + BitVec.ofNat 32 piece.length
        count := st.dl.count + BitVec.ofNat 32 piece.length } }) :
    Recorded base size mem (bytes ++ piece) st' := by
  rw [hst]
  refine ⟨?_, h.cpuFifo, ?_, ?_⟩
  · rw [h.dl]
    simp only [List.length_append, BitVec.ofNat_add, add_assoc]
  · simp only [GxState.storeList, h.dl, h.mem]
    exact store_store_append (by omega)
  · intro a ha
    simp only [GxState.storeList, List.mem_append, List.mem_map, List.mem_range] at ha
    rcases ha with ha | ⟨i, hi, rfl⟩
    · exact h.inside a ha
    · rw [h.dl]
      exact mem_range_of_piece hopen hfits hi

theorem write8_setWidth (address val : BitVec 32) :
    write8 mem address (val.setWidth 8) = store mem address (toBytes 1 val.toNat) := by
  rw [write8, BitVec.toNat_setWidth, ← toBytes_mod 1 val.toNat]
  rfl

theorem write16_setWidth (address val : BitVec 32) :
    write16 mem address (val.setWidth 16) = store mem address (toBytes 2 val.toNat) := by
  rw [write16, BitVec.toNat_setWidth, ← toBytes_mod 2 val.toNat]
  rfl

theorem Recorded.writeDisplayListData (hopen : Open base size)
    (h : Recorded base size mem bytes st) {k : ℕ} (hk : k = 1 ∨ k = 2 ∨ k = 4)
    (val : BitVec 32) (hfits : bytes.length + k ≤ size.toNat) :
    Recorded base size mem (bytes ++ toBytes k val.toNat) (writeDisplayListData val k st) := by
  have hend := hopen.end_lt
  have hnext : ¬ st.dl.base + st.dl.size < st.dl.writePtr + BitVec.ofNat 32 k := by
    rw [h.dl]
    simp only [BitVec.lt_def, BitVec.toNat_add, BitVec.toNat_ofNat]
    omega
  have hlength : (toBytes k val.toNat).length = k := length_toBytes k _
  refine h.storeList hopen (by rwa [hlength]) ?_
  rw [Gx.writeDisplayListData.eq_def]
  simp only [hopen.guard h (by omega), hlength]
  rcases hk with rfl | rfl | rfl
  · simp only [Bool.false_eq_true, if_false, write8_setWidth, GxState.storeList, if_neg hnext]
  · simp only [Bool.false_eq_true, if_false, write16_setWidth, GxState.storeList, if_neg hnext]
  · simp only [Bool.false_eq_true, if_false, write32, GxState.storeList, if_neg hnext]

theorem flatten_burstPieces (data : List UInt8) : (burstPieces data).flatten = data := by
  induction data using burstPieces.induct with
  | case1 a b c d data ih => rw [burstPieces, List.flatten_cons, ih]; rfl
  | case2 a b data hshort =>
      rw [burstPieces, List.flatten_cons, ← List.flatMap_def, List.flatMap_singleton']
      · rfl
      · exact hshort
  | case3 data hlong hshort =>
      rw [burstPieces, ← List.flatMap_def, List.flatMap_singleton']
      · exact hlong
      · exact hshort

theorem Recorded.foldl_burstStore (hopen : Open base size) (pieces : List (List UInt8))
    (h : Recorded base size mem bytes st)
    (hfits : bytes.length + pieces.flatten.length ≤ size.toNat) :
    Recorded base size mem (bytes ++ pieces.flatten) (pieces.foldl burstStore st) := by
  induction pieces generalizing bytes st with
  | nil => rwa [List.flatten_nil, List.append_nil]
  | cons piece pieces ih =>
      rw [List.flatten_cons, List.length_append] at hfits
      have hstore : Recorded base size mem (bytes ++ piece) (burstStore st piece) :=
        h.storeList hopen (by omega) (by rw [burstStore, toBytes_fromBytes])
      rw [List.flatten_cons, ← List.append_assoc, List.foldl_cons]
      exact ih hstore (by rw [List.length_append]; omega)

theorem Recorded.writeDisplayListBurst (hopen : Open base size)
    (h : Recorded base size mem bytes st) (data : List UInt8)
    (hfits : bytes.length + data.length ≤ size.toNat) :
    ∃ st', writeDisplayListBurst data st = some st' ∧
      Recorded base size mem (bytes ++ data) st' := by
  have hend := hopen.end_lt
  have hinside : ¬ (st.dl.base + st.dl.size < st.dl.writePtr ∨
      st.dl.base + st.dl.size - st.dl.writePtr < BitVec.ofNat 32 data.length) := by
    rw [h.dl]
    simp only [add_sub_add_left_eq_sub, BitVec.lt_def, BitVec.toNat_add, BitVec.toNat_sub,
      BitVec.toNat_ofNat]
    omega
  have hrecorded := h.foldl_burstStore hopen (burstPieces data)
    (by rwa [flatten_burstPieces])
  rw [flatten_burstPieces] at hrecorded
  refine ⟨_, ?_, hrecorded⟩
  rw [Gx.writeDisplayListBurst]
  simp only [hopen.guard h (by omega), Bool.false_eq_true, if_false, if_neg hinside]

theorem Recorded.apply (hopen : Open base size) (h : Recorded base size mem bytes st)
    (write : FifoWrite) (hfits : bytes.length + write.bytes.length ≤ size.toNat) :
    Recorded base size mem (bytes ++ write.bytes) (write.apply processor st) := by
  have hactive : st.dl.active = true := by rw [h.dl]
  cases write with
  | write8 val =>
      rw [FifoWrite.bytes, length_toBytes] at hfits
      have hrecorded := h.writeDisplayListData hopen (.inl rfl) (val.setWidth 32) hfits
      rw [FifoWrite.apply, hleFifoWrite, if_pos hactive, FifoWrite.bytes]
      rwa [BitVec.toNat_setWidth_of_le (by decide)] at hrecorded
  | write16 val =>
      rw [FifoWrite.bytes, length_toBytes] at hfits
      have hrecorded := h.writeDisplayListData hopen (.inr (.inl rfl)) (val.setWidth 32) hfits
      rw [FifoWrite.apply, hleFifoWrite, if_pos hactive, FifoWrite.bytes]
      rwa [BitVec.toNat_setWidth_of_le (by decide)] at hrecorded
  | write32 val =>
      rw [FifoWrite.bytes, length_toBytes] at hfits
      rw [FifoWrite.apply, hleFifoWrite, if_pos hactive, FifoWrite.bytes]
      exact h.writeDisplayListData hopen (.inr (.inr rfl)) val hfits
  | writeBurst data =>
      rw [FifoWrite.bytes] at hfits ⊢
      obtain ⟨st', hburst, hrecorded⟩ := h.writeDisplayListBurst hopen data hfits
      rw [FifoWrite.apply, fifoWriteBurst]
      by_cases hnil : data = []
      · rw [if_pos hnil, hnil, List.append_nil]
        exact h
      · rw [if_neg hnil, if_pos hactive, hburst]
        exact hrecorded

theorem Recorded.foldl_apply (processor : Processor π) (hopen : Open base size)
    (writes : List FifoWrite) (h : Recorded base size mem bytes st)
    (hfits : bytes.length + (writes.flatMap FifoWrite.bytes).length ≤ size.toNat) :
    Recorded base size mem (bytes ++ writes.flatMap FifoWrite.bytes)
      (writes.foldl (FifoWrite.apply processor) st) := by
  induction writes generalizing bytes st with
  | nil => rwa [List.flatMap_nil, List.append_nil]
  | cons write writes ih =>
      rw [List.flatMap_cons, List.length_append] at hfits
      rw [List.flatMap_cons, ← List.append_assoc, List.foldl_cons]
      exact ih (h.apply hopen write (by omega)) (by rw [List.length_append]; omega)

end

/-! ## Recordings -/

/-- The command processor leaves the pointer to the GX data and the list's FIFO object. -/
def Processor.Leaves (processor : Processor π) : Prop :=
  ∀ bytes p mem a, a ∈ range kGXDataPtrAddr 4 ∨ a ∈ range kDlFifoAddr fifoObjSize →
    (processor bytes p mem).2 a = mem a

/-- The list does not begin at address 0, its end does not wrap, and it is apart from the
objects of the library. -/
structure Placed (r : Recording) : Prop where
  notNull : r.size ≠ 0 → r.listAddr ≠ 0
  end_lt : r.listAddr.toNat + r.size.toNat < 2 ^ 32
  apart : ∀ a ∈ range r.listAddr r.size.toNat,
    ¬ InObjects a 1 ∧ a ≠ wrapFlagAddr ∧ a ∉ range kGXDataPtrAddr 4

/-- What is recorded fits in the list, or nothing is recorded because the list has no size. -/
def Fits (r : Recording) : Prop :=
  r.size = 0 ∨ r.bytes.length ≤ r.size.toNat

/-- The recording stays inside of its list, and its result is right. -/
structure Exact (r : Recording) (result : BitVec 32) (st : GxState π) : Prop where
  inside : ∀ a ∈ st.listBytes, a ∈ range r.listAddr r.size.toNat
  fits : r.bytes.length ≤ r.size.toNat →
    load st.mem r.listAddr r.bytes.length = r.bytes ∧ result.toNat = r.bytes.length
  overflows : r.size.toNat < r.bytes.length → result = 0

/-- The state of a recording whose list has no size. -/
structure Idle (mem : Memory) (st : GxState π) : Prop where
  inactive : st.dl.active = false
  cpuFifo : st.cpuFifo = kDlFifoAddr
  same : ∀ a, a ∈ range kGXDataPtrAddr 4 ∨ a ∈ range kDlFifoAddr fifoObjSize → st.mem a = mem a
  listBytes : st.listBytes = []

section

variable {processor : Processor π} {mem : Memory} {st : GxState π} {r : Recording}

theorem Idle.process (hprocessor : processor.Leaves) (h : Idle mem st) (bytes : List UInt8) :
    Idle mem (st.process processor bytes) :=
  ⟨h.inactive, h.cpuFifo, fun a ha => (hprocessor bytes st.processor st.mem a ha).trans
    (h.same a ha), h.listBytes⟩

theorem Idle.apply (hprocessor : processor.Leaves) (h : Idle mem st) (write : FifoWrite) :
    Idle mem (write.apply processor st) := by
  have hactive : ¬ st.dl.active = true := by rw [h.inactive]; exact Bool.false_ne_true
  cases write with
  | write8 val =>
      rw [FifoWrite.apply, hleFifoWrite, if_neg hactive]
      exact h.process hprocessor _
  | write16 val =>
      rw [FifoWrite.apply, hleFifoWrite, if_neg hactive]
      exact h.process hprocessor _
  | write32 val =>
      rw [FifoWrite.apply, hleFifoWrite, if_neg hactive]
      exact h.process hprocessor _
  | writeBurst data =>
      rw [FifoWrite.apply, fifoWriteBurst, if_neg hactive]
      split
      · exact h
      · exact h.process hprocessor data

theorem Idle.foldl_apply (hprocessor : processor.Leaves) (h : Idle mem st)
    (writes : List FifoWrite) : Idle mem (writes.foldl (FifoWrite.apply processor) st) := by
  induction writes generalizing st with
  | nil => exact h
  | cons write writes ih => exact ih (h.apply hprocessor write)

theorem wrapFlagAddr_mem : wrapFlagAddr ∈ range kDlFifoAddr fifoObjSize := by
  rw [mem_range_iff]
  decide

theorem Idle.ready (h : Idle mem st) (hready : Ready mem) : Ready st.mem where
  gxData := by
    rw [read32_congr fun a ha => h.same a (.inl ha)]
    exact hready.gxData
  wrapFlag := (h.same _ (.inr wrapFlagAddr_mem)).trans hready.wrapFlag

theorem Idle.count (h : Idle mem st) :
    read32 st.mem kDlCountAddr = read32 mem kDlCountAddr := by
  apply read32_congr
  intro a ha
  apply h.same
  right
  rw [mem_range_iff, kDlCountAddr, BitVec.toNat_sub] at ha
  rw [mem_range_iff, kDlFifoAddr, fifoObjSize, BitVec.toNat_sub]
  have hcount : (0x803440AC : BitVec 32).toNat = 0x803440AC := rfl
  have hfifo : (0x80344090 : BitVec 32).toNat = 0x80344090 := rfl
  omega

theorem Placed.ready (hplaced : Placed r) (hready : Ready mem) {bytes : List UInt8}
    (hfits : bytes.length ≤ r.size.toNat) : Ready (store mem r.listAddr bytes) where
  gxData := by
    rw [read32_store_of_apart, hready.gxData]
    intro a ha hmem
    exact (hplaced.apart a (lt_of_lt_of_le hmem hfits)).2.2 ha
  wrapFlag := by
    rw [store_of_notMem, hready.wrapFlag]
    intro hmem
    exact (hplaced.apart _ (lt_of_lt_of_le hmem hfits)).2.1 rfl

theorem exact_run_of_size_ne_zero (hready : Ready st.mem) (hplaced : Placed r)
    (hsize : r.size ≠ 0) (hfits : r.bytes.length ≤ r.size.toNat) :
    Exact r (r.run processor st).1 (r.run processor st).2 ∧ Ready (r.run processor st).2.mem := by
  have hopen : Open r.listAddr r.size := ⟨hplaced.notNull hsize, hsize, hplaced.end_lt⟩
  have hbegun := begun_beginDisplayList hready r.listAddr r.size
  have hstart : Recorded r.listAddr r.size (beginDisplayList r.listAddr r.size st).mem []
      (beginDisplayList r.listAddr r.size st) := by
    refine ⟨?_, hbegun.cpuFifo, rfl, ?_⟩
    · rw [hbegun.dl, beginDisplayListRecording]
      have hbase : (r.listAddr != 0) = true := bne_iff_ne.mpr hopen.base_ne_zero
      have hnonzero : (r.size != 0) = true := bne_iff_ne.mpr hsize
      rw [hbase, hnonzero]
      simp
    · rw [hbegun.listBytes]
      exact fun a ha => absurd ha List.not_mem_nil
  have hrecorded := hstart.foldl_apply processor hopen r.writes
    (by rw [List.length_nil, Nat.zero_add]; exact hfits)
  rw [List.nil_append] at hrecorded
  have hbegin : Ready (beginDisplayList r.listAddr r.size st).mem :=
    hready.of_touches hbegun.touches
  have hwritten := hplaced.ready hbegin hfits
  rw [Recording.bytes, ← hrecorded.mem] at hwritten
  obtain ⟨hresult, htouches, hlistBytes⟩ := endDisplayList_of_active hwritten hrecorded.cpuFifo
    (by rw [hrecorded.dl])
  refine ⟨⟨?_, fun _ => ⟨?_, ?_⟩, fun hover => absurd hfits (by omega)⟩,
    hwritten.of_touches htouches⟩
  · rw [Recording.run, hlistBytes]
    exact hrecorded.inside
  · have hkeeps : load (r.run processor st).2.mem r.listAddr r.bytes.length =
        load (store (beginDisplayList r.listAddr r.size st).mem r.listAddr r.bytes) r.listAddr
          r.bytes.length := by
      apply load_congr (by omega)
      intro a ha
      have hin : a ∈ range r.listAddr r.size.toNat := lt_of_lt_of_le ha hfits
      exact (htouches a (hplaced.apart a hin).1).trans (congrFun hrecorded.mem a)
    rw [hkeeps, load_store_self (by omega)]
  · rw [Recording.run, hresult, hrecorded.dl]
    exact Nat.mod_eq_of_lt (by rw [Recording.bytes] at hfits; omega)

theorem exact_run_of_size_eq_zero (hprocessor : processor.Leaves) (hready : Ready st.mem)
    (hsize : r.size = 0) :
    Exact r (r.run processor st).1 (r.run processor st).2 ∧ Ready (r.run processor st).2.mem := by
  have hbegun := begun_beginDisplayList hready r.listAddr r.size
  have hstart : Idle (beginDisplayList r.listAddr r.size st).mem
      (beginDisplayList r.listAddr r.size st) := by
    refine ⟨?_, hbegun.cpuFifo, fun _ _ => rfl, hbegun.listBytes⟩
    rw [hbegun.dl, hsize, beginDisplayListRecording]
    exact Bool.and_false _
  have hidle := hstart.foldl_apply hprocessor r.writes
  have hwritten := hidle.ready (hready.of_touches hbegun.touches)
  obtain ⟨hresult, htouches, hlistBytes⟩ := endDisplayList_of_inactive hwritten hidle.cpuFifo
    hidle.inactive
  have hzero : (r.run processor st).1 = 0 := by
    rw [Recording.run, hresult, hidle.count, hbegun.count]
  have hsizeNat : r.size.toNat = 0 := by rw [hsize]; rfl
  refine ⟨⟨?_, fun hle => ?_, fun _ => hzero⟩, hwritten.of_touches htouches⟩
  · rw [Recording.run, hlistBytes, hidle.listBytes]
    exact fun a ha => absurd ha List.not_mem_nil
  · have hnil : r.bytes = [] := List.length_eq_zero_iff.mp (by omega)
    rw [hzero, hnil]
    exact ⟨rfl, rfl⟩

end

/-- In every sequence of recordings that all fit in their lists, each stays inside of its
list, leaves exactly what was recorded there, and gives back its length. -/
theorem runRecordings_exact {processor : Processor π} (hprocessor : processor.Leaves)
    {st : GxState π} (hready : Ready st.mem) {rs : List Recording}
    (hplaced : ∀ r ∈ rs, Placed r) (hfits : ∀ r ∈ rs, Fits r) :
    ∀ o ∈ runRecordings processor rs st, Exact o.1 o.2.1 o.2.2 := by
  induction rs generalizing st with
  | nil => exact fun o ho => absurd ho List.not_mem_nil
  | cons r rs ih =>
      have hstep : Exact r (r.run processor st).1 (r.run processor st).2 ∧
          Ready (r.run processor st).2.mem := by
        by_cases hsize : r.size = 0
        · exact exact_run_of_size_eq_zero hprocessor hready hsize
        · have hr := (hfits r List.mem_cons_self).resolve_left hsize
          exact exact_run_of_size_ne_zero hready (hplaced r List.mem_cons_self) hsize hr
      intro o ho
      rw [runRecordings, List.mem_cons] at ho
      rcases ho with rfl | ho
      · exact hstep.1
      · exact ih hstep.2 (fun r hr => hplaced r (List.mem_cons_of_mem _ hr))
          (fun r hr => hfits r (List.mem_cons_of_mem _ hr)) o ho

/-! ## Two recordings -/

/-- A command processor that does nothing. -/
def noProcessor : Processor Unit := fun _ p mem => (p, mem)

def initializedState : GxState Unit where
  dl := ⟨0, 0, 0, 0, false⟩
  cpuFifo := 0x80343740
  processor := ()
  mem := write32 (fun _ => 0) kGXDataPtrAddr kGXDataAddr
  listBytes := []

theorem ready_initializedState : Ready initializedState.mem :=
  ⟨read32_write32, by decide +kernel⟩

/-- A recording in the second bank of memory. -/
def recordingAt (size : BitVec 32) (writes : List FifoWrite) : Recording :=
  ⟨0x90000000, size, writes⟩

theorem placed_recordingAt {size : BitVec 32} {writes : List FifoWrite}
    (hsize : size.toNat < 0x10000000) : Placed (recordingAt size writes) := by
  have hbase : (recordingAt size writes).listAddr.toNat = 0x90000000 := rfl
  have hlength : (recordingAt size writes).size.toNat = size.toNat := rfl
  have hflag : wrapFlagAddr.toNat = 0x803440B0 := rfl
  have hpointer : kGXDataPtrAddr.toNat = 0x803886C8 := rfl
  have hnotNull : (recordingAt size writes).listAddr ≠ 0 := by
    intro hzero
    rw [hzero] at hbase
    exact absurd hbase (by decide)
  refine ⟨fun _ => hnotNull, by omega, fun a ha => ?_⟩
  rw [mem_range_iff, BitVec.toNat_sub] at ha
  refine ⟨fun hobject => ?_, fun heq => ?_, fun hmem => ?_⟩
  · rcases hobject with h | h | h <;> omega
  · rw [heq] at ha
    omega
  · rw [mem_range_iff, BitVec.toNat_sub] at hmem
    omega

theorem runRecordings_seven :
    ¬ ∃ o ∈ runRecordings noProcessor
      [recordingAt 8 [.write8 1, .write32 2, .writeBurst [3, 4]],
        recordingAt 2 [.write16 5]] initializedState, ¬ Exact o.1 o.2.1 o.2.2 := by
  rintro ⟨o, ho, hne⟩
  refine hne (runRecordings_exact (fun _ _ _ _ _ => rfl) ready_initializedState ?_ ?_ o ho)
  · intro r hr
    simp only [List.mem_cons, List.not_mem_nil, or_false] at hr
    rcases hr with rfl | rfl
    · exact placed_recordingAt (by decide)
    · exact placed_recordingAt (by decide)
  · intro r hr
    simp only [List.mem_cons, List.not_mem_nil, or_false] at hr
    rcases hr with rfl | rfl
    · exact .inr (by decide)
    · exact .inr (by decide)

/-- A byte and a word on a list of four bytes: the word is stored across the end. -/
theorem not_exact_of_overflow :
    ¬ ∀ o ∈ runRecordings noProcessor [recordingAt 4 [.write8 1, .write32 2]] initializedState,
      Exact o.1 o.2.1 o.2.2 := by
  intro hexact
  have hinside := (hexact _ List.mem_cons_self).inside 0x90000004 (by decide +kernel)
  rw [mem_range_iff] at hinside
  exact absurd hinside (by decide)

end Wiicompiled.Gx
