import Wiicompiled.Runtime.OsMessage
import Wiicompiled.Support.CircularQueue

/-!
# The messages of a queue

A queue whose header is in memory, apart from its array, holds a list of messages:
the entries of a circular queue whose slots are the words of the array.  A word of the
array that is outside of memory cannot be written, so it never holds a message.
-/

namespace Wiicompiled.Runtime

open FlatMemory OsMessage

/-! ## Placed queues -/

/-- The words of the header that say what the queue holds. -/
inductive QueueField where
  | array
  | count
  | first
  | used
deriving DecidableEq

def QueueField.offset : QueueField → BitVec 32
  | .array => msgQueueArrayOffset
  | .count => msgQueueCountOffset
  | .first => msgQueueFirstOffset
  | .used => msgQueueUsedOffset

/-- A queue as the guest lays it out: the header is in memory, and the words of the
array that are in memory are apart from it and from each other.  The array fits into
the address space. -/
structure MessageQueue (regions : List Region) where
  queuePtr : BitVec 32
  msgArrayPtr : BitVec 32
  msgCount : ℕ
  queuePtr_ne : queuePtr ≠ 0#32
  pos : 0 < msgCount
  fits : msgCount ≤ 2 ^ 30
  cell : QueueField → BitVec 64
  cell_eq : ∀ field, ramPointer regions (queuePtr + field.offset) = some (cell field)
  cells_apart : ∀ field field', field ≠ field' → Apart (cell field) (cell field')
  slot_not_fifo : ∀ i < msgCount,
    isGpuFifoAddress (msgArrayPtr + BitVec.ofNat 32 i * 4#32) = false
  slot_apart_cell : ∀ i < msgCount, ∀ pointer,
    ramPointer regions (msgArrayPtr + BitVec.ofNat 32 i * 4#32) = some pointer →
      ∀ field, Apart pointer (cell field)
  slots_apart : ∀ i < msgCount, ∀ j < msgCount, i ≠ j → ∀ pointer pointer',
    ramPointer regions (msgArrayPtr + BitVec.ofNat 32 i * 4#32) = some pointer →
      ramPointer regions (msgArrayPtr + BitVec.ofNat 32 j * 4#32) = some pointer' →
        Apart pointer pointer'

namespace MessageQueue

variable {regions : List Region} (queue : MessageQueue regions)

/-- The host address of a slot of the array. -/
def slotPointer (i : ℕ) : Option (BitVec 64) :=
  ramPointer regions (queue.msgArrayPtr + BitVec.ofNat 32 i * 4#32)

def slot (host : HostMemory) (i : ℕ) : BitVec 32 :=
  ((queue.slotPointer i).map (loadWord host)).getD 0#32

/-- A word of the header. -/
def field (host : HostMemory) (name : QueueField) : BitVec 32 :=
  loadWord host (queue.cell name)

/-- The slot of the first message. -/
def first (host : HostMemory) : ℕ :=
  (queue.field host .first).toNat

/-- The number of messages. -/
def used (host : HostMemory) : ℕ :=
  (queue.field host .used).toNat

/-- The slot of message `i`. -/
def place (host : HostMemory) (i : ℕ) : ℕ :=
  CircularQueue.place queue.msgCount (queue.first host) i

/-- The bytes that say what the queue holds, without its first `skipped` messages. -/
def contents (host : HostMemory) (skipped : ℕ) : Set (BitVec 64) :=
  {x | (∃ name, x ∈ range (queue.cell name) 4) ∨
    ∃ i, skipped ≤ i ∧ i < queue.used host ∧
      ∃ pointer, queue.slotPointer (queue.place host i) = some pointer ∧
        x ∈ range pointer 4}

/-- A change of memory leaves what the queue holds. -/
def Keeps (host host' : HostMemory) : Prop :=
  ∀ x ∈ queue.contents host 0, host' x = host x

/-- The queue holds these messages, the first one first. -/
structure Holds (host : HostMemory) (messages : List (BitVec 32)) : Prop where
  array : queue.field host .array = queue.msgArrayPtr
  count : queue.field host .count = BitVec.ofNat 32 queue.msgCount
  first_lt : queue.first host < queue.msgCount
  used_le : queue.used host ≤ queue.msgCount
  mapped : ∀ i < queue.used host, queue.slotPointer (queue.place host i) ≠ none
  entries : CircularQueue.entries (queue.slot host) queue.msgCount (queue.first host)
    (queue.used host) = messages

variable {queue} {host host' : HostMemory} {messages : List (BitVec 32)}

theorem Holds.length (h : queue.Holds host messages) :
    messages.length = queue.used host := by
  rw [← h.entries, CircularQueue.length_entries]

theorem Holds.length_le (h : queue.Holds host messages) :
    messages.length ≤ queue.msgCount :=
  h.length ▸ h.used_le

theorem slot_of_some {i : ℕ} {pointer : BitVec 64}
    (h : queue.slotPointer i = some pointer) :
    queue.slot host i = loadWord host pointer := by
  rw [slot, h, Option.map_some, Option.getD_some]

/-- The message in a slot depends on the bytes of the slot only. -/
theorem slot_congr {i : ℕ}
    (h : ∀ pointer, queue.slotPointer i = some pointer →
      loadWord host' pointer = loadWord host pointer) :
    queue.slot host' i = queue.slot host i := by
  cases hpointer : queue.slotPointer i with
  | none => rw [slot, slot, hpointer, Option.map_none, Option.map_none]
  | some pointer => rw [slot_of_some hpointer, slot_of_some hpointer, h pointer hpointer]

/-! ## Changes elsewhere -/

/-- The messages from `skipped` on depend on the bytes of `contents` only. -/
theorem slot_place_congr {i skipped : ℕ}
    (h : ∀ x ∈ queue.contents host skipped, host' x = host x)
    (hskipped : skipped ≤ i) (hi : i < queue.used host) :
    queue.slot host' (queue.place host i) = queue.slot host (queue.place host i) :=
  slot_congr fun pointer hpointer =>
    loadWord_congr fun x hx => h x (Or.inr ⟨i, hskipped, hi, pointer, hpointer, hx⟩)

theorem field_congr {skipped : ℕ}
    (h : ∀ x ∈ queue.contents host skipped, host' x = host x) (name : QueueField) :
    queue.field host' name = queue.field host name :=
  loadWord_congr fun x hx => h x (Or.inl ⟨name, hx⟩)

theorem Holds.of_keeps (h : queue.Holds host messages) (hkeeps : queue.Keeps host host') :
    queue.Holds host' messages := by
  have hfield := field_congr hkeeps
  have hfirst : queue.first host' = queue.first host := by rw [first, hfield, first]
  have hused : queue.used host' = queue.used host := by rw [used, hfield, used]
  have hplace : queue.place host' = queue.place host := by
    funext i
    rw [place, hfirst, place]
  constructor
  · rw [hfield, h.array]
  · rw [hfield, h.count]
  · rw [hfirst]
    exact h.first_lt
  · rw [hused]
    exact h.used_le
  · rw [hused, hplace]
    exact h.mapped
  · rw [hfirst, hused, ← h.entries]
    exact CircularQueue.entries_congr fun i hi =>
      slot_place_congr hkeeps (Nat.zero_le i) hi

/-! ## Accesses to the header -/

theorem read32_field (name : QueueField) :
    read32 regions (queue.queuePtr + name.offset) host = .ok (queue.field host name) host :=
  read32_of_ramPointer (queue.cell_eq name)

theorem read32_array :
    read32 regions (queue.queuePtr + msgQueueArrayOffset) host =
      .ok (queue.field host .array) host :=
  read32_field .array

theorem read32_count :
    read32 regions (queue.queuePtr + msgQueueCountOffset) host =
      .ok (queue.field host .count) host :=
  read32_field .count

theorem read32_first :
    read32 regions (queue.queuePtr + msgQueueFirstOffset) host =
      .ok (queue.field host .first) host :=
  read32_field .first

theorem read32_used :
    read32 regions (queue.queuePtr + msgQueueUsedOffset) host =
      .ok (queue.field host .used) host :=
  read32_field .used

/-- Put a word of the header. -/
def setField (queue : MessageQueue regions) (name : QueueField) (value : BitVec 32)
    (host : HostMemory) : HostMemory :=
  storeWord host (queue.cell name) value

theorem write32_field (name : QueueField) (value : BitVec 32) :
    write32 regions (queue.queuePtr + name.offset) value host =
      .ok () (queue.setField name value host) :=
  write32_of_ramPointer (queue.cell_eq name)

theorem write32_first (value : BitVec 32) :
    write32 regions (queue.queuePtr + msgQueueFirstOffset) value host =
      .ok () (queue.setField .first value host) :=
  write32_field .first value

theorem write32_used (value : BitVec 32) :
    write32 regions (queue.queuePtr + msgQueueUsedOffset) value host =
      .ok () (queue.setField .used value host) :=
  write32_field .used value

@[simp]
theorem field_setField (name : QueueField) (value : BitVec 32) :
    queue.field (queue.setField name value host) name = value :=
  loadWord_storeWord

theorem field_setField_of_ne {name name' : QueueField} (hne : name' ≠ name)
    (value : BitVec 32) :
    queue.field (queue.setField name value host) name' = queue.field host name' :=
  loadWord_storeWord_of_apart (queue.cells_apart name' name hne)

theorem slot_setField {i : ℕ} (hi : i < queue.msgCount) (name : QueueField)
    (value : BitVec 32) :
    queue.slot (queue.setField name value host) i = queue.slot host i :=
  slot_congr fun pointer hpointer =>
    loadWord_storeWord_of_apart (queue.slot_apart_cell i hi pointer hpointer name)

/-! ## Accesses to the slots -/

/-- A slot of the array in memory, with its host address. -/
structure SlotAt (queue : MessageQueue regions) (i : ℕ) (pointer : BitVec 64) : Prop where
  lt : i < queue.msgCount
  eq : queue.slotPointer i = some pointer

variable {i j : ℕ} {pointer : BitVec 64} {value : BitVec 32}

theorem SlotAt.read32 (h : queue.SlotAt i pointer) :
    Runtime.read32 regions (queue.msgArrayPtr + BitVec.ofNat 32 i * 4#32) host =
      .ok (queue.slot host i) host := by
  rw [read32_of_ramPointer h.eq, slot_of_some h.eq]

theorem SlotAt.write32 (h : queue.SlotAt i pointer) :
    Runtime.write32 regions (queue.msgArrayPtr + BitVec.ofNat 32 i * 4#32) value host =
      .ok () (storeWord host pointer value) :=
  write32_of_ramPointer h.eq

theorem SlotAt.field_storeWord (h : queue.SlotAt i pointer) (name : QueueField) :
    queue.field (storeWord host pointer value) name = queue.field host name :=
  loadWord_storeWord_of_apart (queue.slot_apart_cell i h.lt pointer h.eq name).symm

theorem SlotAt.slot_storeWord (h : queue.SlotAt i pointer) :
    queue.slot (storeWord host pointer value) i = value := by
  rw [slot_of_some h.eq, loadWord_storeWord]

theorem SlotAt.slot_storeWord_of_ne (h : queue.SlotAt i pointer) (hj : j < queue.msgCount)
    (hne : j ≠ i) :
    queue.slot (storeWord host pointer value) j = queue.slot host j :=
  slot_congr fun pointer' hpointer =>
    loadWord_storeWord_of_apart
      (queue.slots_apart j hj i h.lt hne pointer' pointer hpointer h.eq)

theorem write32_slot_of_none (hi : i < queue.msgCount) (hnone : queue.slotPointer i = none) :
    ∃ violation, Runtime.write32 regions (queue.msgArrayPtr + BitVec.ofNat 32 i * 4#32)
      value host = .error violation host :=
  write32_of_ramPointer_none (queue.slot_not_fifo i hi) hnone

/-! ## The circular buffer -/

theorem Holds.count_ne_zero (h : queue.Holds host messages) :
    queue.field host .count ≠ 0#32 := by
  have hpos := queue.pos
  have hfits := queue.fits
  rw [h.count]
  bv_omega

theorem Holds.isFull (h : queue.Holds host messages) :
    msgQueueIsFull regions queue.queuePtr host =
      .ok (decide (queue.msgCount ≤ messages.length)) host := by
  have hle : queue.field host .count ≤ queue.field host .used ↔
      queue.msgCount ≤ messages.length := by
    have hfits := queue.fits
    rw [h.count, h.length, used]
    bv_omega
  rw [msgQueueIsFull, bind_of_ok read32_used, bind_of_ok read32_count]
  simp [pure, EStateM.pure, h.count_ne_zero, hle]

theorem Holds.isEmpty (h : queue.Holds host messages) :
    msgQueueIsEmpty regions queue.queuePtr host =
      .ok (decide (messages.length = 0)) host := by
  have hzero : queue.field host .used = 0#32 ↔ messages.length = 0 := by
    rw [h.length, used]
    bv_omega
  rw [msgQueueIsEmpty, bind_of_ok read32_used]
  simp only [pure, EStateM.pure]
  congr 1
  rw [Bool.eq_iff_iff, beq_iff_eq, hzero, decide_eq_true_eq]

theorem Holds.index_eq (h : queue.Holds host messages)
    (hroom : messages.length < queue.msgCount) :
    (queue.field host .first + queue.field host .used) % queue.field host .count =
      BitVec.ofNat 32 (queue.place host (queue.used host)) := by
  have hfits := queue.fits
  have hfirst := h.first_lt
  rw [h.length] at hroom
  have hindex : (queue.first host + queue.used host) % queue.msgCount < queue.msgCount :=
    Nat.mod_lt _ queue.pos
  have hsum : queue.first host + queue.used host < 2 ^ 32 := by omega
  have hcount : queue.msgCount < 2 ^ 32 := by omega
  apply BitVec.eq_of_toNat_eq
  calc
    ((queue.field host .first + queue.field host .used) % queue.field host .count).toNat
      = (queue.first host + queue.used host) % 2 ^ 32 % (queue.msgCount % 2 ^ 32) := by
        rw [BitVec.toNat_umod, BitVec.toNat_add, h.count, BitVec.toNat_ofNat, first, used]
    _ = (queue.first host + queue.used host) % queue.msgCount := by
        rw [Nat.mod_eq_of_lt hsum, Nat.mod_eq_of_lt hcount]
    _ = (BitVec.ofNat 32 (queue.place host (queue.used host))).toNat := by
        rw [place, CircularQueue.place, BitVec.toNat_ofNat,
          Nat.mod_eq_of_lt (hindex.trans hcount)]

theorem Holds.of_header {host host' : HostMemory} {messages messages' : List (BitVec 32)}
    {first' used' : ℕ} (h : queue.Holds host messages)
    (harray : queue.field host' .array = queue.field host .array)
    (hcount : queue.field host' .count = queue.field host .count)
    (hfirst : queue.first host' = first') (hfirst_lt : first' < queue.msgCount)
    (hused : queue.used host' = used') (hused_le : used' ≤ queue.msgCount)
    (hmapped : ∀ i < used',
      queue.slotPointer (CircularQueue.place queue.msgCount first' i) ≠ none)
    (hentries : CircularQueue.entries (queue.slot host') queue.msgCount first' used' =
      messages') :
    queue.Holds host' messages' := by
  subst hfirst hused
  exact ⟨harray.trans h.array, hcount.trans h.count, hfirst_lt, hused_le, hmapped, hentries⟩

theorem Holds.toNat_used_add_one (h : queue.Holds host messages)
    (hroom : messages.length < queue.msgCount) :
    (queue.field host .used + 1#32).toNat = queue.used host + 1 := by
  have hfits := queue.fits
  rw [h.length, used] at hroom
  rw [used]
  bv_omega

/-- A message is appended, or the queue is left as it is when its slot is outside of
memory. -/
theorem Holds.enqueue (h : queue.Holds host messages)
    (hroom : messages.length < queue.msgCount) (msg : BitVec 32) :
    (queue.slotPointer (queue.place host (queue.used host)) = none ∧
      ∃ violation, msgQueueEnqueue regions queue.queuePtr msg host = .error violation host) ∨
      ∃ host', msgQueueEnqueue regions queue.queuePtr msg host = .ok () host' ∧
        queue.Holds host' (messages ++ [msg]) := by
  have hplace : queue.place host (queue.used host) < queue.msgCount :=
    CircularQueue.place_lt queue.pos
  rw [msgQueueEnqueue, bind_of_ok read32_array, bind_of_ok read32_count,
    bind_of_ok read32_first, bind_of_ok read32_used, if_neg h.count_ne_zero, h.array]
  simp only [h.index_eq hroom]
  cases hpointer : queue.slotPointer (queue.place host (queue.used host)) with
  | none =>
      obtain ⟨violation, hwrite⟩ := write32_slot_of_none hplace hpointer
      exact Or.inl ⟨rfl, violation, bind_of_error hwrite⟩
  | some pointer =>
      have hslot : queue.SlotAt (queue.place host (queue.used host)) pointer :=
        ⟨hplace, hpointer⟩
      refine Or.inr ⟨_, (bind_of_ok hslot.write32).trans (write32_used _), ?_⟩
      rw [h.length] at hroom
      refine h.of_header ?_ ?_ ?_ h.first_lt ?_ (Nat.succ_le_of_lt hroom) ?_ ?_
      · rw [field_setField_of_ne (by decide), hslot.field_storeWord]
      · rw [field_setField_of_ne (by decide), hslot.field_storeWord]
      · rw [first, field_setField_of_ne (by decide), hslot.field_storeWord, first]
      · rw [used, field_setField, h.toNat_used_add_one (h.length ▸ hroom)]
      · intro i hi
        rcases Nat.lt_succ_iff_lt_or_eq.mp hi with hi | rfl
        · exact h.mapped i hi
        · rw [← place, hpointer]
          simp
      · rw [← h.entries]
        apply CircularQueue.entries_append
        · rw [slot_setField (CircularQueue.place_lt queue.pos)]
          exact hslot.slot_storeWord
        · intro i hi
          rw [slot_setField (CircularQueue.place_lt queue.pos)]
          refine hslot.slot_storeWord_of_ne (CircularQueue.place_lt queue.pos) fun heq => ?_
          have hsame := CircularQueue.place_injective h.first_lt (hi.trans hroom) hroom heq
          omega

theorem Holds.previous_eq (h : queue.Holds host messages) :
    (if queue.field host .first = 0#32 then queue.field host .count - 1#32
      else queue.field host .first - 1#32) =
      BitVec.ofNat 32 (CircularQueue.previous queue.msgCount (queue.first host)) := by
  have hfits := queue.fits
  have hpos := queue.pos
  have hfirst := h.first_lt
  have hzero : queue.field host .first = 0#32 ↔ queue.first host = 0 := by
    rw [first]
    bv_omega
  rw [CircularQueue.previous, h.count]
  split_ifs with hcode hmodel hmodel
  · bv_omega
  · exact absurd (hzero.mp hcode) hmodel
  · exact absurd (hzero.mpr hmodel) hcode
  · rw [first] at hfirst hmodel ⊢
    bv_omega

/-- A message is prepended, or the queue is left as it is when its slot is outside of
memory. -/
theorem Holds.jam (h : queue.Holds host messages)
    (hroom : messages.length < queue.msgCount) (msg : BitVec 32) :
    (∃ violation, msgQueueJam regions queue.queuePtr msg host = .error violation host) ∨
      ∃ host', msgQueueJam regions queue.queuePtr msg host = .ok () host' ∧
        queue.Holds host' (msg :: messages) := by
  have hprevious := CircularQueue.previous_lt h.first_lt
  have hfits := queue.fits
  rw [msgQueueJam, bind_of_ok read32_array, bind_of_ok read32_count,
    bind_of_ok read32_first, bind_of_ok read32_used, if_neg h.count_ne_zero, h.array]
  simp only [h.previous_eq]
  cases hpointer : queue.slotPointer (CircularQueue.previous queue.msgCount (queue.first host))
    with
  | none =>
      obtain ⟨violation, hwrite⟩ := write32_slot_of_none hprevious hpointer
      exact Or.inl ⟨violation, bind_of_error hwrite⟩
  | some pointer =>
      have hslot : queue.SlotAt (CircularQueue.previous queue.msgCount (queue.first host))
          pointer := ⟨hprevious, hpointer⟩
      refine Or.inr ⟨_, (bind_of_ok hslot.write32).trans
        ((bind_of_ok (write32_first _)).trans (write32_used _)), ?_⟩
      rw [h.length] at hroom
      refine h.of_header ?_ ?_ ?_ hprevious ?_ (Nat.succ_le_of_lt hroom) ?_ ?_
      · rw [field_setField_of_ne (by decide), field_setField_of_ne (by decide),
          hslot.field_storeWord]
      · rw [field_setField_of_ne (by decide), field_setField_of_ne (by decide),
          hslot.field_storeWord]
      · rw [first, field_setField_of_ne (by decide), field_setField, BitVec.toNat_ofNat,
          Nat.mod_eq_of_lt (by omega)]
      · rw [used, field_setField, h.toNat_used_add_one (h.length ▸ hroom)]
      · intro i hi
        cases i with
        | zero =>
            rw [CircularQueue.place_zero hprevious, hpointer]
            simp
        | succ i =>
            rw [CircularQueue.place_previous h.first_lt (by omega)]
            exact h.mapped i (by omega)
      · rw [← h.entries]
        apply CircularQueue.entries_jam h.first_lt hroom
        · rw [slot_setField hprevious, slot_setField hprevious]
          exact hslot.slot_storeWord
        · intro i hi
          have hlt : CircularQueue.place queue.msgCount (queue.first host) i <
              queue.msgCount := CircularQueue.place_lt queue.pos
          rw [slot_setField hlt, slot_setField hlt]
          refine hslot.slot_storeWord_of_ne hlt fun heq => ?_
          -- the slot before the first one is place zero of the new queue
          have hsame := CircularQueue.place_injective hprevious (by omega) queue.pos
            (((CircularQueue.place_previous h.first_lt (hi.trans hroom)).trans heq).trans
              (CircularQueue.place_zero hprevious).symm)
          omega

theorem Holds.next_eq (h : queue.Holds host messages) :
    (queue.field host .first + 1#32) % queue.field host .count =
      BitVec.ofNat 32 (CircularQueue.next queue.msgCount (queue.first host)) := by
  have hfits := queue.fits
  have hfirst := h.first_lt
  have hnext : CircularQueue.next queue.msgCount (queue.first host) < queue.msgCount :=
    CircularQueue.next_lt queue.pos
  have hsum : queue.first host + 1 < 2 ^ 32 := by omega
  have hcount : queue.msgCount < 2 ^ 32 := by omega
  apply BitVec.eq_of_toNat_eq
  calc
    ((queue.field host .first + 1#32) % queue.field host .count).toNat
      = (queue.first host + 1) % 2 ^ 32 % (queue.msgCount % 2 ^ 32) := by
        rw [BitVec.toNat_umod, BitVec.toNat_add, h.count, BitVec.toNat_ofNat, first]
        rfl
    _ = CircularQueue.next queue.msgCount (queue.first host) := by
        rw [Nat.mod_eq_of_lt hsum, Nat.mod_eq_of_lt hcount, CircularQueue.next]
    _ = (BitVec.ofNat 32 (CircularQueue.next queue.msgCount (queue.first host))).toNat := by
        rw [BitVec.toNat_ofNat, Nat.mod_eq_of_lt (hnext.trans hcount)]

theorem Holds.dequeue {msg : BitVec 32} (h : queue.Holds host (msg :: messages)) :
    ∃ host', msgQueueDequeue regions queue.queuePtr host = .ok msg host' ∧
      queue.Holds host' messages ∧ queue.contents host' 0 = queue.contents host 1 := by
  have hlength := h.length
  have hle := h.used_le
  have hnext : CircularQueue.next queue.msgCount (queue.first host) < queue.msgCount :=
    CircularQueue.next_lt queue.pos
  have hfits := queue.fits
  rw [List.length_cons] at hlength
  have hused : queue.field host .used ≠ 0#32 := by
    rw [used] at hlength
    bv_omega
  obtain ⟨pointer, hpointer⟩ := Option.ne_none_iff_exists'.mp (h.mapped 0 (by omega))
  rw [place, CircularQueue.place_zero h.first_lt] at hpointer
  have hslot : queue.SlotAt (queue.first host) pointer := ⟨h.first_lt, hpointer⟩
  have hentries := h.entries
  rw [← hlength, CircularQueue.entries_succ h.first_lt, List.cons.injEq] at hentries
  let host₁ := queue.setField .first ((queue.field host .first + 1#32) %
    queue.field host .count) host
  let host₂ := queue.setField .used (queue.field host .used - 1#32) host₁
  have hfirst' : queue.first host₂ = CircularQueue.next queue.msgCount (queue.first host) := by
    rw [first, field_setField_of_ne (by decide), field_setField, h.next_eq,
      BitVec.toNat_ofNat, Nat.mod_eq_of_lt (by omega)]
  have hused' : queue.used host₂ = messages.length := by
    rw [used, field_setField]
    rw [used] at hlength
    bv_omega
  have hplace : ∀ i, queue.place host₂ i = queue.place host (i + 1) := by
    intro i
    rw [place, hfirst', CircularQueue.place_next, place]
  have hrun : msgQueueDequeue regions queue.queuePtr host = .ok msg host₂ := by
    have haddress : queue.field host .first = BitVec.ofNat 32 (queue.first host) := by
      rw [first, BitVec.ofNat_toNat, BitVec.setWidth_eq]
    have hread : read32 regions
        (queue.msgArrayPtr + BitVec.ofNat 32 (queue.first host) * 4#32) host =
          .ok (queue.slot host (queue.first host)) host := hslot.read32
    rw [← haddress, hentries.1] at hread
    rw [msgQueueDequeue, bind_of_ok read32_array, bind_of_ok read32_count,
      bind_of_ok read32_first, bind_of_ok read32_used,
      if_neg (not_or.mpr ⟨h.count_ne_zero, hused⟩), h.array, bind_of_ok hread,
      bind_of_ok (write32_first _), bind_of_ok (write32_used _)]
    rfl
  refine ⟨host₂, hrun, h.of_header ?_ ?_ hfirst' hnext hused' (by omega) ?_ ?_, ?_⟩
  · rw [field_setField_of_ne (by decide), field_setField_of_ne (by decide)]
  · rw [field_setField_of_ne (by decide), field_setField_of_ne (by decide)]
  · intro i hi
    rw [CircularQueue.place_next]
    exact h.mapped (i + 1) (by omega)
  · refine (CircularQueue.entries_congr ?_).trans hentries.2
    intro i hi
    have hlt : CircularQueue.place queue.msgCount
        (CircularQueue.next queue.msgCount (queue.first host)) i < queue.msgCount :=
      CircularQueue.place_lt queue.pos
    rw [slot_setField hlt, slot_setField hlt]
  · -- message `i` of the rest is message `i + 1` of the queue
    ext x
    simp only [contents, Set.mem_setOf_eq, hused', hplace, ← hlength]
    refine or_congr Iff.rfl ⟨?_, ?_⟩
    · rintro ⟨i, -, hi, hx⟩
      exact ⟨i + 1, by omega, by omega, hx⟩
    · rintro ⟨i, hpos, hi, hx⟩
      obtain ⟨i, rfl⟩ := Nat.exists_eq_add_of_le' hpos
      exact ⟨i, Nat.zero_le i, by omega, hx⟩

/-- A new queue is empty, when its wait queues are in memory too. -/
theorem holds_initMessageQueue
    (hwait : ∀ start word, start = msgQueueSendOffset ∨ start = msgQueueRecvOffset →
      word = 0#32 ∨ word = 4#32 →
        ramPointer regions (queue.queuePtr + start + word) ≠ none) :
    ∃ host', initMessageQueue regions queue.queuePtr queue.msgArrayPtr
        (BitVec.ofNat 32 queue.msgCount) host = .ok () host' ∧ queue.Holds host' [] := by
  have hwrite : ∀ start word host, start = msgQueueSendOffset ∨ start = msgQueueRecvOffset →
      word = 0#32 ∨ word = 4#32 → ∃ host',
        write32 regions (queue.queuePtr + start + word) 0#32 host = .ok () host' := by
    intro start word host hstart hword
    obtain ⟨pointer, hpointer⟩ := Option.ne_none_iff_exists'.mp (hwait start word hstart hword)
    exact ⟨_, write32_of_ramPointer hpointer⟩
  obtain ⟨host₁, h₁⟩ := hwrite msgQueueSendOffset 0#32 host (Or.inl rfl) (Or.inl rfl)
  obtain ⟨host₂, h₂⟩ := hwrite msgQueueSendOffset 4#32 host₁ (Or.inl rfl) (Or.inr rfl)
  obtain ⟨host₃, h₃⟩ := hwrite msgQueueRecvOffset 0#32 host₂ (Or.inr rfl) (Or.inl rfl)
  obtain ⟨host₄, h₄⟩ := hwrite msgQueueRecvOffset 4#32 host₃ (Or.inr rfl) (Or.inr rfl)
  let count := BitVec.ofNat 32 queue.msgCount
  let host₅ := queue.setField .used 0#32 (queue.setField .first 0#32
    (queue.setField .count count (queue.setField .array queue.msgArrayPtr host₄)))
  have hused : queue.used host₅ = 0 := by
    rw [used, field_setField, BitVec.toNat_ofNat, Nat.zero_mod]
  have hfirst : queue.first host₅ = 0 := by
    rw [first, field_setField_of_ne (by decide), field_setField, BitVec.toNat_ofNat,
      Nat.zero_mod]
  refine ⟨host₅, ?_, ?_, ?_, ?_, ?_, ?_, ?_⟩
  · rw [initMessageQueue, if_neg queue.queuePtr_ne]
    refine tryCatch_of_ok ?_
    rw [bind_of_ok h₁, bind_of_ok h₂, bind_of_ok h₃, bind_of_ok h₄]
    exact (bind_of_ok (write32_field .array _)).trans ((bind_of_ok (write32_field .count _)).trans
      ((bind_of_ok (write32_field .first _)).trans (write32_field .used _)))
  · rw [field_setField_of_ne (by decide), field_setField_of_ne (by decide),
      field_setField_of_ne (by decide), field_setField]
  · rw [field_setField_of_ne (by decide), field_setField_of_ne (by decide), field_setField]
  · rw [hfirst]
    exact queue.pos
  · rw [hused]
    exact Nat.zero_le _
  · intro i hi
    rw [hused] at hi
    exact absurd hi (Nat.not_lt_zero i)
  · rw [hused, CircularQueue.entries_zero]

end MessageQueue

end Wiicompiled.Runtime
