import Mathlib.Data.BitVec
import Mathlib.Tactic.Ring

/-!
# Images of bytes

Lists of bytes that are changed in place: windows, the replacement of a window,
numbers kept as bytes with the most significant byte first, and checked accesses
to words.
-/

namespace ByteImage

/-! ## Windows -/

section Window

variable {α : Type*} {image bytes : List α} {offset width i : ℕ}

/-- The `width` entries from `offset` on. -/
def window (image : List α) (offset width : ℕ) : List α :=
  (image.drop offset).take width

/-- The image with `bytes` in the place of the entries from `offset` on. -/
def splice (image : List α) (offset : ℕ) (bytes : List α) : List α :=
  image.take offset ++ (bytes ++ image.drop (offset + bytes.length))

@[simp]
theorem length_window (h : offset + width ≤ image.length) :
    (window image offset width).length = width := by
  simp only [window, List.length_take, List.length_drop]
  omega

@[simp]
theorem length_splice (h : offset + bytes.length ≤ image.length) :
    (splice image offset bytes).length = image.length := by
  simp only [splice, List.length_append, List.length_take, List.length_drop]
  omega

/-- A splice leaves the entries before it and after it. -/
theorem getElem?_splice_of_outside (h : offset + bytes.length ≤ image.length)
    (hi : i < offset ∨ offset + bytes.length ≤ i) :
    (splice image offset bytes)[i]? = image[i]? := by
  have htake : (image.take offset).length = offset := by
    rw [List.length_take]
    omega
  rcases hi with hi | hi
  · rw [splice, List.getElem?_append_left (by omega), List.getElem?_take_of_lt hi]
  · rw [splice, List.getElem?_append_right (by omega),
      List.getElem?_append_right (by omega), List.getElem?_drop]
    congr 1
    omega

theorem getElem?_splice_of_inside (h : offset + bytes.length ≤ image.length)
    (hi : i < bytes.length) :
    (splice image offset bytes)[offset + i]? = bytes[i]? := by
  have htake : (image.take offset).length = offset := by
    rw [List.length_take]
    omega
  rw [splice, List.getElem?_append_right (by omega), htake,
    List.getElem?_append_left (by omega)]
  congr 1
  omega

theorem window_splice (h : offset + bytes.length ≤ image.length) :
    window (splice image offset bytes) offset bytes.length = bytes := by
  have htake : (image.take offset).length = offset := by
    rw [List.length_take]
    omega
  rw [window, splice, List.drop_append_of_le_length (by omega),
    List.drop_of_length_le (by omega), List.nil_append, List.take_left']
  rfl

/-- Two images that agree entry by entry outside a window and have the same window
are equal. -/
theorem eq_of_window_eq {image' : List α}
    (hout : ∀ i, i < offset ∨ offset + width ≤ i → image'[i]? = image[i]?)
    (hwin : window image' offset width = window image offset width) :
    image' = image := by
  apply List.ext_getElem?
  intro i
  by_cases hi : i < offset ∨ offset + width ≤ i
  · exact hout i hi
  · have hentry := congrArg (fun w => w[i - offset]?) hwin
    simp only [window, List.getElem?_take, List.getElem?_drop] at hentry
    have hlt : i - offset < width := by omega
    have hadd : offset + (i - offset) = i := by omega
    simpa [hlt, hadd] using hentry

end Window

/-! ## Numbers, most significant byte first -/

/-- The `width` low bytes of a number. -/
def toBytes : ℕ → ℕ → List UInt8
  | 0, _ => []
  | width + 1, value => toBytes width (value / 256) ++ [UInt8.ofNat value]

/-- The number that bytes stand for. -/
def fromBytes (bytes : List UInt8) : ℕ :=
  bytes.foldl (fun value byte => value * 256 + byte.toNat) 0

@[simp]
theorem length_toBytes (width value : ℕ) : (toBytes width value).length = width := by
  induction width generalizing value with
  | zero => rfl
  | succ width ih => simp [toBytes, ih]

theorem fromBytes_append_singleton (bytes : List UInt8) (byte : UInt8) :
    fromBytes (bytes ++ [byte]) = fromBytes bytes * 256 + byte.toNat := by
  simp [fromBytes]

theorem fromBytes_toBytes (width value : ℕ) :
    fromBytes (toBytes width value) = value % 256 ^ width := by
  induction width generalizing value with
  | zero => simp [toBytes, fromBytes, Nat.mod_one]
  | succ width ih =>
      have hbyte : (UInt8.ofNat value).toNat = value % 256 := by
        simp [UInt8.toNat_ofNat']
      calc
        fromBytes (toBytes (width + 1) value)
          = fromBytes (toBytes width (value / 256)) * 256 + value % 256 := by
            rw [toBytes, fromBytes_append_singleton, hbyte]
        _ = value / 256 % 256 ^ width * 256 + value % 256 := by rw [ih]
        _ = value % (256 * 256 ^ width) := by rw [Nat.mod_mul]; ring
        _ = value % 256 ^ (width + 1) := by rw [pow_succ']

theorem fromBytes_lt (bytes : List UInt8) :
    fromBytes bytes < 256 ^ bytes.length := by
  induction bytes using List.reverseRecOn with
  | nil => simp [fromBytes]
  | append_singleton bytes byte ih =>
      have hbyte : byte.toNat < 256 := byte.toNat_lt
      rw [fromBytes_append_singleton, List.length_append, List.length_singleton,
        pow_succ]
      omega

/-- Bytes of one length are determined by their number. -/
theorem fromBytes_inj {a b : List UInt8} (hlen : a.length = b.length)
    (h : fromBytes a = fromBytes b) : a = b := by
  induction a using List.reverseRecOn generalizing b with
  | nil =>
      rw [List.length_nil, eq_comm, List.length_eq_zero_iff] at hlen
      exact hlen.symm
  | append_singleton a x ih =>
      rcases List.eq_nil_or_concat b with rfl | ⟨b, y, rfl⟩
      · simp at hlen
      · rw [List.concat_eq_append] at hlen h ⊢
        rw [fromBytes_append_singleton, fromBytes_append_singleton] at h
        have hx : x.toNat < 256 := x.toNat_lt
        have hy : y.toNat < 256 := y.toNat_lt
        have hrest : a = b := ih (by simpa using hlen) (by omega)
        have hlast : x = y := UInt8.toNat_inj.mp (by omega)
        rw [hrest, hlast]

/-- Only the low bytes of a number are put down. -/
theorem toBytes_mod (width value : ℕ) : toBytes width (value % 256 ^ width) = toBytes width value := by
  apply fromBytes_inj
  · rw [length_toBytes, length_toBytes]
  · rw [fromBytes_toBytes, fromBytes_toBytes, Nat.mod_mod]

theorem toBytes_fromBytes (bytes : List UInt8) :
    toBytes bytes.length (fromBytes bytes) = bytes := by
  apply fromBytes_inj
  · rw [length_toBytes]
  · rw [fromBytes_toBytes, Nat.mod_eq_of_lt (fromBytes_lt bytes)]

section Numbers

variable {image image' : List UInt8} {offset width value : ℕ}

/-- A number is read back from where it is put. -/
theorem fromBytes_window_splice (h : offset + width ≤ image.length) :
    fromBytes (window (splice image offset (toBytes width value)) offset width) =
      value % 256 ^ width := by
  have hlen : offset + (toBytes width value).length ≤ image.length := by simpa using h
  have hwin := window_splice hlen
  rw [length_toBytes] at hwin
  rw [hwin, fromBytes_toBytes]

/-- Windows with the same number are the same. -/
theorem window_eq_of_fromBytes_eq (h : offset + width ≤ image.length)
    (h' : offset + width ≤ image'.length)
    (heq : fromBytes (window image offset width) =
      fromBytes (window image' offset width)) :
    window image offset width = window image' offset width :=
  fromBytes_inj (by rw [length_window h, length_window h']) heq

theorem fromBytes_window_lt (h : offset + width ≤ image.length) :
    fromBytes (window image offset width) < 256 ^ width := by
  have hlt := fromBytes_lt (window image offset width)
  rwa [length_window h] at hlt

end Numbers

/-! ## Words

Reads and writes of big-endian words, and the checked conversions that give their
offsets; a failed check or an access outside of the array is an exception. -/

/-- A condition whose failure throws. -/
def ensure (condition : Prop) [Decidable condition] : Option Unit :=
  if condition then some () else none

/-- A checked conversion to `int`. -/
def checkedInt (value : BitVec 32) : Option ℕ :=
  if value.toNat < 2 ^ 31 then some value.toNat else none

/-- A checked sum of `uint`s. -/
def checkedAdd (a b : BitVec 32) : Option (BitVec 32) :=
  if a.toNat + b.toNat < 2 ^ 32 then some (a + b) else none

/-- Read a number of `width` bytes. -/
def read (data : List UInt8) (offset width : ℕ) : Option ℕ :=
  if offset + width ≤ data.length then some (fromBytes (window data offset width))
  else none

/-- Write the `width` low bytes of a number. -/
def write (data : List UInt8) (offset width value : ℕ) : Option (List UInt8) :=
  if offset + width ≤ data.length then some (splice data offset (toBytes width value))
  else none

def readUInt16 (data : List UInt8) (offset : ℕ) : Option (BitVec 16) :=
  (read data offset 2).map (BitVec.ofNat 16)

def readUInt32 (data : List UInt8) (offset : ℕ) : Option (BitVec 32) :=
  (read data offset 4).map (BitVec.ofNat 32)

def writeUInt16 (data : List UInt8) (offset : ℕ) (value : BitVec 16) :
    Option (List UInt8) :=
  write data offset 2 value.toNat

def writeUInt32 (data : List UInt8) (offset : ℕ) (value : BitVec 32) :
    Option (List UInt8) :=
  write data offset 4 value.toNat

/-- Only the `width` bytes from `offset` on change. -/
structure Writes (data : List UInt8) (offset width : ℕ) (data' : List UInt8) : Prop where
  length : data'.length = data.length
  others : ∀ i, i < offset ∨ offset + width ≤ i → data'[i]? = data[i]?

section Words

variable {data data' : List UInt8} {offset width value : ℕ}

theorem ensure_eq_some {condition : Prop} [Decidable condition] {result : Unit} :
    ensure condition = some result ↔ condition := by
  rw [ensure, Option.ite_none_right_eq_some]
  exact and_iff_left rfl

theorem checkedAdd_eq_some {a b sum : BitVec 32} :
    checkedAdd a b = some sum ↔ a.toNat + b.toNat < 2 ^ 32 ∧ sum = a + b := by
  rw [checkedAdd, Option.ite_none_right_eq_some, Option.some.injEq]
  exact and_congr_right fun _ => eq_comm

theorem checkedInt_eq_some {value : BitVec 32} {n : ℕ} :
    checkedInt value = some n ↔ value.toNat < 2 ^ 31 ∧ value.toNat = n := by
  rw [checkedInt, Option.ite_none_right_eq_some, Option.some.injEq]

theorem read_eq_some_iff :
    read data offset width = some value ↔
      offset + width ≤ data.length ∧ fromBytes (window data offset width) = value := by
  rw [read, Option.ite_none_right_eq_some, Option.some.injEq]

theorem write_eq_some_iff :
    write data offset width value = some data' ↔
      offset + width ≤ data.length ∧
        splice data offset (toBytes width value) = data' := by
  rw [write, Option.ite_none_right_eq_some, Option.some.injEq]

theorem lt_of_read (h : read data offset width = some value) : value < 256 ^ width := by
  obtain ⟨hbound, rfl⟩ := read_eq_some_iff.mp h
  exact fromBytes_window_lt hbound

/-- A write puts the number and changes no other byte. -/
theorem writes_of_write (h : write data offset width value = some data') :
    Writes data offset width data' := by
  obtain ⟨hbound, rfl⟩ := write_eq_some_iff.mp h
  have hlen : offset + (toBytes width value).length ≤ data.length := by simpa using hbound
  constructor
  · exact length_splice hlen
  · intro i hi
    exact getElem?_splice_of_outside hlen (by simpa using hi)

theorem read_of_write (h : write data offset width value = some data') :
    read data' offset width = some (value % 256 ^ width) := by
  rw [read_eq_some_iff, (writes_of_write h).length]
  obtain ⟨hbound, rfl⟩ := write_eq_some_iff.mp h
  exact ⟨hbound, fromBytes_window_splice hbound⟩

/-- Images that read the same number have the same bytes there. -/
theorem window_eq_of_read (h : read data offset width = some value)
    (h' : read data' offset width = some value) :
    window data offset width = window data' offset width := by
  obtain ⟨hbound, hvalue⟩ := read_eq_some_iff.mp h
  obtain ⟨hbound', hvalue'⟩ := read_eq_some_iff.mp h'
  exact window_eq_of_fromBytes_eq hbound hbound' (hvalue.trans hvalue'.symm)

theorem readUInt16_eq_some_iff {word : BitVec 16} :
    readUInt16 data offset = some word ↔ read data offset 2 = some word.toNat := by
  rw [readUInt16, Option.map_eq_some_iff]
  constructor
  · rintro ⟨value, hread, rfl⟩
    have hlt : value < 2 ^ 16 := lt_of_read hread
    rwa [BitVec.toNat_ofNat, Nat.mod_eq_of_lt hlt]
  · intro hread
    exact ⟨_, hread, by rw [BitVec.ofNat_toNat, BitVec.setWidth_eq]⟩

theorem readUInt32_eq_some_iff {word : BitVec 32} :
    readUInt32 data offset = some word ↔ read data offset 4 = some word.toNat := by
  rw [readUInt32, Option.map_eq_some_iff]
  constructor
  · rintro ⟨value, hread, rfl⟩
    have hlt : value < 2 ^ 32 := lt_of_read hread
    rwa [BitVec.toNat_ofNat, Nat.mod_eq_of_lt hlt]
  · intro hread
    exact ⟨_, hread, by rw [BitVec.ofNat_toNat, BitVec.setWidth_eq]⟩

theorem readUInt16_writeUInt16 {word : BitVec 16}
    (h : writeUInt16 data offset word = some data') :
    readUInt16 data' offset = some word := by
  have hlt : word.toNat < 256 ^ 2 := word.isLt
  rw [readUInt16_eq_some_iff, read_of_write h, Nat.mod_eq_of_lt hlt]

theorem readUInt32_writeUInt32 {word : BitVec 32}
    (h : writeUInt32 data offset word = some data') :
    readUInt32 data' offset = some word := by
  have hlt : word.toNat < 256 ^ 4 := word.isLt
  rw [readUInt32_eq_some_iff, read_of_write h, Nat.mod_eq_of_lt hlt]

end Words

/-! ## Bytes at an offset -/

/-- The image has `bytes` at `offset`. -/
def Holds (data : List UInt8) (offset : ℕ) (bytes : List UInt8) : Prop :=
  window data offset bytes.length = bytes

section Holds

variable {data a b : List UInt8} {offset : ℕ}

@[simp]
theorem holds_nil : Holds data offset [] := by
  simp [Holds, window]

theorem Holds.length_le (h : Holds data offset a) (ha : a ≠ []) :
    offset + a.length ≤ data.length := by
  have hlength := congrArg List.length h
  have hpos := List.length_pos_iff.mpr ha
  simp only [window, List.length_take, List.length_drop] at hlength
  omega

theorem holds_append : Holds data offset (a ++ b) ↔
    Holds data offset a ∧ Holds data (offset + a.length) b := by
  have hsplit : window data offset (a ++ b).length =
      window data offset a.length ++ window data (offset + a.length) b.length := by
    rw [window, window, window, List.length_append, List.take_add, List.drop_drop]
  rw [Holds, Holds, Holds, hsplit]
  constructor
  · intro h
    by_cases hlength : (window data offset a.length).length = a.length
    · exact List.append_inj h hlength
    · -- The first window is cut short, so nothing is left for the second.
      have hwhole := congrArg List.length h
      simp only [window, List.length_append, List.length_take, List.length_drop]
        at hlength hwhole
      omega
  · rintro ⟨ha, hb⟩
    rw [ha, hb]

/-- An image that holds as many bytes as it has is these bytes. -/
theorem eq_of_holds (h : Holds data 0 a) (hlength : a.length = data.length) : data = a := by
  rw [Holds, window, hlength, List.drop_zero, List.take_length] at h
  exact h

theorem holds_self : Holds data 0 data := by
  rw [Holds, window, List.drop_zero, List.take_length]

theorem readUInt32_eq_some_iff_holds {word : BitVec 32} :
    readUInt32 data offset = some word ↔ Holds data offset (toBytes 4 word.toNat) := by
  have hvalue : fromBytes (toBytes 4 word.toNat) = word.toNat := by
    have hlt : word.toNat < 256 ^ 4 := word.isLt
    rw [fromBytes_toBytes, Nat.mod_eq_of_lt hlt]
  rw [readUInt32_eq_some_iff, read_eq_some_iff, Holds, length_toBytes]
  constructor
  · rintro ⟨hbound, hread⟩
    exact fromBytes_inj (by rw [length_window hbound, length_toBytes]) (hread.trans hvalue.symm)
  · intro hwindow
    refine ⟨?_, by rw [hwindow, hvalue]⟩
    have hlength := congrArg List.length hwindow
    simp only [window, List.length_take, List.length_drop, length_toBytes] at hlength
    omega

end Holds

end ByteImage
