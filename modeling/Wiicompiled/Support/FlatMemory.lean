import Wiicompiled.Support.ByteImage

/-!
# Flat memory

A memory is a function from addresses of a fixed width.  Stores and loads of
several bytes go around at the end of the address space; images of ranges that do
not are byte images.
-/

namespace FlatMemory

open ByteImage

variable {w : ℕ} {α : Type*}

/-- The bytes of `size` addresses from `address` on. -/
def load (memory : BitVec w → α) (address : BitVec w) (size : ℕ) : List α :=
  (List.range size).map fun i => memory (address + BitVec.ofNat w i)

/-- Put bytes from `address` on. -/
def store (memory : BitVec w → α) (address : BitVec w) (bytes : List α) :
    BitVec w → α :=
  fun x => (bytes[(x - address).toNat]?).getD (memory x)

/-- The addresses that `size` bytes from `address` on take. -/
def range (address : BitVec w) (size : ℕ) : Set (BitVec w) :=
  {x | (x - address).toNat < size}

theorem mem_range_iff {address x : BitVec w} {size : ℕ} :
    x ∈ range address size ↔ (x - address).toNat < size :=
  Iff.rfl

variable {memory memory' : BitVec w → α} {address x : BitVec w} {bytes : List α}
  {size offset : ℕ}

@[simp]
theorem length_load : (load memory address size).length = size := by
  simp [load]

theorem getElem?_load {i : ℕ} (h : i < size) :
    (load memory address size)[i]? = some (memory (address + BitVec.ofNat w i)) := by
  simp [load, h]

theorem getElem?_load_of_mem (h : x ∈ range address size) :
    (load memory address size)[(x - address).toNat]? = some (memory x) := by
  rw [getElem?_load h, BitVec.ofNat_toNat, BitVec.setWidth_eq, add_sub_cancel]

/-- A load depends on the addresses of its range only. -/
theorem load_congr (hsize : size ≤ 2 ^ w)
    (h : ∀ x ∈ range address size, memory' x = memory x) :
    load memory' address size = load memory address size := by
  apply List.map_congr_left
  intro i hi
  apply h
  have hlt : i < 2 ^ w := lt_of_lt_of_le (List.mem_range.mp hi) hsize
  rw [mem_range_iff, add_sub_cancel_left, BitVec.toNat_ofNat,
    Nat.mod_eq_of_lt hlt]
  exact List.mem_range.mp hi

/-- A store at one address depends on that address only. -/
theorem store_apply_congr (h : memory' x = memory x) :
    store memory' address bytes x = store memory address bytes x := by
  rw [store, store, h]

theorem store_of_notMem (h : x ∉ range address bytes.length) :
    store memory address bytes x = memory x := by
  rw [mem_range_iff, not_lt] at h
  rw [store, List.getElem?_eq_none h, Option.getD_none]

theorem store_of_mem (h : x ∈ range address bytes.length) :
    some (store memory address bytes x) = bytes[(x - address).toNat]? := by
  have hlt : (x - address).toNat < bytes.length := h
  rw [store, List.getElem?_eq_getElem hlt, Option.getD_some]

/-- A store changes nothing if and only if its bytes are there already. -/
theorem store_eq_self_iff (hlen : bytes.length ≤ 2 ^ w) :
    store memory address bytes = memory ↔ load memory address bytes.length = bytes := by
  constructor
  · intro h
    apply List.ext_getElem?
    intro i
    by_cases hi : i < bytes.length
    · have hoffset : (address + BitVec.ofNat w i - address).toNat = i := by
        rw [add_sub_cancel_left, BitVec.toNat_ofNat, Nat.mod_eq_of_lt (by omega)]
      have hstored : some (store memory address bytes (address + BitVec.ofNat w i)) =
          bytes[i]? := by
        rw [store_of_mem (by rwa [mem_range_iff, hoffset]), hoffset]
      rw [getElem?_load hi, ← hstored, h]
    · rw [List.getElem?_eq_none (by simpa using hi),
        List.getElem?_eq_none (by simpa using hi)]
  · intro h
    funext x
    by_cases hx : x ∈ range address bytes.length
    · apply Option.some.inj
      calc some (store memory address bytes x) = bytes[(x - address).toNat]? :=
            store_of_mem hx
        _ = (load memory address bytes.length)[(x - address).toNat]? := by rw [h]
        _ = some (memory x) := getElem?_load_of_mem hx
    · exact store_of_notMem hx

/-- A store inside of a range splices its image. -/
theorem load_store (hsize : size ≤ 2 ^ w) (h : offset + bytes.length ≤ size) :
    load (store memory (address + BitVec.ofNat w offset) bytes) address size =
      splice (load memory address size) offset bytes := by
  have hlen : offset + bytes.length ≤ (load memory address size).length := by
    simpa using h
  apply List.ext_getElem?
  intro i
  by_cases hi : i < size
  · have hilt : i < 2 ^ w := lt_of_lt_of_le hi hsize
    have hsub : (address + BitVec.ofNat w i - (address + BitVec.ofNat w offset)).toNat =
        (2 ^ w - offset + i) % 2 ^ w := by
      rw [add_sub_add_left_eq_sub, BitVec.toNat_sub, BitVec.toNat_ofNat,
        BitVec.toNat_ofNat, Nat.mod_eq_of_lt hilt]
      rcases Nat.lt_or_ge offset (2 ^ w) with ho | ho
      · rw [Nat.mod_eq_of_lt ho]
      · obtain rfl : offset = 2 ^ w := by omega
        simp
    rw [getElem?_load hi]
    by_cases hin : offset ≤ i ∧ i < offset + bytes.length
    · obtain ⟨k, rfl⟩ := Nat.exists_eq_add_of_le hin.1
      have hk : k < bytes.length := by omega
      have hmod : (2 ^ w - offset + (offset + k)) % 2 ^ w = k := by
        rw [show 2 ^ w - offset + (offset + k) = k + 2 ^ w by omega, Nat.add_mod_right,
          Nat.mod_eq_of_lt (by omega)]
      rw [getElem?_splice_of_inside hlen hk, store_of_mem, hsub, hmod]
      rw [mem_range_iff, hsub, hmod]
      exact hk
    · rw [getElem?_splice_of_outside hlen (by omega), getElem?_load hi, store_of_notMem]
      rw [mem_range_iff, hsub]
      rcases Nat.lt_or_ge i offset with hlt | hge
      · rw [Nat.mod_eq_of_lt (by omega)]
        omega
      · rw [show 2 ^ w - offset + i = (i - offset) + 2 ^ w by omega, Nat.add_mod_right,
          Nat.mod_eq_of_lt (by omega)]
        omega
  · rw [List.getElem?_eq_none (by simp; omega),
      List.getElem?_eq_none (by rw [length_splice hlen, length_load]; omega)]

theorem load_store_self (hlen : bytes.length ≤ 2 ^ w) :
    load (store memory address bytes) address bytes.length = bytes := by
  apply List.ext_getElem?
  intro i
  by_cases hi : i < bytes.length
  · have hsub : (address + BitVec.ofNat w i - address).toNat = i := by
      rw [add_sub_cancel_left, BitVec.toNat_ofNat, Nat.mod_eq_of_lt (by omega)]
    rw [getElem?_load hi, store_of_mem, hsub]
    rw [mem_range_iff, hsub]
    exact hi
  · rw [List.getElem?_eq_none (by simpa using hi), List.getElem?_eq_none (by omega)]

/-- Bytes stored behind others are stored with them. -/
theorem store_store_append {bytes' : List α} (hlen : bytes.length + bytes'.length ≤ 2 ^ w) :
    store (store memory address bytes) (address + BitVec.ofNat w bytes.length) bytes' =
      store memory address (bytes ++ bytes') := by
  funext x
  have hsub : (x - (address + BitVec.ofNat w bytes.length)).toNat =
      (2 ^ w - bytes.length % 2 ^ w + (x - address).toNat) % 2 ^ w := by
    rw [← sub_sub, BitVec.toNat_sub, BitVec.toNat_ofNat]
  have hx := (x - address).isLt
  rw [store, store, store, hsub]
  rcases Nat.lt_or_ge (x - address).toNat bytes.length with hlt | hge
  · rw [List.getElem?_append_left hlt]
    rcases Nat.lt_or_ge bytes.length (2 ^ w) with hsmall | hlarge
    · rw [Nat.mod_eq_of_lt hsmall, Nat.mod_eq_of_lt (by omega),
        List.getElem?_eq_none (by omega), Option.getD_none]
    · rw [List.length_eq_zero_iff.mp (by omega : bytes'.length = 0), List.getElem?_nil,
        Option.getD_none]
  · rw [List.getElem?_append_right hge, List.getElem?_eq_none hge, Option.getD_none]
    have hwrap : 2 ^ w - bytes.length % 2 ^ w + (x - address).toNat =
        (x - address).toNat - bytes.length + 2 ^ w := by
      rw [Nat.mod_eq_of_lt (by omega)]
      omega
    rw [hwrap, Nat.add_mod_right, Nat.mod_eq_of_lt (by omega)]

theorem window_load {width : ℕ} (h : offset + width ≤ size) :
    window (load memory address size) offset width =
      load memory (address + BitVec.ofNat w offset) width := by
  apply List.ext_getElem?
  intro i
  by_cases hi : i < width
  · rw [getElem?_load hi, window, List.getElem?_take_of_lt hi, List.getElem?_drop,
      getElem?_load (by omega), BitVec.ofNat_add, add_assoc]
  · rw [List.getElem?_eq_none (by rw [length_window (by simpa using h)]; omega),
      List.getElem?_eq_none (by rw [length_load]; omega)]

/-! ## Local updates -/

/-- An update that reads and writes the addresses of `s` only, or fails. -/
structure LocalOn (s : Set (BitVec w)) (f : (BitVec w → α) → Option (BitVec w → α)) :
    Prop where
  frame : ∀ {memory memory'}, f memory = some memory' → ∀ x ∉ s, memory' x = memory x
  depends : ∀ {memory₁ memory₂}, (∀ x ∈ s, memory₁ x = memory₂ x) →
    ∀ {memory₁'}, f memory₁ = some memory₁' →
      ∃ memory₂', f memory₂ = some memory₂' ∧ ∀ x ∈ s, memory₁' x = memory₂' x

/-- Updates of disjoint parts can be made in either order. -/
theorem LocalOn.comm {s t : Set (BitVec w)}
    {f g : (BitVec w → α) → Option (BitVec w → α)} (hf : LocalOn s f) (hg : LocalOn t g)
    (hdisjoint : ∀ x ∈ s, x ∉ t) (memory : BitVec w → α) :
    (f memory).bind g = (g memory).bind f := by
  -- one direction for each order; the updates see the same part in both
  have main : ∀ {s t : Set (BitVec w)} {f g : (BitVec w → α) → Option (BitVec w → α)},
      LocalOn s f → LocalOn t g → (∀ x ∈ s, x ∉ t) → ∀ {result},
      (f memory).bind g = some result → (g memory).bind f = some result := by
    intro s t f g hf hg hst result hresult
    obtain ⟨m₁, h₁, h₂⟩ := Option.bind_eq_some_iff.mp hresult
    have hout : ∀ x ∈ t, m₁ x = memory x := fun x hx =>
      hf.frame h₁ x fun hs => hst x hs hx
    obtain ⟨m₂, h₃, hsame⟩ := hg.depends hout h₂
    have hin : ∀ x ∈ s, memory x = m₂ x := fun x hx =>
      (hg.frame h₃ x (hst x hx)).symm
    obtain ⟨m₃, h₄, hsame'⟩ := hf.depends hin h₁
    rw [h₃, Option.bind_some, h₄]
    congr 1
    funext x
    by_cases hs : x ∈ s
    · rw [← hsame' x hs, hg.frame h₂ x (hst x hs)]
    · rw [hf.frame h₄ x hs]
      by_cases ht : x ∈ t
      · rw [hsame x ht]
      · rw [hg.frame h₃ x ht, hg.frame h₂ x ht, hf.frame h₁ x hs]
  apply Option.ext
  intro result
  exact ⟨main hf hg hdisjoint, main hg hf fun x ht hs => hdisjoint x hs ht⟩

end FlatMemory
