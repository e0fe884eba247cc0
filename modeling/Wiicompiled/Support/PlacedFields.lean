import Wiicompiled.Support.PendingStores

/-!
# Placed fields

A record is laid out as fields at offsets from its start.  Fields that are pairwise apart
can be stored in any order, and every one is read back afterwards.
-/

namespace PlacedFields

open FlatMemory PendingStores

variable {w : ℕ} {α : Type*}

/-- Bytes at an offset from the start of a record. -/
structure PlacedField (α : Type*) where
  offset : ℕ
  bytes : List α

/-- The offset behind a field. -/
def PlacedField.stop (field : PlacedField α) : ℕ :=
  field.offset + field.bytes.length

/-- The store of a field of the record at `base`. -/
def PlacedField.place (base : BitVec w) (field : PlacedField α) : Pending w α :=
  ⟨base + BitVec.ofNat w field.offset, field.bytes⟩

/-- One field ends before the other starts. -/
def PlacedField.Apart (f g : PlacedField α) : Prop :=
  f.offset < g.offset ∧ f.stop ≤ g.offset ∨ g.offset < f.offset ∧ g.stop ≤ f.offset

theorem toNat_ofNat_sub_ofNat {i j : ℕ} (hi : i < 2 ^ w) (hj : j < 2 ^ w) :
    (BitVec.ofNat w i - BitVec.ofNat w j).toNat =
      if j ≤ i then i - j else 2 ^ w - j + i := by
  rw [BitVec.toNat_sub, BitVec.toNat_ofNat, BitVec.toNat_ofNat, Nat.mod_eq_of_lt hi,
    Nat.mod_eq_of_lt hj]
  split
  · rw [show 2 ^ w - j + i = (i - j) + 2 ^ w by omega, Nat.add_mod_right,
      Nat.mod_eq_of_lt (by omega)]
  · exact Nat.mod_eq_of_lt (by omega)

theorem PlacedField.Apart.place
    {f g : PlacedField α} (base : BitVec w) (h : f.Apart g)
    (hf : f.stop < 2 ^ w) (hg : g.stop < 2 ^ w) :
    PendingStores.Apart (f.place base).address (f.place base).bytes.length
      (g.place base).address (g.place base).bytes.length := by
  simp only [PlacedField.Apart, PlacedField.stop] at h hf hg
  change g.bytes.length ≤ (base + BitVec.ofNat w f.offset -
      (base + BitVec.ofNat w g.offset)).toNat ∧
    f.bytes.length ≤ (base + BitVec.ofNat w g.offset -
      (base + BitVec.ofNat w f.offset)).toNat
  have hcancel : ∀ i j : ℕ, base + BitVec.ofNat w i - (base + BitVec.ofNat w j) =
      BitVec.ofNat w i - BitVec.ofNat w j := fun i j => add_sub_add_left_eq_sub _ _ _
  have hlt : f.offset < 2 ^ w := by omega
  have hlt' : g.offset < 2 ^ w := by omega
  rw [hcancel, hcancel, toNat_ofNat_sub_ofNat hlt hlt', toNat_ofNat_sub_ofNat hlt' hlt]
  constructor <;> split <;> omega

/-- The bytes of a field are in the range of its record. -/
theorem PlacedField.range_place_subset
    {f : PlacedField α} (base : BitVec w) {size : ℕ} (h : f.stop ≤ size) (hsize : size < 2 ^ w) :
    range (f.place base).address (f.place base).bytes.length ⊆ range base size := by
  intro x hx
  simp only [PlacedField.stop] at h
  have hsub : x - base = (x - (f.place base).address) + BitVec.ofNat w f.offset := by
    rw [PlacedField.place]
    ring
  have hlt : (x - (f.place base).address).toNat < f.bytes.length := hx
  rw [mem_range_iff, hsub, BitVec.toNat_add, BitVec.toNat_ofNat,
    Nat.mod_eq_of_lt (by omega : f.offset < 2 ^ w), Nat.mod_eq_of_lt (by omega)]
  omega

/-- The record at `base` has a field. -/
def HasField (memory : BitVec w → α) (base : BitVec w) (field : PlacedField α) : Prop :=
  load memory (base + BitVec.ofNat w field.offset) field.bytes.length = field.bytes

/-- Fields that follow each other are one field. -/
theorem HasField.append
    {memory : BitVec w → α} {base : BitVec w} {offset : ℕ} {bytes bytes' : List α}
    (h : HasField memory base ⟨offset, bytes⟩)
    (h' : HasField memory base ⟨offset + bytes.length, bytes'⟩) :
    HasField memory base ⟨offset, bytes ++ bytes'⟩ := by
  simp only [HasField] at h h' ⊢
  rw [List.length_append, load, List.range_add, List.map_append, ← load, h, List.map_map]
  rw [BitVec.ofNat_add, ← add_assoc] at h'
  conv_rhs => rw [← h']
  rw [load]
  congr 1
  refine List.map_congr_left ?_
  intro i _
  rw [Function.comp_apply, BitVec.ofNat_add]
  congr 1
  ring

/-- A stored record has every field, when they are pairwise apart. -/
theorem hasField_publish
    {memory : BitVec w → α} {base : BitVec w} {fields : List (PlacedField α)}
    (hapart : fields.Pairwise PlacedField.Apart) (hstop : ∀ g ∈ fields, g.stop < 2 ^ w) :
    ∀ f ∈ fields, HasField (publish memory (fields.map (PlacedField.place base))) base f := by
  intro f hmem
  obtain ⟨front, back, rfl⟩ := List.append_of_mem hmem
  have hback : ∀ g ∈ back, f.Apart g := fun g hg =>
    List.rel_of_pairwise_cons (List.pairwise_append.mp hapart).2.1 hg
  have hf : f.stop < 2 ^ w := hstop f hmem
  rw [List.map_append, List.map_cons]
  refine load_publish_append_cons memory _ (f.place base) _ ?_ ?_
  · simp only [PlacedField.stop] at hf
    exact (by omega : f.bytes.length ≤ 2 ^ w)
  · intro other hother
    obtain ⟨g, hg, rfl⟩ := List.mem_map.mp hother
    exact (hback g hg).place base hf (hstop g (by simp [hg]))

end PlacedFields
