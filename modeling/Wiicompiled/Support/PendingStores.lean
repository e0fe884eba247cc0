import Wiicompiled.Support.FlatMemory

/-!
# Pending stores

Stores can be held back in the order in which they were made, and made later.  A memory
with pending stores stands for the one they will leave.  Reads of a range that no pending
store touches see it as it is, and reads of a pending range see its latest store.
-/

namespace PendingStores

open FlatMemory

variable {w : ℕ} {α : Type*}

/-- A store that was held back. -/
structure Pending (w : ℕ) (α : Type*) where
  address : BitVec w
  bytes : List α

/-- The memory after all pending stores. -/
def publish (memory : BitVec w → α) (pending : List (Pending w α)) : BitVec w → α :=
  pending.foldl (fun memory store => FlatMemory.store memory store.address store.bytes) memory

variable {memory memory' : BitVec w → α} {pending : List (Pending w α)} {x : BitVec w}

theorem publish_append_one (store : Pending w α) :
    publish memory (pending ++ [store]) =
      FlatMemory.store (publish memory pending) store.address store.bytes := by
  rw [publish, List.foldl_append]
  rfl

theorem publish_append (memory : BitVec w → α) (first second : List (Pending w α)) :
    publish memory (first ++ second) = publish (publish memory first) second :=
  List.foldl_append

/-- What is published at an address depends on that address only. -/
theorem publish_congr (h : memory' x = memory x) :
    publish memory' pending x = publish memory pending x := by
  induction pending generalizing memory memory' with
  | nil => exact h
  | cons store pending ih => exact ih (store_apply_congr h)

/-- An address that no pending store touches is published as it is. -/
theorem publish_of_notMem
    (h : ∀ store ∈ pending, x ∉ range store.address store.bytes.length) :
    publish memory pending x = memory x := by
  induction pending generalizing memory with
  | nil => rfl
  | cons store pending ih =>
      refine (ih fun other hother => h other (List.mem_cons_of_mem _ hother)).trans ?_
      exact store_of_notMem (h store List.mem_cons_self)

/-! ## Ranges that are apart -/

/-- Two ranges have no address in common. -/
def Apart (a : BitVec w) (n : ℕ) (b : BitVec w) (m : ℕ) : Prop :=
  m ≤ (a - b).toNat ∧ n ≤ (b - a).toNat

instance (a : BitVec w) (n : ℕ) (b : BitVec w) (m : ℕ) : Decidable (Apart a n b m) :=
  inferInstanceAs (Decidable (_ ∧ _))

theorem Apart.symm {a b : BitVec w} {n m : ℕ} (h : Apart a n b m) : Apart b m a n :=
  ⟨h.2, h.1⟩

theorem Apart.notMem {a b : BitVec w} {n m : ℕ} (h : Apart a n b m) (hx : x ∈ range a n) :
    x ∉ range b m := by
  intro hxb
  obtain ⟨hab, hba⟩ := h
  have hxa : (x - a).toNat < n := hx
  have hxb : (x - b).toNat < m := hxb
  rw [BitVec.toNat_sub] at hab hba hxa hxb
  have ha := a.isLt
  have hb := b.isLt
  have hlt := x.isLt
  have hmod : ∀ u v : ℕ, u < 2 ^ w → v < 2 ^ w →
      (2 ^ w - v + u) % 2 ^ w = if v ≤ u then u - v else 2 ^ w - v + u := by
    intro u v hu hv
    split
    · rw [show 2 ^ w - v + u = (u - v) + 2 ^ w by omega, Nat.add_mod_right,
        Nat.mod_eq_of_lt (by omega)]
    · exact Nat.mod_eq_of_lt (by omega)
  rw [hmod _ _ ha hb] at hab
  rw [hmod _ _ hb ha] at hba
  rw [hmod _ _ hlt ha] at hxa
  rw [hmod _ _ hlt hb] at hxb
  split at hab <;> split at hba <;> split at hxa <;> split at hxb <;> omega

/-! ## Reads -/

/-- A range that is apart from all pending stores is read as it is. -/
theorem load_publish_of_apart
    {a : BitVec w} {n : ℕ} (hn : n ≤ 2 ^ w)
    (h : ∀ store ∈ pending, Apart a n store.address store.bytes.length) :
    load (publish memory pending) a n = load memory a n :=
  load_congr hn fun _ hx => publish_of_notMem fun store hstore => (h store hstore).notMem hx

/-- A pending store is read back, when the ones behind it are apart from it. -/
theorem load_publish_append_cons
    (memory : BitVec w → α) (front : List (Pending w α)) (store : Pending w α)
    (back : List (Pending w α)) (hlen : store.bytes.length ≤ 2 ^ w)
    (h : ∀ other ∈ back, Apart store.address store.bytes.length other.address
      other.bytes.length) :
    load (publish memory (front ++ store :: back)) store.address store.bytes.length =
      store.bytes := by
  have hsplit : publish memory (front ++ store :: back) =
      publish (FlatMemory.store (publish memory front) store.address store.bytes) back := by
    rw [publish, List.foldl_append]
    rfl
  rw [hsplit, load_publish_of_apart hlen h, load_store_self hlen]

end PendingStores
