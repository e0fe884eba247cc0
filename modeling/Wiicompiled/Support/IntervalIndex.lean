import Mathlib.Algebra.Ring.Nat
import Mathlib.Data.List.TakeWhile
import Mathlib.Order.Lattice
import Mathlib.Order.Nat

/-!
# Sorted indexes of intervals

An index is a list whose keys increase strictly.  Entries are found, put in and taken out at
the lower bound of a key.  When the key orders the entries by the start of an interval, the
entries that meet a range are found by walking in both directions from the lower bound of the
start of the range; the walk to the left stops at a bound for all lengths.
-/

namespace IntervalIndex

variable {α κ : Type*} [LinearOrder κ] {key : α → κ}

/-! ## Lower bounds -/

/-- The entries before the lower bound of a key. -/
def before (key : α → κ) (k : κ) (index : List α) : List α :=
  index.takeWhile fun entry => key entry < k

/-- The entries from the lower bound of a key on. -/
def fromBound (key : α → κ) (k : κ) (index : List α) : List α :=
  index.dropWhile fun entry => key entry < k

/-- The keys increase strictly. -/
def Sorted (key : α → κ) (index : List α) : Prop :=
  index.Pairwise fun a b => key a < key b

variable {index : List α} {entry other : α} {k : κ}

theorem before_append_fromBound (key : α → κ) (k : κ) (index : List α) :
    before key k index ++ fromBound key k index = index :=
  List.takeWhile_append_dropWhile

theorem mem_iff_before_or_fromBound (key : α → κ) (k : κ) (index : List α) :
    entry ∈ index ↔ entry ∈ before key k index ∨ entry ∈ fromBound key k index := by
  rw [← List.mem_append, before_append_fromBound]

theorem lt_of_mem_before (h : entry ∈ before key k index) : key entry < k := by
  simpa using List.mem_takeWhile_imp h

theorem le_of_mem_fromBound
    (hsorted : index.Pairwise fun a b => key a ≤ key b)
    (h : entry ∈ fromBound key k index) : k ≤ key entry := by
  induction index with
  | nil => exact absurd h List.not_mem_nil
  | cons first rest ih =>
      rw [List.pairwise_cons] at hsorted
      by_cases hfirst : key first < k
      · rw [fromBound, List.dropWhile_cons_of_pos (by simpa using hfirst)] at h
        exact ih hsorted.2 h
      · rw [fromBound, List.dropWhile_cons_of_neg (by simpa using hfirst)] at h
        rcases List.mem_cons.mp h with rfl | hrest
        · exact not_lt.mp hfirst
        · exact le_trans (not_lt.mp hfirst) (hsorted.1 entry hrest)

theorem Sorted.le (h : Sorted key index) : index.Pairwise fun a b => key a ≤ key b :=
  h.imp fun hlt => hlt.le

theorem Sorted.nodup (h : Sorted key index) : index.Nodup :=
  h.imp fun {a b} hlt heq => absurd hlt (by rw [heq]; exact lt_irrefl _)

theorem Sorted.eq_of_key_eq (h : Sorted key index) (hentry : entry ∈ index)
    (hother : other ∈ index) (hkey : key entry = key other) : entry = other := by
  induction index with
  | nil => exact absurd hentry List.not_mem_nil
  | cons first rest ih =>
      rw [Sorted, List.pairwise_cons] at h
      rcases List.mem_cons.mp hentry with rfl | hentryRest
      · rcases List.mem_cons.mp hother with rfl | hotherRest
        · rfl
        · exact absurd hkey (h.1 other hotherRest).ne
      · rcases List.mem_cons.mp hother with rfl | hotherRest
        · exact absurd hkey (h.1 entry hentryRest).ne'
        · exact ih h.2 hentryRest hotherRest

/-- An entry with a key stands at the lower bound of its key. -/
theorem Sorted.fromBound_eq_cons (h : Sorted key index) (hentry : entry ∈ index) :
    ∃ rest, fromBound key (key entry) index = entry :: rest := by
  induction index with
  | nil => exact absurd hentry List.not_mem_nil
  | cons first rest ih =>
      rw [Sorted, List.pairwise_cons] at h
      rcases List.mem_cons.mp hentry with rfl | hrest
      · exact ⟨rest, List.dropWhile_cons_of_neg (by simp)⟩
      · rw [fromBound, List.dropWhile_cons_of_pos (by simpa using h.1 entry hrest)]
        exact ih h.2 hrest

/-! ## Putting in and taking out -/

/-- An entry put in at the lower bound of its key. -/
def insertEntry (key : α → κ) (entry : α) (index : List α) : List α :=
  before key (key entry) index ++ entry :: fromBound key (key entry) index

/-- The entry at the lower bound of a key, when it has the key, with what is around it. -/
def findKey (key : α → κ) (k : κ) (index : List α) : Option (α × List α) :=
  match fromBound key k index with
  | [] => none
  | found :: rest => if key found = k then some (found, rest) else none

/-- The index without the entry of a key, when there is one. -/
def eraseKey (key : α → κ) (k : κ) (index : List α) : Option (List α) :=
  (findKey key k index).map fun found => before key k index ++ found.2

/-- The index with the entry of a key changed, when there is one. -/
def modifyKey (key : α → κ) (k : κ) (change : α → α) (index : List α) : Option (List α) :=
  (findKey key k index).map fun found => before key k index ++ change found.1 :: found.2

theorem mem_insertEntry :
    other ∈ insertEntry key entry index ↔ other = entry ∨ other ∈ index := by
  rw [insertEntry, List.mem_append, List.mem_cons,
    mem_iff_before_or_fromBound key (key entry) index]
  exact or_left_comm

theorem Sorted.before_lt_fromBound (h : Sorted key index) :
    (before key k index).Pairwise (fun a b => key a < key b) ∧
      (fromBound key k index).Pairwise (fun a b => key a < key b) ∧
      ∀ a ∈ before key k index, ∀ b ∈ fromBound key k index, key a < key b := by
  rw [Sorted, ← before_append_fromBound key k index] at h
  exact List.pairwise_append.mp h

/-- A key that is not in the index yet keeps it sorted. -/
theorem sorted_insertEntry (h : Sorted key index) (hnew : ∀ a ∈ index, key a ≠ key entry) :
    Sorted key (insertEntry key entry index) := by
  obtain ⟨hbefore, hfrom, hacross⟩ := h.before_lt_fromBound (k := key entry)
  refine List.pairwise_append.mpr ⟨hbefore, List.pairwise_cons.mpr ⟨?_, hfrom⟩, ?_⟩
  · intro a ha
    have hle := le_of_mem_fromBound h.le ha
    have hmem : a ∈ index := (mem_iff_before_or_fromBound key _ _).mpr (Or.inr ha)
    exact lt_of_le_of_ne hle (hnew a hmem).symm
  · intro a ha b hb
    rcases List.mem_cons.mp hb with rfl | hb
    · exact lt_of_mem_before ha
    · exact hacross a ha b hb

theorem findKey_eq_some {found : α × List α} (h : findKey key k index = some found) :
    key found.1 = k ∧ fromBound key k index = found.1 :: found.2 := by
  unfold findKey at h
  split at h
  · contradiction
  · split_ifs at h with hkey
    obtain rfl := Option.some.inj h
    exact ⟨hkey, by assumption⟩

theorem Sorted.findKey_of_mem (h : Sorted key index) (hentry : entry ∈ index) :
    ∃ rest, findKey key (key entry) index = some (entry, rest) := by
  obtain ⟨rest, hrest⟩ := h.fromBound_eq_cons hentry
  exact ⟨rest, by rw [findKey, hrest]; simp⟩

theorem sorted_eraseKey (h : Sorted key index) {after : List α}
    (herase : eraseKey key k index = some after) : Sorted key after := by
  obtain ⟨found, hfound, rfl⟩ := Option.map_eq_some_iff.mp herase
  obtain ⟨hbefore, hfrom, hacross⟩ := h.before_lt_fromBound (k := k)
  rw [(findKey_eq_some hfound).2] at hfrom hacross
  exact List.pairwise_append.mpr ⟨hbefore, (List.pairwise_cons.mp hfrom).2,
    fun a ha b hb => hacross a ha b (List.mem_cons_of_mem _ hb)⟩

theorem mem_eraseKey (h : Sorted key index) {after : List α}
    (herase : eraseKey key k index = some after) :
    other ∈ after ↔ other ∈ index ∧ key other ≠ k := by
  obtain ⟨found, hfound, rfl⟩ := Option.map_eq_some_iff.mp herase
  obtain ⟨hkey, hfrom⟩ := findKey_eq_some hfound
  obtain ⟨-, hpairs, -⟩ := h.before_lt_fromBound (k := k)
  rw [hfrom, List.pairwise_cons, hkey] at hpairs
  rw [List.mem_append, mem_iff_before_or_fromBound key k index,
    hfrom, List.mem_cons]
  constructor
  · rintro (hbefore | hrest)
    · exact ⟨Or.inl hbefore, (lt_of_mem_before hbefore).ne⟩
    · exact ⟨Or.inr (Or.inr hrest), (hpairs.1 other hrest).ne'⟩
  · rintro ⟨hbefore | rfl | hrest, hne⟩
    · exact Or.inl hbefore
    · exact absurd hkey hne
    · exact Or.inr hrest

theorem sorted_modifyKey (h : Sorted key index) {after : List α} {change : α → α}
    (hchange : ∀ a, key (change a) = key a)
    (hmodify : modifyKey key k change index = some after) : Sorted key after := by
  obtain ⟨found, hfound, rfl⟩ := Option.map_eq_some_iff.mp hmodify
  obtain ⟨hbefore, hfrom, hacross⟩ := h.before_lt_fromBound (k := k)
  rw [(findKey_eq_some hfound).2, List.pairwise_cons] at hfrom
  rw [(findKey_eq_some hfound).2] at hacross
  refine List.pairwise_append.mpr ⟨hbefore, List.pairwise_cons.mpr ⟨?_, hfrom.2⟩, ?_⟩
  · intro b hb
    rw [hchange]
    exact hfrom.1 b hb
  · intro a ha b hb
    rcases List.mem_cons.mp hb with rfl | hb
    · rw [hchange]
      exact hacross a ha found.1 List.mem_cons_self
    · exact hacross a ha b (List.mem_cons_of_mem _ hb)

theorem mem_modifyKey (h : Sorted key index) {after : List α} {change : α → α}
    (hmodify : modifyKey key k change index = some after) :
    other ∈ after ↔ (other ∈ index ∧ key other ≠ k) ∨
      ∃ a ∈ index, key a = k ∧ other = change a := by
  obtain ⟨found, hfound, rfl⟩ := Option.map_eq_some_iff.mp hmodify
  obtain ⟨hkey, hfrom⟩ := findKey_eq_some hfound
  have hfoundMem : found.1 ∈ index :=
    (mem_iff_before_or_fromBound key _ _).mpr (Or.inr (by rw [hfrom]; exact List.mem_cons_self))
  have hrest : other ∈ before key k index ++ found.2 ↔ other ∈ index ∧ key other ≠ k :=
    mem_eraseKey h (by rw [eraseKey, hfound]; rfl)
  rw [← hrest, List.mem_append, List.mem_append, List.mem_cons]
  constructor
  · rintro (hbefore | heq | hafter)
    · exact Or.inl (Or.inl hbefore)
    · exact Or.inr ⟨found.1, hfoundMem, hkey, heq⟩
    · exact Or.inl (Or.inr hafter)
  · rintro ((hbefore | hafter) | ⟨a, ha, hakey, heq⟩)
    · exact Or.inl hbefore
    · exact Or.inr (Or.inr hafter)
    · have hsame : a = found.1 := h.eq_of_key_eq ha hfoundMem (hakey.trans hkey.symm)
      exact Or.inr (Or.inl (by rw [heq, hsame]))

/-! ## Walking over a range -/

variable (start size : α → ℕ)

/-- To the left, from the nearest entry, until no length up to the bound reaches the range. -/
def walkLeft (bound lo : ℕ) : List α → List α
  | [] => []
  | entry :: rest =>
      if start entry + bound ≤ lo then []
      else if start entry + size entry ≤ lo then walkLeft bound lo rest
      else entry :: walkLeft bound lo rest

/-- To the right, until an entry starts behind the range. -/
def walkRight (hi : ℕ) : List α → List α
  | [] => []
  | entry :: rest => if hi ≤ start entry then [] else entry :: walkRight hi rest

/-- The entries that both walks meet. -/
def walk (bound lo hi : ℕ) (index : List α) : List α :=
  walkLeft start size bound lo (before start lo index).reverse ++
    walkRight start hi (fromBound start lo index)

variable {start size} {bound lo hi : ℕ}

/-- The walk to the left passes over nothing that reaches the range. -/
theorem mem_walkLeft
    (hsorted : index.Pairwise fun a b => start b ≤ start a)
    (hbound : ∀ a ∈ index, size a ≤ bound) :
    entry ∈ walkLeft start size bound lo index ↔
      entry ∈ index ∧ lo < start entry + size entry := by
  induction index with
  | nil => simp [walkLeft]
  | cons first rest ih =>
      rw [List.pairwise_cons] at hsorted
      have ih := ih hsorted.2 fun a ha => hbound a (List.mem_cons_of_mem _ ha)
      rw [walkLeft, List.mem_cons]
      split_ifs with hstop hshort
      · -- All that is left starts no later and is no longer than the bound.
        refine iff_of_false List.not_mem_nil ?_
        rintro ⟨rfl | hrest, hreach⟩
        · have := hbound entry List.mem_cons_self
          omega
        · have := hbound entry (List.mem_cons_of_mem _ hrest)
          have := hsorted.1 entry hrest
          omega
      · rw [ih]
        constructor
        · rintro ⟨hrest, hreach⟩
          exact ⟨Or.inr hrest, hreach⟩
        · rintro ⟨rfl | hrest, hreach⟩
          · omega
          · exact ⟨hrest, hreach⟩
      · rw [List.mem_cons, ih]
        constructor
        · rintro (rfl | ⟨hrest, hreach⟩)
          · exact ⟨Or.inl rfl, not_le.mp hshort⟩
          · exact ⟨Or.inr hrest, hreach⟩
        · rintro ⟨rfl | hrest, hreach⟩
          · exact Or.inl rfl
          · exact Or.inr ⟨hrest, hreach⟩

theorem mem_walkRight (hsorted : index.Pairwise fun a b => start a ≤ start b) :
    entry ∈ walkRight start hi index ↔ entry ∈ index ∧ start entry < hi := by
  induction index with
  | nil => simp [walkRight]
  | cons first rest ih =>
      rw [List.pairwise_cons] at hsorted
      rw [walkRight, List.mem_cons]
      split_ifs with hstop
      · refine iff_of_false List.not_mem_nil ?_
        rintro ⟨rfl | hrest, hlt⟩
        · omega
        · have := hsorted.1 entry hrest
          omega
      · rw [List.mem_cons, ih hsorted.2]
        constructor
        · rintro (rfl | ⟨hrest, hlt⟩)
          · exact ⟨Or.inl rfl, not_le.mp hstop⟩
          · exact ⟨Or.inr hrest, hlt⟩
        · rintro ⟨rfl | hrest, hlt⟩
          · exact Or.inl rfl
          · exact Or.inr ⟨hrest, hlt⟩

/-- Both walks together meet exactly the entries that overlap the range. -/
theorem mem_walk
    (hsorted : index.Pairwise fun a b => start a ≤ start b)
    (hbound : ∀ a ∈ index, size a ≤ bound) (hpos : ∀ a ∈ index, 0 < size a) (hlo : lo < hi) :
    entry ∈ walk start size bound lo hi index ↔
      entry ∈ index ∧ start entry < hi ∧ lo < start entry + size entry := by
  have hparts := hsorted
  rw [← before_append_fromBound start lo index] at hparts
  obtain ⟨hbefore, hfrom, -⟩ := List.pairwise_append.mp hparts
  rw [walk, List.mem_append,
    mem_walkLeft (List.pairwise_reverse.mpr hbefore) fun a ha =>
      hbound a ((mem_iff_before_or_fromBound start lo _).mpr (Or.inl (List.mem_reverse.mp ha))),
    mem_walkRight hfrom, List.mem_reverse, mem_iff_before_or_fromBound start lo index]
  constructor
  · rintro (⟨hmem, hreach⟩ | ⟨hmem, hlt⟩)
    · exact ⟨Or.inl hmem, (lt_of_mem_before hmem).trans hlo, hreach⟩
    · have := hpos entry ((mem_iff_before_or_fromBound start lo _).mpr (Or.inr hmem))
      have := le_of_mem_fromBound hsorted hmem
      exact ⟨Or.inr hmem, hlt, by omega⟩
  · rintro ⟨hmem | hmem, hlt, hreach⟩
    · exact Or.inl ⟨hmem, hreach⟩
    · exact Or.inr ⟨hmem, hlt⟩

end IntervalIndex
