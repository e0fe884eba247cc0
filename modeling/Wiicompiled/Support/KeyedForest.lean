import Mathlib.Data.List.Nodup
import Mathlib.Data.List.Perm.Basic
import Mathlib.Order.Lattice

/-!
# Forests with keys

The children of a node are kept in the order of their keys, as in an ordered map.  A node
has a label and may have a value.  Values are put at paths of keys, and the nodes on the
way that are not there are made.
-/

/-- A list of siblings, each with its children. -/
inductive KeyedForest (κ ν β : Type*) where
  | nil
  | cons (key : κ) (label : ν) (value : Option β) (children rest : KeyedForest κ ν β)
deriving DecidableEq

namespace KeyedForest

variable {κ ν β : Type*}

/-- The keys of the siblings. -/
def keys : KeyedForest κ ν β → List κ
  | nil => []
  | cons key _ _ _ rest => key :: rest.keys

/-- The number of nodes. -/
def count : KeyedForest κ ν β → ℕ
  | nil => 0
  | cons _ _ _ children rest => 1 + children.count + rest.count

/-- The paths of keys to the nodes, each before those below it. -/
def paths : KeyedForest κ ν β → List (List κ)
  | nil => []
  | cons key _ _ children rest =>
      ([key] :: children.paths.map (key :: ·)) ++ rest.paths

/-- The values and the paths to them. -/
def values : KeyedForest κ ν β → List (List κ × β)
  | nil => []
  | cons key _ value children rest =>
      value.toList.map (fun value => ([key], value)) ++
        (children.values.map fun entry => (key :: entry.1, entry.2)) ++ rest.values

/-- A property of the key, the label and the value of every node. -/
def All (P : κ → ν → Option β → Prop) : KeyedForest κ ν β → Prop
  | nil => True
  | cons key label value children rest =>
      P key label value ∧ children.All P ∧ rest.All P

/-- The keys of siblings increase. -/
def Sorted [LT κ] : KeyedForest κ ν β → Prop
  | nil => True
  | cons key _ _ children rest =>
      (∀ other ∈ rest.keys, key < other) ∧ children.Sorted ∧ rest.Sorted

/-- A single path of nodes with the value at its end. -/
def chain (value : β) : κ × ν → List (κ × ν) → KeyedForest κ ν β
  | (key, label), [] => cons key label (some value) nil nil
  | (key, label), next :: path => cons key label none (chain value next path) nil

/-- Put the siblings of the second forest behind those of the first. -/
def append : KeyedForest κ ν β → KeyedForest κ ν β → KeyedForest κ ν β
  | nil, other => other
  | cons key label value children rest, other =>
      cons key label value children (rest.append other)

/-- Put a value at a path.  The last label of the path becomes the label of its node. -/
def insert [LinearOrder κ] (value : β) :
    KeyedForest κ ν β → κ × ν → List (κ × ν) → KeyedForest κ ν β
  | nil, first, path => chain value first path
  | cons key label old children rest, first, path =>
      if first.1 < key then
        (chain value first path).append (cons key label old children rest)
      else if first.1 = key then
        match path with
        | [] => cons key first.2 (some value) children rest
        | next :: path => cons key label old (children.insert value next path) rest
      else cons key label old children (rest.insert value first path)

section Insert

variable [LinearOrder κ] {value : β} {old : Option β} {key : κ} {label : ν} {first : κ × ν}
  {path : List (κ × ν)} {children rest : KeyedForest κ ν β}

theorem insert_nil : nil.insert value first path = chain value first path :=
  rfl

theorem insert_cons :
    (cons key label old children rest).insert value first path =
      if first.1 < key then
        (chain value first path).append (cons key label old children rest)
      else if first.1 = key then
        match path with
        | [] => cons key first.2 (some value) children rest
        | next :: path => cons key label old (children.insert value next path) rest
      else cons key label old children (rest.insert value first path) :=
  rfl

end Insert

section Values

variable {value : β} {first : κ × ν} {path : List (κ × ν)} {forest other : KeyedForest κ ν β}

theorem values_append : (forest.append other).values = forest.values ++ other.values := by
  induction forest with
  | nil => rfl
  | cons key label old children rest _ ih =>
      simp only [append, values, ih, List.append_assoc]

theorem values_chain :
    (chain value first path).values = [(first.1 :: path.map Prod.fst, value)] := by
  induction path generalizing first with
  | nil => rfl
  | cons next path ih =>
      obtain ⟨key, label⟩ := first
      rw [chain, values, ih]
      rfl

/-- Putting a value at a path that has none adds it. -/
theorem values_insert_perm [LinearOrder κ]
    (hfresh : first.1 :: path.map Prod.fst ∉ forest.values.map Prod.fst) :
    (forest.insert value first path).values.Perm
      ((first.1 :: path.map Prod.fst, value) :: forest.values) := by
  induction forest generalizing first path with
  | nil => rw [insert_nil, values_chain, values]
  | cons key label old children rest ihChildren ihRest =>
      simp only [values, List.map_append, List.map_map, List.mem_append, not_or] at hfresh
      obtain ⟨⟨hold, hchildren⟩, hrest⟩ := hfresh
      rw [insert_cons]
      split_ifs with hlt heq
      · rw [values_append, values_chain]
        rfl
      · cases path with
        | nil =>
            -- the node has no value, since its path is fresh
            have hnone : old = none := by
              cases old with
              | none => rfl
              | some old => exact absurd (by simp [heq]) hold
            rw [hnone, heq]
            rfl
        | cons next path =>
            rw [values, values]
            have hfresh' : next.1 :: path.map Prod.fst ∉ children.values.map Prod.fst := by
              intro hmem
              obtain ⟨entry, hentry, hkeys⟩ := List.mem_map.mp hmem
              refine hchildren (List.mem_map.mpr ⟨entry, hentry, ?_⟩)
              simp [hkeys, heq]
            have hperm := (ihChildren hfresh').map fun entry => (key :: entry.1, entry.2)
            rw [List.map_cons] at hperm
            rw [List.append_assoc, List.append_assoc, List.map_cons, heq]
            exact ((hperm.append_right _).append_left _).trans List.perm_middle
      · rw [values, values]
        exact ((ihRest hrest).append_left _).trans List.perm_middle

end Values

section Properties

variable {value : β} {first : κ × ν} {path : List (κ × ν)} {forest other : KeyedForest κ ν β}
  {P : κ → ν → Option β → Prop}

theorem All.append (h : forest.All P) (hother : other.All P) : (forest.append other).All P := by
  induction forest with
  | nil => exact hother
  | cons key label old children rest _ ih => exact ⟨h.1, h.2.1, ih h.2.2⟩

theorem All.imp {Q : κ → ν → Option β → Prop} (h : forest.All P)
    (himp : ∀ key label value, P key label value → Q key label value) : forest.All Q := by
  induction forest with
  | nil => trivial
  | cons key label old children rest ihChildren ihRest =>
      exact ⟨himp _ _ _ h.1, ihChildren h.2.1, ihRest h.2.2⟩

/-- The keys on the paths have the properties of keys. -/
theorem All.mem_paths {Q : κ → Prop} (h : forest.All fun key _ _ => Q key) {keyPath : List κ}
    (hmem : keyPath ∈ forest.paths) : keyPath ≠ [] ∧ ∀ key ∈ keyPath, Q key := by
  induction forest generalizing keyPath with
  | nil => cases hmem
  | cons key label old children rest ihChildren ihRest =>
      rw [paths, List.cons_append, List.mem_cons, List.mem_append] at hmem
      rcases hmem with rfl | hchildren | hrest
      · exact ⟨List.cons_ne_nil _ _, List.forall_mem_singleton.mpr h.1⟩
      · obtain ⟨below, hbelow, rfl⟩ := List.mem_map.mp hchildren
        exact ⟨List.cons_ne_nil _ _, List.forall_mem_cons.mpr ⟨h.1, (ihChildren h.2.1 hbelow).2⟩⟩
      · exact ihRest h.2.2 hrest

/-- A property of keys and labels that the entries of the path have is kept. -/
theorem All.insert [LinearOrder κ] {Q : κ → ν → Prop}
    (h : forest.All fun key label _ => Q key label)
    (hpath : ∀ entry ∈ first :: path, Q entry.1 entry.2) :
    (forest.insert value first path).All fun key label _ => Q key label := by
  have hchain : ∀ {first : κ × ν} {path : List (κ × ν)},
      (∀ entry ∈ first :: path, Q entry.1 entry.2) →
        (chain value first path).All fun key label _ => Q key label := by
    intro first path hpath
    induction path generalizing first with
    | nil => exact ⟨hpath first List.mem_cons_self, trivial, trivial⟩
    | cons next path ih =>
        exact ⟨hpath first List.mem_cons_self,
          ih fun entry hentry => hpath entry (List.mem_cons_of_mem _ hentry), trivial⟩
  induction forest generalizing first path with
  | nil => exact hchain hpath
  | cons key label old children rest ihChildren ihRest =>
      rw [insert_cons]
      obtain ⟨hnode, hchildren, hrest⟩ := h
      split_ifs with hlt heq
      · exact (hchain hpath).append ⟨hnode, hchildren, hrest⟩
      · cases path with
        | nil => exact ⟨heq ▸ hpath first List.mem_cons_self, hchildren, hrest⟩
        | cons next path =>
            exact ⟨hnode, ihChildren hchildren
              fun entry hentry => hpath entry (List.mem_cons_of_mem _ hentry), hrest⟩
      · exact ⟨hnode, hchildren, ihRest hrest hpath⟩

section Order

variable [LinearOrder κ]

/-- Keys of an insertion: those that were there, and the first of the path. -/
theorem mem_keys_insert {key : κ} (h : key ∈ (forest.insert value first path).keys) :
    key = first.1 ∨ key ∈ forest.keys := by
  have hchain : (chain value first path).keys = [first.1] := by
    cases path <;> rfl
  induction forest with
  | nil =>
      rw [insert_nil, hchain, List.mem_singleton] at h
      exact Or.inl h
  | cons other label old children rest _ ih =>
      rw [insert_cons] at h
      split_ifs at h with hlt heq
      · have happend : ((chain value first path).append
            (cons other label old children rest)).keys =
            first.1 :: (cons other label old children rest).keys := by
          cases path <;> rfl
        rw [happend, List.mem_cons] at h
        exact h
      · refine Or.inr ?_
        cases path <;> exact h
      · rw [keys, List.mem_cons] at h
        rcases h with rfl | hmem
        · exact Or.inr List.mem_cons_self
        · rcases ih hmem with hfirst | hrest
          · exact Or.inl hfirst
          · exact Or.inr (List.mem_cons_of_mem _ hrest)

theorem Sorted.insert (h : forest.Sorted) : (forest.insert value first path).Sorted := by
  have hchain : ∀ {first : κ × ν} {path : List (κ × ν)}, (chain value first path).Sorted := by
    intro first path
    induction path generalizing first with
    | nil => exact ⟨List.forall_mem_nil _, trivial, trivial⟩
    | cons next path ih => exact ⟨List.forall_mem_nil _, ih, trivial⟩
  induction forest generalizing first path with
  | nil => exact hchain
  | cons key label old children rest ihChildren ihRest =>
      obtain ⟨hkeys, hchildren, hrest⟩ := h
      rw [insert_cons]
      split_ifs with hlt heq
      · -- the new node comes before all of the siblings
        have hbefore : ∀ other ∈ (cons key label old children rest).keys, first.1 < other := by
          intro other hmem
          rcases List.mem_cons.mp hmem with rfl | hmem
          · exact hlt
          · exact hlt.trans (hkeys other hmem)
        cases path with
        | nil => exact ⟨hbefore, trivial, hkeys, hchildren, hrest⟩
        | cons next path => exact ⟨hbefore, hchain, hkeys, hchildren, hrest⟩
      · cases path with
        | nil => exact ⟨hkeys, hchildren, hrest⟩
        | cons next path => exact ⟨hkeys, ihChildren hchildren, hrest⟩
      · refine ⟨fun other hmem => ?_, hchildren, ihRest hrest⟩
        rcases mem_keys_insert hmem with rfl | hmem
        · exact lt_of_le_of_ne (not_lt.mp hlt) (Ne.symm heq)
        · exact hkeys other hmem

end Order

/-- A path goes through a key of the siblings. -/
theorem exists_key_of_mem_paths {keyPath : List κ} (h : keyPath ∈ forest.paths) :
    ∃ key ∈ forest.keys, ∃ below, keyPath = key :: below := by
  induction forest with
  | nil => cases h
  | cons key label old children rest _ ih =>
      rw [paths, List.cons_append, List.mem_cons, List.mem_append] at h
      rcases h with rfl | hchildren | hrest
      · exact ⟨key, List.mem_cons_self, [], rfl⟩
      · obtain ⟨below, -, rfl⟩ := List.mem_map.mp hchildren
        exact ⟨key, List.mem_cons_self, below, rfl⟩
      · obtain ⟨other, hother, below, rfl⟩ := ih hrest
        exact ⟨other, List.mem_cons_of_mem _ hother, below, rfl⟩

/-- Each node of a sorted forest has a path of its own. -/
theorem Sorted.nodup_paths [LinearOrder κ] (h : forest.Sorted) : forest.paths.Nodup := by
  induction forest with
  | nil => exact List.nodup_nil
  | cons key label old children rest ihChildren ihRest =>
      obtain ⟨hkeys, hchildren, hrest⟩ := h
      rw [paths, List.cons_append, List.nodup_cons, List.nodup_append, List.mem_append, not_or]
      refine ⟨⟨?_, ?_⟩, ?_, ihRest hrest, ?_⟩
      · intro hmem
        obtain ⟨below, hbelow, heq⟩ := List.mem_map.mp hmem
        obtain ⟨other, -, deeper, rfl⟩ := exists_key_of_mem_paths hbelow
        cases heq
      · intro hmem
        obtain ⟨other, hother, below, heq⟩ := exists_key_of_mem_paths hmem
        cases heq
        exact lt_irrefl _ (hkeys _ hother)
      · exact List.Nodup.map List.cons_injective (ihChildren hchildren)
      · intro keyPath hmem other hother heq
        obtain ⟨below, -, rfl⟩ := List.mem_map.mp hmem
        obtain ⟨second, hsecond, deeper, rfl⟩ := exists_key_of_mem_paths hother
        cases heq
        exact lt_irrefl _ (hkeys _ hsecond)

end Properties

end KeyedForest
