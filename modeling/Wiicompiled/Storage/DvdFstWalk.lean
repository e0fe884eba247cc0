import Wiicompiled.Storage.DvdFstLayout

/-!
# Well-formed tables

A table is well formed when the entries of each directory lie one after another between
the index behind it and its end, those of the directories below it nested in the same way,
and every name ends with a zero.  Walking a well-formed table with a stack of open
directories meets its nodes in the order of their indices.
-/

namespace Wiicompiled.Storage.DvdFst

open ByteImage

/-- A node of a table: its index, its path, and the offset and size of a file. -/
structure TableNode where
  index : ℕ
  dvdPath : Text
  file : Option (ℕ × ℕ)
deriving DecidableEq

def HasName (data : List UInt8) (stringBase nameOffset : ℕ) (name : Text) : Prop :=
  nameOffset < 2 ^ 24 ∧ 0 ∈ data.drop (stringBase + nameOffset) ∧
    cString data (stringBase + nameOffset) = name

/-- The entries from an index up to another are those of a directory. -/
inductive Nested (data : List UInt8) (stringBase : ℕ) :
    ℕ → ℕ → ℕ → Text → List TableNode → Prop where
  | nil {stop parent : ℕ} {path : Text} : Nested data stringBase stop stop parent path []
  | file {index stop parent nameOffset words size : ℕ} {path name : Text}
      {nodes : List TableNode}
      (hnameWord : read32 data (index * 12) = nameOffset)
      (hname : HasName data stringBase nameOffset name)
      (hwords : read32 data (index * 12 + 4) = words)
      (hsize : read32 data (index * 12 + 8) = size)
      (hrest : Nested data stringBase (index + 1) stop parent path nodes) :
      Nested data stringBase index stop parent path
        (⟨index, slash :: relativePath path name, some (words, size)⟩ :: nodes)
  | directory {index subtreeEnd stop parent nameOffset : ℕ} {path name : Text}
      {below nodes : List TableNode}
      (hnameWord : read32 data (index * 12) = 2 ^ 24 + nameOffset)
      (hname : HasName data stringBase nameOffset name)
      (hparent : read32 data (index * 12 + 4) = parent)
      (hend : read32 data (index * 12 + 8) = subtreeEnd)
      (hbelow : Nested data stringBase (index + 1) subtreeEnd index
        (relativePath path name) below)
      (hrest : Nested data stringBase subtreeEnd stop parent path nodes) :
      Nested data stringBase index stop parent path
        (⟨index, slash :: relativePath path name, none⟩ :: (below ++ nodes))

/-- A table with a number of entries, the first of them the root. -/
structure WellFormed (data : List UInt8) (count : ℕ) (nodes : List TableNode) : Prop where
  room : count * 12 < data.length
  rootName : read32 data 0 = 2 ^ 24
  rootParent : read32 data 4 = 0
  rootEnd : read32 data 8 = count
  nested : Nested data (count * 12) 1 count 0 [] nodes

/-- What is loaded for a node: a file whose offset in bytes fits in a word. -/
def loadedFile (node : TableNode) : Option FstFileEntry :=
  match node.file with
  | none => none
  | some (words, size) =>
      if 0xFFFFFFFF < words * 4 then none
      else some ⟨words * 4, (words * 4 + size) % 2 ^ 32, size, node.dvdPath⟩

section Walk

variable {data : List UInt8} {stringBase index stop parent count subtreeEnd nameOffset : ℕ}
  {path name : Text} {nodes : List TableNode} {stack : List (ℕ × Text)}

theorem Nested.le (h : Nested data stringBase index stop parent path nodes) :
    index ≤ stop := by
  induction h with
  | nil => exact le_rfl
  | file _ _ _ _ _ ih => omega
  | directory _ _ _ _ _ _ ihBelow ihRest => omega

theorem settle_of_lt (h : index < subtreeEnd) :
    settle ((subtreeEnd, path) :: stack) index = (subtreeEnd, path) :: stack := by
  rw [settle, List.dropWhile_cons_of_neg (by simpa using h)]

theorem walkEntries_settled (h : subtreeEnd ≤ index) :
    walkEntries data stringBase count index ((subtreeEnd, path) :: stack) =
      walkEntries data stringBase count index stack := by
  have hsettle : settle ((subtreeEnd, path) :: stack) index = settle stack index := by
    rw [settle, List.dropWhile_cons_of_pos (by simpa using h), settle]
  cases count with
  | zero => rfl
  | succ count => rw [walkEntries, walkEntries, hsettle]

theorem HasName.lt (h : HasName data stringBase nameOffset name) :
    ¬data.length ≤ stringBase + nameOffset := by
  intro hle
  have hmem := h.2.1
  rw [List.drop_of_length_le hle] at hmem
  cases hmem

theorem walkEntries_file (hopen : index < subtreeEnd)
    (hnameWord : read32 data (index * 12) = nameOffset)
    (hname : HasName data stringBase nameOffset name) :
    walkEntries data stringBase (count + 1) index ((subtreeEnd, path) :: stack) =
      (loadedFile ⟨index, slash :: relativePath path name,
        some (read32 data (index * 12 + 4), read32 data (index * 12 + 8))⟩).toList ++
      walkEntries data stringBase count (index + 1) ((subtreeEnd, path) :: stack) := by
  have hmod : nameOffset % 2 ^ 24 = nameOffset := Nat.mod_eq_of_lt hname.1
  have hdiv : nameOffset / 2 ^ 24 = 0 := Nat.div_eq_of_lt hname.1
  rw [walkEntries, settle_of_lt hopen]
  dsimp only
  rw [hnameWord, hmod, hdiv, if_neg hname.lt, if_neg (not_not.mpr rfl), hname.2.2, loadedFile]
  dsimp only
  by_cases hlarge : 0xFFFFFFFF < read32 data (index * 12 + 4) * 4
  · rw [if_pos hlarge, if_pos hlarge]
    rfl
  · rw [if_neg hlarge, if_neg hlarge]
    rfl

theorem walkEntries_directory (hopen : index < subtreeEnd)
    (hnameWord : read32 data (index * 12) = 2 ^ 24 + nameOffset)
    (hname : HasName data stringBase nameOffset name) :
    walkEntries data stringBase (count + 1) index ((subtreeEnd, path) :: stack) =
      walkEntries data stringBase count (index + 1)
        ((read32 data (index * 12 + 8), relativePath path name) ::
          (subtreeEnd, path) :: stack) := by
  have hlt := hname.1
  have hmod : (2 ^ 24 + nameOffset) % 2 ^ 24 = nameOffset := by omega
  have hdiv : (2 ^ 24 + nameOffset) / 2 ^ 24 ≠ 0 := by omega
  rw [walkEntries, settle_of_lt hopen]
  dsimp only
  rw [hnameWord, hmod, if_neg hname.lt, if_pos hdiv, hname.2.2]

theorem walkEntries_of_nested (h : Nested data stringBase index stop parent path nodes)
    (hopen : stop ≤ subtreeEnd) (hcount : stop ≤ index + count) :
    walkEntries data stringBase count index ((subtreeEnd, path) :: stack) =
      nodes.filterMap loadedFile ++
        walkEntries data stringBase (index + count - stop) stop
          ((subtreeEnd, path) :: stack) := by
  induction h generalizing subtreeEnd count stack with
  | nil =>
      rw [List.filterMap_nil, List.nil_append, Nat.add_sub_cancel_left]
  | @file index stop parent nameOffset words size path name nodes hnameWord hname hwords hsize
      hrest ih =>
      have hle := hrest.le
      obtain ⟨count, rfl⟩ : ∃ rest, count = rest + 1 := ⟨count - 1, by omega⟩
      rw [walkEntries_file (by omega) hnameWord hname, hwords, hsize,
        ih hopen (by omega), ← List.append_assoc]
      congr 1
      · cases hloaded : loadedFile ⟨index, slash :: relativePath path name, some (words, size)⟩ with
        | none => rw [List.filterMap_cons_none hloaded]; rfl
        | some loaded => rw [List.filterMap_cons_some hloaded]; rfl
      · rw [show index + 1 + count = index + (count + 1) by omega]
  | @directory index inner stop parent nameOffset path name below nodes hnameWord hname hparent
      hend hbelow hrest ihBelow ihRest =>
      have hle := hbelow.le
      have hle' := hrest.le
      obtain ⟨count, rfl⟩ : ∃ rest, count = rest + 1 := ⟨count - 1, by omega⟩
      -- the directory is open up to its end, and is left there
      rw [walkEntries_directory (by omega) hnameWord hname, hend, ihBelow le_rfl (by omega),
        walkEntries_settled le_rfl, ihRest hopen (by omega), List.filterMap_cons_none rfl,
        List.filterMap_append, List.append_assoc,
        show inner + (index + 1 + count - inner) = index + (count + 1) by omega]

theorem WellFormed.fstFiles_eq (h : WellFormed data count nodes) (hcount : count ≤ 0x10000) :
    fstFiles data = nodes.filterMap loadedFile := by
  have hle := h.nested.le
  have hroom := h.room
  unfold fstFiles
  dsimp only
  rw [if_neg (by omega), h.rootEnd, if_neg (by omega), if_neg (by omega),
    walkEntries_of_nested h.nested le_rfl (by omega),
    show 1 + (count - 1) - count = 0 by omega]
  exact List.append_nil _

end Walk

end Wiicompiled.Storage.DvdFst
