import Wiicompiled.Storage.DvdFstWalk

/-!
# The bytes of an image

Every entry of an image is recorded in twelve bytes, and its name is in the table of names.
The recorded layout of a tree is a well-formed table, and its nodes are those of the tree.
-/

namespace Wiicompiled.Storage.DvdFst

open ByteImage

/-! ## Records -/

/-- What is read of a name: the bytes before a zero. -/
def cut (name : Text) : Text :=
  name.takeWhile (· ≠ 0)

/-- The nodes of a tree from an index on, with the names that are read. -/
def treeNodes : Text → ℕ → Children → List TableNode
  | _, _, .nil => []
  | path, start, .cons _ name file children rest =>
      ⟨start, slash :: relativePath path (cut name),
        file.map fun file => (file.discOffsetWords.toNat, file.size.toNat)⟩ ::
        (treeNodes (relativePath path (cut name)) (start + 1) children ++
          treeNodes path (start + 1 + children.count) rest)

def Recorded (data : List UInt8) (stringBase : ℕ) :
    ℕ → List IndexedEntry → List Text → Prop
  | _, [], [] => True
  | index, entry :: entries, name :: names =>
      (∃ nameOffset, HasName data stringBase nameOffset (cut name) ∧
        window data (index * 12) 12 = recordBytes entry nameOffset) ∧
      Recorded data stringBase (index + 1) entries names
  | _, _, _ => False

section Records

variable {data : List UInt8} {stringBase index nameOffset : ℕ} {entry : IndexedEntry}
  {entries entries' : List IndexedEntry} {names names' : List Text} {name : Text}

theorem recorded_append (hlength : entries.length = names.length) :
    Recorded data stringBase index (entries ++ entries') (names ++ names') ↔
      Recorded data stringBase index entries names ∧
        Recorded data stringBase (index + entries.length) entries' names' := by
  induction entries generalizing index names with
  | nil =>
      rw [List.length_nil, eq_comm, List.length_eq_zero_iff] at hlength
      rw [hlength, List.nil_append, List.nil_append, Recorded, true_and]
      rfl
  | cons entry entries ih =>
      cases names with
      | nil => cases hlength
      | cons name names =>
          rw [List.length_cons, List.length_cons, Nat.succ_inj] at hlength
          rw [List.cons_append, List.cons_append, Recorded, Recorded, ih hlength, and_assoc,
            List.length_cons, Nat.add_right_comm index 1, Nat.add_assoc index]

theorem read32_of_recorded (h : window data (index * 12) 12 = recordBytes entry nameOffset)
    (hlt : nameOffset < 2 ^ 24) :
    read32 data (index * 12) = (if entry.isDirectory then 2 ^ 24 else 0) + nameOffset ∧
      read32 data (index * 12 + 4) =
        (if entry.isDirectory then entry.parentIndex else entry.discOffsetWords.toNat) % 2 ^ 32 ∧
      read32 data (index * 12 + 8) =
        (if entry.isDirectory then entry.subtreeEnd else entry.size.toNat) % 2 ^ 32 := by
  have hwindow : ∀ offset, offset + 4 ≤ 12 → window data (index * 12 + offset) 4 =
      ((window data (index * 12) 12).drop offset).take 4 := by
    intro offset hoffset
    rw [window, window, List.drop_take, List.take_take, List.drop_drop, Nat.min_eq_left]
    omega
  have htype : ((if entry.isDirectory then 0x01000000 else 0) ||| nameOffset) =
      (if entry.isDirectory then 2 ^ 24 else 0) + nameOffset := by
    by_cases hdirectory : entry.isDirectory
    · rw [if_pos hdirectory, if_pos hdirectory]
      exact (Nat.two_pow_add_eq_or_of_lt hlt 1).symm
    · rw [if_neg hdirectory, if_neg hdirectory, Nat.zero_or, Nat.zero_add]
  have hsmall : ((if entry.isDirectory then 2 ^ 24 else 0) + nameOffset) % 256 ^ 4 =
      (if entry.isDirectory then 2 ^ 24 else 0) + nameOffset := by
    refine Nat.mod_eq_of_lt ?_
    split_ifs <;> omega
  refine ⟨?_, ?_, ?_⟩
  · rw [read32, ← Nat.add_zero (index * 12), hwindow 0 (by omega), h, recordBytes, htype,
      List.append_assoc, List.drop_zero, List.take_left' (length_toBytes 4 _),
      fromBytes_toBytes, hsmall]
  · rw [read32, hwindow 4 (by omega), h, recordBytes, List.append_assoc,
      List.drop_left' (length_toBytes 4 _), List.take_left' (length_toBytes 4 _),
      fromBytes_toBytes]
    rfl
  · rw [read32, hwindow 8 (by omega), h, recordBytes,
      List.drop_left' (by simp), List.take_of_length_le (by simp), fromBytes_toBytes]
    rfl

theorem nested_of_recorded {tree : Children} {parent start : ℕ} {directoryPath path : Text}
    (hproper : Proper tree)
    (h : Recorded data stringBase start (layout tree parent directoryPath start) (labels tree))
    (hparent : parent < 2 ^ 32) (hcount : start + tree.count < 2 ^ 32) :
    Nested data stringBase start (start + tree.count) parent path
      (treeNodes path start tree) := by
  induction tree generalizing parent start directoryPath path with
  | nil => exact .nil
  | cons key name file children rest ihChildren ihRest =>
      obtain ⟨hfile, hchildren, hrest⟩ := hproper
      rw [KeyedForest.count] at hcount
      have hlength : (layout children start (childPath directoryPath name) (start + 1)).length =
          (labels children).length := by
        rw [length_layout, length_labels]
      rw [layout, labels, List.cons_append, List.cons_append, Recorded,
        recorded_append hlength, length_layout] at h
      obtain ⟨⟨nameOffset, hname, hwindow⟩, hbelow, hafter⟩ := h
      obtain ⟨hword0, hword1, hword2⟩ := read32_of_recorded hwindow hname.1
      have hrestNodes : Nested data stringBase (start + 1 + children.count)
          (start + 1 + children.count + rest.count) parent path
          (treeNodes path (start + 1 + children.count) rest) :=
        ihRest hrest hafter hparent (by omega)
      rw [show start + 1 + children.count + rest.count =
        start + (1 + children.count + rest.count) by omega] at hrestNodes
      rw [KeyedForest.count, treeNodes]
      cases file with
      | some file =>
          have hnil : children = .nil := by
            by_contra hne
            exact absurd (hfile.mpr hne) (by simp)
          rw [hnil] at hrestNodes ⊢
          exact .file (hword0.trans (Nat.zero_add _)) hname
            (hword1.trans (Nat.mod_eq_of_lt file.discOffsetWords.isLt))
            (hword2.trans (Nat.mod_eq_of_lt file.size.isLt)) hrestNodes
      | none =>
          have hparent' : parent % 2 ^ 32 = parent := Nat.mod_eq_of_lt hparent
          have hend : (start + 1 + children.count) % 2 ^ 32 = start + 1 + children.count :=
            Nat.mod_eq_of_lt (by omega)
          refine .directory hword0 hname (hword1.trans hparent') (hword2.trans hend) ?_
            hrestNodes
          exact ihChildren hchildren hbelow (by omega) (by omega)

end Records

/-! ## The table of names -/

section Names

variable {data table result : List UInt8} {stringBase index : ℕ} {entries : List IndexedEntry}
  {names : List Text} {offsets : List ℕ} {registrations : List RegisteredFile} {image : Image}

theorem buildStringTable_spec (h : buildStringTable names table = .ok (offsets, result)) :
    table <+: result ∧
      List.Forall₂ (fun name offset => offset < 2 ^ 24 ∧
        ∃ rest, result.drop offset = name ++ 0 :: rest) names offsets := by
  induction names generalizing table offsets with
  | nil =>
      cases h
      exact ⟨List.prefix_rfl, .nil⟩
  | cons name names ih =>
      rw [buildStringTable] at h
      by_cases hlarge : 0x00FFFFFF < table.length
      · rw [if_pos hlarge] at h
        cases h
      · rw [if_neg hlarge] at h
        obtain ⟨⟨later, result'⟩, hlater, h⟩ := exists_ok_of_bind h
        cases h
        obtain ⟨⟨rest, hrest⟩, hnames⟩ := ih hlater
        refine ⟨⟨name ++ [0] ++ rest, by rw [← hrest]; simp⟩, .cons ⟨by omega, rest, ?_⟩ hnames⟩
        rw [← hrest, List.append_assoc, List.append_assoc, List.drop_left' rfl]
        simp

theorem cut_append_zero {name rest : Text} : cut (name ++ 0 :: rest) = cut name := by
  induction name with
  | nil => rfl
  | cons byte name ih =>
      rw [cut, List.cons_append, List.takeWhile_cons, ← cut, ih, cut, cut, List.takeWhile_cons]

theorem hasName_of_drop {name rest : Text} {offset : ℕ} (hlt : offset < 2 ^ 24)
    (h : data.drop (stringBase + offset) = name ++ 0 :: rest) :
    HasName data stringBase offset (cut name) := by
  refine ⟨hlt, by rw [h]; simp, ?_⟩
  rw [cString, h]
  exact cut_append_zero

theorem recorded_of_drop
    (hnames : List.Forall₂ (fun name offset => HasName data stringBase offset (cut name))
      names offsets)
    (hlength : entries.length = offsets.length)
    (hdrop : data.drop (index * 12) =
      ((entries.zip offsets).flatMap fun entry => recordBytes entry.1 entry.2) ++ table) :
    Recorded data stringBase index entries names := by
  induction hnames generalizing index entries with
  | nil =>
      rw [List.length_nil, List.length_eq_zero_iff] at hlength
      rw [hlength]
      trivial
  | @cons name offset names offsets hname _ ih =>
      cases entries with
      | nil => cases hlength
      | cons entry entries =>
          have hrecord : (recordBytes entry offset).length = 12 := by simp [recordBytes]
          rw [List.zip_cons_cons, List.flatMap_cons, List.append_assoc] at hdrop
          refine ⟨⟨offset, hname, ?_⟩, ih (Nat.succ_inj.mp hlength) ?_⟩
          · rw [window, hdrop, List.take_left' hrecord]
          · rw [Nat.add_one_mul, ← List.drop_drop, hdrop, List.drop_left' hrecord]

end Names

end Wiicompiled.Storage.DvdFst
