import Wiicompiled.Storage.DvdFstTree
import Mathlib.Data.List.TakeWhile

/-!
# Images encode the registered files

The entries of an image hold, for each lookup path, the file that was registered last.  The
path index tells the entries apart, the bytes are a well-formed table, and the reader finds
the files that its own limits admit.
-/

namespace Wiicompiled.Storage.DvdFst

def lookupForm (file : RegisteredFile) : RegisteredFile :=
  { file with dvdPath := normalizeLookupPath file.dvdPath }

/-- The file of an entry, with its path in lookup form. -/
def entryFile (entry : IndexedEntry) : Option RegisteredFile :=
  if entry.isDirectory then none
  else some ⟨entry.hostPath, normalizeLookupPath entry.dvdPath, entry.size,
    entry.discOffsetWords⟩

def entryNode (entry : IndexedEntry × ℕ) : TableNode :=
  ⟨entry.2, entry.1.dvdPath,
    if entry.1.isDirectory then none
    else some (entry.1.discOffsetWords.toNat, entry.1.size.toNat)⟩

/-! ## Paths of the layout -/

section Layout

variable {names : List Text} {name path : Text} {tree : Children} {parent start : ℕ}
  {P : Text → Prop}

theorem intercalate_append_singleton (h : names ≠ []) :
    [slash].intercalate (names ++ [name]) = [slash].intercalate names ++ slash :: name := by
  induction names with
  | nil => exact absurd rfl h
  | cons first names ih =>
      cases names with
      | nil =>
          rw [List.singleton_append, List.intercalate_cons_cons, List.intercalate_singleton,
            List.intercalate_singleton, List.append_assoc]
          rfl
      | cons second names =>
          have hrest := ih (by simp)
          rw [List.cons_append] at hrest
          rw [List.cons_append, List.cons_append, List.intercalate_cons_cons, hrest,
            List.intercalate_cons_cons, List.append_assoc, List.append_assoc, List.append_assoc]

theorem childPath_joinPath (h : ∀ name ∈ names, Clean name) :
    childPath (joinPath names) name = joinPath (names ++ [name]) := by
  by_cases hnil : names = []
  · have hroot : joinPath [] = [slash] := rfl
    rw [hnil, childPath, if_pos hroot, joinPath, List.nil_append, List.intercalate_singleton]
  · have hroot : joinPath names ≠ [slash] := by
      intro heq
      exact hnil (joinPath_inj h (List.forall_mem_nil _) heq)
    rw [childPath, if_neg hroot, joinPath, joinPath, intercalate_append_singleton hnil]
    rfl

theorem childPath_cons : childPath (slash :: path) name = slash :: relativePath path name := by
  rw [childPath, relativePath]
  by_cases hnil : path = []
  · rw [if_pos (by rw [hnil]), if_pos hnil]
  · rw [if_neg (by simpa using hnil), if_neg hnil]
    rfl

theorem clean_append_singleton (h : ∀ name ∈ names, Clean name) (hname : Clean name) :
    ∀ other ∈ names ++ [name], Clean other := by
  intro other hother
  rcases List.mem_append.mp hother with hmem | hmem
  · exact h other hmem
  · rw [List.mem_singleton.mp hmem]
    exact hname

theorem map_layout (parent start : ℕ)
    (htree : tree.All fun key label _ => key = lowercase label ∧ Clean label)
    (hnames : ∀ name ∈ names, Clean name) :
    (layout tree parent (joinPath names) start).map (normalizeLookupPath ·.dvdPath) =
      tree.paths.map fun keys => joinPath (names.map lowercase ++ keys) := by
  induction tree generalizing parent start names with
  | nil => rfl
  | cons key label file children rest ihChildren ihRest =>
      obtain ⟨⟨rfl, hlabel⟩, hchildren, hrest⟩ := htree
      have hclean := clean_append_singleton hnames hlabel
      have hpath : (nodeEntry file (childPath (joinPath names) label) parent
          (start + 1 + children.count)).dvdPath = joinPath (names ++ [label]) := by
        rw [← childPath_joinPath hnames]
        cases file <;> rfl
      rw [layout, KeyedForest.paths, List.map_append, List.map_append, List.map_cons,
        List.map_cons, ihRest _ _ hrest hnames, childPath_joinPath hnames,
        ihChildren _ _ hchildren hclean, List.map_map, ← childPath_joinPath hnames, hpath,
        normalizeLookupPath_joinPath hclean, List.map_append]
      simp only [List.map_cons, List.map_nil, List.append_assoc, List.singleton_append,
        Function.comp_def]

/-- The files of a layout are the values of the tree, at their paths of keys. -/
theorem filterMap_layout (parent start : ℕ)
    (htree : tree.All fun key label _ => key = lowercase label ∧ Clean label)
    (hproper : Proper tree) (hnames : ∀ name ∈ names, Clean name) :
    (layout tree parent (joinPath names) start).filterMap entryFile =
      tree.values.map fun value =>
        { value.2 with dvdPath := joinPath (names.map lowercase ++ value.1) } := by
  induction tree generalizing parent start names with
  | nil => rfl
  | cons key label file children rest ihChildren ihRest =>
      obtain ⟨⟨rfl, hlabel⟩, hchildren, hrest⟩ := htree
      obtain ⟨-, hproperChildren, hproperRest⟩ := hproper
      have hclean := clean_append_singleton hnames hlabel
      have hbelow := ihChildren start (start + 1) hchildren hproperChildren hclean
      rw [layout, KeyedForest.values, List.filterMap_append, List.map_append, List.map_append,
        ihRest _ _ hrest hproperRest hnames, childPath_joinPath hnames]
      congr 1
      cases file with
      | none =>
          rw [List.filterMap_cons_none rfl, hbelow, List.map_map]
          simp [Function.comp_def]
      | some file =>
          have hfile : entryFile (nodeEntry (some file) (joinPath (names ++ [label])) parent
              (start + 1 + children.count)) = some { file with
                dvdPath := normalizeLookupPath (joinPath (names ++ [label])) } := rfl
          rw [List.filterMap_cons_some hfile, hbelow, List.map_map,
            normalizeLookupPath_joinPath hclean]
          simp [Function.comp_def]

/-- A tree whose labels have no zeros is read with its own labels. -/
theorem treeNodes_eq (parent : ℕ) (htree : tree.All fun _ label _ => 0 ∉ label)
    (hproper : Proper tree) :
    treeNodes path start tree =
      ((layout tree parent (slash :: path) start).zipIdx start).map entryNode := by
  induction tree generalizing parent start path with
  | nil => rfl
  | cons key label file children rest ihChildren ihRest =>
      obtain ⟨hlabel, hchildren, hrest⟩ := htree
      obtain ⟨-, hproperChildren, hproperRest⟩ := hproper
      have hcut : cut label = label :=
        List.takeWhile_eq_self_iff.mpr fun byte hbyte => by
          simpa using fun heq : byte = 0 => hlabel (heq ▸ hbyte)
      rw [treeNodes, layout, hcut, childPath_cons, List.cons_append, List.zipIdx_cons,
        List.zipIdx_append, length_layout, List.map_cons, List.map_append,
        ihChildren start hchildren hproperChildren,
        ihRest parent hrest hproperRest]
      cases file <;> rfl

end Layout

/-! ## The path index -/

section Index

variable {entries : List IndexedEntry} {map : Text → Option ℕ} {start index : ℕ} {path : Text}

/-- Paths that are new and differ are all added, each with its index. -/
theorem emplaceAll_eq_some_iff
    (hfresh : ∀ entry ∈ entries, map (normalizeLookupPath entry.dvdPath) = none)
    (hnodup : (entries.map (normalizeLookupPath ·.dvdPath)).Nodup) :
    emplaceAll map entries start path = some index ↔
      map path = some index ∨ ∃ place entry, entries[place]? = some entry ∧
        index = start + place ∧ normalizeLookupPath entry.dvdPath = path := by
  induction entries generalizing map start with
  | nil => simp [emplaceAll]
  | cons entry entries ih =>
      rw [List.forall_mem_cons] at hfresh
      rw [List.map_cons, List.nodup_cons] at hnodup
      obtain ⟨hentry, hfresh⟩ := hfresh
      have hfresh' : ∀ other ∈ entries, emplace map (normalizeLookupPath entry.dvdPath) start
          (normalizeLookupPath other.dvdPath) = none := by
        intro other hother
        rw [emplace, if_neg, hfresh other hother]
        rintro ⟨heq, -⟩
        exact hnodup.1 (heq ▸ List.mem_map_of_mem hother)
      rw [emplaceAll_cons, ih hfresh' hnodup.2, emplace]
      by_cases heq : path = normalizeLookupPath entry.dvdPath
      · rw [if_pos ⟨heq, hentry⟩, heq, hentry]
        constructor
        · rintro (hstart | ⟨place, other, hother, -, hpath⟩)
          · exact Or.inr ⟨0, entry, rfl, (Option.some_injective _ hstart).symm, rfl⟩
          · exact absurd (hpath ▸ List.mem_map_of_mem (List.mem_of_getElem? hother)) hnodup.1
        · rintro (hnone | ⟨place, other, hother, hindex, hpath⟩)
          · cases hnone
          · cases place with
            | zero => exact Or.inl (congrArg some hindex.symm)
            | succ place =>
                exact absurd (hpath ▸ List.mem_map_of_mem (List.mem_of_getElem? hother))
                  hnodup.1
      · rw [if_neg fun h => heq h.1]
        refine or_congr_right ⟨?_, ?_⟩
        · rintro ⟨place, other, hother, hindex, hpath⟩
          exact ⟨place + 1, other, hother, by omega, hpath⟩
        · rintro ⟨place, other, hother, hindex, hpath⟩
          cases place with
          | zero =>
              cases hother
              exact absurd hpath.symm heq
          | succ place => exact ⟨place, other, hother, by omega, hpath⟩

end Index

end Wiicompiled.Storage.DvdFst
