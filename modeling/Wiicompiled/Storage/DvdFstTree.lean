import Wiicompiled.Storage.DvdFstEncoding

/-!
# The tree of registered files

One file is kept for each lookup path, the one that was registered last.  The kept files
are the values of the tree, at the lower case of their components, and the paths of the
layout are told apart by their lookup forms.
-/

namespace Wiicompiled.Storage.DvdFst

def lastRegistration (registrations : List RegisteredFile) (path : Text) :
    Option RegisteredFile :=
  (registrations.filter fun file => normalizeLookupPath file.dvdPath = path).getLast?

def canonicalFile (file : RegisteredFile) : RegisteredFile :=
  { file with dvdPath := canonicalizePath file.dvdPath }

def keyPath (file : RegisteredFile) : List Text :=
  (components file.dvdPath).map lowercase

/-! ## Kept files -/

section Collapse

variable {registrations : List RegisteredFile} {filesByPath : List (Text × RegisteredFile)}
  {input path : Text} {file : RegisteredFile}

theorem normalizeLookupPath_canonicalizePath :
    normalizeLookupPath (canonicalizePath input) = normalizeLookupPath input := by
  rw [canonicalizePath, normalizeLookupPath_joinPath clean_canonicalComponents,
    normalizeLookupPath_eq]

theorem collapse_spec (h : collapse registrations = .ok filesByPath) :
    (∀ file ∈ registrations, canonicalizePath file.dvdPath ≠ [slash]) ∧
      filesByPath = OrderedMap.assignAll (registrations.map fun file =>
        (normalizeLookupPath file.dvdPath, canonicalFile file)) := by
  have hfold : ∀ map : List (Text × RegisteredFile),
      registrations.foldlM (fun filesByPath (file : RegisteredFile) =>
        let file := { file with dvdPath := canonicalizePath file.dvdPath }
        if file.dvdPath = [slash] then .error .rootAsFile
        else .ok (OrderedMap.assign (normalizeLookupPath file.dvdPath) file filesByPath)) map =
        (Except.ok filesByPath : Except BuildError (List (Text × RegisteredFile))) →
      (∀ file ∈ registrations, canonicalizePath file.dvdPath ≠ [slash]) ∧
        filesByPath = (registrations.map fun file =>
          (normalizeLookupPath file.dvdPath, canonicalFile file)).foldl
            (fun map entry => OrderedMap.assign entry.1 entry.2 map) map := by
    clear h
    induction registrations with
    | nil =>
        intro map h
        cases h
        exact ⟨List.forall_mem_nil _, rfl⟩
    | cons file registrations ih =>
        intro map h
        rw [List.foldlM_cons] at h
        obtain ⟨next, hnext, h⟩ := exists_ok_of_bind h
        dsimp only at hnext
        by_cases hroot : canonicalizePath file.dvdPath = [slash]
        · rw [if_pos hroot] at hnext
          cases hnext
        · rw [if_neg hroot, normalizeLookupPath_canonicalizePath] at hnext
          cases hnext
          obtain ⟨hrest, heq⟩ := ih _ h
          exact ⟨List.forall_mem_cons.mpr ⟨hroot, hrest⟩, heq⟩
  exact hfold [] h

theorem mem_collapse_iff (h : collapse registrations = .ok filesByPath) :
    (path, file) ∈ filesByPath ↔
      (lastRegistration registrations path).map canonicalFile = some file := by
  rw [(collapse_spec h).2, OrderedMap.mem_assignAll_iff, List.filter_map,
    List.getLast?_map, lastRegistration]
  -- the tests are the same, with different decision procedures
  have hfilter : ∀ test : RegisteredFile → Bool,
      (∀ file, test file = true ↔ normalizeLookupPath file.dvdPath = path) →
        registrations.filter test = registrations.filter fun file =>
          normalizeLookupPath file.dvdPath = path := by
    intro test htest
    refine List.filter_congr fun file _ => ?_
    rw [Bool.eq_iff_iff, htest, decide_eq_true_iff]
  rw [hfilter _ fun file => by simp]
  cases hlast : (registrations.filter fun file =>
      decide (normalizeLookupPath file.dvdPath = path)).getLast? with
  | none => simp
  | some last =>
      have hmem := List.mem_of_getLast? hlast
      rw [List.mem_filter, decide_eq_true_iff] at hmem
      simp [hmem.2]

end Collapse

/-! ## The tree -/

section Tree

variable {file registered : RegisteredFile} {forest : Children}
  {entries : List (Text × RegisteredFile)} {P : Text → Prop}

theorem components_canonicalFile :
    components (canonicalFile registered).dvdPath = canonicalComponents registered.dvdPath :=
  components_joinPath clean_canonicalComponents

theorem joinPath_keyPath_canonicalFile :
    joinPath (keyPath (canonicalFile registered)) = normalizeLookupPath registered.dvdPath := by
  rw [keyPath, components_canonicalFile, normalizeLookupPath_eq]

theorem keyPath_canonicalFile_ne_nil (h : canonicalizePath registered.dvdPath ≠ [slash]) :
    keyPath (canonicalFile registered) ≠ [] := by
  rw [keyPath, components_canonicalFile, ne_eq, List.map_eq_nil_iff]
  intro hnil
  rw [canonicalizePath, hnil] at h
  exact h rfl

theorem insertFile_spec (forest : Children) (h : keyPath file ≠ []) :
    ∃ first path, insertFile forest file = forest.insert file first path ∧
      first.1 :: path.map Prod.fst = keyPath file ∧
      ∀ entry ∈ first :: path, entry.1 = lowercase entry.2 ∧ entry.2 ∈ components file.dvdPath := by
  rw [keyPath] at h
  obtain ⟨name, names, hnames⟩ := List.exists_cons_of_ne_nil (fun hnil => h (by rw [hnil]; rfl) :
    components file.dvdPath ≠ [])
  refine ⟨(lowercase name, name), names.map fun name => (lowercase name, name), ?_, ?_, ?_⟩
  · rw [insertFile, hnames]
    rfl
  · rw [keyPath, hnames, List.map_map]
    rfl
  · intro entry hentry
    rw [hnames]
    rw [← List.map_cons (f := fun name => (lowercase name, name))] at hentry
    obtain ⟨component, hcomponent, rfl⟩ := List.mem_map.mp hentry
    exact ⟨rfl, hcomponent⟩

theorem values_buildTree (hkeys : ∀ entry ∈ entries, keyPath entry.2 ≠ [])
    (hnodup : (entries.map fun entry => keyPath entry.2).Nodup) :
    (buildTree entries).values.Perm (entries.map fun entry => (keyPath entry.2, entry.2)) := by
  have hfold : ∀ forest : Children,
      (∀ entry ∈ entries, keyPath entry.2 ∉ forest.values.map Prod.fst) →
        (entries.foldl (fun root entry => insertFile root entry.2) forest).values.Perm
          ((entries.map fun entry => (keyPath entry.2, entry.2)) ++ forest.values) := by
    induction entries with
    | nil => exact fun forest _ => .rfl
    | cons entry entries ih =>
        intro forest hfresh
        rw [List.forall_mem_cons] at hkeys hfresh
        rw [List.map_cons, List.nodup_cons] at hnodup
        obtain ⟨first, path, hinsert, hpath, -⟩ := insertFile_spec forest hkeys.1
        have hperm : (insertFile forest entry.2).values.Perm
            ((keyPath entry.2, entry.2) :: forest.values) := by
          rw [hinsert, ← hpath]
          exact KeyedForest.values_insert_perm (by rw [hpath]; exact hfresh.1)
        rw [List.foldl_cons, List.map_cons, List.cons_append]
        refine (ih hkeys.2 hnodup.2 _ ?_).trans
          ((hperm.append_left _).trans List.perm_middle)
        -- the keys that follow are not those of the first entry
        intro other hother hmem
        rw [(hperm.map Prod.fst).mem_iff, List.map_cons, List.mem_cons] at hmem
        rcases hmem with heq | hmem
        · exact hnodup.1 (List.mem_map.mpr ⟨other, hother, heq⟩)
        · exact hfresh.2 other hother hmem
  have h := hfold .nil fun entry _ hmem => by cases hmem
  rwa [KeyedForest.values, List.append_nil] at h

theorem sorted_buildTree (hkeys : ∀ entry ∈ entries, keyPath entry.2 ≠ []) :
    (buildTree entries).Sorted := by
  have hfold : ∀ forest : Children, forest.Sorted →
      (entries.foldl (fun root entry => insertFile root entry.2) forest).Sorted := by
    induction entries with
    | nil => exact fun forest h => h
    | cons entry entries ih =>
        intro forest h
        rw [List.forall_mem_cons] at hkeys
        obtain ⟨first, path, hinsert, -, -⟩ := insertFile_spec forest hkeys.1
        refine ih hkeys.2 _ ?_
        dsimp only
        rw [hinsert]
        exact h.insert
  exact hfold .nil trivial

/-- The labels of the tree are components of the files, and their lower case is the key. -/
theorem all_buildTree (hkeys : ∀ entry ∈ entries, keyPath entry.2 ≠ [])
    (hP : ∀ entry ∈ entries, ∀ name ∈ components entry.2.dvdPath, P name) :
    (buildTree entries).All fun key label _ => key = lowercase label ∧ P label := by
  have hfold : ∀ forest : Children,
      (forest.All fun key label _ => key = lowercase label ∧ P label) →
        (entries.foldl (fun root entry => insertFile root entry.2) forest).All
          fun key label _ => key = lowercase label ∧ P label := by
    induction entries with
    | nil => exact fun forest h => h
    | cons entry entries ih =>
        intro forest h
        rw [List.forall_mem_cons] at hkeys hP
        obtain ⟨first, path, hinsert, -, hlabels⟩ := insertFile_spec forest hkeys.1
        refine ih hkeys.2 hP.2 _ ?_
        dsimp only
        rw [hinsert]
        exact h.insert fun entry hentry =>
          ⟨(hlabels entry hentry).1, hP.1 _ (hlabels entry hentry).2⟩
  exact hfold .nil trivial

end Tree

end Wiicompiled.Storage.DvdFst
