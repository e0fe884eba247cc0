import Wiicompiled.Storage.DvdFstImage

/-!
# Building and reading back

What is built from a list of registrations, and what the reader loads from its bytes.  The
reader takes at most a number of entries, and only files whose offset in bytes is a word.
-/

namespace Wiicompiled.Storage.DvdFst

open ByteImage

/-- A loaded file with its path in lookup form. -/
def lookupEntry (entry : FstFileEntry) : FstFileEntry :=
  { entry with dvdPath := normalizeLookupPath entry.dvdPath }

def loadedFrom (file : RegisteredFile) : Option FstFileEntry :=
  if 0xFFFFFFFF < file.discOffsetWords.toNat * 4 then none
  else some ⟨file.discOffsetWords.toNat * 4,
    (file.discOffsetWords.toNat * 4 + file.size.toNat) % 2 ^ 32, file.size.toNat, file.dvdPath⟩

section Build

variable {registrations : List RegisteredFile} {filesByPath : List (Text × RegisteredFile)}
  {image : Image} {path : Text} {index : ℕ} {file : RegisteredFile}

def imageEntries (tree : Children) : List IndexedEntry :=
  ⟨[], [slash], 0, 0, 0, 1 + tree.count, true⟩ :: layout tree 0 [slash] 1

theorem length_records (pairs : List (IndexedEntry × ℕ)) :
    (pairs.flatMap fun entry => recordBytes entry.1 entry.2).length = pairs.length * 12 := by
  induction pairs with
  | nil => rfl
  | cons entry pairs ih =>
      rw [List.flatMap_cons, List.length_append, ih, List.length_cons, Nat.add_one_mul,
        Nat.add_comm]
      simp [recordBytes]

theorem wellFormed_of_table {tree : Children} {offsets : List ℕ} {table : List UInt8}
    (hproper : Proper tree) (hcount : 1 + tree.count ≤ (2 ^ 32 - 1) / 12)
    (htable : buildStringTable (labels tree) [0] = .ok (offsets, table)) :
    WellFormed ((((imageEntries tree).zip (0 :: offsets)).flatMap
        fun entry => recordBytes entry.1 entry.2) ++ table)
      (1 + tree.count) (treeNodes [] 1 tree) := by
  obtain ⟨⟨rest, hrest⟩, hnames⟩ := buildStringTable_spec htable
  have hoffsets : (layout tree 0 [slash] 1).length = offsets.length := by
    rw [← hnames.length_eq, length_labels, length_layout]
  have hlength := length_records ((imageEntries tree).zip (0 :: offsets))
  rw [imageEntries, List.zip_cons_cons, List.length_cons, List.length_zip, ← hoffsets,
    Nat.min_self, length_layout, Nat.add_comm tree.count] at hlength
  rw [imageEntries, List.zip_cons_cons]
  rw [List.flatMap_cons] at hlength ⊢
  dsimp only at hlength ⊢
  generalize hroot : (⟨[], [slash], 0, 0, 0, 1 + tree.count, true⟩ : IndexedEntry) = root at *
  generalize hrecords : (((layout tree 0 [slash] 1).zip offsets).flatMap
    fun entry => recordBytes entry.1 entry.2) = records at *
  have hrecord : (recordBytes root 0).length = 12 := by simp [recordBytes]
  have hname : ∀ offset, (recordBytes root 0 ++ records ++ table).drop
      ((1 + tree.count) * 12 + offset) = table.drop offset := by
    intro offset
    rw [← List.drop_drop, List.drop_left' hlength]
  -- the root is the first record, and the nodes below it are recorded with their names
  have hwindow : window (recordBytes root 0 ++ records ++ table) (0 * 12) 12 =
      recordBytes root 0 := by
    rw [window, Nat.zero_mul, List.drop_zero, List.append_assoc, List.take_left' hrecord]
  have hbelow : Recorded (recordBytes root 0 ++ records ++ table) ((1 + tree.count) * 12) 1
      (layout tree 0 [slash] 1) (labels tree) := by
    have hdrop : (recordBytes root 0 ++ records ++ table).drop (1 * 12) =
        (((layout tree 0 [slash] 1).zip offsets).flatMap
          fun entry => recordBytes entry.1 entry.2) ++ table := by
      rw [hrecords, Nat.one_mul, List.append_assoc, List.drop_left' hrecord]
    refine recorded_of_drop (hnames.imp ?_) hoffsets hdrop
    rintro name offset ⟨hlt, rest, hrest⟩
    exact hasName_of_drop hlt (by rw [hname, hrest])
  obtain ⟨hword0, hword1, hword2⟩ := read32_of_recorded hwindow (by omega)
  have hnested : Nested (recordBytes root 0 ++ records ++ table) ((1 + tree.count) * 12) 1
      (1 + tree.count) 0 [] (treeNodes [] 1 tree) :=
    nested_of_recorded hproper hbelow (by omega) (by omega)
  have hdirectory : root.isDirectory = true := by rw [← hroot]
  have hparent : root.parentIndex = 0 := by rw [← hroot]
  have hsubtree : root.subtreeEnd = 1 + tree.count := by rw [← hroot]
  rw [if_pos hdirectory, Nat.zero_mul] at hword0
  rw [if_pos hdirectory, Nat.zero_mul, Nat.zero_add, hparent] at hword1
  rw [if_pos hdirectory, Nat.zero_mul, Nat.zero_add, hsubtree] at hword2
  have hend : (1 + tree.count) % 2 ^ 32 = 1 + tree.count := Nat.mod_eq_of_lt (by omega)
  refine ⟨?_, hword0, hword1, hword2.trans hend, ?_⟩
  · rw [List.length_append, hlength, ← hrest, List.length_append, List.length_singleton]
    omega
  · exact hnested

theorem buildImage_spec (h : buildImage registrations = .ok image) :
    ∃ filesByPath, collapse registrations = .ok filesByPath ∧
      Proper (buildTree filesByPath) ∧
      image.entries = imageEntries (buildTree filesByPath) ∧
      image.pathToEntry = emplaceAll (emplace (fun _ => none) [slash] 0)
        (layout (buildTree filesByPath) 0 [slash] 1) 1 ∧
      WellFormed image.bytes image.entries.length
        (treeNodes [] 1 (buildTree filesByPath)) := by
  rw [buildImage] at h
  obtain ⟨filesByPath, hcollapse, h⟩ := exists_ok_of_bind h
  refine ⟨filesByPath, hcollapse, ?_⟩
  generalize buildTree filesByPath = tree at *
  dsimp only at h
  obtain ⟨emitted, hemit, h⟩ := exists_ok_of_bind h
  obtain ⟨hproper, hentries, hnames, hpaths⟩ := emitTree_eq hemit
  dsimp only at h hentries hnames hpaths
  -- the root is closed with the number of all entries
  have hclosed : (emitted.close 0).entries = imageEntries tree := by
    rw [EmitState.close, hentries]
    simp only [List.length_cons, List.length_nil, List.singleton_append, length_layout,
      List.modify_zero_cons]
    rw [imageEntries, Nat.add_comm 1]
  have hlength : (imageEntries tree).length = 1 + tree.count := by
    rw [imageEntries, List.length_cons, length_layout, Nat.add_comm]
  rw [hclosed, hlength] at h
  by_cases hmany : (2 ^ 32 - 1) / 12 < 1 + tree.count
  · rw [if_pos hmany] at h
    cases h
  · rw [if_neg hmany] at h
    obtain ⟨⟨offsets, table⟩, htable, h⟩ := exists_ok_of_bind h
    rw [EmitState.close, hnames] at htable
    cases h
    refine ⟨hproper, rfl, hpaths, ?_⟩
    dsimp only
    rw [hlength]
    exact wellFormed_of_table hproper (not_lt.mp hmany) htable

end Build

/-! ## Files of an image -/

section Files

variable {registrations : List RegisteredFile} {filesByPath : List (Text × RegisteredFile)}
  {image : Image} {entry : Text × RegisteredFile} {entries : List IndexedEntry} {start : ℕ}

theorem exists_registration (h : collapse registrations = .ok filesByPath)
    (hmem : entry ∈ filesByPath) :
    ∃ registered ∈ registrations, lastRegistration registrations entry.1 = some registered ∧
      entry = (normalizeLookupPath registered.dvdPath, canonicalFile registered) := by
  obtain ⟨registered, hlast, hfile⟩ :=
    Option.map_eq_some_iff.mp ((mem_collapse_iff h).mp hmem)
  have hregistered := List.mem_of_getLast? hlast
  rw [List.mem_filter, decide_eq_true_iff] at hregistered
  exact ⟨registered, hregistered.1, hlast, Prod.ext hregistered.2.symm hfile.symm⟩

theorem keyPath_ne_nil_of_collapse (h : collapse registrations = .ok filesByPath) :
    ∀ entry ∈ filesByPath, keyPath entry.2 ≠ [] := by
  intro entry hmem
  obtain ⟨registered, hregistered, -, rfl⟩ := exists_registration h hmem
  exact keyPath_canonicalFile_ne_nil ((collapse_spec h).1 registered hregistered)

theorem joinPath_keyPath_of_collapse (h : collapse registrations = .ok filesByPath) :
    ∀ entry ∈ filesByPath, joinPath (keyPath entry.2) = entry.1 := by
  intro entry hmem
  obtain ⟨registered, -, -, rfl⟩ := exists_registration h hmem
  exact joinPath_keyPath_canonicalFile

theorem nodup_collapse (h : collapse registrations = .ok filesByPath) :
    (filesByPath.map Prod.fst).Nodup := by
  rw [(collapse_spec h).2]
  exact OrderedMap.increasing_assignAll.nodup

theorem nodup_keyPath_of_collapse (h : collapse registrations = .ok filesByPath) :
    (filesByPath.map fun entry => keyPath entry.2).Nodup := by
  refine List.Nodup.of_map joinPath ?_
  rw [List.map_map]
  have hmap : filesByPath.map (joinPath ∘ fun entry => keyPath entry.2) =
      filesByPath.map Prod.fst :=
    List.map_congr_left (joinPath_keyPath_of_collapse h)
  rw [hmap]
  exact nodup_collapse h

theorem clean_buildTree (h : collapse registrations = .ok filesByPath) :
    (buildTree filesByPath).All fun key label _ => key = lowercase label ∧ Clean label := by
  refine all_buildTree (keyPath_ne_nil_of_collapse h) fun entry hmem => ?_
  obtain ⟨registered, -, -, rfl⟩ := exists_registration h hmem
  rw [components_canonicalFile]
  exact clean_canonicalComponents

theorem entryFiles_perm (h : collapse registrations = .ok filesByPath)
    (hproper : Proper (buildTree filesByPath)) :
    ((imageEntries (buildTree filesByPath)).filterMap entryFile).Perm
      (filesByPath.map fun entry => { entry.2 with dvdPath := entry.1 }) := by
  have hlayout := filterMap_layout 0 1 (clean_buildTree h) hproper (List.forall_mem_nil _)
  have hvalues := (values_buildTree (keyPath_ne_nil_of_collapse h)
    (nodup_keyPath_of_collapse h)).map fun value =>
      ({ value.2 with dvdPath := joinPath ([].map lowercase ++ value.1) } : RegisteredFile)
  rw [imageEntries, List.filterMap_cons_none rfl]
  have hroot : joinPath [] = [slash] := rfl
  rw [← hroot, hlayout]
  refine hvalues.trans (.of_eq ?_)
  rw [List.map_map]
  refine List.map_congr_left fun entry hmem => ?_
  have hjoin := joinPath_keyPath_of_collapse h entry hmem
  rw [Function.comp_apply, List.map_nil, List.nil_append, hjoin]

theorem pathToEntry_eq_some_iff (h : buildImage registrations = .ok image) {path : Text}
    {index : ℕ} :
    image.pathToEntry path = some index ↔
      ∃ entry, image.entries[index]? = some entry ∧ normalizeLookupPath entry.dvdPath = path := by
  obtain ⟨filesByPath, hcollapse, -, hentries, hpaths, -⟩ := buildImage_spec h
  have hclean := clean_buildTree hcollapse
  have hsorted := sorted_buildTree (keyPath_ne_nil_of_collapse hcollapse)
  have hroot : joinPath [] = [slash] := rfl
  have hlayout := map_layout 0 1 hclean (List.forall_mem_nil _)
  rw [List.map_nil, hroot] at hlayout
  have hkeys : ∀ keys ∈ (buildTree filesByPath).paths,
      keys ≠ [] ∧ ∀ key ∈ keys, Clean key := by
    intro keys hmem
    refine (hclean.imp fun key label _ hlabel => ?_).mem_paths hmem
    rw [hlabel.1]
    exact clean_lowercase_iff.mpr hlabel.2
  have hnodup : ((layout (buildTree filesByPath) 0 [slash] 1).map
      (normalizeLookupPath ·.dvdPath)).Nodup := by
    rw [hlayout]
    exact hsorted.nodup_paths.map_on fun keys hmem keys' hmem' heq =>
      joinPath_inj (hkeys keys hmem).2 (hkeys keys' hmem').2 heq
  have hfresh : ∀ entry ∈ layout (buildTree filesByPath) 0 [slash] 1,
      emplace (fun _ => none) [slash] 0 (normalizeLookupPath entry.dvdPath) = none := by
    intro entry hmem
    have hpath := List.mem_map_of_mem (f := (normalizeLookupPath ·.dvdPath)) hmem
    rw [hlayout] at hpath
    obtain ⟨keys, hkeysMem, heq⟩ := List.mem_map.mp hpath
    rw [emplace, if_neg]
    rintro ⟨hslash, -⟩
    rw [hslash] at heq
    exact (hkeys keys hkeysMem).1
      (joinPath_inj (hkeys keys hkeysMem).2 (List.forall_mem_nil _) heq)
  rw [hpaths, emplaceAll_eq_some_iff hfresh hnodup, hentries, imageEntries]
  have hrootPath : normalizeLookupPath [slash] = [slash] := by decide
  constructor
  · rintro (hslash | ⟨place, entry, hentry, rfl, hpath⟩)
    · rw [emplace] at hslash
      by_cases heq : path = [slash]
      · rw [if_pos ⟨heq, rfl⟩] at hslash
        cases hslash
        exact ⟨_, rfl, heq ▸ hrootPath⟩
      · rw [if_neg fun h => heq h.1] at hslash
        cases hslash
    · refine ⟨entry, ?_, hpath⟩
      rw [Nat.add_comm 1 place, List.getElem?_cons_succ]
      exact hentry
  · rintro ⟨entry, hentry, hpath⟩
    cases index with
    | zero =>
        cases hentry
        rw [← hpath, hrootPath]
        exact Or.inl rfl
    | succ place => exact Or.inr ⟨place, entry, hentry, Nat.add_comm _ _, hpath⟩

end Files

/-! ## Reading back -/

section ReadBack

variable {registrations : List RegisteredFile} {filesByPath : List (Text × RegisteredFile)}
  {image : Image} {entries : List IndexedEntry} {start : ℕ} {files : List RegisteredFile}

theorem loadedFrom_eq_none {file : RegisteredFile}
    (h : 0xFFFFFFFF < file.discOffsetWords.toNat * 4) : loadedFrom file = none :=
  if_pos h

theorem loadedFrom_eq_some {file : RegisteredFile}
    (h : ¬0xFFFFFFFF < file.discOffsetWords.toNat * 4) :
    loadedFrom file = some ⟨file.discOffsetWords.toNat * 4,
      (file.discOffsetWords.toNat * 4 + file.size.toNat) % 2 ^ 32, file.size.toNat,
      file.dvdPath⟩ :=
  if_neg h

theorem map_loadedFile :
    (((entries.zipIdx start).map entryNode).filterMap loadedFile).map lookupEntry =
      (entries.filterMap entryFile).filterMap loadedFrom := by
  induction entries generalizing start with
  | nil => rfl
  | cons entry entries ih =>
      rw [List.zipIdx_cons, List.map_cons]
      by_cases hdirectory : entry.isDirectory
      · have hnode : loadedFile (entryNode (entry, start)) = none := by
          rw [entryNode, loadedFile, if_pos hdirectory]
        have hfile : entryFile entry = none := if_pos hdirectory
        rw [List.filterMap_cons_none hnode, List.filterMap_cons_none hfile, ih]
      · have hfile : entryFile entry = some ⟨entry.hostPath, normalizeLookupPath entry.dvdPath,
            entry.size, entry.discOffsetWords⟩ := if_neg hdirectory
        rw [List.filterMap_cons_some hfile]
        by_cases hlarge : 0xFFFFFFFF < entry.discOffsetWords.toNat * 4
        · have hnode : loadedFile (entryNode (entry, start)) = none := by
            rw [entryNode, loadedFile, if_neg hdirectory]
            exact if_pos hlarge
          rw [List.filterMap_cons_none hnode, List.filterMap_cons_none (loadedFrom_eq_none hlarge), ih]
        · have hnode : loadedFile (entryNode (entry, start)) =
              some ⟨entry.discOffsetWords.toNat * 4,
                (entry.discOffsetWords.toNat * 4 + entry.size.toNat) % 2 ^ 32,
                entry.size.toNat, entry.dvdPath⟩ := by
            rw [entryNode, loadedFile, if_neg hdirectory]
            exact if_neg hlarge
          rw [List.filterMap_cons_some hnode,
            List.filterMap_cons_some (loadedFrom_eq_some hlarge), List.map_cons, ih]
          rfl

/-- Loaded files are told apart by their paths when the registered ones are. -/
theorem dvdPath_loadedFrom_sublist :
    ((files.filterMap loadedFrom).map FstFileEntry.dvdPath).Sublist
      (files.map RegisteredFile.dvdPath) := by
  induction files with
  | nil => exact .slnil
  | cons file files ih =>
      by_cases hlarge : 0xFFFFFFFF < file.discOffsetWords.toNat * 4
      · rw [List.filterMap_cons_none (loadedFrom_eq_none hlarge)]
        exact ih.cons _
      · rw [List.filterMap_cons_some (loadedFrom_eq_some hlarge), List.map_cons, List.map_cons]
        exact ih.cons_cons _

theorem zero_notMem_components {input component : Text} (h : 0 ∉ input)
    (hmem : component ∈ canonicalComponents input) : 0 ∉ component := by
  have hfold : ∀ parts names : List Text, (∀ part ∈ parts, 0 ∉ part) →
      (∀ name ∈ names, 0 ∉ name) → ∀ name ∈ parts.foldl pushComponent names, 0 ∉ name := by
    intro parts
    induction parts with
    | nil => exact fun names _ hnames => hnames
    | cons part parts ih =>
        intro names hparts hnames
        rw [List.forall_mem_cons] at hparts
        refine ih _ hparts.2 ?_
        unfold pushComponent
        split_ifs
        · exact hnames
        · exact fun name hname => hnames name (List.dropLast_subset _ hname)
        · intro name hname
          rcases List.mem_append.mp hname with hold | hnew
          · exact hnames name hold
          · rw [List.mem_singleton.mp hnew]
            exact hparts.1
  refine hfold _ [] (fun part hpart hzero => ?_) (List.forall_mem_nil _) component hmem
  obtain ⟨byte, hbyte, heq⟩ :=
    List.mem_map.mp ((SplitParts.mem_splitOn (List.mem_filter.mp hpart).1).2 0 hzero)
  by_cases hbackslash : byte = backslash
  · rw [if_pos hbackslash] at heq
    exact absurd heq (by decide)
  · rw [if_neg hbackslash] at heq
    exact h (heq ▸ hbyte)

/-- The table of an image whose paths have no zeros has the nodes of its entries. -/
theorem wellFormed_entryNode (h : buildImage registrations = .ok image)
    (hzero : ∀ file ∈ registrations, 0 ∉ file.dvdPath) :
    WellFormed image.bytes image.entries.length
      ((image.entries.tail.zipIdx 1).map entryNode) := by
  obtain ⟨filesByPath, hcollapse, hproper, hentries, -, hwell⟩ := buildImage_spec h
  have hlabels : (buildTree filesByPath).All fun _ label _ => 0 ∉ label := by
    refine (all_buildTree (P := fun name => 0 ∉ name) (keyPath_ne_nil_of_collapse hcollapse)
      fun entry hmem => ?_).imp fun _ _ _ h => h.2
    obtain ⟨registered, hregistered, -, rfl⟩ := exists_registration hcollapse hmem
    rw [components_canonicalFile]
    exact fun name hname => zero_notMem_components (hzero registered hregistered) hname
  have htail : image.entries.tail = layout (buildTree filesByPath) 0 [slash] 1 := by
    rw [hentries, imageEntries, List.tail_cons]
  rw [treeNodes_eq 0 hlabels hproper, ← htail] at hwell
  exact hwell

/-- The files of the entries of an image are the last registrations of their paths. -/
theorem exists_entryFile_iff (h : buildImage registrations = .ok image) {file : RegisteredFile} :
    (∃ entry ∈ image.entries, entryFile entry = some file) ↔
      (lastRegistration registrations file.dvdPath).map lookupForm = some file := by
  obtain ⟨filesByPath, hcollapse, hproper, hentries, -, -⟩ := buildImage_spec h
  rw [← List.mem_filterMap, hentries, (entryFiles_perm hcollapse hproper).mem_iff,
    List.mem_map]
  constructor
  · rintro ⟨entry, hmem, rfl⟩
    obtain ⟨registered, -, hlast, rfl⟩ := exists_registration hcollapse hmem
    rw [hlast]
    rfl
  · intro hlast
    obtain ⟨registered, hlast, rfl⟩ := Option.map_eq_some_iff.mp hlast
    exact ⟨(normalizeLookupPath registered.dvdPath, canonicalFile registered),
      (mem_collapse_iff hcollapse).mpr (congrArg (Option.map canonicalFile) hlast), rfl⟩

theorem loaded_perm (h : buildImage registrations = .ok image)
    (hzero : ∀ file ∈ registrations, 0 ∉ file.dvdPath) (hcount : image.entries.length ≤ 0x10000)
    {loaded : List FstFileEntry} (hloaded : LoadedFstIndex image.bytes loaded) :
    ∃ filesByPath, collapse registrations = .ok filesByPath ∧
      (loaded.map lookupEntry).Perm
        ((filesByPath.map fun entry => { entry.2 with dvdPath := entry.1 }).filterMap
          loadedFrom) := by
  obtain ⟨filesByPath, hcollapse, hproper, hentries, -, -⟩ := buildImage_spec h
  refine ⟨filesByPath, hcollapse, (hloaded.perm.map lookupEntry).trans ?_⟩
  have htail : image.entries.tail.filterMap entryFile =
      (imageEntries (buildTree filesByPath)).filterMap entryFile := by
    rw [hentries, imageEntries, List.tail_cons, List.filterMap_cons_none rfl]
  rw [(wellFormed_entryNode h hzero).fstFiles_eq hcount, map_loadedFile, htail]
  exact (entryFiles_perm hcollapse hproper).filterMap loadedFrom

end ReadBack

/-! ## Images and registrations -/

structure Encodes (registrations : List RegisteredFile) (image : Image) : Prop where
  wellFormed : ∃ nodes, WellFormed image.bytes image.entries.length nodes
  pathToEntry : ∀ path index, image.pathToEntry path = some index ↔
    ∃ entry, image.entries[index]? = some entry ∧ normalizeLookupPath entry.dvdPath = path
  files : ∀ file, (∃ entry ∈ image.entries, entryFile entry = some file) ↔
    (lastRegistration registrations file.dvdPath).map lookupForm = some file

/-- The reader finds the last registrations whose offset in bytes is a word, once each. -/
structure ReadsBack (registrations : List RegisteredFile) (loaded : List FstFileEntry) :
    Prop where
  nodup : (loaded.map fun entry => normalizeLookupPath entry.dvdPath).Nodup
  mem_iff : ∀ entry, entry ∈ loaded.map lookupEntry ↔
    ∃ last, lastRegistration registrations entry.dvdPath = some last ∧
      last.discOffsetWords.toNat < 2 ^ 30 ∧
      entry = ⟨last.discOffsetWords.toNat * 4,
        (last.discOffsetWords.toNat * 4 + last.size.toNat) % 2 ^ 32, last.size.toNat,
        normalizeLookupPath last.dvdPath⟩

/-- An image that is built is a well-formed table of the last registrations.  Paths without
zeros are those of its nodes, and the reader finds their files in a table that it takes. -/
theorem buildImage_encodes {registrations : List RegisteredFile} {image : Image}
    (h : buildImage registrations = .ok image) :
    Encodes registrations image ∧
      ((∀ file ∈ registrations, 0 ∉ file.dvdPath) →
        WellFormed image.bytes image.entries.length
          ((image.entries.tail.zipIdx 1).map entryNode) ∧
        (image.entries.length ≤ 0x10000 → ∀ loaded, LoadedFstIndex image.bytes loaded →
          ReadsBack registrations loaded)) := by
  refine ⟨⟨?_, fun _ _ => pathToEntry_eq_some_iff h, fun _ => exists_entryFile_iff h⟩,
    fun hzero => ⟨wellFormed_entryNode h hzero, fun hcount loaded hloaded => ?_⟩⟩
  · obtain ⟨filesByPath, -, -, -, -, hwell⟩ := buildImage_spec h
    exact ⟨_, hwell⟩
  obtain ⟨filesByPath, hcollapse, hperm⟩ := loaded_perm h hzero hcount hloaded
  refine ⟨?_, fun entry => ?_⟩
  · have hpaths : (loaded.map lookupEntry).map FstFileEntry.dvdPath =
        loaded.map fun entry => normalizeLookupPath entry.dvdPath := List.map_map
    rw [← hpaths, (hperm.map FstFileEntry.dvdPath).nodup_iff]
    refine dvdPath_loadedFrom_sublist.nodup ?_
    rw [List.map_map]
    exact nodup_collapse hcollapse
  · rw [hperm.mem_iff, List.mem_filterMap]
    constructor
    · rintro ⟨file, hmem, hentry⟩
      obtain ⟨kept, hkept, rfl⟩ := List.mem_map.mp hmem
      obtain ⟨last, -, hlast, rfl⟩ := exists_registration hcollapse hkept
      change loadedFrom (lookupForm last) = some entry at hentry
      by_cases hlarge : 0xFFFFFFFF < (lookupForm last).discOffsetWords.toNat * 4
      · rw [loadedFrom_eq_none hlarge] at hentry
        cases hentry
      · rw [loadedFrom_eq_some hlarge] at hentry
        cases hentry
        dsimp only [lookupForm] at hlarge
        exact ⟨last, hlast, by omega, rfl⟩
    · rintro ⟨last, hlast, hsmall, rfl⟩
      refine ⟨lookupForm last, List.mem_map.mpr
        ⟨(normalizeLookupPath last.dvdPath, canonicalFile last),
          (mem_collapse_iff hcollapse).mpr (congrArg (Option.map canonicalFile) hlast), rfl⟩,
        ?_⟩
      have hword : ¬0xFFFFFFFF < (lookupForm last).discOffsetWords.toNat * 4 := by
        dsimp only [lookupForm]
        omega
      exact loadedFrom_eq_some hword

/-- The file `/a` with one byte at an offset. -/
def singleFile (discOffsetWords : BitVec 32) : RegisteredFile :=
  ⟨[], [slash, 0x61], 1, discOffsetWords⟩

theorem buildImage_encodes_singleFile :
    ∃ image, buildImage [singleFile 4] = .ok image ∧ Encodes [singleFile 4] image ∧
      ∀ loaded, LoadedFstIndex image.bytes loaded → ReadsBack [singleFile 4] loaded :=
  ⟨_, rfl, (buildImage_encodes rfl).1,
    ((buildImage_encodes rfl).2 (by decide)).2 (by decide)⟩

/-- A file whose offset in bytes is not a word is registered, but not read back. -/
theorem far_file_not_loaded :
    ¬∀ registrations image loaded, buildImage registrations = .ok image →
      LoadedFstIndex image.bytes loaded →
      ∀ path last, lastRegistration registrations path = some last →
        ∃ entry ∈ loaded, normalizeLookupPath entry.dvdPath = path := by
  intro h
  have hfiles : ∀ image, buildImage [singleFile 0x40000000] = .ok image →
      fstFiles image.bytes = [] := by
    intro image himage
    cases himage
    decide +kernel
  obtain ⟨image, himage⟩ : ∃ image, buildImage [singleFile 0x40000000] = .ok image := ⟨_, rfl⟩
  have hloaded : LoadedFstIndex image.bytes [] :=
    ⟨by rw [hfiles image himage], List.Pairwise.nil⟩
  obtain ⟨entry, hmem, -⟩ := h _ image [] himage hloaded [slash, 0x61] (singleFile 0x40000000)
    (by decide)
  cases hmem

end Wiicompiled.Storage.DvdFst
