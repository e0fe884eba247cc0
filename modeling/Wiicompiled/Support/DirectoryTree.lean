import Mathlib.Data.List.Infix

/-!
# Trees of directories

A disk has a directory or a file at each of finitely many paths of names, and above
everything stands a directory.  Subtrees are moved, removed and made; each of these leaves
what is not at or below its paths as it was.
-/

/-- What stands at a path. -/
inductive DirectoryTree.Entry (ν : Type*) where
  | directory
  | file (content : ν)
deriving DecidableEq

/-- The entries of a disk.  What has a name stands in a directory. -/
structure DirectoryTree (κ ν : Type*) where
  entry : List κ → Option (DirectoryTree.Entry ν)
  paths : List (List κ)
  listed : ∀ path, entry path ≠ none → path ∈ paths
  rooted : entry [] = some .directory
  closed : ∀ path name, entry (path ++ [name]) ≠ none → entry path = some .directory

namespace DirectoryTree

variable {κ ν : Type*}

/-- The content of a file under a function. -/
def Entry.map {μ : Type*} (f : ν → μ) : Entry ν → Entry μ
  | .directory => .directory
  | .file content => .file (f content)

/-- Neither of two paths leads through the other. -/
def Apart (path other : List κ) : Prop :=
  ¬ path <+: other ∧ ¬ other <+: path

theorem Apart.symm {path other : List κ} (h : Apart path other) : Apart other path :=
  ⟨h.2, h.1⟩

theorem apart_concat {parent : List κ} {name other : κ} (hne : name ≠ other) :
    Apart (parent ++ [name]) (parent ++ [other]) := by
  constructor <;> intro hle
  · exact hne (List.singleton_inj.mp
      (((List.prefix_append_right_inj parent).mp hle).eq_of_length rfl))
  · exact hne (List.singleton_inj.mp
      (((List.prefix_append_right_inj parent).mp hle).eq_of_length rfl)).symm

/-- What is below a path is not below one apart from it. -/
theorem Apart.not_isPrefix_append {path other : List κ} (h : Apart path other) (rest : List κ) :
    ¬ path <+: other ++ rest := by
  intro hpath
  rcases List.prefix_or_prefix_of_prefix hpath (List.prefix_append other rest) with hle | hle
  · exact h.1 hle
  · exact h.2 hle

/-- What a path leads through, but for itself, is above it. -/
theorem isPrefix_dropLast {path other : List κ} (hle : path <+: other) (hne : path ≠ other) :
    path <+: other.dropLast := by
  obtain ⟨rest, rfl⟩ := hle
  have hrest : rest ≠ [] := by
    rintro rfl
    exact hne (List.append_nil path).symm
  rw [List.dropLast_append_of_ne_nil hrest]
  exact List.prefix_append path _

section Entries

variable {tree : DirectoryTree κ ν} {path other : List κ}

theorem entry_eq_directory_of_isPrefix
    (hle : path <+: other) (hne : path ≠ other) (hother : tree.entry other ≠ none) :
    tree.entry path = some .directory := by
  obtain ⟨rest, rfl⟩ := hle
  induction rest using List.reverseRecOn with
  | nil => exact absurd (List.append_nil path).symm hne
  | append_singleton rest name ih =>
      rw [← List.append_assoc] at hother
      have habove := tree.closed _ _ hother
      by_cases hrest : rest = []
      · rw [hrest, List.append_nil] at habove
        exact habove
      · refine ih ?_ (by rw [habove]; exact Option.some_ne_none _)
        intro heq
        exact hrest (List.append_cancel_left (heq.symm.trans (List.append_nil path).symm))

theorem entry_eq_none_of_isPrefix
    (hle : path <+: other) (hpath : tree.entry path = none) : tree.entry other = none := by
  by_contra hother
  by_cases heq : path = other
  · exact hother (heq ▸ hpath)
  · rw [entry_eq_directory_of_isPrefix hle heq hother] at hpath
    exact Option.some_ne_none _ hpath

theorem exists_length_bound (paths : List (List κ)) :
    ∃ bound, ∀ path ∈ paths, path.length ≤ bound := by
  induction paths with
  | nil => exact ⟨0, fun path hpath => absurd hpath List.not_mem_nil⟩
  | cons first paths ih =>
      obtain ⟨bound, hbound⟩ := ih
      refine ⟨max first.length bound, fun path hpath => ?_⟩
      rcases List.mem_cons.mp hpath with rfl | hpath
      · exact Nat.le_max_left _ _
      · exact (hbound path hpath).trans (Nat.le_max_right _ _)

theorem exists_entry_cons_eq_none (tree : DirectoryTree κ ν) (name : κ) :
    ∃ rest, tree.entry rest ≠ none ∧ tree.entry (name :: rest) = none := by
  by_contra h
  simp only [not_exists, not_and] at h
  have hall : ∀ n, tree.entry (List.replicate n name) ≠ none := by
    intro n
    induction n with
    | zero =>
        rw [List.replicate_zero, tree.rooted]
        exact Option.some_ne_none _
    | succ n ih => exact h _ ih
  obtain ⟨bound, hbound⟩ := exists_length_bound tree.paths
  have hlength := hbound _ (tree.listed _ (hall (bound + 1)))
  rw [List.length_replicate] at hlength
  exact absurd hlength (Nat.not_succ_le_self bound)

end Entries

/-! ## Making and writing -/

section Changes

variable [DecidableEq κ]

/-- A disk without names. -/
def empty : DirectoryTree κ ν where
  entry path := if path = [] then some .directory else none
  paths := [[]]
  listed := by
    intro path hpath
    split_ifs at hpath with hnil
    · exact List.mem_singleton.mpr hnil
    · exact absurd rfl hpath
  rooted := if_pos rfl
  closed := by
    intro path name hname
    rw [if_neg (by simp)] at hname
    exact absurd rfl hname

/-- A new file in a directory. -/
def createFile (tree : DirectoryTree κ ν) (parent : List κ) (name : κ) (content : ν)
    (hparent : tree.entry parent = some .directory)
    (hnew : tree.entry (parent ++ [name]) = none) : DirectoryTree κ ν where
  entry path := if path = parent ++ [name] then some (.file content) else tree.entry path
  paths := (parent ++ [name]) :: tree.paths
  listed := by
    intro path hpath
    split_ifs at hpath with heq
    · exact List.mem_cons.mpr (Or.inl heq)
    · exact List.mem_cons_of_mem _ (tree.listed _ hpath)
  rooted := by
    rw [if_neg (by simp)]
    exact tree.rooted
  closed := by
    intro path other hother
    have habove : tree.entry path = some .directory := by
      split_ifs at hother with heq
      · rw [(List.append_inj' heq rfl).1]
        exact hparent
      · exact tree.closed _ _ hother
    rw [if_neg]
    · exact habove
    · rintro rfl
      rw [hnew] at habove
      exact Option.some_ne_none _ habove.symm

/-- Make the directories on a path. -/
def makeDirectories (tree : DirectoryTree κ ν) (path : List κ) : DirectoryTree κ ν where
  entry other := if other <+: path then some .directory else tree.entry other
  paths := path.inits ++ tree.paths
  listed := by
    intro other hother
    by_cases hle : other <+: path
    · exact List.mem_append_left _ ((List.mem_inits _ _).mpr hle)
    · rw [if_neg hle] at hother
      exact List.mem_append_right _ (tree.listed _ hother)
  rooted := if_pos List.nil_prefix
  closed := by
    intro other name hname
    by_cases hle : other <+: path
    · exact if_pos hle
    · rw [if_neg hle]
      have hlonger : ¬ other ++ [name] <+: path :=
        fun h => hle ((List.prefix_append other [name]).trans h)
      rw [if_neg hlonger] at hname
      exact tree.closed _ _ hname

/-- Put another tree at a directory, in place of what is below it. -/
def graft (tree : DirectoryTree κ ν) (path : List κ) (staged : DirectoryTree κ ν)
    (h : tree.entry path = some .directory) : DirectoryTree κ ν where
  entry other :=
    if path <+: other then staged.entry (other.drop path.length) else tree.entry other
  paths := staged.paths.map (path ++ ·) ++ tree.paths
  listed := by
    intro other hother
    by_cases hle : path <+: other
    · rw [if_pos hle] at hother
      obtain ⟨rest, rfl⟩ := hle
      rw [List.drop_left] at hother
      exact List.mem_append_left _ (List.mem_map_of_mem (staged.listed _ hother))
    · rw [if_neg hle] at hother
      exact List.mem_append_right _ (tree.listed _ hother)
  rooted := by
    by_cases hle : path <+: []
    · rw [if_pos hle, List.drop_nil]
      exact staged.rooted
    · rw [if_neg hle]
      exact tree.rooted
  closed := by
    intro other name hname
    by_cases hle : path <+: other
    · obtain ⟨rest, rfl⟩ := hle
      rw [if_pos (List.prefix_append path rest), List.drop_left]
      rw [List.append_assoc, if_pos (List.prefix_append path _), List.drop_left] at hname
      exact staged.closed _ _ hname
    · rw [if_neg hle]
      by_cases hlonger : path <+: other ++ [name]
      · -- the path is the name itself, and there the directory is
        rcases List.prefix_concat_iff.mp hlonger with heq | hshorter
        · refine tree.closed other name ?_
          rw [← heq, h]
          exact Option.some_ne_none _
        · exact absurd hshorter hle
      · rw [if_neg hlonger] at hname
        exact tree.closed _ _ hname

/-- Change the content of the file at a path. -/
def modifyFile (tree : DirectoryTree κ ν) (path : List κ) (f : ν → ν) : DirectoryTree κ ν where
  entry other := if other = path then (tree.entry other).map (Entry.map f) else tree.entry other
  paths := tree.paths
  listed := by
    intro other hother
    refine tree.listed other ?_
    split_ifs at hother with heq
    · exact fun hnone => hother (by rw [hnone]; rfl)
    · exact hother
  rooted := by
    split_ifs with heq
    · rw [tree.rooted]
      rfl
    · exact tree.rooted
  closed := by
    intro other name hname
    have habove : tree.entry other = some .directory := by
      refine tree.closed other name ?_
      split_ifs at hname with heq
      · exact fun hnone => hname (by rw [hnone]; rfl)
      · exact hname
    split_ifs with heq
    · rw [habove]
      rfl
    · exact habove

/-! ## Removing and moving -/

/-- Remove what is at or below a path, but for what leads to the kept paths.  The root
stays. -/
def remove (tree : DirectoryTree κ ν) (path : List κ) (kept : List (List κ)) :
    DirectoryTree κ ν where
  entry other :=
    if path <+: other ∧ other ≠ [] ∧ ∀ survivor ∈ kept, ¬ other <+: survivor then none
    else tree.entry other
  paths := tree.paths
  listed := by
    intro other hother
    split_ifs at hother
    · exact absurd rfl hother
    · exact tree.listed _ hother
  rooted := by
    rw [if_neg (fun h => h.2.1 rfl)]
    exact tree.rooted
  closed := by
    intro other name hname
    split_ifs at hname with hremoved
    · exact absurd rfl hname
    · rw [if_neg]
      · exact tree.closed _ _ hname
      · rintro ⟨hle, -, hkept⟩
        refine hremoved ⟨hle.trans (List.prefix_append other [name]), by simp, ?_⟩
        intro survivor hsurvivor hle
        exact hkept survivor hsurvivor ((List.prefix_append other [name]).trans hle)

/-- What can be moved: something that is there, to a free name in a directory that does not
go with it. -/
structure CanMove (tree : DirectoryTree κ ν) (source target : List κ) : Prop where
  there : tree.entry source ≠ none
  free : tree.entry target = none
  parent : tree.entry target.dropLast = some .directory
  stays : ¬ source <+: target

instance [DecidableEq ν] (tree : DirectoryTree κ ν) (source target : List κ) :
    Decidable (tree.CanMove source target) :=
  decidable_of_iff
    (tree.entry source ≠ none ∧ tree.entry target = none ∧
      tree.entry target.dropLast = some .directory ∧ ¬ source <+: target)
    ⟨fun ⟨h₁, h₂, h₃, h₄⟩ => ⟨h₁, h₂, h₃, h₄⟩, fun ⟨h₁, h₂, h₃, h₄⟩ => ⟨h₁, h₂, h₃, h₄⟩⟩

/-- Move all that is at or below a path to another path. -/
def move (tree : DirectoryTree κ ν) (source target : List κ) (h : tree.CanMove source target) :
    DirectoryTree κ ν where
  entry other :=
    if target <+: other then tree.entry (source ++ other.drop target.length)
    else if source <+: other then none
    else tree.entry other
  paths :=
    (tree.paths.filter (source.isPrefixOf ·)).map (fun path => target ++ path.drop source.length) ++
      tree.paths
  listed := by
    intro other hother
    split_ifs at hother with htarget hsource
    · obtain ⟨rest, rfl⟩ := htarget
      rw [List.drop_left] at hother
      refine List.mem_append_left _ (List.mem_map.mpr ⟨source ++ rest, ?_, ?_⟩)
      · exact List.mem_filter.mpr ⟨tree.listed _ hother,
          List.isPrefixOf_iff_prefix.mpr (List.prefix_append source rest)⟩
      · rw [List.drop_left]
    · exact absurd rfl hother
    · exact List.mem_append_right _ (tree.listed _ hother)
  rooted := by
    have htarget : ¬ target <+: [] := by
      intro hle
      have hfree := h.free
      rw [List.prefix_nil.mp hle, tree.rooted] at hfree
      exact Option.some_ne_none _ hfree
    have hsource : ¬ source <+: [] := fun hle => h.stays (hle.trans List.nil_prefix)
    rw [if_neg htarget, if_neg hsource]
    exact tree.rooted
  closed := by
    intro other name hname
    by_cases htarget : target <+: other
    · obtain ⟨rest, rfl⟩ := htarget
      rw [if_pos (List.prefix_append target rest), List.drop_left]
      rw [List.append_assoc, if_pos (List.prefix_append target _), List.drop_left,
        ← List.append_assoc] at hname
      exact tree.closed _ _ hname
    · rw [if_neg htarget]
      by_cases hlonger : target <+: other ++ [name]
      · -- the target itself stands in the directory it was moved to
        rcases List.prefix_concat_iff.mp hlonger with heq | hle
        · have hsource : ¬ source <+: other := by
            intro hle
            exact h.stays (heq ▸ hle.trans (List.prefix_append other [name]))
          rw [if_neg hsource]
          have hparent := h.parent
          rw [heq, List.dropLast_concat] at hparent
          exact hparent
        · exact absurd hle htarget
      · rw [if_neg hlonger] at hname
        by_cases hsource : source <+: other
        · rw [if_pos (hsource.trans (List.prefix_append other [name]))] at hname
          exact absurd rfl hname
        · rw [if_neg hsource]
          split_ifs at hname with hbelow
          · exact absurd rfl hname
          · exact tree.closed _ _ hname

/-! ## What changes where -/

section Frame

variable {tree staged : DirectoryTree κ ν} {path other source target rest : List κ}
  {kept : List (List κ)} {f : ν → ν}

theorem makeDirectories_entry :
    (tree.makeDirectories path).entry other =
      if other <+: path then some .directory else tree.entry other :=
  rfl

theorem graft_entry_append (h : tree.entry path = some .directory) :
    (tree.graft path staged h).entry (path ++ rest) = staged.entry rest := by
  change (if path <+: path ++ rest then staged.entry ((path ++ rest).drop path.length)
    else tree.entry (path ++ rest)) = staged.entry rest
  rw [if_pos (List.prefix_append path rest), List.drop_left]

theorem graft_entry_of_not_isPrefix
    (h : tree.entry path = some .directory) (hother : ¬ path <+: other) :
    (tree.graft path staged h).entry other = tree.entry other :=
  if_neg hother

theorem modifyFile_entry_of_ne (hother : other ≠ path) :
    (tree.modifyFile path f).entry other = tree.entry other :=
  if_neg hother

theorem modifyFile_entry_self :
    (tree.modifyFile path f).entry path = (tree.entry path).map (Entry.map f) :=
  if_pos rfl

theorem remove_entry_of_not_isPrefix (hother : ¬ path <+: other) :
    (tree.remove path kept).entry other = tree.entry other :=
  if_neg fun h => hother h.1

theorem remove_entry_of_kept {survivor : List κ} (hsurvivor : survivor ∈ kept)
    (hother : other <+: survivor) : (tree.remove path kept).entry other = tree.entry other :=
  if_neg fun h => h.2.2 survivor hsurvivor hother

theorem move_entry_target_append (h : tree.CanMove source target) :
    (tree.move source target h).entry (target ++ rest) = tree.entry (source ++ rest) := by
  change (if target <+: target ++ rest then
    tree.entry (source ++ (target ++ rest).drop target.length) else _) = _
  rw [if_pos (List.prefix_append target rest), List.drop_left]

theorem move_entry_of_not_isPrefix
    (h : tree.CanMove source target) (hsource : ¬ source <+: other)
    (htarget : ¬ target <+: other) : (tree.move source target h).entry other = tree.entry other := by
  change (if target <+: other then _ else if source <+: other then none else tree.entry other) = _
  rw [if_neg htarget, if_neg hsource]

/-- Nothing is left at the place that was moved from. -/
theorem move_entry_source (h : tree.CanMove source target) :
    (tree.move source target h).entry source = none := by
  have htarget : ¬ target <+: source :=
    fun hle => h.there (entry_eq_none_of_isPrefix hle h.free)
  change (if target <+: source then _ else if source <+: source then none
    else tree.entry source) = none
  rw [if_neg htarget, if_pos List.prefix_rfl]

end Frame

end Changes

end DirectoryTree
