import Wiicompiled.Support.DirectoryTree

/-!
# Parts of trees of directories

What stands at a path and below it is a part of a tree.  A part can be put at another path,
in the place of what is there.  Trees that agree off a path have the same parts at the paths
apart from it.
-/

/-- What can stand at a path and below it. -/
structure DirectoryTree.Part (κ ν : Type*) where
  entry : List κ → Option (DirectoryTree.Entry ν)
  paths : List (List κ)
  listed : ∀ path, entry path ≠ none → path ∈ paths
  closed : ∀ path name, entry (path ++ [name]) ≠ none → entry path = some .directory

namespace DirectoryTree

variable {κ ν : Type*}

/-- The entries at a path and below it. -/
def under (tree : DirectoryTree κ ν) (path : List κ) : List κ → Option (Entry ν) :=
  fun rest => tree.entry (path ++ rest)

/-- A directory without names. -/
def Part.emptyDirectory : Part κ ν where
  entry path := if path.isEmpty then some .directory else none
  paths := [[]]
  listed := by
    intro path hpath
    cases path with
    | nil => exact List.mem_singleton.mpr rfl
    | cons first rest => exact absurd rfl hpath
  closed := by
    intro path name hname
    cases path <;> exact absurd rfl hname

section Parts

variable [DecidableEq κ] {tree tree' tree'' : DirectoryTree κ ν} {path other rest : List κ}
  {stuff : Part κ ν}

/-- The part of a tree at a path. -/
def part (tree : DirectoryTree κ ν) (path : List κ) : Part κ ν where
  entry := tree.under path
  paths := (tree.paths.filter (path.isPrefixOf ·)).map (·.drop path.length)
  listed := by
    intro rest hrest
    refine List.mem_map.mpr ⟨path ++ rest, List.mem_filter.mpr ⟨tree.listed _ hrest, ?_⟩, ?_⟩
    · exact List.isPrefixOf_iff_prefix.mpr (List.prefix_append path rest)
    · exact List.drop_left
  closed := by
    intro rest name hname
    rw [under, ← List.append_assoc] at hname
    exact tree.closed _ _ hname

/-- A name in a directory. -/
structure CanPut (tree : DirectoryTree κ ν) (path : List κ) : Prop where
  named : path ≠ []
  parent : tree.entry path.dropLast = some .directory

instance [DecidableEq ν] (tree : DirectoryTree κ ν) (path : List κ) :
    Decidable (tree.CanPut path) :=
  decidable_of_iff (path ≠ [] ∧ tree.entry path.dropLast = some .directory)
    ⟨fun ⟨h₁, h₂⟩ => ⟨h₁, h₂⟩, fun ⟨h₁, h₂⟩ => ⟨h₁, h₂⟩⟩

/-- Put a part at a path, in place of what is at or below it. -/
def put (tree : DirectoryTree κ ν) (path : List κ) (stuff : Part κ ν) (h : tree.CanPut path) :
    DirectoryTree κ ν where
  entry other :=
    if path <+: other then stuff.entry (other.drop path.length) else tree.entry other
  paths := stuff.paths.map (path ++ ·) ++ tree.paths
  listed := by
    intro other hother
    split_ifs at hother with hle
    · obtain ⟨rest, rfl⟩ := hle
      rw [List.drop_left] at hother
      exact List.mem_append_left _ (List.mem_map_of_mem (stuff.listed _ hother))
    · exact List.mem_append_right _ (tree.listed _ hother)
  rooted := by
    rw [if_neg fun hle => h.named (List.prefix_nil.mp hle)]
    exact tree.rooted
  closed := by
    intro other name hname
    by_cases hle : path <+: other
    · obtain ⟨rest, rfl⟩ := hle
      rw [if_pos (List.prefix_append path rest), List.drop_left]
      rw [List.append_assoc, if_pos (List.prefix_append path _), List.drop_left] at hname
      exact stuff.closed _ _ hname
    · rw [if_neg hle]
      by_cases hlonger : path <+: other ++ [name]
      · rcases List.prefix_concat_iff.mp hlonger with heq | hshorter
        · have hparent := h.parent
          rwa [heq, List.dropLast_concat] at hparent
        · exact absurd hshorter hle
      · rw [if_neg hlonger] at hname
        exact tree.closed _ _ hname

theorem under_put (h : tree.CanPut path) : (tree.put path stuff h).under path = stuff.entry := by
  funext rest
  change (if path <+: path ++ rest then stuff.entry ((path ++ rest).drop path.length)
    else tree.entry (path ++ rest)) = stuff.entry rest
  rw [if_pos (List.prefix_append path rest), List.drop_left]

theorem under_move {source target : List κ} (h : tree.CanMove source target) :
    (tree.move source target h).under target = tree.under source := by
  funext rest
  exact move_entry_target_append h

end Parts

/-! ## Trees that agree off a path -/

section AgreeOff

variable {tree tree' tree'' : DirectoryTree κ ν} {path other rest : List κ}

/-- Two trees differ at or below a path only. -/
def AgreeOff (path : List κ) (tree tree' : DirectoryTree κ ν) : Prop :=
  ∀ other, ¬ path <+: other → tree'.entry other = tree.entry other

theorem AgreeOff.refl (path : List κ) (tree : DirectoryTree κ ν) : AgreeOff path tree tree :=
  fun _ _ => rfl

theorem AgreeOff.trans
    (h : AgreeOff path tree tree') (h' : AgreeOff path tree' tree'') : AgreeOff path tree tree'' :=
  fun other hother => (h' other hother).trans (h other hother)

/-- A change below a name is one below what is above it. -/
theorem AgreeOff.of_isPrefix (h : AgreeOff other tree tree') (hle : path <+: other) :
    AgreeOff path tree tree' :=
  fun _ hnot => h _ fun hbelow => hnot (hle.trans hbelow)

theorem AgreeOff.under_eq (h : AgreeOff path tree tree') (hapart : Apart path other) :
    tree'.under other = tree.under other :=
  funext fun rest => h _ (hapart.not_isPrefix_append rest)

theorem AgreeOff.entry_eq (h : AgreeOff path tree tree') (hapart : Apart path other) :
    tree'.entry other = tree.entry other :=
  h other hapart.1

/-- What is there where nothing was at the path of a change is still there. -/
theorem AgreeOff.entry_of_free
    (h : AgreeOff path tree tree') (hfree : tree.entry path = none)
    (hother : tree.entry other ≠ none) : tree'.entry other = tree.entry other :=
  h other fun hle => hother (entry_eq_none_of_isPrefix hle hfree)

theorem agreeOff_put [DecidableEq κ] {stuff : Part κ ν} (h : tree.CanPut path) :
    AgreeOff path tree (tree.put path stuff h) :=
  fun _ hother => if_neg hother

theorem agreeOff_remove [DecidableEq κ] (kept : List (List κ)) :
    AgreeOff path tree (tree.remove path kept) :=
  fun _ hother => remove_entry_of_not_isPrefix hother

theorem remove_entry_self [DecidableEq κ] (hpath : path ≠ []) :
    (tree.remove path []).entry path = none :=
  if_pos ⟨List.prefix_rfl, hpath, fun _ h => absurd h List.not_mem_nil⟩

theorem remove_entry_of_free [DecidableEq κ] {kept : List (List κ)} (h : tree.entry path = none) :
    (tree.remove path kept).entry other = tree.entry other := by
  by_cases hle : path <+: other
  · have hother := entry_eq_none_of_isPrefix hle h
    change (if _ then none else tree.entry other) = tree.entry other
    rw [hother, ite_self]
  · exact remove_entry_of_not_isPrefix hle

end AgreeOff

end DirectoryTree
