import Mathlib.Algebra.Order.BigOperators.Group.List
import Mathlib.Algebra.Order.Group.Nat
import Wiicompiled.Storage.NandPath
import Wiicompiled.Support.SplitParts

/-!
# NAND paths under their root

The normal form of a guest path has clean components: no separators and no dots.  Appended to
a host directory they stay below it, unless a component begins like a drive on a host with
drives.
-/

namespace Wiicompiled.Storage.Nand

open SplitParts

/-! ## Clean components -/

/-- A component that resolving keeps as it is. -/
structure Clean (component : List Char) : Prop where
  ne_nil : component ≠ []
  slash : '/' ∉ component
  backslash : '\\' ∉ component
  dot : component ≠ ['.']
  dotDot : component ≠ ['.', '.']

def joinComponents (components : List (List Char)) : List Char :=
  components.flatMap fun part => '/' :: part

/-- The normal form with the given components. -/
def pathOf (components : List (List Char)) : List Char :=
  if components = [] then ['/'] else joinComponents components

section Components

variable {component text : List Char} {components : List (List Char)}

theorem joinComponents_cons : joinComponents (component :: components) =
    '/' :: (component ++ joinComponents components) := by
  rw [joinComponents, List.flatMap_cons, List.cons_append]
  rfl

theorem pushComponent_of_clean (h : Clean component) :
    pushComponent components component = components ++ [component] := by
  rw [pushComponent, if_neg h.dotDot, if_pos ⟨h.ne_nil, h.dot⟩]

theorem resolveLoop_eq (text component : List Char) (components : List (List Char)) :
    resolveLoop text component components =
      ((text.splitOn '/').modifyHead (component ++ ·)).foldl pushComponent components := by
  induction text generalizing component components with
  | nil => simp [resolveLoop]
  | cons c rest ih =>
      rw [resolveLoop, List.splitOn_cons_eq_if_modifyHead]
      by_cases hslash : c = '/'
      · rw [if_neg (not_not_intro hslash), ih, if_pos (beq_iff_eq.mpr hslash)]
        obtain ⟨head, parts, hparts⟩ := List.exists_cons_of_ne_nil (List.splitOn_ne_nil '/' rest)
        rw [hparts]
        simp
      · rw [if_pos hslash, ih, if_neg (by simpa using hslash)]
        obtain ⟨head, parts, hparts⟩ := List.exists_cons_of_ne_nil (List.splitOn_ne_nil '/' rest)
        rw [hparts]
        simp

theorem clean_foldl_pushComponent {parts : List (List Char)}
    (hcomponents : ∀ component ∈ components, Clean component)
    (hparts : ∀ part ∈ parts, '/' ∉ part ∧ '\\' ∉ part) :
    ∀ component ∈ parts.foldl pushComponent components, Clean component := by
  induction parts generalizing components with
  | nil => exact hcomponents
  | cons part parts ih =>
      rw [List.forall_mem_cons] at hparts
      obtain ⟨⟨hslash, hbackslash⟩, hparts⟩ := hparts
      refine ih ?_ hparts
      rw [pushComponent]
      split_ifs with hdotDot hkept
      · exact fun component h => hcomponents component (List.dropLast_subset _ h)
      · intro component h
        rcases List.mem_append.mp h with hold | hnew
        · exact hcomponents component hold
        · rw [List.mem_singleton.mp hnew]
          exact ⟨hkept.1, hslash, hbackslash, hkept.2, hdotDot⟩
      · exact hcomponents

theorem splitOn_append_joinComponents (h : Clean component)
    (hcomponents : ∀ component ∈ components, Clean component) :
    (component ++ joinComponents components).splitOn '/' = component :: components := by
  induction components generalizing component with
  | nil =>
      rw [joinComponents, List.flatMap_nil, List.append_nil]
      exact List.splitOn_eq_singleton h.slash
  | cons next components ih =>
      rw [List.forall_mem_cons] at hcomponents
      rw [joinComponents_cons, List.splitOn_append_cons_self_of_not_mem h.slash,
        ih hcomponents.1 hcomponents.2]

theorem resolveLoop_pathOf (h : ∀ component ∈ components, Clean component) :
    resolveLoop ((pathOf components).drop 1) [] [] = components := by
  cases components with
  | nil => rfl
  | cons component components =>
      have hclean := List.forall_mem_cons.mp h
      have hfold : ∀ rest done : List (List Char), (∀ component ∈ rest, Clean component) →
          rest.foldl pushComponent done = done ++ rest := by
        intro rest
        induction rest with
        | nil => exact fun done _ => (List.append_nil done).symm
        | cons next rest ih =>
            intro done hrest
            rw [List.forall_mem_cons] at hrest
            rw [List.foldl_cons, pushComponent_of_clean hrest.1, ih _ hrest.2, List.append_assoc,
              List.singleton_append]
      rw [pathOf, if_neg (List.cons_ne_nil _ _), joinComponents_cons, List.drop_one,
        List.tail_cons, resolveLoop_eq, splitOn_append_joinComponents hclean.1 hclean.2,
        List.modifyHead_cons, List.nil_append, hfold _ _ h, List.nil_append]

theorem parts_pathOf (h : ∀ component ∈ components, Clean component) :
    ((pathOf components).splitOn '/').filter (fun component => component ≠ []) = components := by
  have hkeep : ∀ rest : List (List Char), (∀ component ∈ rest, Clean component) →
      rest.filter (fun component => component ≠ []) = rest := fun rest hrest =>
    List.filter_eq_self.mpr fun component hmem => decide_eq_true (hrest component hmem).ne_nil
  cases components with
  | nil => rfl
  | cons component components =>
      have hclean := List.forall_mem_cons.mp h
      rw [pathOf, if_neg (List.cons_ne_nil _ _), joinComponents_cons,
        List.splitOn_cons_eq_if_modifyHead, if_pos (beq_iff_eq.mpr rfl),
        splitOn_append_joinComponents hclean.1 hclean.2]
      exact hkeep _ h

theorem getLast?_joinComponents (h : ∀ component ∈ components, Clean component) :
    (joinComponents components).getLast? ≠ some '/' := by
  rcases List.eq_nil_or_concat components with rfl | ⟨init, last, rfl⟩
  · exact (Option.some_ne_none _).symm
  · have hlast : Clean last := h last (by rw [List.concat_eq_append]; exact List.mem_concat_self)
    rw [joinComponents, List.concat_eq_append, List.flatMap_append, List.flatMap_singleton,
      List.getLast?_append_of_ne_nil _ (List.cons_ne_nil _ _), List.getLast?_cons_of_ne_nil]
    · intro hslash
      exact hlast.slash (List.mem_of_getLast? hslash)
    · exact hlast.ne_nil

theorem popSlashes_pathOf (h : ∀ component ∈ components, Clean component) :
    popSlashes (pathOf components) = pathOf components := by
  rw [popSlashes, if_neg]
  rintro ⟨hlong, hlast⟩
  cases components with
  | nil => exact absurd hlong (by decide)
  | cons component components =>
      rw [pathOf, if_neg (List.cons_ne_nil _ _)] at hlast
      exact getLast?_joinComponents h hlast

theorem joinComponents_eq_nil_iff : joinComponents components = [] ↔ components = [] := by
  cases components with
  | nil => exact iff_of_true rfl rfl
  | cons component components =>
      rw [joinComponents_cons]
      exact iff_of_false (List.cons_ne_nil _ _) (List.cons_ne_nil _ _)

end Components

/-! ## The normal form of a guest path -/

/-- The components of the absolute form, with its dots resolved. -/
def guestComponents (titleIdLo : BitVec 32) (wiiPath : List Char) : List (List Char) :=
  ((absoluteWiiPath titleIdLo wiiPath).splitOn '/').foldl pushComponent []

section Normal

variable {titleIdLo : BitVec 32} {wiiPath : List Char}

theorem backslash_not_mem_hex8 (value : BitVec 32) : '\\' ∉ hex8 value ∧ '/' ∉ hex8 value := by
  have hdigit : ∀ n < 16, Nat.digitChar n ≠ '\\' ∧ Nat.digitChar n ≠ '/' := by decide
  constructor
  · intro h
    obtain ⟨i, -, hi⟩ := List.mem_map.mp h
    exact (hdigit _ (Nat.mod_lt _ (by decide))).1 hi
  · intro h
    obtain ⟨i, -, hi⟩ := List.mem_map.mp h
    exact (hdigit _ (Nat.mod_lt _ (by decide))).2 hi

def dataComponents (titleIdLo : BitVec 32) : List (List Char) :=
  ["title".toList, hex8 kNandTitleIdHi, hex8 titleIdLo, "data".toList]

theorem currentNandDataDir_eq (titleIdLo : BitVec 32) :
    currentNandDataDir titleIdLo = joinComponents (dataComponents titleIdLo) := by
  rfl

theorem clean_hex8 (value : BitVec 32) : Clean (hex8 value) := by
  have hlength : (hex8 value).length = 8 := by rw [hex8, List.length_map, List.length_range]
  refine ⟨?_, (backslash_not_mem_hex8 value).2, (backslash_not_mem_hex8 value).1, ?_, ?_⟩
  all_goals
    intro h
    rw [h] at hlength
    exact absurd hlength (by decide)

theorem clean_dataComponents (titleIdLo : BitVec 32) :
    ∀ component ∈ dataComponents titleIdLo, Clean component := by
  have htitle : Clean "title".toList :=
    ⟨by decide, by decide, by decide, by decide, by decide⟩
  have hdata : Clean "data".toList := ⟨by decide, by decide, by decide, by decide, by decide⟩
  intro component h
  simp only [dataComponents, List.mem_cons, List.not_mem_nil, or_false] at h
  rcases h with rfl | rfl | rfl | rfl
  · exact htitle
  · exact clean_hex8 _
  · exact clean_hex8 _
  · exact hdata

theorem backslash_not_mem_currentNandDataDir (titleIdLo : BitVec 32) :
    '\\' ∉ currentNandDataDir titleIdLo := by
  rw [currentNandDataDir_eq, joinComponents, List.mem_flatMap]
  rintro ⟨component, hmem, h⟩
  rcases List.mem_cons.mp h with h | h
  · exact absurd h (by decide)
  · exact (clean_dataComponents titleIdLo component hmem).backslash h

/-- An absolute path without backslashes is its own absolute form. -/
theorem absoluteWiiPath_of_slash {rest : List Char} (h : '\\' ∉ '/' :: rest) :
    absoluteWiiPath titleIdLo ('/' :: rest) = '/' :: rest := by
  have hmap : ('/' :: rest).map (fun c => if c = '\\' then '/' else c) = '/' :: rest :=
    (List.map_congr_left fun c hc => if_neg (ne_of_mem_of_not_mem hc h)).trans (List.map_id _)
  rw [absoluteWiiPath, hmap]
  exact if_neg (not_not_intro rfl)

/-- The absolute form begins with a slash and has no backslashes. -/
theorem absoluteWiiPath_spec (titleIdLo : BitVec 32) (wiiPath : List Char) :
    (∃ rest, absoluteWiiPath titleIdLo wiiPath = '/' :: rest) ∧
      '\\' ∉ absoluteWiiPath titleIdLo wiiPath := by
  have hreplaced : '\\' ∉ wiiPath.map fun c => if c = '\\' then '/' else c := by
    intro h
    obtain ⟨c, -, hc⟩ := List.mem_map.mp h
    split_ifs at hc with hback
    · exact absurd hc (by decide)
    · exact hback hc
  have hcwd := backslash_not_mem_currentNandDataDir titleIdLo
  have hdir : ∃ rest, currentNandDataDir titleIdLo = '/' :: rest := ⟨_, rfl⟩
  obtain ⟨dir, hdir⟩ := hdir
  rw [absoluteWiiPath]
  by_cases hhead : (wiiPath.map fun c => if c = '\\' then '/' else c).head? = some '/'
  · rw [if_neg (not_not_intro hhead)]
    refine ⟨?_, hreplaced⟩
    obtain ⟨rest, hrest⟩ := List.head?_eq_some_iff.mp hhead
    exact ⟨rest, hrest⟩
  · rw [if_pos hhead]
    have hstart : (∃ rest, (if currentNandDataDir titleIdLo ≠ [] ∧
          (currentNandDataDir titleIdLo).getLast? ≠ some '/' then
          currentNandDataDir titleIdLo ++ ['/'] else currentNandDataDir titleIdLo) =
          '/' :: rest) ∧
        '\\' ∉ (if currentNandDataDir titleIdLo ≠ [] ∧
          (currentNandDataDir titleIdLo).getLast? ≠ some '/' then
          currentNandDataDir titleIdLo ++ ['/'] else currentNandDataDir titleIdLo) := by
      split
      · refine ⟨⟨dir ++ ['/'], by rw [hdir]; rfl⟩, ?_⟩
        rw [List.mem_append, not_or]
        exact ⟨hcwd, by decide⟩
      · exact ⟨⟨dir, hdir⟩, hcwd⟩
    obtain ⟨⟨rest, hrest⟩, hnot⟩ := hstart
    refine ⟨⟨rest ++ _, by simp only [hrest]; rfl⟩, ?_⟩
    rw [List.mem_append, not_or]
    exact ⟨hnot, hreplaced⟩

theorem clean_guestComponents (titleIdLo : BitVec 32) (wiiPath : List Char) :
    ∀ component ∈ guestComponents titleIdLo wiiPath, Clean component := by
  apply clean_foldl_pushComponent
  · exact fun component h => absurd h List.not_mem_nil
  · intro part hpart
    obtain ⟨hslash, hsub⟩ := mem_splitOn hpart
    exact ⟨hslash, fun h => (absoluteWiiPath_spec titleIdLo wiiPath).2 (hsub _ h)⟩

theorem lexicallyResolveWiiPath_eq (path : List Char) :
    lexicallyResolveWiiPath path = pathOf (resolveLoop (path.drop 1) [] []) := by
  rw [lexicallyResolveWiiPath, pathOf]
  by_cases hnil : resolveLoop (path.drop 1) [] [] = []
  · rw [if_pos hnil, hnil]
    rfl
  · rw [if_neg hnil]
    exact if_neg fun h => hnil (joinComponents_eq_nil_iff.mp h)

theorem normalizeAbsoluteWiiPath_eq (hnil : wiiPath ≠ []) :
    normalizeAbsoluteWiiPath titleIdLo (some wiiPath) =
      pathOf (guestComponents titleIdLo wiiPath) := by
  obtain ⟨⟨rest, hrest⟩, -⟩ := absoluteWiiPath_spec titleIdLo wiiPath
  have hcomponents : resolveLoop ((absoluteWiiPath titleIdLo wiiPath).drop 1) [] [] =
      guestComponents titleIdLo wiiPath := by
    rw [guestComponents, hrest, List.drop_one, List.tail_cons, resolveLoop_eq,
      List.splitOn_cons_eq_if_modifyHead, if_pos (beq_iff_eq.mpr rfl), List.foldl_cons]
    obtain ⟨head, parts, hparts⟩ := List.exists_cons_of_ne_nil (List.splitOn_ne_nil '/' rest)
    rw [hparts]
    rfl
  cases wiiPath with
  | nil => exact absurd rfl hnil
  | cons c wiiPath =>
      rw [normalizeAbsoluteWiiPath, lexicallyResolveWiiPath_eq, hcomponents]
      · exact popSlashes_pathOf (clean_guestComponents titleIdLo (c :: wiiPath))
      · exact List.cons_ne_nil _ _

theorem normalizeAbsoluteWiiPath_idem (titleIdLo : BitVec 32) (wiiPath : Option (List Char)) :
    normalizeAbsoluteWiiPath titleIdLo (some (normalizeAbsoluteWiiPath titleIdLo wiiPath)) =
      normalizeAbsoluteWiiPath titleIdLo wiiPath := by
  match wiiPath with
  | none => rfl
  | some [] => rfl
  | some (c :: wiiPath) =>
      have hclean := clean_guestComponents titleIdLo (c :: wiiPath)
      rw [normalizeAbsoluteWiiPath_eq (List.cons_ne_nil c wiiPath)]
      generalize guestComponents titleIdLo (c :: wiiPath) = components at hclean ⊢
      have hslash : ∃ rest, pathOf components = '/' :: rest := by
        rw [pathOf]
        cases components with
        | nil => exact ⟨[], rfl⟩
        | cons component components => exact ⟨_, rfl⟩
      have hback : '\\' ∉ pathOf components := by
        rw [pathOf]
        split
        · decide
        · rw [joinComponents, List.mem_flatMap]
          rintro ⟨component, hmem, h⟩
          rcases List.mem_cons.mp h with h | h
          · exact absurd h (by decide)
          · exact (hclean component hmem).backslash h
      obtain ⟨rest, hrest⟩ := hslash
      have habsolute : absoluteWiiPath titleIdLo (pathOf components) = pathOf components := by
        rw [hrest] at hback ⊢
        exact absoluteWiiPath_of_slash hback
      rw [hrest] at habsolute ⊢
      rw [normalizeAbsoluteWiiPath, lexicallyResolveWiiPath_eq, habsolute, ← hrest,
        resolveLoop_pathOf hclean]
      · exact popSlashes_pathOf hclean
      · exact List.cons_ne_nil _ _

end Normal

/-! ## Appending to a host path -/

/-- The text begins with a root name of its own. -/
def hasDrivePrefix (platform : Platform) (text : List Char) : Bool :=
  (splitRootName platform text).1.isSome

def HostPath.extend (path : HostPath) (components : List (List Char)) : HostPath :=
  { path with relative := path.relative ++ components }

/-- The length of the components, each with a separator. -/
def HostPath.weight (path : HostPath) : ℕ :=
  (path.relative.map fun component => component.length + 1).sum

section Append

variable {platform : Platform} {component text : List Char} {components : List (List Char)}
  {path other : HostPath}

theorem splitRootName_of_not_hasDrivePrefix (h : hasDrivePrefix platform text = false) :
    splitRootName platform text = (none, text) := by
  rw [hasDrivePrefix] at h
  rw [splitRootName.eq_def] at h ⊢
  split at h
  · split_ifs at h ⊢
    · exact absurd h.symm Bool.false_ne_true
    · rfl
  · rfl

theorem length_splitRootName (h : hasDrivePrefix platform text = true) :
    (splitRootName platform text).2.length + 2 = text.length := by
  rw [hasDrivePrefix] at h
  rw [splitRootName.eq_def] at h ⊢
  split at h
  · split_ifs at h ⊢
    · rfl
    · exact absurd h Bool.false_ne_true
  · exact absurd h Bool.false_ne_true

/-- Whether a text has a drive is decided by its first component. -/
theorem hasDrivePrefix_append (h : Clean component) :
    hasDrivePrefix platform (component ++ joinComponents components) =
      hasDrivePrefix platform component := by
  cases platform with
  | posix => rfl
  | windows =>
      match component with
      | [] => exact absurd rfl h.ne_nil
      | [letter] =>
          cases components with
          | nil => rfl
          | cons next components =>
              rw [joinComponents_cons]
              rfl
      | letter :: second :: rest =>
          by_cases hcolon : second = ':'
          · rw [hcolon]
            simp only [hasDrivePrefix, splitRootName, List.cons_append]
            split_ifs <;> rfl
          · have hplain : ∀ more, splitRootName .windows (letter :: second :: more) =
                (none, letter :: second :: more) := by
              intro more
              rw [splitRootName]
              intro _ _ _ hcons
              exact hcolon (List.cons.inj (List.cons.inj hcons).2).1
            rw [List.cons_append, List.cons_append, hasDrivePrefix, hasDrivePrefix, hplain, hplain]

theorem parse_of_not_hasDrivePrefix (hclean : Clean component)
    (hcomponents : ∀ component ∈ components, Clean component)
    (h : hasDrivePrefix platform component = false) :
    HostPath.parse platform (component ++ joinComponents components) =
      ⟨none, false, component :: components⟩ := by
  have hhead : (component ++ joinComponents components).head? ≠ some '/' := by
    obtain ⟨c, rest, rfl⟩ := List.exists_cons_of_ne_nil hclean.ne_nil
    intro hslash
    rw [List.cons_append, List.head?_cons, Option.some.injEq] at hslash
    exact hclean.slash (hslash ▸ List.mem_cons_self)
  have hkeep : (component :: components).filter (fun component => component ≠ []) =
      component :: components :=
    List.filter_eq_self.mpr fun part hpart =>
      decide_eq_true (List.forall_mem_cons.mpr ⟨hclean, hcomponents⟩ part hpart).ne_nil
  rw [HostPath.parse, splitRootName_of_not_hasDrivePrefix
    (by rwa [hasDrivePrefix_append hclean])]
  simp only [splitOn_append_joinComponents hclean hcomponents, hkeep, hhead, decide_false]

theorem append_of_no_root (platform : Platform) (path : HostPath)
    (components : List (List Char)) :
    path.append platform ⟨none, false, components⟩ = path.extend components := by
  have habsolute : (HostPath.mk none false components).isAbsolute platform = false := by
    cases platform <;> rfl
  rw [HostPath.append, if_neg]
  · rfl
  · rw [habsolute]
    simp

theorem weight_append_le : (path.append platform other).weight ≤ path.weight + other.weight := by
  rw [HostPath.append]
  split_ifs
  · omega
  · exact Nat.le_add_left _ _
  · simp only [HostPath.weight, List.map_append, List.sum_append]
    exact Nat.le_refl _

theorem weight_extend : (path.extend components).weight =
    path.weight + (components.map fun component => component.length + 1).sum := by
  simp only [HostPath.extend, HostPath.weight, List.map_append, List.sum_append]

theorem weight_parse_le :
    (HostPath.parse platform text).weight ≤ (splitRootName platform text).2.length + 1 := by
  rw [← sum_length_splitOn _ '/']
  exact (List.filter_sublist.map _).sum_le_sum fun _ _ => Nat.zero_le _

theorem weight_parse_lt (h : hasDrivePrefix platform text = true) :
    (HostPath.parse platform text).weight < text.length + 1 := by
  have hle := @weight_parse_le platform text
  have hlength := length_splitRootName h
  omega

theorem weight_parse_le_length :
    (HostPath.parse platform text).weight ≤ text.length + 1 := by
  cases h : hasDrivePrefix platform text with
  | true => exact Nat.le_of_lt (weight_parse_lt h)
  | false =>
      have hle := @weight_parse_le platform text
      rwa [splitRootName_of_not_hasDrivePrefix h] at hle

end Append

/-! ## Appending component by component -/

def appendAll (platform : Platform) (path : HostPath) (components : List (List Char)) : HostPath :=
  components.foldl (fun path component => path.append platform (.parse platform component)) path

def appendJoined (platform : Platform) (path : HostPath) (components : List (List Char)) :
    HostPath :=
  if components = [] then path
  else path.append platform (.parse platform ((joinComponents components).drop 1))

section

variable {platform : Platform} {path : HostPath} {component : List Char}
  {components : List (List Char)}

theorem appendAll_of_no_drives (hclean : ∀ component ∈ components, Clean component)
    (h : ∀ component ∈ components, hasDrivePrefix platform component = false) :
    appendAll platform path components = path.extend components := by
  induction components generalizing path with
  | nil =>
      rw [HostPath.extend, List.append_nil]
      rfl
  | cons component components ih =>
      rw [List.forall_mem_cons] at hclean h
      have hparse := parse_of_not_hasDrivePrefix hclean.1
        (fun component h => absurd h List.not_mem_nil) h.1
      rw [joinComponents, List.flatMap_nil, List.append_nil] at hparse
      rw [appendAll, List.foldl_cons, hparse, append_of_no_root]
      refine (ih hclean.2 h.2).trans ?_
      simp only [HostPath.extend, List.append_assoc, List.singleton_append]

theorem weight_appendAll_le : (appendAll platform path components).weight ≤
    (path.extend components).weight := by
  induction components generalizing path with
  | nil => rw [HostPath.extend, List.append_nil]; exact Nat.le_refl _
  | cons component components ih =>
      have hle := @ih (path.append platform (.parse platform component))
      have happend := @weight_append_le platform path (.parse platform component)
      have hparse := @weight_parse_le_length platform component
      rw [weight_extend] at hle ⊢
      rw [List.map_cons, List.sum_cons]
      exact hle.trans (by omega)

/-- A component with a drive leaves a lighter path, whatever is appended later. -/
theorem weight_appendAll_lt (hmem : component ∈ components)
    (hdrive : hasDrivePrefix platform component = true) :
    (appendAll platform path components).weight < (path.extend components).weight := by
  induction components generalizing path with
  | nil => exact absurd hmem List.not_mem_nil
  | cons first components ih =>
      have happend := @weight_append_le platform path (.parse platform first)
      rw [weight_extend, List.map_cons, List.sum_cons]
      rcases List.mem_cons.mp hmem with rfl | hmem
      · have hparse := weight_parse_lt hdrive
        have hle := @weight_appendAll_le platform (path.append platform (.parse platform component))
          components
        rw [weight_extend] at hle
        exact lt_of_le_of_lt hle (by omega)
      · have hparse := @weight_parse_le_length platform first
        have hlt := @ih (path.append platform (.parse platform first)) hmem
        rw [weight_extend] at hlt
        exact lt_of_lt_of_le hlt (by omega)

theorem appendAll_eq_extend_iff (hclean : ∀ component ∈ components, Clean component) :
    appendAll platform path components = path.extend components ↔
      ∀ component ∈ components, hasDrivePrefix platform component = false := by
  constructor
  · intro heq component hmem
    by_contra hdrive
    rw [Bool.not_eq_false] at hdrive
    have hlt := @weight_appendAll_lt platform path _ _ hmem hdrive
    rw [heq] at hlt
    exact lt_irrefl _ hlt
  · exact appendAll_of_no_drives hclean

theorem length_joinComponents (components : List (List Char)) : (joinComponents components).length =
    (components.map fun component => component.length + 1).sum := by
  induction components with
  | nil => rfl
  | cons component components ih =>
      rw [joinComponents_cons, List.length_cons, List.length_append, ih, List.map_cons,
        List.sum_cons]
      omega

theorem appendJoined_eq_extend_iff (hclean : ∀ component ∈ components, Clean component) :
    appendJoined platform path components = path.extend components ↔
      ∀ component ∈ components.take 1, hasDrivePrefix platform component = false := by
  cases components with
  | nil =>
      rw [appendJoined, if_pos rfl, HostPath.extend, List.append_nil]
      simp
  | cons first components =>
      have hfirst := List.forall_mem_cons.mp hclean
      have htake : (first :: components).take 1 = [first] := rfl
      rw [appendJoined, if_neg (List.cons_ne_nil _ _), htake, List.forall_mem_singleton]
      constructor
      · intro heq
        by_contra hdrive
        rw [Bool.not_eq_false, ← @hasDrivePrefix_append _ _ components hfirst.1] at hdrive
        have hparse := weight_parse_lt hdrive
        have happend := @weight_append_le platform path
          (.parse platform ((joinComponents (first :: components)).drop 1))
        have hlength := length_joinComponents (first :: components)
        rw [heq, weight_extend, ← hlength, joinComponents_cons, List.drop_one, List.tail_cons,
          List.length_cons] at happend
        omega
      · intro hdrive
        rw [joinComponents_cons, List.drop_one, List.tail_cons,
          parse_of_not_hasDrivePrefix hfirst.1 hfirst.2 hdrive, append_of_no_root]

end

/-! ## Translated paths -/

theorem resolveRiivolutionSaveHostPath_eq (platform : Platform) (hostDirectory : HostPath)
    (titleIdLo : BitVec 32) {components : List (List Char)}
    (hclean : ∀ component ∈ components, Clean component) :
    resolveRiivolutionSaveHostPath platform (some hostDirectory) titleIdLo (pathOf components) =
      if dataComponents titleIdLo <+: components then
        some (appendJoined platform hostDirectory
          (components.drop (dataComponents titleIdLo).length))
      else none := by
  have hdata := clean_dataComponents titleIdLo
  have hdataDir : currentNandDataDir titleIdLo = pathOf (dataComponents titleIdLo) := by rfl
  rw [resolveRiivolutionSaveHostPath, Option.bind_some]
  by_cases hbelow : dataComponents titleIdLo <+: components
  · rw [if_pos hbelow]
    obtain ⟨rest, rfl⟩ := hbelow
    have hjoin : pathOf (dataComponents titleIdLo ++ rest) =
        currentNandDataDir titleIdLo ++ joinComponents rest := by
      rw [pathOf, if_neg (by rw [dataComponents]; exact List.cons_ne_nil _ _), joinComponents,
        List.flatMap_append]
      rfl
    rw [List.drop_left, hjoin]
    cases rest with
    | nil =>
        rw [joinComponents, List.flatMap_nil, List.append_nil]
        simp only [ne_eq, not_true, false_and, if_false, lt_irrefl]
        rfl
    | cons component rest =>
        rw [joinComponents_cons]
        generalize currentNandDataDir titleIdLo = dataDir
        have hcomponent : component ≠ [] :=
          (hclean component (List.mem_append_right _ List.mem_cons_self)).ne_nil
        have htake : (dataDir ++ '/' :: (component ++ joinComponents rest)).take dataDir.length =
            dataDir := List.take_left
        have hslash : (dataDir ++ '/' :: (component ++ joinComponents rest))[dataDir.length]? =
            some '/' := by
          rw [List.getElem?_append_right (Nat.le_refl _), Nat.sub_self, List.getElem?_cons_zero]
        have hdrop : (dataDir ++ '/' :: (component ++ joinComponents rest)).drop
            (dataDir.length + 1) = component ++ joinComponents rest := by
          rw [← List.drop_drop, List.drop_left, List.drop_one, List.tail_cons]
        have hlong : dataDir.length <
            (dataDir ++ '/' :: (component ++ joinComponents rest)).length := by
          rw [List.length_append, List.length_cons]
          omega
        have hrelative : component ++ joinComponents rest ≠ [] := fun h =>
          hcomponent (List.append_eq_nil_iff.mp h).1
        rw [if_neg, if_pos hlong, hdrop, appendJoined, if_neg (List.cons_ne_nil _ _),
          joinComponents_cons, List.drop_one, List.tail_cons]
        · exact congrArg some (if_pos hrelative)
        · rintro ⟨-, hshort | hother | hother⟩
          · omega
          · exact hother htake
          · exact hother hslash
  · rw [if_neg hbelow]
    refine if_pos ⟨fun heq => ?_, ?_⟩
    · apply hbelow
      rw [hdataDir] at heq
      have hparts := parts_pathOf hclean
      rw [heq, parts_pathOf hdata] at hparts
      exact hparts ▸ List.prefix_refl components
    · by_contra hall
      rw [not_or, not_or, not_not, not_not] at hall
      obtain ⟨-, htake, hslash⟩ := hall
      have hsplit := List.take_append_drop (currentNandDataDir titleIdLo).length (pathOf components)
      obtain ⟨tail, htail⟩ : ∃ tail, (pathOf components).drop
          (currentNandDataDir titleIdLo).length = '/' :: tail := by
        rw [← List.head?_eq_some_iff, List.head?_drop]
        exact hslash
      rw [htake, htail, hdataDir] at hsplit
      have hparts := parts_pathOf hclean
      rw [← hsplit, List.splitOn_append_cons_self, List.filter_append, parts_pathOf hdata] at hparts
      exact hbelow ⟨_, hparts⟩

/-- Where the path of a guest should lead: to the redirected saves for the data directory, and
below the NAND directory otherwise. -/
def expectedPath (nandBasePath : HostPath) (redirect : Option HostPath) (titleIdLo : BitVec 32)
    (components : List (List Char)) : HostPath :=
  match redirect with
  | some hostDirectory =>
      if dataComponents titleIdLo <+: components then
        hostDirectory.extend (components.drop (dataComponents titleIdLo).length)
      else nandBasePath.extend components
  | none => nandBasePath.extend components

def readAsPath (redirect : Option HostPath) (titleIdLo : BitVec 32)
    (components : List (List Char)) : List (List Char) :=
  if redirect.isSome ∧ dataComponents titleIdLo <+: components then
    (components.drop (dataComponents titleIdLo).length).take 1
  else components

/-- A guest path leads nowhere, or its components lead below the right directory. -/
structure StaysUnderRoot (platform : Platform) (nandBasePath : HostPath)
    (redirect : Option HostPath) (titleIdLo : BitVec 32) (wiiPath : Option (List Char)) :
    Prop where
  path : translateNandPath platform nandBasePath redirect titleIdLo wiiPath =
    (wiiPath.filter fun wiiPath => wiiPath ≠ []).map fun wiiPath =>
      expectedPath nandBasePath redirect titleIdLo (guestComponents titleIdLo wiiPath)
  clean : ∀ text ∈ wiiPath, ∀ component ∈ guestComponents titleIdLo text, Clean component
  idempotent : normalizeAbsoluteWiiPath titleIdLo
      (some (normalizeAbsoluteWiiPath titleIdLo wiiPath)) =
    normalizeAbsoluteWiiPath titleIdLo wiiPath

section

variable {platform : Platform} {nandBasePath : HostPath} {redirect : Option HostPath}
  {titleIdLo : BitVec 32}

theorem pathOf_ne_nil (components : List (List Char)) : pathOf components ≠ [] := by
  rw [pathOf]
  split
  · exact List.cons_ne_nil _ _
  · rename_i hnil
    exact fun h => hnil (joinComponents_eq_nil_iff.mp h)

theorem translateNandPath_eq_expected_iff {wiiPath : List Char} (hnil : wiiPath ≠ []) :
    translateNandPath platform nandBasePath redirect titleIdLo (some wiiPath) =
        some (expectedPath nandBasePath redirect titleIdLo (guestComponents titleIdLo wiiPath)) ↔
      ∀ component ∈ readAsPath redirect titleIdLo (guestComponents titleIdLo wiiPath),
        hasDrivePrefix platform component = false := by
  have hclean := clean_guestComponents titleIdLo wiiPath
  rw [translateNandPath, normalizeAbsoluteWiiPath_eq hnil, if_neg (pathOf_ne_nil _)]
  generalize guestComponents titleIdLo wiiPath = components at hclean ⊢
  have hbuild : buildHostNandPath platform nandBasePath (pathOf components) =
      appendAll platform nandBasePath components := by
    rw [buildHostNandPath, parts_pathOf hclean]
    rfl
  cases redirect with
  | none =>
      rw [resolveRiivolutionSaveHostPath, Option.bind_none, hbuild, expectedPath, readAsPath,
        if_neg (by simp), Option.some.injEq]
      exact appendAll_eq_extend_iff hclean
  | some hostDirectory =>
      rw [resolveRiivolutionSaveHostPath_eq platform hostDirectory titleIdLo hclean, hbuild,
        expectedPath, readAsPath]
      by_cases hbelow : dataComponents titleIdLo <+: components
      · rw [if_pos hbelow, if_pos hbelow, if_pos ⟨rfl, hbelow⟩]
        simp only [Option.some.injEq]
        exact appendJoined_eq_extend_iff fun component hmem =>
          hclean component (List.mem_of_mem_drop hmem)
      · rw [if_neg hbelow, if_neg hbelow, if_neg fun h => hbelow h.2]
        simp only [Option.some.injEq]
        exact appendAll_eq_extend_iff hclean

end

/-- A guest path stays under its root exactly when no component that is read as the begin of
a host path begins with a drive. -/
theorem staysUnderRoot_iff (platform : Platform) (nandBasePath : HostPath)
    (redirect : Option HostPath) (titleIdLo : BitVec 32) (wiiPath : Option (List Char)) :
    StaysUnderRoot platform nandBasePath redirect titleIdLo wiiPath ↔
      ∀ text ∈ wiiPath, text ≠ [] →
        ∀ component ∈ readAsPath redirect titleIdLo (guestComponents titleIdLo text),
          hasDrivePrefix platform component = false := by
  have hclean : ∀ text ∈ wiiPath, ∀ component ∈ guestComponents titleIdLo text,
      Clean component := fun text _ => clean_guestComponents titleIdLo text
  have hidem := normalizeAbsoluteWiiPath_idem titleIdLo wiiPath
  match wiiPath with
  | none =>
      refine ⟨fun _ text h => ?_, fun _ => ⟨rfl, hclean, hidem⟩⟩
      exact absurd h (Option.not_mem_none text)
  | some [] =>
      refine ⟨fun _ text h hnil => ?_, fun _ => ⟨rfl, hclean, hidem⟩⟩
      exact absurd (Option.some.inj h).symm hnil
  | some (c :: text) =>
      have hnil := List.cons_ne_nil c text
      have hfilter : (some (c :: text)).filter (fun wiiPath => wiiPath ≠ []) = some (c :: text) :=
        by rw [Option.filter_some, if_pos (decide_eq_true hnil)]
      have hiff := @translateNandPath_eq_expected_iff platform nandBasePath redirect titleIdLo _ hnil
      constructor
      · intro h text' htext _
        obtain rfl := Option.some.inj htext
        have hpath := h.path
        rw [hfilter, Option.map_some] at hpath
        exact hiff.mp hpath
      · intro h
        refine ⟨?_, hclean, hidem⟩
        rw [hfilter, Option.map_some]
        exact hiff.mpr (h _ rfl hnil)

/-! ## A path with a drive -/

/-- `C:\Wii` on a host with drives. -/
def wiiDirectory : HostPath :=
  ⟨some ['C', ':'], true, ["Wii".toList]⟩

/-- `/D:/evil.bin` leads to another drive. -/
theorem not_staysUnderRoot :
    ¬ StaysUnderRoot .windows wiiDirectory none 0x524D4350 (some "/D:/evil.bin".toList) := by
  intro h
  exact absurd h.path (by decide +kernel)

end Wiicompiled.Storage.Nand
