import Wiicompiled.Support.SplitParts
import Mathlib.Data.List.DropRight

/-!
# Paths of patch files

A patch names its files by paths relative to the root of the card or to the root
of the patch.  The loop that makes them absolute edits the result in place: a
component is appended, and a dot-dot cuts the result at its last slash.

The result is compared with the normal form of the path as a stack of
components.  While the loop runs, the result is the root followed by the stack,
so that the last slash is always the one before the component on top.
-/

namespace Wiicompiled.Riivolution

/-! ## Components -/

/-- The effect of one component on the stack; going up from the root fails. -/
def pushComponent (stack : List (List Char)) (component : List Char) :
    Option (List (List Char)) :=
  if component = [] ∨ component = ['.'] then some stack
  else if component = ['.', '.'] then
    if stack = [] then none else some stack.dropLast
  else some (stack ++ [component])

def normalizePath (path : List Char) : Option (List (List Char)) :=
  (path.splitOn '/').foldlM pushComponent []

/-- Components that name something: no slash in them, and none of the empty,
dot and dot-dot components. -/
def PlainComponent (component : List Char) : Prop :=
  component ≠ [] ∧ component ≠ ['.'] ∧ component ≠ ['.', '.'] ∧ '/' ∉ component

/-- The text of the components, each behind a slash. -/
def renderComponents (components : List (List Char)) : List Char :=
  components.flatMap fun component => '/' :: component

@[simp] theorem renderComponents_nil :
    renderComponents [] = [] :=
  rfl

@[simp] theorem renderComponents_concat
    (components : List (List Char)) (component : List Char) :
    renderComponents (components ++ [component]) =
      renderComponents components ++ '/' :: component := by
  simp [renderComponents]

theorem pushComponent_plain
    {stack stack' : List (List Char)} {component : List Char}
    (hstack : ∀ other ∈ stack, PlainComponent other) (hslash : '/' ∉ component)
    (hpush : pushComponent stack component = some stack') :
    ∀ other ∈ stack', PlainComponent other := by
  unfold pushComponent at hpush
  split_ifs at hpush with hskip hup
  · exact Option.some.inj hpush ▸ hstack
  · rw [← Option.some.inj hpush]
    exact fun other hother => hstack other (List.dropLast_subset stack hother)
  · rw [← Option.some.inj hpush]
    intro other hother
    rcases List.mem_append.mp hother with hold | hnew
    · exact hstack other hold
    · rw [List.mem_singleton.mp hnew]
      exact ⟨fun h => hskip (Or.inl h), fun h => hskip (Or.inr h), hup, hslash⟩

theorem foldlM_pushComponent_plain
    {parts stack stack' : List (List Char)} (hparts : ∀ part ∈ parts, '/' ∉ part)
    (hstack : ∀ other ∈ stack, PlainComponent other)
    (hfold : parts.foldlM pushComponent stack = some stack') :
    ∀ other ∈ stack', PlainComponent other := by
  induction parts generalizing stack with
  | nil => exact Option.some.inj hfold ▸ hstack
  | cons part parts ih =>
      rw [List.foldlM_cons] at hfold
      obtain ⟨next, hpush, hrest⟩ := Option.bind_eq_some_iff.mp hfold
      exact ih (fun other hother => hparts other (List.mem_cons_of_mem part hother))
        (pushComponent_plain hstack (hparts part List.mem_cons_self) hpush) hrest

theorem normalizePath_plain
    {path : List Char} {components : List (List Char)}
    (hnormal : normalizePath path = some components) :
    ∀ component ∈ components, PlainComponent component :=
  foldlM_pushComponent_plain (fun _ hpart => (SplitParts.mem_splitOn hpart).1)
    (by simp) hnormal

/-! ## The loop over the components -/

/-- `result.resize(result.rfind('/'))`. -/
def cutAtLastSlash (result : List Char) : Option (List Char) :=
  if '/' ∈ result then some (result.rdropWhile (· ≠ '/')).dropLast else none

/-- One component: the depth below the root and the result so far. -/
def pathStep (depth : Nat) (result element : List Char) : Option (Nat × List Char) :=
  if element = ['.'] then some (depth, result)
  else if element = ['.', '.'] then
    if depth = 0 then none
    else (cutAtLastSlash result).map fun cut => (depth - 1, cut)
  else if element ≠ [] then some (depth + 1, result ++ '/' :: element)
  else some (depth, result)

/-- The loop of `MakeAbsoluteFromRelative`. -/
def pathLoop (depth : Nat) (result work : List Char) : Option (List Char) :=
  if work = [] then some result
  else
    let element := work.takeWhile (· ≠ '/')
    match pathStep depth result element with
    | none => none
    | some (depth, result) =>
        if work.length ≤ element.length then some result
        else pathLoop depth result (work.drop (element.length + 1))
termination_by work.length
decreasing_by
  simp only [List.length_drop]
  omega

/-- The root that a path starts from, without its trailing slashes. -/
def pathRoot (sdRoot patchRoot externalRelativePath : List Char) : List Char :=
  (if externalRelativePath.head? = some '/' then sdRoot else patchRoot).rdropWhile (· = '/')

def makeAbsoluteFromRelative (sdRoot patchRoot externalRelativePath : List Char) :
    Option (List Char) :=
  if '\\' ∈ externalRelativePath then none
  else
    let work := (externalRelativePath.dropWhile (· = '/')).rdropWhile (· = '/')
    pathLoop 0 (pathRoot sdRoot patchRoot externalRelativePath) work

/-! ## The loop computes the normal form -/

theorem cutAtLastSlash_concat
    (front : List Char) {component : List Char} (hslash : '/' ∉ component) :
    cutAtLastSlash (front ++ '/' :: component) = some front := by
  have hdrop : (front ++ '/' :: component).rdropWhile (· ≠ '/') = front ++ ['/'] := by
    rw [List.rdropWhile, List.reverse_append, List.reverse_cons, List.append_assoc,
      List.dropWhile_append_of_pos]
    · simp
    · intro c hc
      have hne : c ≠ '/' := fun h => hslash (h ▸ List.mem_reverse.mp hc)
      simpa using hne
  simp only [cutAtLastSlash, List.mem_append, List.mem_cons, true_or, or_true, if_true, hdrop,
    List.dropLast_concat]

/-- One component of the loop is one component of the normal form. -/
theorem pathStep_eq
    (root : List Char) {stack : List (List Char)} {element : List Char}
    (hstack : ∀ component ∈ stack, PlainComponent component) :
    pathStep stack.length (root ++ renderComponents stack) element =
      (pushComponent stack element).map fun next =>
        (next.length, root ++ renderComponents next) := by
  unfold pathStep pushComponent
  by_cases hdot : element = ['.']
  · simp [hdot]
  by_cases hup : element = ['.', '.']
  · rcases List.eq_nil_or_concat stack with rfl | ⟨below, top, rfl⟩
    · simp [hup]
    · have htop := (hstack top (by simp)).2.2.2
      have hcut := cutAtLastSlash_concat (root ++ renderComponents below) htop
      rw [List.append_assoc] at hcut
      simp [hup, hcut]
  by_cases hempty : element = []
  · simp [hempty]
  · simp [hdot, hup, hempty]

theorem eq_takeWhile_append_drop
    {work : List Char} (hslash : '/' ∈ work) :
    work = work.takeWhile (· ≠ '/') ++
      '/' :: work.drop ((work.takeWhile (· ≠ '/')).length + 1) := by
  induction work with
  | nil => simp at hslash
  | cons first work ih =>
      by_cases hfirst : first = '/'
      · simp [hfirst]
      · have hrest : '/' ∈ work := by
          simpa [Ne.symm hfirst] using hslash
        simpa [hfirst] using ih hrest

theorem takeWhile_eq_self_of_not_mem
    {work : List Char} (hslash : '/' ∉ work) :
    work.takeWhile (· ≠ '/') = work := by
  rw [List.takeWhile_eq_self_iff]
  intro c hc
  have hne : c ≠ '/' := fun h => hslash (h ▸ hc)
  simpa using hne

theorem slash_not_mem_takeWhile
    (work : List Char) :
    '/' ∉ work.takeWhile (· ≠ '/') := by
  intro hmem
  simpa using List.mem_takeWhile_imp hmem

/-- The loop leaves the root followed by the normal form of the path. -/
theorem pathLoop_eq
    (root : List Char) (stack : List (List Char)) (work : List Char)
    (hstack : ∀ component ∈ stack, PlainComponent component) :
    pathLoop stack.length (root ++ renderComponents stack) work =
      ((work.splitOn '/').foldlM pushComponent stack).map fun next =>
        root ++ renderComponents next := by
  induction hlength : work.length using Nat.strong_induction_on generalizing stack work with
  | _ length ih =>
      rw [pathLoop]
      by_cases hempty : work = []
      · simp [hempty, pushComponent]
      rw [if_neg hempty]
      simp only [pathStep_eq root hstack]
      by_cases hslash : '/' ∈ work
      · have hsplit := eq_takeWhile_append_drop hslash
        have hlt : ¬ work.length ≤ (work.takeWhile (· ≠ '/')).length := by
          have hlen := congrArg List.length hsplit
          rw [List.length_append, List.length_cons] at hlen
          omega
        conv_rhs => rw [hsplit]
        rw [List.splitOn_append_cons_self_of_not_mem (slash_not_mem_takeWhile work),
          List.foldlM_cons]
        cases hpush : pushComponent stack (work.takeWhile (· ≠ '/')) with
        | none => simp
        | some next =>
            have hnext := pushComponent_plain hstack (slash_not_mem_takeWhile work) hpush
            simp only [Option.map_some, if_neg hlt]
            refine ih _ ?_ next (work.drop ((work.takeWhile (· ≠ '/')).length + 1)) hnext rfl
            rw [List.length_drop]
            omega
      · have hall := takeWhile_eq_self_of_not_mem hslash
        rw [List.splitOn_eq_singleton hslash, hall]
        cases hpush : pushComponent stack work with
        | none => simp [hpush]
        | some next => simp [hpush]

/-! ## Slashes around a path -/

theorem foldlM_splitOn_cons_slash
    (path : List Char) (stack : List (List Char)) :
    (('/' :: path).splitOn '/').foldlM pushComponent stack =
      (path.splitOn '/').foldlM pushComponent stack := by
  have hsplit := List.splitOn_append_cons_self (a := '/') [] path
  rw [List.nil_append, List.splitOn_nil] at hsplit
  rw [hsplit]
  simp [pushComponent]

theorem foldlM_splitOn_concat_slash
    (path : List Char) (stack : List (List Char)) :
    ((path ++ ['/']).splitOn '/').foldlM pushComponent stack =
      (path.splitOn '/').foldlM pushComponent stack := by
  rw [List.splitOn_append_cons_self, List.splitOn_nil, List.foldlM_append]
  cases (path.splitOn '/').foldlM pushComponent stack with
  | none => rfl
  | some next => simp [pushComponent]

theorem normalizePath_dropWhile
    (path : List Char) :
    normalizePath (path.dropWhile (· = '/')) = normalizePath path := by
  induction path with
  | nil => rfl
  | cons first path ih =>
      by_cases hfirst : first = '/'
      · subst hfirst
        have hdrop : ('/' :: path).dropWhile (· = '/') = path.dropWhile (· = '/') := by
          simp
        rw [hdrop, ih]
        exact (foldlM_splitOn_cons_slash path []).symm
      · simp [hfirst]

theorem normalizePath_rdropWhile
    (path : List Char) :
    normalizePath (path.rdropWhile (· = '/')) = normalizePath path := by
  induction path using List.reverseRecOn with
  | nil => rfl
  | append_singleton path last ih =>
      by_cases hlast : last = '/'
      · subst hlast
        rw [List.rdropWhile_concat_pos _ _ _ (by simp), ih]
        exact (foldlM_splitOn_concat_slash path []).symm
      · rw [List.rdropWhile_concat_neg _ _ _ (by simpa using hlast)]

/-! ## Absolute paths -/

/-- A path is refused exactly where it has a backslash or goes above its root;
else the result is the root followed by the components of the normal form. -/
theorem makeAbsoluteFromRelative_eq
    (sdRoot patchRoot path : List Char) :
    makeAbsoluteFromRelative sdRoot patchRoot path =
      if '\\' ∈ path then none
      else (normalizePath path).map fun components =>
        pathRoot sdRoot patchRoot path ++ renderComponents components := by
  unfold makeAbsoluteFromRelative
  by_cases hbackslash : '\\' ∈ path
  · rw [if_pos hbackslash, if_pos hbackslash]
  · rw [if_neg hbackslash, if_neg hbackslash]
    have hloop := pathLoop_eq (pathRoot sdRoot patchRoot path) []
      ((path.dropWhile (· = '/')).rdropWhile (· = '/')) (by simp)
    simp only [List.length_nil, renderComponents_nil, List.append_nil] at hloop
    have hnormal := (normalizePath_rdropWhile (path.dropWhile (· = '/'))).trans
      (normalizePath_dropWhile path)
    unfold normalizePath at hnormal
    simp only [hloop, hnormal, normalizePath]

/-- Whatever a patch file asks for, the path it gets lies under the root: it is
the root without trailing slashes, followed by plain components. -/
theorem makeAbsoluteFromRelative_under_root
    (sdRoot patchRoot path : List Char) :
    makeAbsoluteFromRelative sdRoot patchRoot path = none ∨
      ∃ components, normalizePath path = some components ∧
        (∀ component ∈ components, PlainComponent component) ∧
        makeAbsoluteFromRelative sdRoot patchRoot path =
          some (pathRoot sdRoot patchRoot path ++ renderComponents components) := by
  rw [makeAbsoluteFromRelative_eq]
  by_cases hbackslash : '\\' ∈ path
  · exact Or.inl (if_pos hbackslash)
  · rw [if_neg hbackslash]
    cases hnormal : normalizePath path with
    | none => exact Or.inl rfl
    | some components =>
        exact Or.inr ⟨components, rfl, normalizePath_plain hnormal, rfl⟩

end Wiicompiled.Riivolution
