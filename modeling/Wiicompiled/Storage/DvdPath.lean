import Mathlib.Data.List.Induction
import Wiicompiled.Support.SplitParts

/-!
# Paths on the disc

A path is a text of bytes.  The canonical form of a path has its components behind single
slashes, without dots; the lookup form is the canonical form in lower case.  The forms are
determined by the components, so paths are compared by their lists of components.
-/

namespace Wiicompiled.Storage.DvdFst

open SplitParts

abbrev Text := List UInt8

def slash : UInt8 := 0x2F

def backslash : UInt8 := 0x5C

def dot : Text := [0x2E]

def dotDot : Text := [0x2E, 0x2E]

/-! ## Forms of a path -/

/-- The lower case of a letter; other bytes stay. -/
def toLower (byte : UInt8) : UInt8 :=
  if 0x41 ≤ byte ∧ byte ≤ 0x5A then byte + 0x20 else byte

def lowercase (text : Text) : Text :=
  text.map toLower

/-- One step of the canonical form: a dot is left out, and two dots take the last
component back. -/
def pushComponent (components : List Text) (component : Text) : List Text :=
  if component = dot then components
  else if component = dotDot then components.dropLast
  else components ++ [component]

/-- The components of an arbitrary path. -/
def canonicalComponents (input : Text) : List Text :=
  let path := input.map fun byte => if byte = backslash then slash else byte
  ((path.splitOn slash).filter (· ≠ [])).foldl pushComponent []

def joinPath (components : List Text) : Text :=
  slash :: [slash].intercalate components

def canonicalizePath (input : Text) : Text :=
  joinPath (canonicalComponents input)

def normalizeLookupPath (input : Text) : Text :=
  lowercase (canonicalizePath input)

/-- The components of a canonical path.  An empty rest at the end is not one. -/
def components (canonicalPath : Text) : List Text :=
  let parts := (canonicalPath.drop 1).splitOn slash
  if parts.getLast? = some [] then parts.dropLast else parts

/-! ## Clean components -/

/-- A component that the canonical form keeps as it is. -/
structure Clean (component : Text) : Prop where
  ne_nil : component ≠ []
  slash : slash ∉ component
  backslash : backslash ∉ component
  dot : component ≠ dot
  dotDot : component ≠ dotDot

section Clean

variable {component text input : Text} {names names' : List Text} {byte : UInt8}

theorem toLower_eq_iff {special : UInt8} (hlow : special < 0x41 ∨ 0x7A < special ∨
    0x5A < special ∧ special < 0x61) : toLower byte = special ↔ byte = special := by
  unfold toLower
  simp only [UInt8.le_iff_toNat_le, UInt8.lt_iff_toNat_lt, ← UInt8.toNat_inj,
    UInt8.toNat_ofNat] at *
  split_ifs with hletter
  · rw [UInt8.toNat_add]
    simp only [UInt8.toNat_ofNat] at *
    omega
  · rfl

theorem toLower_eq_slash : toLower byte = slash ↔ byte = slash :=
  toLower_eq_iff (by decide)

theorem toLower_eq_backslash : toLower byte = backslash ↔ byte = backslash :=
  toLower_eq_iff (by decide)

theorem mem_lowercase_iff {special : UInt8}
    (h : ∀ byte, toLower byte = special ↔ byte = special) :
    special ∈ lowercase text ↔ special ∈ text := by
  simp [lowercase, h]

theorem lowercase_eq_dots_iff (count : ℕ) :
    lowercase text = List.replicate count 0x2E ↔ text = List.replicate count 0x2E := by
  have h : ∀ byte, toLower byte = 0x2E ↔ byte = 0x2E := fun byte => toLower_eq_iff (by decide)
  rw [List.eq_replicate_iff, List.eq_replicate_iff, lowercase, List.length_map]
  simp [h]

/-- The lower case of a component is clean if and only if the component is. -/
theorem clean_lowercase_iff : Clean (lowercase component) ↔ Clean component := by
  have hslash : slash ∈ lowercase component ↔ slash ∈ component :=
    mem_lowercase_iff fun _ => toLower_eq_slash
  have hbackslash : backslash ∈ lowercase component ↔ backslash ∈ component :=
    mem_lowercase_iff fun _ => toLower_eq_backslash
  have hdot : lowercase component = dot ↔ component = dot :=
    lowercase_eq_dots_iff 1
  have hdotDot : lowercase component = dotDot ↔ component = dotDot :=
    lowercase_eq_dots_iff 2
  have hnil : lowercase component = [] ↔ component = [] := List.map_eq_nil_iff
  constructor
  · rintro ⟨h₁, h₂, h₃, h₄, h₅⟩
    exact ⟨fun h => h₁ (hnil.mpr h), fun h => h₂ (hslash.mpr h), fun h => h₃ (hbackslash.mpr h),
      fun h => h₄ (hdot.mpr h), fun h => h₅ (hdotDot.mpr h)⟩
  · rintro ⟨h₁, h₂, h₃, h₄, h₅⟩
    exact ⟨fun h => h₁ (hnil.mp h), fun h => h₂ (hslash.mp h), fun h => h₃ (hbackslash.mp h),
      fun h => h₄ (hdot.mp h), fun h => h₅ (hdotDot.mp h)⟩

end Clean

/-! ## Components of a path -/

section Components

variable {component text input : Text} {names names' : List Text} {byte special : UInt8}

theorem clean_foldl_pushComponent {parts : List Text} (hnames : ∀ name ∈ names, Clean name)
    (hparts : ∀ part ∈ parts, part ≠ [] ∧ slash ∉ part ∧ backslash ∉ part) :
    ∀ name ∈ parts.foldl pushComponent names, Clean name := by
  induction parts generalizing names with
  | nil => exact hnames
  | cons part parts ih =>
      rw [List.forall_mem_cons] at hparts
      obtain ⟨⟨hnil, hslash, hbackslash⟩, hparts⟩ := hparts
      refine ih ?_ hparts
      unfold pushComponent
      split_ifs with hdot hdotDot
      · exact hnames
      · exact fun name hname => hnames name (List.dropLast_subset _ hname)
      · intro name hname
        rcases List.mem_append.mp hname with hold | hnew
        · exact hnames name hold
        · rw [List.mem_singleton.mp hnew]
          exact ⟨hnil, hslash, hbackslash, hdot, hdotDot⟩

theorem clean_canonicalComponents : ∀ name ∈ canonicalComponents input, Clean name := by
  refine clean_foldl_pushComponent (fun _ h => by cases h) fun part hpart => ?_
  rw [List.mem_filter, decide_eq_true_iff] at hpart
  obtain ⟨hmem, hnil⟩ := hpart
  obtain ⟨hslash, hsub⟩ := mem_splitOn hmem
  refine ⟨hnil, hslash, fun hbackslash => ?_⟩
  -- the slashes were put in place of the backslashes
  obtain ⟨byte, -, hbyte⟩ := List.mem_map.mp (hsub _ hbackslash)
  split_ifs at hbyte with heq
  · exact absurd hbyte (by decide)
  · exact heq hbyte

theorem splitOn_intercalate_of_clean (h : ∀ name ∈ names, Clean name) (hnil : names ≠ []) :
    ([slash].intercalate names).splitOn slash = names :=
  List.splitOn_intercalate slash (fun name hname => (h name hname).slash) hnil

theorem components_joinPath (h : ∀ name ∈ names, Clean name) :
    components (joinPath names) = names := by
  unfold components
  rw [joinPath, List.drop_one, List.tail_cons]
  by_cases hnil : names = []
  · rw [hnil]
    rfl
  · rw [splitOn_intercalate_of_clean h hnil]
    dsimp only
    rw [if_neg]
    intro hlast
    exact (h [] (List.mem_of_getLast? hlast)).ne_nil rfl

theorem joinPath_inj (h : ∀ name ∈ names, Clean name) (h' : ∀ name ∈ names', Clean name)
    (heq : joinPath names = joinPath names') : names = names' := by
  rw [← components_joinPath h, heq, components_joinPath h']

theorem mem_intercalate_slash (h : byte ∈ [slash].intercalate names) :
    byte = slash ∨ ∃ name ∈ names, byte ∈ name := by
  induction names with
  | nil => cases h
  | cons name names ih =>
      cases names with
      | nil =>
          rw [List.intercalate_singleton] at h
          exact Or.inr ⟨name, List.mem_cons_self, h⟩
      | cons second names =>
          rw [List.intercalate_cons_cons, List.mem_append, List.mem_append] at h
          rcases h with (hname | hslash) | hrest
          · exact Or.inr ⟨name, List.mem_cons_self, hname⟩
          · exact Or.inl (List.mem_singleton.mp hslash)
          · rcases ih hrest with hslash | ⟨other, hother, hbyte⟩
            · exact Or.inl hslash
            · exact Or.inr ⟨other, List.mem_cons_of_mem _ hother, hbyte⟩

theorem foldl_pushComponent_of_clean (h : ∀ name ∈ names', Clean name) :
    names'.foldl pushComponent names = names ++ names' := by
  induction names' generalizing names with
  | nil => rw [List.append_nil, List.foldl_nil]
  | cons name names' ih =>
      rw [List.forall_mem_cons] at h
      rw [List.foldl_cons, ih h.2, pushComponent, if_neg h.1.dot, if_neg h.1.dotDot,
        List.append_assoc, List.singleton_append]

theorem canonicalComponents_joinPath (h : ∀ name ∈ names, Clean name) :
    canonicalComponents (joinPath names) = names := by
  have hmap : (joinPath names).map (fun byte => if byte = backslash then slash else byte) =
      joinPath names := by
    refine List.map_congr_left (fun byte hbyte => ?_) |>.trans (List.map_id _)
    rw [if_neg]
    · rfl
    rintro rfl
    rcases List.mem_cons.mp hbyte with hslash | hrest
    · exact absurd hslash (by decide)
    · rcases mem_intercalate_slash hrest with hslash | ⟨name, hname, hbackslash⟩
      · exact absurd hslash (by decide)
      · exact (h name hname).backslash hbackslash
  unfold canonicalComponents
  dsimp only
  rw [hmap, joinPath, List.splitOn_cons_eq_if_modifyHead, if_pos (by decide)]
  by_cases hnil : names = []
  · rw [hnil]
    rfl
  · have hfilter : names.filter (· ≠ []) = names :=
      List.filter_eq_self.mpr fun name hname => by simpa using (h name hname).ne_nil
    rw [splitOn_intercalate_of_clean h hnil, List.filter_cons_of_neg (by simp), hfilter,
      foldl_pushComponent_of_clean h, List.nil_append]

theorem lowercase_joinPath : lowercase (joinPath names) = joinPath (names.map lowercase) := by
  have hslash : toLower slash = slash := by decide
  have hintercalate : lowercase ([slash].intercalate names) =
      [slash].intercalate (names.map lowercase) := by
    induction names with
    | nil => rfl
    | cons name names ih =>
        cases names with
        | nil =>
            rw [List.map_singleton, List.intercalate_singleton, List.intercalate_singleton]
        | cons second names =>
            rw [List.map_cons] at ih
            rw [List.map_cons, List.map_cons, List.intercalate_cons_cons,
              List.intercalate_cons_cons, ← ih]
            simp [lowercase, hslash]
  rw [joinPath, joinPath, ← hintercalate, lowercase, List.map_cons, hslash]
  rfl

theorem normalizeLookupPath_joinPath (h : ∀ name ∈ names, Clean name) :
    normalizeLookupPath (joinPath names) = joinPath (names.map lowercase) := by
  rw [normalizeLookupPath, canonicalizePath, canonicalComponents_joinPath h,
    lowercase_joinPath]

theorem normalizeLookupPath_eq :
    normalizeLookupPath input = joinPath ((canonicalComponents input).map lowercase) :=
  lowercase_joinPath

end Components

end Wiicompiled.Storage.DvdFst
