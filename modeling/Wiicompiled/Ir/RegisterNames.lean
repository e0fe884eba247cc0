import Wiicompiled.Ir.Nodes

/-!
# Names and guest targets

The string conventions of the translator: the numeric suffix of an SSA version,
the hardware base of a lifter temporary, and the spellings of guest addresses.
Characters are classified as in ASCII, the alphabet of every name the front end
builds.
-/

namespace Wiicompiled.Ir

/-! ## Characters and numbers -/

def isWhiteSpace (c : Char) : Bool :=
  c.toNat = 0x20 || (0x09 ≤ c.toNat && c.toNat ≤ 0x0D) || c.toNat = 0x85 ||
    c.toNat = 0xA0

def isNullOrWhiteSpace (name : String) : Bool :=
  name.toList.all isWhiteSpace

def trim (cs : List Char) : List Char :=
  ((cs.dropWhile isWhiteSpace).reverse.dropWhile isWhiteSpace).reverse

/-- `Equals(.., StringComparison.OrdinalIgnoreCase)`. -/
def equalsIgnoreCase (a b : List Char) : Bool :=
  a.map Char.toLower = b.map Char.toLower

/-- The key of a string in a dictionary that ignores case. -/
def folded (value : String) : List Char :=
  value.toList.map Char.toLower

/-- `StartsWith(.., StringComparison.OrdinalIgnoreCase)`. -/
def startsWithIgnoreCase (cs pre : List Char) : Bool :=
  equalsIgnoreCase (cs.take pre.length) pre

/-- `Contains(.., StringComparison.Ordinal)`. -/
def containsText (cs pattern : List Char) : Bool :=
  cs.tails.any fun t => pattern.isPrefixOf t

def digitValue (c : Char) : ℕ :=
  c.toNat - 48

def decimalValue (digits : List Char) : ℕ :=
  digits.foldl (fun acc c => 10 * acc + digitValue c) 0

/-- `int.TryParse`: blanks around, an optional sign, digits, no overflow. -/
def tryParseInt (cs : List Char) : Option Int :=
  let magnitude := fun digits : List Char =>
    if digits ≠ [] ∧ digits.all Char.isDigit then some (decimalValue digits)
    else none
  match trim cs with
  | '-' :: digits =>
      match magnitude digits with
      | some n => if n ≤ 2147483648 then some (-(n : Int)) else none
      | none => none
  | '+' :: digits =>
      match magnitude digits with
      | some n => if n ≤ 2147483647 then some (n : Int) else none
      | none => none
  | digits =>
      match magnitude digits with
      | some n => if n ≤ 2147483647 then some (n : Int) else none
      | none => none

/-- An optional sign, whether it is a minus, and the digits after it. -/
def tryParseMagnitude (cs : List Char) : Option (Bool × ℕ) :=
  let (negative, digits) :=
    match cs with
    | '-' :: digits => (true, digits)
    | '+' :: digits => (false, digits)
    | digits => (false, digits)
  if digits ≠ [] ∧ digits.all Char.isDigit then
    some (negative, decimalValue digits)
  else none

def isHexDigit (c : Char) : Bool :=
  c.isDigit || ('a' ≤ c && c ≤ 'f') || ('A' ≤ c && c ≤ 'F')

def hexDigitValue (c : Char) : ℕ :=
  if c.isDigit then digitValue c else c.toLower.toNat - 87

def tryParseHexDigits (cs : List Char) : Option UInt32 :=
  let digits := trim cs
  let value := digits.foldl (fun acc c => 16 * acc + hexDigitValue c) 0
  if digits ≠ [] ∧ digits.all isHexDigit ∧ value < UInt32.size then
    some (UInt32.ofNat value)
  else none

/-! ## Ordinal comparison -/

/-- The UTF-16 code units of one character. -/
def utf16Units (c : Char) : List ℕ :=
  if c.toNat < 0x10000 then [c.toNat]
  else [0xD800 + (c.toNat - 0x10000) / 0x400,
    0xDC00 + (c.toNat - 0x10000) % 0x400]

def ordinalKey (value : String) : List ℕ :=
  value.toList.flatMap utf16Units

/-! ## Register names -/

def lastIndexOf (c : Char) (cs : List Char) : Option ℕ :=
  (cs.reverse.idxOf? c).map fun i => cs.length - 1 - i

/-- Drop everything from the last underscore when only digits follow it. -/
def stripNumericSuffixSpan (name : List Char) : List Char :=
  match lastIndexOf '_' name with
  | none => name
  | some idx =>
      if idx = 0 then name
      else if (name.drop (idx + 1)).all Char.isDigit then name.take idx
      else name

def stripNumericSuffix (name : String) : String :=
  String.ofList (stripNumericSuffixSpan name.toList)

/-- Drop the numeric suffix, then everything from the first underscore. -/
def hardwareBase (name : List Char) : List Char :=
  let stripped := stripNumericSuffixSpan name
  match stripped.idxOf? '_' with
  | none => stripped
  | some idx => if idx = 0 then stripped else stripped.take idx

/-- Drop everything from the first underscore when only digits follow it. -/
def ssaBaseName (name : List Char) : List Char :=
  match name.idxOf? '_' with
  | none => name
  | some idx =>
      if idx = 0 then name
      else if (name.drop (idx + 1)).all Char.isDigit then name.take idx
      else name

/-! ## Guest targets -/

/-- An IR call target that is an address: `0x8000ABCD` or `func_8000ABCD`. -/
def tryParseAddress (target : String) : Option UInt32 :=
  if isNullOrWhiteSpace target then none
  else
    let trimmed := trim target.toList
    let hex :=
      if startsWithIgnoreCase trimmed "0x".toList then trimmed.drop 2
      else if startsWithIgnoreCase trimmed "func_".toList then trimmed.drop 5
      else []
    if hex = [] then none else tryParseHexDigits hex

/-- `uint.TryParse`: blanks around, an optional sign, digits, no overflow. -/
def tryParseUInt32 (cs : List Char) : Option UInt32 :=
  match tryParseMagnitude (trim cs) with
  | some (true, n) => if n = 0 then some 0 else none
  | some (false, n) => if n < UInt32.size then some (UInt32.ofNat n) else none
  | none => none

/-- As `tryParseAddress`, with a bare decimal number as a further spelling. -/
def tryParseAddressOrDecimal (target : String) : Option UInt32 :=
  match tryParseAddress target with
  | some address => some address
  | none => tryParseUInt32 target.toList

example : tryParseAddress "func_8000ABCD" = some 0x8000ABCD := by decide

example : ssaBaseName "r3_rot".toList = "r3_rot".toList ∧
    hardwareBase "r3_rot".toList = "r3".toList := by decide

/-! ## Underscores in names -/

theorem mem_dropWhile_of_not
    {p : Char → Bool} {c : Char} (hc : p c = false) {cs : List Char}
    (h : c ∈ cs) : c ∈ cs.dropWhile p := by
  rw [← List.takeWhile_append_dropWhile (p := p) (l := cs), List.mem_append] at h
  rcases h with h | h
  · have hp := List.all_eq_true.mp (List.all_takeWhile (p := p) (l := cs)) c h
    rw [hc] at hp
    cases hp
  · exact h

theorem mem_trim
    {c : Char} (hc : isWhiteSpace c = false) {cs : List Char} (h : c ∈ cs) :
    c ∈ trim cs := by
  rw [trim, List.mem_reverse]
  refine mem_dropWhile_of_not hc ?_
  rw [List.mem_reverse]
  exact mem_dropWhile_of_not hc h

theorem tryParseInt_eq_none {cs : List Char} (h : '_' ∈ cs) :
    tryParseInt cs = none := by
  have htrim : '_' ∈ trim cs := mem_trim (by decide) h
  have hdigits : ∀ digits : List Char, '_' ∈ digits →
      (digits.all Char.isDigit) = false := by
    intro digits hmem
    rw [List.all_eq_false]
    exact ⟨'_', hmem, by decide⟩
  rw [tryParseInt]
  split <;> rename_i heq
  · rw [heq, List.mem_cons] at htrim
    have hin := hdigits _ (htrim.resolve_left (by decide))
    simp [hin]
  · rw [heq, List.mem_cons] at htrim
    have hin := hdigits _ (htrim.resolve_left (by decide))
    simp [hin]
  · simp [hdigits _ htrim]

theorem equalsIgnoreCase_eq_false
    {cs pattern : List Char} (h : '_' ∈ cs)
    (hpattern : '_' ∉ pattern.map Char.toLower) :
    equalsIgnoreCase cs pattern = false := by
  rw [equalsIgnoreCase, decide_eq_false_iff_not]
  intro heq
  apply hpattern
  rw [← heq]
  exact List.mem_map.mpr ⟨'_', h, by decide⟩

/-- The underscore of a name that begins like a register follows the beginning. -/
theorem mem_drop_of_startsWith
    {cs pre : List Char} (h : '_' ∈ cs) (hpre : '_' ∉ pre.map Char.toLower)
    (hstarts : startsWithIgnoreCase cs pre = true) : '_' ∈ cs.drop pre.length := by
  rw [← List.take_append_drop pre.length cs, List.mem_append] at h
  rcases h with h | h
  · rw [startsWithIgnoreCase, equalsIgnoreCase_eq_false h hpre] at hstarts
    cases hstarts
  · exact h

theorem lastIndexOf_append_cons
    {c : Char} (front : List Char) {back : List Char} (h : c ∉ back) :
    lastIndexOf c (front ++ c :: back) = some front.length := by
  have hidx : (front ++ c :: back).reverse.idxOf? c = some back.length := by
    rw [List.idxOf?_eq_some_iff]
    refine ⟨by simp, by simp, fun j hj => ?_⟩
    have hat : (front ++ c :: back).reverse[j]? = back.reverse[j]? := by
      simp [List.getElem?_append_left, hj]
    intro heq
    have hmem : c ∈ back.reverse := by
      rw [List.getElem_eq_iff, hat] at heq
      exact List.mem_of_getElem? heq
    exact h (List.mem_reverse.mp hmem)
  rw [lastIndexOf, hidx]
  simp

/-- Without an underscore, or with only digits after the first one, both bases
of a name are the same. -/
theorem hardwareBase_eq_ssaBaseName
    {name : List Char} (h : '_' ∉ ssaBaseName name) :
    hardwareBase name = ssaBaseName name := by
  rw [ssaBaseName] at h ⊢
  cases hidx : name.idxOf? '_' with
  | none =>
      have hnot := List.idxOf?_eq_none_iff.mp hidx
      have hlast : lastIndexOf '_' name = none := by
        rw [lastIndexOf, Option.map_eq_none_iff, List.idxOf?_eq_none_iff]
        simpa using hnot
      simp [hardwareBase, stripNumericSuffixSpan, hlast, hidx]
  | some idx =>
      obtain ⟨hlt, hat, hbefore⟩ := List.idxOf?_eq_some_iff.mp hidx
      have hsplit : name = name.take idx ++ '_' :: name.drop (idx + 1) := by
        rw [← hat, List.getElem_cons_drop, List.take_append_drop]
      have hmem : '_' ∈ name := by
        rw [← hat]
        exact List.getElem_mem hlt
      simp only [hidx] at h ⊢
      by_cases hzero : idx = 0
      · rw [if_pos hzero] at h
        exact absurd hmem h
      by_cases hdigits : (name.drop (idx + 1)).all Char.isDigit = true
      · rw [if_neg hzero, if_pos hdigits] at h ⊢
        have hback : '_' ∉ name.drop (idx + 1) := by
          intro hin
          exact absurd (List.all_eq_true.mp hdigits '_' hin) (by decide)
        have hlast : lastIndexOf '_' name = some idx := by
          rw [hsplit, lastIndexOf_append_cons _ hback, List.length_take,
            Nat.min_eq_left (Nat.le_of_lt hlt)]
        have hfront : (name.take idx).idxOf? '_' = none :=
          List.idxOf?_eq_none_iff.mpr h
        simp [hardwareBase, stripNumericSuffixSpan, hlast, hzero, hdigits, hfront]
      · rw [if_neg hzero, if_neg hdigits] at h
        exact absurd hmem h

end Wiicompiled.Ir
