import Mathlib.Data.Nat.Digits.Defs
import Mathlib.Data.List.Induction

/-!
# Numeric attributes of patch files

Patch files write sizes and memory offsets as attributes, in decimal or with the
prefix of a hexadecimal numeral.  The unsigned reader is compared with the value
of the numeral; it is exact.  The signed reader takes the sign off, reads the
rest as an unsigned number and uses one value of it, `0x80000000`, as the mark of
a failure; it is exact only while the magnitude does not pass that value.
-/

namespace Wiicompiled.Riivolution

/-! ## The readers -/

structure XmlNode where
  attributes : List (List Char × List Char)

def XmlNode.findAttribute (node : XmlNode) (attributeName : List Char) : Option (List Char) :=
  (node.attributes.find? fun entry => entry.1 = attributeName).map Prod.snd

/-- The digit that a character stands for; letters count in base 16 only. -/
def digitOf (base : Nat) (c : Char) : Option Nat :=
  if '0' ≤ c ∧ c ≤ '9' then some (c.toNat - '0'.toNat)
  else if base = 16 ∧ 'a' ≤ c ∧ c ≤ 'f' then some (c.toNat - 'a'.toNat + 10)
  else if base = 16 ∧ 'A' ≤ c ∧ c ≤ 'F' then some (c.toNat - 'A'.toNat + 10)
  else none

/-- The loop over the digits.  The result stays below `2 ^ 36`, so that it does
not overflow its 64 bits. -/
def digitLoop (base : Nat) : Nat → List Char → Option Nat
  | result, [] => some result
  | result, c :: text =>
      match digitOf base c with
      | none => none
      | some digit =>
          if 0xffffffff < result * base + digit then none
          else digitLoop base (result * base + digit) text

/-- The test for the prefix of a hexadecimal numeral. -/
def hasHexPrefix (text : List Char) : Bool :=
  2 < text.length && text.head? == some '0' &&
    (text[1]? == some 'x' || text[1]? == some 'X')

/-- The body of `AttributeUint`, with the text found. -/
def uintOfText (text : List Char) (fallback : BitVec 32) : BitVec 32 :=
  let base := if hasHexPrefix text then 16 else 10
  let index := if hasHexPrefix text then 2 else 0
  match digitLoop base 0 (text.drop index) with
  | none => fallback
  | some result => if index < text.length then BitVec.ofNat 32 result else fallback

def XmlNode.attributeUint (node : XmlNode) (attributeName : List Char)
    (fallback : BitVec 32) : BitVec 32 :=
  match node.findAttribute attributeName with
  | none => fallback
  | some text => if text = [] then fallback else uintOfText text fallback

/-- `AttributeUintFromText`: the unsigned reader on a node made for the text. -/
def attributeUintFromText (text : List Char) (fallback : BitVec 32) : BitVec 32 :=
  XmlNode.attributeUint { attributes := [(['v'], text)] } ['v'] fallback

def XmlNode.attributeInt (node : XmlNode) (attributeName : List Char)
    (fallback : BitVec 32) : BitVec 32 :=
  match node.findAttribute attributeName with
  | none => fallback
  | some text =>
      if text = [] then fallback
      else
        let negative := text.head? == some '-'
        let magnitude :=
          attributeUintFromText (if negative then text.drop 1 else text) 0x80000000
        if magnitude = 0x80000000 ∧ negative = false then fallback
        -- negating the least integer gives it back
        else if negative then -magnitude
        else magnitude

/-! ## The value of a numeral -/

def digitsValue (base : Nat) (text : List Char) : Option Nat :=
  (text.mapM (digitOf base)).map fun digits => Nat.ofDigits base digits.reverse

/-- The value of a decimal numeral, or of a hexadecimal one behind its prefix. -/
def numeralValue : List Char → Option Nat
  | [] => none
  | '0' :: 'x' :: digit :: digits => digitsValue 16 (digit :: digits)
  | '0' :: 'X' :: digit :: digits => digitsValue 16 (digit :: digits)
  | digit :: digits => digitsValue 10 (digit :: digits)

/-- An unsigned attribute: the numeral if it fits, else the fallback. -/
def uintValue (text : List Char) (fallback : BitVec 32) : BitVec 32 :=
  match numeralValue text with
  | some value => if value ≤ 0xffffffff then BitVec.ofNat 32 value else fallback
  | none => fallback

/-- The integer that a text stands for, with an optional minus sign. -/
def integerValue : List Char → Option Int
  | '-' :: text => (numeralValue text).map fun (value : Nat) => -(value : Int)
  | text => (numeralValue text).map fun (value : Nat) => (value : Int)

/-- A signed attribute: the integer if it fits, else the fallback. -/
def intValue (text : List Char) (fallback : BitVec 32) : BitVec 32 :=
  match integerValue text with
  | some value =>
      if -2 ^ 31 ≤ value ∧ value < 2 ^ 31 then BitVec.ofInt 32 value else fallback
  | none => fallback

/-! ## The loop over the digits -/

theorem foldl_digits_eq_ofDigits
    (base : Nat) (digits : List Nat) :
    digits.foldl (fun result digit => result * base + digit) 0 =
      Nat.ofDigits base digits.reverse := by
  induction digits using List.reverseRecOn with
  | nil => rfl
  | append_singleton digits digit ih =>
      rw [List.foldl_append, List.reverse_append, ih]
      simp only [List.foldl_cons, List.foldl_nil, List.reverse_singleton, List.singleton_append,
        Nat.ofDigits_cons]
      rw [Nat.mul_comm base, Nat.add_comm]

theorem le_foldl_digits
    {base : Nat} (hbase : 0 < base) (digits : List Nat) (result : Nat) :
    result ≤ digits.foldl (fun result digit => result * base + digit) result := by
  induction digits generalizing result with
  | nil => exact Nat.le_refl _
  | cons digit digits ih =>
      have hstep : result ≤ result * base + digit :=
        Nat.le_trans (Nat.le_mul_of_pos_right result hbase) (Nat.le_add_right _ _)
      exact Nat.le_trans hstep (ih (result * base + digit))

/-- The loop gives up early exactly where the numeral is too large. -/
theorem digitLoop_eq
    {base : Nat} (hbase : 0 < base) (text : List Char) {result : Nat}
    (hresult : result ≤ 0xffffffff) :
    digitLoop base result text =
      (text.mapM (digitOf base)).bind fun digits =>
        let value := digits.foldl (fun result digit => result * base + digit) result
        if value ≤ 0xffffffff then some value else none := by
  induction text generalizing result with
  | nil =>
      simp [digitLoop, hresult]
  | cons c text ih =>
      rw [digitLoop, List.mapM_cons]
      cases hdigit : digitOf base c with
      | none => simp
      | some digit =>
          simp only [Option.pure_def, Option.bind_eq_bind, Option.bind_some]
          by_cases hlarge : 0xffffffff < result * base + digit
          · rw [if_pos hlarge]
            cases text.mapM (digitOf base) with
            | none => simp
            | some digits =>
                have hle := le_foldl_digits hbase digits (result * base + digit)
                have hnot : ¬ digits.foldl (fun result digit => result * base + digit)
                    (result * base + digit) ≤ 0xffffffff := by
                  omega
                simp [hnot]
          · rw [if_neg hlarge, ih (Nat.le_of_not_lt hlarge)]
            cases text.mapM (digitOf base) with
            | none => rfl
            | some digits => rfl

theorem digitLoop_eq_digitsValue
    {base : Nat} (hbase : 0 < base) (text : List Char) :
    digitLoop base 0 text =
      (digitsValue base text).bind fun value =>
        if value ≤ 0xffffffff then some value else none := by
  rw [digitLoop_eq hbase text (Nat.zero_le _), digitsValue]
  cases text.mapM (digitOf base) with
  | none => rfl
  | some digits => simp [foldl_digits_eq_ofDigits]

/-! ## The unsigned reader -/

theorem numeralValue_eq
    {text : List Char} (hempty : text ≠ []) :
    numeralValue text =
      digitsValue (if hasHexPrefix text then 16 else 10)
        (text.drop (if hasHexPrefix text then 2 else 0)) := by
  unfold numeralValue
  split
  · exact absurd rfl hempty
  · simp [hasHexPrefix]
  · simp [hasHexPrefix]
  · rename_i digit digits hlower hupper
    have hhex : hasHexPrefix (digit :: digits) = false := by
      cases digits with
      | nil => simp [hasHexPrefix]
      | cons second rest =>
          cases rest with
          | nil => simp [hasHexPrefix]
          | cons third rest =>
              by_cases hzero : digit = '0'
              · have hx : second ≠ 'x' := fun h => hlower third rest hzero (by rw [h])
                have hX : second ≠ 'X' := fun h => hupper third rest hzero (by rw [h])
                simp [hasHexPrefix, hx, hX]
              · simp [hasHexPrefix, hzero]
    simp [hhex]

theorem hasHexPrefix_lt_length
    {text : List Char} (hempty : text ≠ []) :
    (if hasHexPrefix text then 2 else 0) < text.length := by
  split_ifs with hhex
  · simp only [hasHexPrefix, Bool.and_eq_true, decide_eq_true_eq] at hhex
    exact hhex.1.1
  · exact List.length_pos_iff.mpr hempty

theorem uintOfText_eq
    {text : List Char} (hempty : text ≠ []) (fallback : BitVec 32) :
    uintOfText text fallback = uintValue text fallback := by
  have hbase : 0 < if hasHexPrefix text then 16 else 10 := by
    split_ifs <;> omega
  have hindex := hasHexPrefix_lt_length hempty
  simp only [uintOfText, uintValue]
  rw [numeralValue_eq hempty, digitLoop_eq_digitsValue hbase]
  cases digitsValue (if hasHexPrefix text then 16 else 10)
      (text.drop (if hasHexPrefix text then 2 else 0)) with
  | none => rfl
  | some value =>
      by_cases hfits : value ≤ 0xffffffff
      · simp only [Option.bind_some, if_pos hfits, if_pos hindex]
      · simp only [Option.bind_some, if_neg hfits]

theorem attributeUint_eq
    {node : XmlNode} {attributeName text : List Char}
    (hfound : node.findAttribute attributeName = some text) (fallback : BitVec 32) :
    node.attributeUint attributeName fallback = uintValue text fallback := by
  simp only [XmlNode.attributeUint, hfound]
  by_cases hempty : text = []
  · subst hempty
    rfl
  · rw [if_neg hempty, uintOfText_eq hempty]

theorem attributeUintFromText_eq
    (text : List Char) (fallback : BitVec 32) :
    attributeUintFromText text fallback = uintValue text fallback :=
  attributeUint_eq (by simp [XmlNode.findAttribute]) fallback

/-! ## The signed reader -/

/-- The magnitudes that the signed reader tells apart from a failure: with a
minus sign a numeral up to `2 ^ 31`, without one anything but a numeral between
`2 ^ 31` and `2 ^ 32`. -/
def SignedRange : List Char → Prop
  | '-' :: text => ∃ value, numeralValue text = some value ∧ value ≤ 2 ^ 31
  | text => ∀ value, numeralValue text = some value → value ≤ 2 ^ 31 ∨ 2 ^ 32 ≤ value

theorem attributeInt_of_unsigned
    {node : XmlNode} {attributeName text : List Char}
    (hfound : node.findAttribute attributeName = some text) (hsign : text.head? ≠ some '-')
    (fallback : BitVec 32) :
    node.attributeInt attributeName fallback =
      if uintValue text 0x80000000 = 0x80000000 then fallback
      else uintValue text 0x80000000 := by
  simp only [XmlNode.attributeInt, hfound]
  by_cases hempty : text = []
  · subst hempty
    simp [uintValue, numeralValue]
  · rw [if_neg hempty]
    simp [hsign, attributeUintFromText_eq]

theorem attributeInt_of_negative
    {node : XmlNode} {attributeName text : List Char}
    (hfound : node.findAttribute attributeName = some ('-' :: text)) (fallback : BitVec 32) :
    node.attributeInt attributeName fallback = -uintValue text 0x80000000 := by
  simp [XmlNode.attributeInt, hfound, attributeUintFromText_eq]

theorem integerValue_of_unsigned
    {text : List Char} (hsign : text.head? ≠ some '-') :
    integerValue text = (numeralValue text).map fun (value : Nat) => (value : Int) := by
  unfold integerValue
  split
  · simp at hsign
  · rfl

theorem signedRange_of_unsigned
    {text : List Char} (hsign : text.head? ≠ some '-') :
    SignedRange text ↔
      ∀ value, numeralValue text = some value → value ≤ 2 ^ 31 ∨ 2 ^ 32 ≤ value := by
  unfold SignedRange
  split
  · simp at hsign
  · rfl

/-- A number below `2 ^ 32` is a failure mark or zero only if it is that number. -/
theorem ofNat_eq_iff
    {value other : Nat} (hvalue : value < 2 ^ 32) (hother : other < 2 ^ 32) :
    BitVec.ofNat 32 value = BitVec.ofNat 32 other ↔ value = other := by
  rw [← BitVec.toNat_inj, BitVec.toNat_ofNat, BitVec.toNat_ofNat, Nat.mod_eq_of_lt hvalue,
    Nat.mod_eq_of_lt hother]

theorem unsigned_exact_iff
    {node : XmlNode} {attributeName text : List Char}
    (hfound : node.findAttribute attributeName = some text) (hsign : text.head? ≠ some '-') :
    (∀ fallback, node.attributeInt attributeName fallback = intValue text fallback) ↔
      SignedRange text := by
  rw [signedRange_of_unsigned hsign]
  simp only [attributeInt_of_unsigned hfound hsign, intValue, integerValue_of_unsigned hsign,
    uintValue]
  rcases Option.eq_none_or_eq_some (numeralValue text) with hvalue | ⟨value, hvalue⟩
  · simp [hvalue]
  simp only [hvalue, Option.map_some, Option.some.injEq, forall_eq']
  by_cases hfits : value ≤ 0xffffffff
  · have hmark : BitVec.ofNat 32 value = 0x80000000 ↔ value = 0x80000000 :=
      @ofNat_eq_iff value 0x80000000 (by omega) (by omega)
    by_cases hlow : value < 2 ^ 31
    · have hne : ¬ BitVec.ofNat 32 value = 0x80000000 := by
        rw [hmark]
        omega
      have hint : -2 ^ 31 ≤ (value : Int) ∧ (value : Int) < 2 ^ 31 := by
        omega
      simp only [if_pos hfits, if_neg hne, if_pos hint]
      exact iff_of_true (fun _ => (BitVec.ofInt_natCast 32 value).symm) (by omega)
    · have hint : ¬ (-2 ^ 31 ≤ (value : Int) ∧ (value : Int) < 2 ^ 31) := by
        omega
      by_cases hedge : value = 0x80000000
      · have heq : BitVec.ofNat 32 value = 0x80000000 := hmark.mpr hedge
        simp only [if_pos hfits, if_pos heq, if_neg hint]
        exact iff_of_true (fun _ => trivial) (by omega)
      · have hne : ¬ BitVec.ofNat 32 value = 0x80000000 := fun h => hedge (hmark.mp h)
        simp only [if_pos hfits, if_neg hne, if_neg hint]
        refine iff_of_false ?_ (by omega)
        intro hexact
        have hzero := (@ofNat_eq_iff value 0 (by omega) (by omega)).mp (hexact 0)
        omega
  · have hint : ¬ (-2 ^ 31 ≤ (value : Int) ∧ (value : Int) < 2 ^ 31) := by
      omega
    simp only [if_neg hfits, if_neg hint, if_true]
    exact iff_of_true (fun _ => trivial) (by omega)

theorem negative_exact_iff
    {node : XmlNode} {attributeName text : List Char}
    (hfound : node.findAttribute attributeName = some ('-' :: text)) :
    (∀ fallback, node.attributeInt attributeName fallback = intValue ('-' :: text) fallback) ↔
      SignedRange ('-' :: text) := by
  have hmark : -(0x80000000 : BitVec 32) ≠ 0 := by
    decide
  simp only [attributeInt_of_negative hfound, intValue, integerValue, SignedRange, uintValue]
  rcases Option.eq_none_or_eq_some (numeralValue text) with hvalue | ⟨value, hvalue⟩
  · simp only [hvalue]
    exact iff_of_false (fun hexact => hmark (hexact 0)) (by simp)
  simp only [hvalue, Option.map_some, Option.some.injEq, exists_eq_left']
  by_cases hlow : value ≤ 2 ^ 31
  · have hint : -2 ^ 31 ≤ -(value : Int) ∧ -(value : Int) < 2 ^ 31 := by
      omega
    have hfits : value ≤ 0xffffffff := by
      omega
    simp only [if_pos hint, if_pos hfits]
    refine iff_of_true (fun _ => ?_) hlow
    rw [← BitVec.ofInt_natCast, ← BitVec.ofInt_neg]
  · have hint : ¬ (-2 ^ 31 ≤ -(value : Int) ∧ -(value : Int) < 2 ^ 31) := by
      omega
    simp only [if_neg hint]
    refine iff_of_false ?_ hlow
    intro hexact
    by_cases hfits : value ≤ 0xffffffff
    · simp only [if_pos hfits] at hexact
      have hzero := (@ofNat_eq_iff value 0 (by omega) (by omega)).mp
        (BitVec.neg_eq_zero_iff.mp (hexact 0))
      omega
    · simp only [if_neg hfits] at hexact
      exact hmark (hexact 0)

/-! ## Both readers -/

/-- Both readers give the value of a numeral or the fallback, for every fallback,
exactly for the texts whose magnitude the signed reader can tell from a failure. -/
theorem numericAttributes_exact_iff
    {node : XmlNode} {attributeName text : List Char}
    (hfound : node.findAttribute attributeName = some text) :
    ((∀ fallback, node.attributeUint attributeName fallback = uintValue text fallback) ∧
      ∀ fallback, node.attributeInt attributeName fallback = intValue text fallback) ↔
      SignedRange text := by
  rw [and_iff_right (fun fallback => attributeUint_eq hfound fallback)]
  by_cases hsign : text.head? = some '-'
  · obtain ⟨rest, rfl⟩ := List.head?_eq_some_iff.mp hsign
    exact negative_exact_iff hfound
  · exact unsigned_exact_iff hfound hsign

def nodeOf (text : List Char) : XmlNode := { attributes := [(['v'], text)] }

theorem numericAttributes_exact_minusTen :
    (nodeOf ['-', '0', 'x', 'A']).findAttribute ['v'] = some ['-', '0', 'x', 'A'] ∧
      (((∀ fallback, (nodeOf ['-', '0', 'x', 'A']).attributeUint ['v'] fallback =
          uintValue ['-', '0', 'x', 'A'] fallback) ∧
        ∀ fallback, (nodeOf ['-', '0', 'x', 'A']).attributeInt ['v'] fallback =
          intValue ['-', '0', 'x', 'A'] fallback) ↔ SignedRange ['-', '0', 'x', 'A']) :=
  ⟨by decide, numericAttributes_exact_iff (by decide)⟩

/-- The largest unsigned numeral is read as minus one, not as the fallback. -/
theorem attributeInt_wraps :
    (nodeOf "4294967295".toList).attributeInt ['v'] 7 = -1 ∧
      intValue "4294967295".toList 7 = 7 ∧
      ¬ (∀ fallback, (nodeOf "4294967295".toList).attributeInt ['v'] fallback =
        intValue "4294967295".toList fallback) := by
  have hread : (nodeOf "4294967295".toList).attributeInt ['v'] 7 = -1 := by
    decide +kernel
  have hvalue : intValue "4294967295".toList 7 = 7 := by
    decide +kernel
  refine ⟨hread, hvalue, ?_⟩
  intro hexact
  have hboth := hexact 7
  rw [hread, hvalue] at hboth
  exact absurd hboth (by decide)

end Wiicompiled.Riivolution
