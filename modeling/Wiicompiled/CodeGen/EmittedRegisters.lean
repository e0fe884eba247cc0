import Wiicompiled.Ir.RegisterNames

/-!
# Register names in emitted code

The emitter drops the version of a name and recognises the machine registers among the
base names.  All versions of a machine register are one field of the context; every other
name is a local variable of its own.
-/

namespace Wiicompiled.CodeGen.CxxLinearCodeGenerator

open Ir

/-- The base name: everything from the first underscore is dropped when it is a version. -/
def registerBaseSpan (name : List Char) : List Char :=
  match name.idxOf? '_' with
  | none => name
  | some idx =>
      if name.length ≤ idx + 1 then name
      else if (name.drop (idx + 1)).all Char.isDigit then name.take idx
      else name

def getRegisterBaseName (name : String) : String :=
  String.ofList (registerBaseSpan name.toList)

inductive GuestRegisterClass where
  | none
  | gpr
  | fpr
  | crField
  | special
deriving DecidableEq

def fileClass (letter : Char) : GuestRegisterClass :=
  if letter = 'r' then .gpr else .fpr

def isFileLetter (letter : Char) : Bool :=
  letter = 'r' || letter = 'f'

/-- The letters of general and floating-point registers are in lower case only. -/
def classifyRegisterBase (base : List Char) : GuestRegisterClass :=
  let named := fun candidates : List String =>
    candidates.any fun candidate => equalsIgnoreCase base candidate.toList
  match base with
  | [first, digit] =>
      if isFileLetter first && digit.isDigit then fileClass first
      else if named ["lr", "cr"] then .special
      else .none
  | [first, second, third] =>
      if isFileLetter first && second.isDigit && third.isDigit then
        if decimalValue [second, third] < 32 then fileClass first else .none
      else if equalsIgnoreCase [first, second] "cr".toList && third.isDigit &&
          digitValue third ≤ 7 then .crField
      else if named ["ctr", "xer", "msr"] then .special
      else .none
  | [first, second, third, fourth] =>
      if named ["srr0", "srr1", "hid0", "hid1", "hid2"] then .special
      else if equalsIgnoreCase [first, second, third] "gqr".toList && fourth.isDigit &&
          digitValue fourth < 8 then .special
      else .none
  | _ => .none

def classifyRegister (name : String) : GuestRegisterClass :=
  classifyRegisterBase (registerBaseSpan name.toList)

def isFloatRegister (name : String) : Bool :=
  classifyRegister name = .fpr

def isCpuRegister (name : String) : Bool :=
  classifyRegister name ≠ .none

/-! ## Names without their case -/

theorem toLower_cases (c : Char) :
    c.toLower = c ∨
      (65 ≤ c.toNat ∧ c.toNat ≤ 90 ∧ 97 ≤ c.toLower.toNat ∧ c.toLower.toNat ≤ 122) := by
  by_cases h : c.val ≥ 'A'.val ∧ c.val ≤ 'Z'.val
  · right
    have hlow : 65 ≤ c.toNat := h.1
    have hhigh : c.toNat ≤ 90 := h.2
    have hlower : (c.val + 32).toNat = c.toNat + 32 := by
      rw [UInt32.toNat_add]
      change (c.toNat + 32) % 2 ^ 32 = c.toNat + 32
      omega
    have hsame : c.toLower.toNat = (c.val + 32).toNat :=
      congrArg Char.toNat (show c.toLower = _ from dif_pos h)
    rw [hsame]
    exact ⟨hlow, hhigh, by omega, by omega⟩
  · exact Or.inl (dif_neg h)

theorem toLower_eq_underscore (c : Char) : c.toLower = '_' ↔ c = '_' := by
  rcases toLower_cases c with h | ⟨hlow, hhigh, hlow', hhigh'⟩
  · rw [h]
  · constructor
    · intro h
      rw [h] at hlow'
      exact absurd hlow' (by decide)
    · rintro rfl
      exact absurd hhigh (by decide)

theorem isDigit_eq_false {c : Char} (h : 57 < c.toNat) : c.isDigit = false := by
  simp only [Char.isDigit, Bool.and_eq_false_iff, decide_eq_false_iff_not]
  exact Or.inr (Nat.not_le_of_lt h)

theorem isDigit_toLower (c : Char) : c.toLower.isDigit = c.isDigit := by
  rcases toLower_cases c with h | ⟨hlow, hhigh, hlow', hhigh'⟩
  · rw [h]
  · rw [isDigit_eq_false (by omega), isDigit_eq_false (by omega)]

theorem registerBaseSpan_map_toLower (name : List Char) :
    registerBaseSpan (name.map Char.toLower) = (registerBaseSpan name).map Char.toLower := by
  have hidx : (name.map Char.toLower).idxOf? '_' = name.idxOf? '_' := by
    induction name with
    | nil => rfl
    | cons c name ih =>
        rw [List.map_cons, List.idxOf?_cons, List.idxOf?_cons, ih]
        have hbeq : (c.toLower == '_') = (c == '_') := by
          rw [Bool.eq_iff_iff, beq_iff_eq, beq_iff_eq]
          exact toLower_eq_underscore c
        rw [hbeq]
  unfold registerBaseSpan
  rw [hidx]
  cases name.idxOf? '_' with
  | none => rfl
  | some idx =>
      have hdigits : ((name.map Char.toLower).drop (idx + 1)).all Char.isDigit =
          (name.drop (idx + 1)).all Char.isDigit := by
        rw [← List.map_drop, List.all_map]
        congr 1
        funext c
        exact isDigit_toLower c
      simp only [List.length_map, hdigits]
      split_ifs
      · rfl
      · exact List.map_take.symm
      · rfl

theorem notMem_take_of_idxOf?
    {name : List Char} {idx : ℕ} (h : name.idxOf? '_' = some idx) : '_' ∉ name.take idx := by
  obtain ⟨hlt, -, hbefore⟩ := List.idxOf?_eq_some_iff.mp h
  intro hmem
  obtain ⟨j, hj, heq⟩ := List.getElem_of_mem hmem
  rw [List.length_take] at hj
  rw [List.getElem_take] at heq
  exact hbefore j (by omega) heq

theorem registerBaseSpan_of_notMem
    {name : List Char} (h : '_' ∉ name) : registerBaseSpan name = name := by
  unfold registerBaseSpan
  rw [List.idxOf?_eq_none_iff.mpr h]

theorem registerBaseSpan_idem (name : List Char) :
    registerBaseSpan (registerBaseSpan name) = registerBaseSpan name := by
  cases hidx : name.idxOf? '_' with
  | none =>
      have hself := registerBaseSpan_of_notMem (List.idxOf?_eq_none_iff.mp hidx)
      rw [hself, hself]
  | some idx =>
      have hbase : registerBaseSpan name = name ∨ registerBaseSpan name = name.take idx := by
        unfold registerBaseSpan
        rw [hidx]
        simp only
        split_ifs
        · exact Or.inl rfl
        · exact Or.inr rfl
        · exact Or.inl rfl
      rcases hbase with heq | heq
      · rw [heq, heq]
      · rw [heq, registerBaseSpan_of_notMem (notMem_take_of_idxOf? hidx)]

def baseKey (name : String) : List Char :=
  registerBaseSpan (folded name)

theorem folded_getRegisterBaseName (name : String) :
    folded (getRegisterBaseName name) = baseKey name := by
  rw [folded, getRegisterBaseName, String.toList_ofList, baseKey, folded,
    registerBaseSpan_map_toLower]

theorem registerBaseSpan_baseKey (name : String) :
    registerBaseSpan (baseKey name) = baseKey name :=
  registerBaseSpan_idem _

end Wiicompiled.CodeGen.CxxLinearCodeGenerator
