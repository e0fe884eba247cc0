import Wiicompiled.Analysis.GuestStateMask
import Wiicompiled.Ir.ControlFlow
import Wiicompiled.Ir.RegisterDataFlow

/-!
# Registers of operands

The registers that an instruction reads and writes through its operands, for a
given reading of names as registers.  The contract analyzer reads only SSA
names of registers, the liveness analyzer every name by its hardware base.
-/

namespace Wiicompiled.Analysis

open Ir GuestStateMask

def namesMask (names : List String) : GuestStateMask :=
  names.foldr (fun name mask => (ofSsaName name).union mask) empty

section Operands

variable (register : String → GuestStateMask)

def valueMask (value : IrValue) : GuestStateMask :=
  if value.kind = "register" then register (value.registerName.getD "")
  else empty

def valuesMask (values : List IrValue) : GuestStateMask :=
  values.foldr (fun value mask => (valueMask register value).union mask) empty

def gqrMask (index : UInt32) : GuestStateMask :=
  if index ≤ 7 then { empty with gqr := 1#8 <<< index.toNat } else empty

/-- `1 << FieldIndex`, cut to the byte of the CR mask. -/
def crFieldMask (fieldIndex : Int32) : GuestStateMask :=
  { empty with
    cr := (1#32 <<< ((fieldIndex &&& 31).toInt.toNat)).setWidth 8 }

/-- What an instruction reads through its operands; an indirect transfer hands
over the whole register file. -/
def operandReads : IrInstruction → GuestStateMask
  | .assign _ value => valueMask register value
  | .binary _ left right _ =>
      (valueMask register left).union (valueMask register right)
  | .load _ address _ => register address.base
  | .store address source _ =>
      (register address.base).union (valueMask register source)
  | .resolveGuestMemoryRange _ base _ _ _ _ => valueMask register base
  | .resolvedLoad _ _ originalAddress _ _ => register originalAddress.base
  | .resolvedStore _ originalAddress _ source _ =>
      (register originalAddress.base).union (valueMask register source)
  | .resolvedPsqLoad _ _ originalAddress _ _ i knownGqr guardKnownGqr =>
      (valueMask register originalAddress).union
        (if knownGqr = none ∨ guardKnownGqr then gqrMask i else empty)
  | .resolvedPsqStore _ originalAddress _ source _ i knownGqr guardKnownGqr =>
      ((valueMask register originalAddress).union (valueMask register source)).union
        (if knownGqr = none ∨ guardKnownGqr then gqrMask i else empty)
  | .resolvedLoadPair _ _ _ first second _ _ _ =>
      (register first.base).union (register second.base)
  | .resolvedStorePair _ first second _ firstSource secondSource _ _ =>
      ((register first.base).union (register second.base)).union
        ((valueMask register firstSource).union (valueMask register secondSource))
  | .call _ _ arguments => valuesMask register arguments
  | .indirectCall _ target arguments =>
      ((valueMask register target).union (valuesMask register arguments)).union
        fullState
  | .indirectJump target => (valueMask register target).union fullState
  | .setCrField _ left right _ =>
      ((valueMask register left).union (valueMask register right)).union
        (ofReg .xer)
  | .phi _ sources =>
      sources.entries.foldr (fun entry mask => (register entry.2).union mask) empty
  | .branch _ _ _ conditionRegister => register conditionRegister
  | .jumpTable selector _ => register selector
  | .ret (some value) => valueMask register value
  | .ret none | .jump .. | .comment .. | .tracePpc .. | .undefined .. => empty

def operandWrites : IrInstruction → GuestStateMask
  | .assign destination _ | .binary destination _ _ _ | .load destination _ _
  | .resolveGuestMemoryRange destination _ _ _ _ _
  | .resolvedLoad destination _ _ _ _
  | .resolvedPsqLoad destination _ _ _ _ _ _ _
  | .call destination _ _ | .phi destination _ => register destination
  | .resolvedLoadPair first second _ _ _ _ _ _ =>
      (register first).union (register second)
  | .indirectCall destination _ _ => (register destination).union fullState
  | .setCrField fieldIndex _ _ _ => crFieldMask fieldIndex
  | .undefined .. => fullState
  | .store .. | .resolvedStore .. | .resolvedPsqStore .. | .resolvedStorePair ..
  | .branch .. | .jump .. | .indirectJump .. | .jumpTable .. | .ret ..
  | .comment .. | .tracePpc .. => empty

end Operands

/-! ## Membership -/

@[simp]
theorem has_namesMask_nil (r : Reg) : (namesMask []).has r = false := by
  simp [namesMask]

@[simp]
theorem has_namesMask_cons (name : String) (names : List String) (r : Reg) :
    (namesMask (name :: names)).has r =
      ((ofSsaName name).has r || (namesMask names).has r) := by
  rw [namesMask, List.foldr_cons, has_union]
  rfl

@[simp]
theorem has_namesMask_append (xs ys : List String) (r : Reg) :
    (namesMask (xs ++ ys)).has r = ((namesMask xs).has r || (namesMask ys).has r) := by
  induction xs with
  | nil => simp
  | cons name xs ih => simp [ih, Bool.or_assoc]

structure CoarserReading (register : String → GuestStateMask) : Prop where
  le : ∀ name, ofSsaName name ≤ register name

theorem CoarserReading.ssa : CoarserReading ofSsaName :=
  ⟨fun _ => le_rfl⟩

theorem CoarserReading.hardware : CoarserReading ofHardwareName :=
  ⟨ofSsaName_le_ofHardwareName⟩

theorem CoarserReading.value_le
    {register : String → GuestStateMask} (hreg : CoarserReading register)
    (value : IrValue) :
    namesMask value.tryRegister.toList ≤ valueMask register value := by
  intro r hr
  rw [IrValue.tryRegister] at hr
  split at hr
  · rename_i h
    cases hname : value.registerName with
    | none => simp [hname] at hr
    | some name =>
        rw [valueMask, if_pos h.1, hname]
        refine hreg.le name r ?_
        simpa [hname] using hr
  · simp at hr

theorem CoarserReading.values_le
    {register : String → GuestStateMask} (hreg : CoarserReading register)
    (values : List IrValue) :
    namesMask (values.filterMap IrValue.tryRegister) ≤ valuesMask register values := by
  induction values with
  | nil => exact empty_le _
  | cons value values ih =>
      intro r hr
      rw [valuesMask, List.foldr_cons, has_union, Bool.or_eq_true]
      cases hname : value.tryRegister with
      | none =>
          rw [List.filterMap_cons_none hname] at hr
          exact Or.inr (ih r hr)
      | some name =>
          rw [List.filterMap_cons_some hname, has_namesMask_cons,
            Bool.or_eq_true] at hr
          refine hr.imp (fun h => hreg.value_le value r ?_) (ih r)
          simpa [hname] using h

/-! ## GQR operands -/

/-- A GQR name whose number does not consist of one digit below eight. -/
theorem ofBase_gqr_eq_empty
    {digits : List Char} (hne : digits ≠ [])
    (hdigits : ∀ c, digits = [c] → ¬digitValue c < 8) :
    ofBase ('g' :: 'q' :: 'r' :: digits) = empty := by
  have hlen : 0 < digits.length := List.length_pos_iff.mpr hne
  have hnumbered : ∀ letter, 'g' ≠ letter →
      numbered letter ('g' :: 'q' :: 'r' :: digits) = none := by
    intro letter hletter
    simp [numbered, hletter]
  have hcr : suffixDigit "cr".toList 8 ('g' :: 'q' :: 'r' :: digits) = none := by
    rw [suffixDigit, if_neg]
    rintro ⟨hlength, -⟩
    exact hne (by simpa using hlength)
  have hcrb : crBit ('g' :: 'q' :: 'r' :: digits) = none := by
    rw [crBit, if_neg]
    rintro ⟨-, -, hpre⟩
    simp [startsWithIgnoreCase, equalsIgnoreCase] at hpre
  have hname : ∀ c cs, Char.toLower 'g' ≠ Char.toLower c →
      equalsIgnoreCase ('g' :: 'q' :: 'r' :: digits) (c :: cs) = false := by
    intro c cs hc
    simp only [equalsIgnoreCase, List.map_cons, List.cons.injEq,
      decide_eq_false_iff_not]
    exact fun h => hc h.1
  have hgqr : suffixDigit "gqr".toList 8 ('g' :: 'q' :: 'r' :: digits) = none := by
    rw [suffixDigit]
    split
    · cases digits with
      | nil => exact absurd rfl hne
      | cons c rest =>
          cases rest with
          | nil => simp [hdigits c rfl]
          | cons d rest => rfl
    · rfl
  have hhid : suffixDigit "hid".toList 3 ('g' :: 'q' :: 'r' :: digits) = none := by
    rw [suffixDigit, if_neg]
    rintro ⟨-, hpre⟩
    simp [startsWithIgnoreCase, equalsIgnoreCase] at hpre
  rw [ofBase, hnumbered 'r' (by decide), hnumbered 'f' (by decide), hcr, hcrb, hgqr,
    hhid]
  have hcr' := hname 'c' ['r'] (by decide)
  have hxer := hname 'x' ['e', 'r'] (by decide)
  have hctr := hname 'c' ['t', 'r'] (by decide)
  have hlr := hname 'l' ['r'] (by decide)
  have hfpscr := hname 'f' ['p', 's', 'c', 'r'] (by decide)
  simp [hcr', hxer, hctr, hlr, hfpscr]

/-- The name of a quantization register above the seventh spells nothing. -/
theorem ofSsaName_gqr_le (index : UInt32) :
    ofSsaName ("gqr" ++ toString index.toNat) ≤ gqrMask index := by
  by_cases hsmall : index.toNat < 8
  · have hall : ∀ n : Fin 8,
        ofSsaName ("gqr" ++ toString n.val) = gqrMask (UInt32.ofNat n.val) := by
      decide
    have heq := hall ⟨index.toNat, hsmall⟩
    simp only [UInt32.ofNat_toNat] at heq
    exact le_of_eq heq
  · have hchars : ("gqr" ++ toString index.toNat).toList =
        'g' :: 'q' :: 'r' :: Nat.toDigits 10 index.toNat := by
      rw [String.toList_append]
      change _ ++ index.toNat.repr.toList = _
      rw [Nat.toList_repr]
      rfl
    have hbase : ssaBaseName ("gqr" ++ toString index.toNat).toList =
        'g' :: 'q' :: 'r' :: Nat.toDigits 10 index.toNat := by
      have hnone : ('g' :: 'q' :: 'r' :: Nat.toDigits 10 index.toNat).idxOf? '_' =
          none := by
        rw [List.idxOf?_eq_none_iff]
        simp [Nat.underscore_not_in_toDigits]
      rw [hchars, ssaBaseName, hnone]
    have hempty : ofBase ('g' :: 'q' :: 'r' :: Nat.toDigits 10 index.toNat) = empty := by
      refine ofBase_gqr_eq_empty Nat.toDigits_ne_nil fun c hc hlt => ?_
      have hten : index.toNat < 10 := by
        by_contra hge
        have hlen := (Nat.length_toDigits_le_iff (b := 10) (n := index.toNat)
          (k := 1) (by decide) (by decide)).mp (by rw [hc]; rfl)
        omega
      rw [Nat.toDigits_of_lt_base hten] at hc
      have hdigit : digitValue index.toNat.digitChar < 8 := by
        rw [List.cons.inj hc |>.1]
        exact hlt
      have hcases : index.toNat = 8 ∨ index.toNat = 9 := by omega
      rcases hcases with h8 | h9
      · rw [h8] at hdigit
        exact absurd hdigit (by decide)
      · rw [h9] at hdigit
        exact absurd hdigit (by decide)
    rw [ofSsaName, hbase, hempty]
    split <;> exact empty_le _

/-! ## Operands and the names of the data flow -/

/-- Instructions that touch registers only through their operands. -/
def isPlain : IrInstruction → Bool
  | .call .. | .indirectCall .. | .indirectJump .. | .branch ..
  | .setCrField .. => false
  | _ => true

theorem CoarserReading.uses_le
    {register : String → GuestStateMask} (hreg : CoarserReading register)
    {i : IrInstruction} (h : isPlain i = true) :
    namesMask i.uses ≤ operandReads register i := by
  have hname := fun name r => hreg.le name r
  have hvalue := fun value r => hreg.value_le value r
  intro r hr
  cases i
  case call | indirectCall | indirectJump | branch | setCrField => cases h
  case ret value =>
    cases value with
    | none => simp [IrInstruction.uses] at hr
    | some value => exact hvalue value r hr
  case resolvedPsqLoad destination range address offset w i known guarded =>
    have hgqr := ofSsaName_gqr_le i r
    simp only [IrInstruction.uses, operandReads] at hr ⊢
    split at hr <;> rename_i hknown
    · rw [if_pos hknown]
      simp only [has_namesMask_append, has_namesMask_cons, has_namesMask_nil,
        has_union, Bool.or_eq_true, Bool.or_false] at hr ⊢
      exact hr.imp (hvalue address r) hgqr
    · rw [if_neg hknown]
      rw [List.append_nil] at hr
      exact le_union_left _ _ r (hvalue address r hr)
  case resolvedPsqStore range address offset source w i known guarded =>
    have hgqr := ofSsaName_gqr_le i r
    simp only [IrInstruction.uses, operandReads] at hr ⊢
    split at hr <;> rename_i hknown
    · rw [if_pos hknown]
      simp only [has_namesMask_append, has_namesMask_cons, has_namesMask_nil,
        has_union, Bool.or_eq_true, Bool.or_false] at hr ⊢
      exact hr.imp (Or.imp (hvalue address r) (hvalue source r)) hgqr
    · rw [if_neg hknown]
      rw [List.append_nil, has_namesMask_append, Bool.or_eq_true] at hr
      refine le_union_left _ _ r ?_
      rw [has_union, Bool.or_eq_true]
      exact hr.imp (hvalue address r) (hvalue source r)
  case phi destination sources =>
    have hsources : ∀ entries : List (String × String),
        (namesMask (entries.map Prod.snd)).has r = true →
          (entries.foldr (fun entry mask => (register entry.2).union mask)
            empty).has r = true := by
      intro entries
      induction entries with
      | nil => simp
      | cons entry entries ih =>
          rw [List.map_cons, has_namesMask_cons, List.foldr_cons, has_union,
            Bool.or_eq_true, Bool.or_eq_true]
          exact Or.imp (hname entry.2 r) ih
    exact hsources sources.entries hr
  all_goals
    simp only [IrInstruction.uses, operandReads, has_namesMask_nil,
      has_namesMask_cons, has_namesMask_append, has_union, Bool.or_eq_true,
      Bool.or_false, Bool.false_eq_true] at hr ⊢
  all_goals grind

/-- Where destinations are read as registers exactly, the operand writes of a
plain instruction are the registers of its definitions. -/
theorem operandWrites_eq
    {register : String → GuestStateMask} {i : IrInstruction}
    (hexact : ∀ name ∈ i.definitions, register name = ofSsaName name)
    (hplain : isPlain i = true) (htraps : i.stops = false) :
    operandWrites register i = namesMask i.definitions := by
  have hone : ∀ name, namesMask [name] = ofSsaName name := by
    intro name
    ext r
    simp
  have htwo : ∀ a b, namesMask [a, b] = (ofSsaName a).union (ofSsaName b) := by
    intro a b
    ext r
    simp
  have hnone : namesMask [] = empty := rfl
  cases i
  case call | indirectCall | indirectJump | branch | setCrField => cases hplain
  case undefined => cases htraps
  all_goals
    simp only [IrInstruction.definitions, List.mem_cons, List.not_mem_nil, or_false,
      forall_eq_or_imp, forall_eq] at hexact
    simp only [operandWrites, IrInstruction.definitions, hone, htwo, hnone, hexact]

end Wiicompiled.Analysis
