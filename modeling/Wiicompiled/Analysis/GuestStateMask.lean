import Mathlib.Data.Fintype.Sum
import Mathlib.Tactic.DeriveFintype
import Wiicompiled.Ir.RegisterNames

/-!
# Register masks

The set of architectural registers that the analyses track, as the packed masks
of the source, together with membership of a single register.  Every operation
on masks is characterised by membership, so that the analyses can be reasoned
about one register at a time.
-/

namespace Wiicompiled.Analysis

open Ir

/-- The architectural registers that are not memory. -/
inductive Reg where
  | gpr (i : Fin 32)
  | fpr (i : Fin 32)
  | cr (i : Fin 8)
  | xer
  | ctr
  | lr
  | fpscr
  | gqr (i : Fin 8)
  | hid (i : Fin 8)
deriving DecidableEq, Fintype

/-- A set of registers, packed as in the source. -/
structure GuestStateMask where
  gpr : BitVec 32
  fpr : BitVec 32
  cr : BitVec 8
  xer : Bool
  ctr : Bool
  lr : Bool
  fpscr : Bool
  gqr : BitVec 8
  hid : BitVec 8
deriving DecidableEq

namespace GuestStateMask

def empty : GuestStateMask :=
  ⟨0, 0, 0, false, false, false, false, 0, 0⟩

def fullState : GuestStateMask :=
  ⟨0xFFFFFFFF, 0xFFFFFFFF, 0xFF, true, true, true, true, 0xFF, 0xFF⟩

def union (a b : GuestStateMask) : GuestStateMask :=
  ⟨a.gpr ||| b.gpr, a.fpr ||| b.fpr, a.cr ||| b.cr, a.xer || b.xer,
    a.ctr || b.ctr, a.lr || b.lr, a.fpscr || b.fpscr, a.gqr ||| b.gqr,
    a.hid ||| b.hid⟩

def intersect (a b : GuestStateMask) : GuestStateMask :=
  ⟨a.gpr &&& b.gpr, a.fpr &&& b.fpr, a.cr &&& b.cr, a.xer && b.xer,
    a.ctr && b.ctr, a.lr && b.lr, a.fpscr && b.fpscr, a.gqr &&& b.gqr,
    a.hid &&& b.hid⟩

def except (a b : GuestStateMask) : GuestStateMask :=
  ⟨a.gpr &&& ~~~b.gpr, a.fpr &&& ~~~b.fpr, a.cr &&& ~~~b.cr, a.xer && !b.xer,
    a.ctr && !b.ctr, a.lr && !b.lr, a.fpscr && !b.fpscr, a.gqr &&& ~~~b.gqr,
    a.hid &&& ~~~b.hid⟩

/-- Whether a register belongs to a mask. -/
def has (m : GuestStateMask) : Reg → Bool
  | .gpr i => m.gpr.getLsbD i
  | .fpr i => m.fpr.getLsbD i
  | .cr i => m.cr.getLsbD i
  | .xer => m.xer
  | .ctr => m.ctr
  | .lr => m.lr
  | .fpscr => m.fpscr
  | .gqr i => m.gqr.getLsbD i
  | .hid i => m.hid.getLsbD i

/-- The mask of a single register. -/
def ofReg : Reg → GuestStateMask
  | .gpr i => { empty with gpr := 1#32 <<< i.val }
  | .fpr i => { empty with fpr := 1#32 <<< i.val }
  | .cr i => { empty with cr := 1#8 <<< i.val }
  | .xer => { empty with xer := true }
  | .ctr => { empty with ctr := true }
  | .lr => { empty with lr := true }
  | .fpscr => { empty with fpscr := true }
  | .gqr i => { empty with gqr := 1#8 <<< i.val }
  | .hid i => { empty with hid := 1#8 <<< i.val }

/-! ## Membership -/

@[ext]
theorem ext_has {a b : GuestStateMask} (h : ∀ r, a.has r = b.has r) : a = b := by
  obtain ⟨gpr, fpr, cr, xer, ctr, lr, fpscr, gqr, hid⟩ := a
  obtain ⟨gpr', fpr', cr', xer', ctr', lr', fpscr', gqr', hid'⟩ := b
  have hgpr : gpr = gpr' :=
    BitVec.eq_of_getLsbD_eq fun i hi => h (.gpr ⟨i, hi⟩)
  have hfpr : fpr = fpr' :=
    BitVec.eq_of_getLsbD_eq fun i hi => h (.fpr ⟨i, hi⟩)
  have hcr : cr = cr' := BitVec.eq_of_getLsbD_eq fun i hi => h (.cr ⟨i, hi⟩)
  have hgqr : gqr = gqr' := BitVec.eq_of_getLsbD_eq fun i hi => h (.gqr ⟨i, hi⟩)
  have hhid : hid = hid' := BitVec.eq_of_getLsbD_eq fun i hi => h (.hid ⟨i, hi⟩)
  have hxer : xer = xer' := h .xer
  have hctr : ctr = ctr' := h .ctr
  have hlr : lr = lr' := h .lr
  have hfpscr : fpscr = fpscr' := h .fpscr
  subst hgpr hfpr hcr hgqr hhid hxer hctr hlr hfpscr
  rfl

@[simp]
theorem has_empty (r : Reg) : empty.has r = false := by
  cases r <;> simp [has, empty]

@[simp]
theorem has_union (a b : GuestStateMask) (r : Reg) :
    (a.union b).has r = (a.has r || b.has r) := by
  cases r <;> simp [has, union]

@[simp]
theorem has_intersect (a b : GuestStateMask) (r : Reg) :
    (a.intersect b).has r = (a.has r && b.has r) := by
  cases r <;> simp [has, intersect]

@[simp]
theorem has_except (a b : GuestStateMask) (r : Reg) :
    (a.except b).has r = (a.has r && !b.has r) := by
  cases r <;> simp [has, except]

@[simp]
theorem has_fullState (r : Reg) : fullState.has r = true := by
  have h32 : ∀ i : Fin 32, (0xFFFFFFFF#32).getLsbD i = true := by decide
  have h8 : ∀ i : Fin 8, (0xFF#8).getLsbD i = true := by decide
  cases r
  case gpr i | fpr i => exact h32 i
  case cr i | gqr i | hid i => exact h8 i
  all_goals rfl

/-! ## Inclusion and size -/

instance : PartialOrder GuestStateMask where
  le a b := ∀ r, a.has r = true → b.has r = true
  le_refl _ _ h := h
  le_trans _ _ _ hab hbc r h := hbc r (hab r h)
  le_antisymm a b hab hba := by
    ext r
    exact Bool.eq_iff_iff.mpr ⟨hab r, hba r⟩

theorem empty_le (a : GuestStateMask) : empty ≤ a := by
  intro r h
  simp at h

theorem le_fullState (a : GuestStateMask) : a ≤ fullState := by
  intro r _
  simp

theorem le_union_left (a b : GuestStateMask) : a ≤ a.union b := by
  intro r h
  simp [h]

theorem le_union_right (a b : GuestStateMask) : b ≤ a.union b := by
  intro r h
  simp [h]

theorem union_le {a b c : GuestStateMask} (ha : a ≤ c) (hb : b ≤ c) :
    a.union b ≤ c := by
  intro r h
  rw [has_union, Bool.or_eq_true] at h
  exact h.elim (ha r) (hb r)

theorem union_mono {a b c d : GuestStateMask} (hab : a ≤ b) (hcd : c ≤ d) :
    a.union c ≤ b.union d :=
  union_le (hab.trans (le_union_left b d)) (hcd.trans (le_union_right b d))

theorem intersect_le_left (a b : GuestStateMask) : a.intersect b ≤ a := by
  intro r h
  rw [has_intersect, Bool.and_eq_true] at h
  exact h.1

theorem except_le (a b : GuestStateMask) : a.except b ≤ a := by
  intro r h
  rw [has_except, Bool.and_eq_true] at h
  exact h.1

/-- The number of registers in a mask. -/
def size (m : GuestStateMask) : ℕ :=
  (Finset.univ.filter fun r => m.has r = true).card

theorem size_le (m : GuestStateMask) : m.size ≤ 92 := by
  have hcard : Fintype.card Reg = 92 := rfl
  rw [← hcard]
  exact Finset.card_le_univ _

theorem size_lt_of_lt {a b : GuestStateMask} (h : a < b) : a.size < b.size := by
  obtain ⟨hle, hnot⟩ := lt_iff_le_not_ge.mp h
  obtain ⟨r, hr⟩ := not_forall.mp hnot
  obtain ⟨hb, ha⟩ := Classical.not_imp.mp hr
  apply Finset.card_lt_card
  refine ⟨fun s hs => ?_, fun hsub => ?_⟩
  · simp only [Finset.mem_filter, Finset.mem_univ, true_and] at hs ⊢
    exact hle s hs
  · have hin := hsub (Finset.mem_filter.mpr ⟨Finset.mem_univ r, hb⟩)
    exact ha (Finset.mem_filter.mp hin).2

theorem size_mono {a b : GuestStateMask} (h : a ≤ b) : a.size ≤ b.size := by
  rcases h.eq_or_lt with rfl | hlt
  · rfl
  · exact (size_lt_of_lt hlt).le

/-- The size of a pair of masks, such as the facts at both ends of a block. -/
def pairSize (a : GuestStateMask × GuestStateMask) : ℕ :=
  a.1.size + a.2.size

theorem empty_pair_le (a : GuestStateMask × GuestStateMask) :
    (empty, empty) ≤ a :=
  ⟨empty_le a.1, empty_le a.2⟩

theorem pairSize_le (a : GuestStateMask × GuestStateMask) : pairSize a ≤ 184 :=
  Nat.add_le_add (size_le a.1) (size_le a.2)

theorem pairSize_lt_of_lt
    (a b : GuestStateMask × GuestStateMask) (h : a < b) :
    pairSize a < pairSize b := by
  rcases Prod.lt_iff.mp h with ⟨hlt, hle⟩ | ⟨hle, hlt⟩
  · exact Nat.add_lt_add_of_lt_of_le (size_lt_of_lt hlt) (size_mono hle)
  · exact Nat.add_lt_add_of_le_of_lt (size_mono hle) (size_lt_of_lt hlt)

/-! ## Masks of names -/

/-- The single register that a base name spells. -/
def numbered (letter : Char) (base : List Char) : Option (Fin 32) :=
  match base with
  | [] => none
  | c :: rest =>
      if c = letter ∧ rest ≠ [] then
        match tryParseInt rest with
        | some n => if h : n.toNat < 32 then
            if 0 ≤ n then some ⟨n.toNat, h⟩ else none
          else none
        | none => none
      else none

/-- The one digit below `limit` that follows a three-letter or two-letter
prefix, as in `cr5` and `gqr2`. -/
def suffixDigit (pre : List Char) (limit : ℕ) (base : List Char) : Option ℕ :=
  if base.length = pre.length + 1 ∧ startsWithIgnoreCase base pre then
    match base.drop pre.length with
    | [c] =>
        if c.isDigit ∧ digitValue c < limit then some (digitValue c) else none
    | _ => none
  else none

def crBit (base : List Char) : Option (Fin 32) :=
  if 4 ≤ base.length ∧ base.length ≤ 5 ∧
      startsWithIgnoreCase base "crb".toList then
    match tryParseInt (base.drop 3) with
    | some n => if h : n.toNat < 32 then
        if 0 ≤ n then some ⟨n.toNat, h⟩ else none
      else none
    | none => none
  else none

/-- The registers that a base name spells. -/
def ofBase (base : List Char) : GuestStateMask :=
  match numbered 'r' base with
  | some i => ofReg (.gpr i)
  | none =>
  match numbered 'f' base with
  | some i => ofReg (.fpr i)
  | none =>
  match suffixDigit "cr".toList 8 base with
  | some n => ofReg (.cr (Fin.ofNat 8 n))
  | none =>
  match crBit base with
  | some bit => ofReg (.cr (Fin.ofNat 8 (bit.val / 4)))
  | none =>
  if equalsIgnoreCase base "cr".toList then { empty with cr := 0xFF }
  else if equalsIgnoreCase base "xer".toList then ofReg .xer
  else if equalsIgnoreCase base "ctr".toList then ofReg .ctr
  else if equalsIgnoreCase base "lr".toList then ofReg .lr
  else if equalsIgnoreCase base "fpscr".toList then ofReg .fpscr
  else
  match suffixDigit "gqr".toList 8 base with
  | some n => ofReg (.gqr (Fin.ofNat 8 n))
  | none =>
  match suffixDigit "hid".toList 3 base with
  | some n => ofReg (.hid (Fin.ofNat 8 n))
  | none => empty

/-- The registers that an SSA name spells: only a numeric suffix is dropped. -/
def ofSsaName (name : String) : GuestStateMask :=
  if isNullOrWhiteSpace name then empty else ofBase (ssaBaseName name.toList)

/-- The registers under the hardware base of a name: every suffix is dropped. -/
def ofHardwareName (name : String) : GuestStateMask :=
  if isNullOrWhiteSpace name then empty else ofBase (hardwareBase name.toList)

example : ofSsaName "r31_4" = ofReg (.gpr 31) ∧ ofSsaName "r3_rot" = empty ∧
    ofHardwareName "r3_rot" = ofReg (.gpr 3) ∧
    ofSsaName "crb9" = ofReg (.cr 2) := by decide

theorem numbered_eq_none
    {letter : Char} {base : List Char} (h : '_' ∈ base) (hletter : letter ≠ '_') :
    numbered letter base = none := by
  cases base with
  | nil => rfl
  | cons c rest =>
      rw [numbered]
      split
      · rename_i hc
        have hrest : '_' ∈ rest := by
          rcases List.mem_cons.mp h with heq | hmem
          · exact absurd (hc.1.symm.trans heq.symm) hletter
          · exact hmem
        rw [tryParseInt_eq_none hrest]
      · rfl

theorem suffixDigit_eq_none
    {pre base : List Char} {limit : ℕ} (h : '_' ∈ base)
    (hpre : '_' ∉ pre.map Char.toLower) : suffixDigit pre limit base = none := by
  rw [suffixDigit]
  split
  · rename_i hbase
    have hdrop := mem_drop_of_startsWith h hpre hbase.2
    split
    · rename_i c heq
      rw [heq, List.mem_singleton] at hdrop
      subst hdrop
      rfl
    · rfl
  · rfl

theorem crBit_eq_none {base : List Char} (h : '_' ∈ base) : crBit base = none := by
  rw [crBit]
  split
  · rename_i hbase
    have hdrop : '_' ∈ base.drop 3 :=
      mem_drop_of_startsWith h (by decide) hbase.2.2
    rw [tryParseInt_eq_none hdrop]
  · rfl

theorem ofBase_eq_empty {base : List Char} (h : '_' ∈ base) : ofBase base = empty := by
  have hname : ∀ name : List Char, '_' ∉ name.map Char.toLower →
      equalsIgnoreCase base name = false :=
    fun _ hname => equalsIgnoreCase_eq_false h hname
  rw [ofBase, numbered_eq_none h (by decide), numbered_eq_none h (by decide),
    suffixDigit_eq_none h (by decide), crBit_eq_none h,
    suffixDigit_eq_none h (by decide), suffixDigit_eq_none h (by decide),
    hname _ (by decide), hname _ (by decide), hname _ (by decide), hname _ (by decide),
    hname _ (by decide)]
  rfl

theorem ofSsaName_le_ofHardwareName (name : String) :
    ofSsaName name ≤ ofHardwareName name := by
  rw [ofSsaName, ofHardwareName]
  split
  · exact le_rfl
  · by_cases h : '_' ∈ ssaBaseName name.toList
    · rw [ofBase_eq_empty h]
      exact empty_le _
    · rw [hardwareBase_eq_ssaBaseName h]

theorem ofBase_cases (base : List Char) :
    ofBase base = empty ∨ (∃ r, ofBase base = ofReg r) ∨
      ofBase base = { empty with cr := 0xFF } := by
  rw [ofBase]
  repeat' split
  all_goals first
    | exact Or.inl rfl
    | exact Or.inr (Or.inl ⟨_, rfl⟩)
    | exact Or.inr (Or.inr rfl)

theorem ofReg_cr_ne (r : Reg) : (ofReg r).cr ≠ 0xFF := by
  have hfield : ∀ i : Fin 8, (ofReg (.cr i)).cr ≠ 0xFF := by decide
  have hzero : (0 : BitVec 8) ≠ 0xFF := by decide
  cases r
  case cr i => exact hfield i
  all_goals exact hzero

theorem ofSsaName_packedCr {name : String} (h : (ofSsaName name).cr = 0xFF) :
    ofSsaName name = { empty with cr := 0xFF } := by
  have hempty : empty.cr ≠ 0xFF := by decide
  rw [ofSsaName] at h ⊢
  split at h
  · exact absurd h hempty
  · rename_i hblank
    rw [if_neg hblank]
    rcases ofBase_cases (ssaBaseName name.toList) with hnone | ⟨r, hreg⟩ | hpacked
    · rw [hnone] at h
      exact absurd h hempty
    · rw [hreg] at h
      exact absurd h (ofReg_cr_ne r)
    · exact hpacked

end GuestStateMask

end Wiicompiled.Analysis
