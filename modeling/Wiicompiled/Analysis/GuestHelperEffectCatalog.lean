import Wiicompiled.Analysis.GuestStateMask

/-!
# Effects of runtime helpers

The architectural state that non-guest helper calls touch through the register
context, beside their IR arguments and destination.  A helper that the catalog
does not know is a complete-context boundary.
-/

namespace Wiicompiled.Analysis

open Ir

abbrev GuestCallBoundaryFlags := BitVec 4

namespace GuestCallBoundaryFlags

def requiresCompleteContext : GuestCallBoundaryFlags := 1
def canSuspend : GuestCallBoundaryFlags := 2
def canSwitchThreads : GuestCallBoundaryFlags := 4
def invokesGuestCode : GuestCallBoundaryFlags := 8

end GuestCallBoundaryFlags

/-- The hidden reads and writes of a helper.  The source lists them register
class by register class; the FPSCR, GQR and HID classes are always empty. -/
structure GuestHelperEffect where
  reads : GuestStateMask
  writes : GuestStateMask
  boundaryFlags : GuestCallBoundaryFlags
deriving DecidableEq

namespace GuestHelperEffectCatalog

open GuestStateMask GuestCallBoundaryFlags

def noEffect : GuestHelperEffect := ⟨empty, empty, 0⟩

def carryUpdate : GuestHelperEffect := ⟨ofReg .xer, ofReg .xer, 0⟩

def carryRead : GuestHelperEffect := ⟨ofReg .xer, empty, 0⟩

def allGpr : GuestStateMask := { empty with gpr := 0xFFFFFFFF }

def allCr : GuestStateMask := { empty with cr := 0xFF }

def unboundedStringLoad : GuestHelperEffect := ⟨ofReg .xer, allGpr, 0⟩

def unboundedStringStore : GuestHelperEffect :=
  ⟨allGpr.union (ofReg .xer), empty, 0⟩

def conditionalStore : GuestHelperEffect :=
  ⟨allCr.union (ofReg .xer), { empty with cr := 1 }, 0⟩

/-- Every register that a complete boundary hands over. -/
def completeState : GuestStateMask :=
  { fullState with fpscr := false, gqr := 0, hid := 0 }

def createComplete (extra : GuestCallBoundaryFlags) : GuestHelperEffect :=
  ⟨completeState, completeState, extra ||| requiresCompleteContext⟩

def completeBoundary : GuestHelperEffect := createComplete 0

def systemCallBoundary : GuestHelperEffect :=
  createComplete (canSuspend ||| canSwitchThreads ||| invokesGuestCode)

/-- Helpers whose effect is derived from a constant argument. -/
inductive ArgumentDependentHelper where
  | loadStringImmediate
  | storeStringImmediate
  | moveConditionFromXer
  | moveConditionField
  | moveConditionFromFpscr
  | setConditionBit
  | conditionLogical
  | compareIntoConditionField
  | readSpr
  | writeSpr
deriving DecidableEq

def argumentDependentHelpers : List (String × ArgumentDependentHelper) :=
  [("PPC_Lswi", .loadStringImmediate),
    ("PPC_Stswi", .storeStringImmediate),
    ("PPC_Mcrxr", .moveConditionFromXer),
    ("PPC_Mcrf", .moveConditionField),
    ("PPC_Mcrfs", .moveConditionFromFpscr),
    ("PPC_CrSetBit", .setConditionBit),
    ("PPC_CrLogical", .conditionLogical),
    ("PPC_Fcmp", .compareIntoConditionField),
    ("PPC_PsCmpo0", .compareIntoConditionField),
    ("PPC_PsCmpo1", .compareIntoConditionField),
    ("PPC_PsCmpu0", .compareIntoConditionField),
    ("PPC_PsCmpu1", .compareIntoConditionField),
    ("PPC_ReadSpr", .readSpr),
    ("PPC_WriteSpr", .writeSpr)]

def pureHelpers : List String :=
  ["memset_zero_32", "PPC_Cntlzw", "PPC_Eciwx", "PPC_Ecowx", "PPC_Lwarx",
    "PPC_LoadHalfwordByteReverse", "PPC_LoadWordByteReverse",
    "PPC_StoreHalfwordByteReverse", "PPC_StoreWordByteReverse", "PPC_Stfiwx",
    "PPC_Fadds", "PPC_Fdivs", "PPC_Fmadd", "PPC_Fmadds", "PPC_Fmsub",
    "PPC_Fmsubs", "PPC_Fmuls", "PPC_Fnmadd", "PPC_Fnmadds", "PPC_Fnmsub",
    "PPC_Fnmsubs", "PPC_Fres", "PPC_Frsqrte", "PPC_Fsel", "PPC_Fsqrt",
    "PPC_Fsubs", "PPC_PsAbs", "PPC_PsAdd", "PPC_PsDiv", "PPC_PsMadd",
    "PPC_PsMadds0", "PPC_PsMadds1", "PPC_PsMerge00", "PPC_PsMerge01",
    "PPC_PsMerge10", "PPC_PsMerge11", "PPC_PsMsub", "PPC_PsMul",
    "PPC_PsMuls0", "PPC_PsMuls1", "PPC_PsNabs", "PPC_PsNeg", "PPC_PsNmadd",
    "PPC_PsNmsub", "PPC_PsRes", "PPC_PsRsqrte", "PPC_PsSel", "PPC_PsSub",
    "PPC_PsSum0", "PPC_PsSum1", "PPC_Mftb", "PPC_Mftbu", "PPC_TrapWord"]

def xerReadWriteHelpers : List String :=
  ["PPC_UpdateCarryAdd", "PPC_UpdateCarrySub", "PPC_UpdateCarryShiftRight",
    "PPC_Addco", "PPC_Addeo", "PPC_Addmeo", "PPC_Addo", "PPC_Addzeo",
    "PPC_Subfco", "PPC_Subfeo", "PPC_Subfmeo", "PPC_Subfo", "PPC_Subfzeo",
    "PPC_Divwo", "PPC_Divwuo", "PPC_Mullwo", "PPC_Nego"]

def fpscrAndGqrHelpers : List String :=
  ["PPC_Mffs", "PPC_Mtfsb0", "PPC_Mtfsb1", "PPC_Mtfsf", "PPC_Mtfsfi",
    "PPC_PsqL", "PPC_PsqSt"]

/-- Helpers whose effect does not depend on arguments. -/
def constantEffectHelpers : List (String × GuestHelperEffect) :=
  pureHelpers.map (·, noEffect) ++
    xerReadWriteHelpers.map (·, carryUpdate) ++
    fpscrAndGqrHelpers.map (·, noEffect) ++
    [("PPC_GetCarry", carryRead), ("OSSystemCall", systemCallBoundary),
      ("PPC_Lswx", unboundedStringLoad), ("PPC_Stswx", unboundedStringStore),
      ("PPC_Stwcx", conditionalStore)]

/-- Case-insensitive dictionary lookup. -/
def lookup {α : Type} (entries : List (String × α)) (name : String) : Option α :=
  (entries.find? fun entry =>
    equalsIgnoreCase entry.1.toList name.toList).map Prod.snd

def constantArgument (arguments : List IrValue) (index : ℕ) : Option Int64 :=
  arguments[index]?.bind IrValue.constant

def sprEffect (arguments : List IrValue) (write : Bool) : GuestHelperEffect :=
  let effect := fun r : Reg =>
    if write then (⟨empty, ofReg r, 0⟩ : GuestHelperEffect)
    else ⟨ofReg r, empty, 0⟩
  match constantArgument arguments 0 with
  | none => completeBoundary
  | some spr =>
      if spr = 1 then effect .xer
      else if spr = 8 then effect .lr
      else if spr = 9 then effect .ctr
      else noEffect

def stringRegisterMask (arguments : List IrValue) (countArgument : ℕ) :
    GuestStateMask :=
  match constantArgument arguments 0, constantArgument arguments countArgument with
  | some startValue, some countValue =>
      if arguments.length ≤ countArgument then allGpr
      else
        let start := (startValue &&& 31).toNatClampNeg
        let count := (if countValue = 0 then 32 else countValue).toInt32
        let registers := min 32 ((count + 3) / 4).toInt
        { empty with
          gpr := (List.range registers.toNat).foldl
            (fun mask index => mask ||| (1#32 <<< ((start + index) % 32))) 0 }
  | _, _ => allGpr

def fieldMask (arguments : List IrValue) (argument : ℕ) : GuestStateMask :=
  match constantArgument arguments argument with
  | some field => { empty with cr := 1#8 <<< (field &&& 7).toNatClampNeg }
  | none => allCr

def bitFieldMask (arguments : List IrValue) (argument : ℕ) : GuestStateMask :=
  match constantArgument arguments argument with
  | some bit => { empty with cr := 1#8 <<< ((bit &&& 31).toNatClampNeg / 4) }
  | none => allCr

/-- The prefixes of the paired-single forms with a known GQR. -/
def knownPsqPrefixes : List String :=
  ["PPC_PsqLKnown_", "PPC_PsqLKnownGuarded_", "PPC_PsqStKnown_",
    "PPC_PsqStKnownGuarded_"]

def analyzeArguments (arguments : List IrValue) :
    ArgumentDependentHelper → GuestHelperEffect
  | .loadStringImmediate => ⟨empty, stringRegisterMask arguments 2, 0⟩
  | .storeStringImmediate => ⟨stringRegisterMask arguments 2, empty, 0⟩
  | .moveConditionFromXer =>
      ⟨allCr.union (ofReg .xer), (fieldMask arguments 0).union (ofReg .xer), 0⟩
  | .moveConditionField => ⟨allCr, fieldMask arguments 0, 0⟩
  | .moveConditionFromFpscr => ⟨allCr, fieldMask arguments 0, 0⟩
  | .setConditionBit => ⟨allCr, bitFieldMask arguments 0, 0⟩
  | .conditionLogical => ⟨allCr, bitFieldMask arguments 1, 0⟩
  | .compareIntoConditionField => ⟨allCr, fieldMask arguments 0, 0⟩
  | .readSpr => sprEffect arguments false
  | .writeSpr => sprEffect arguments true

def analyze (target : String) (arguments : List IrValue) : GuestHelperEffect :=
  if knownPsqPrefixes.any fun pre =>
      startsWithIgnoreCase target.toList pre.toList then noEffect
  else
    match lookup constantEffectHelpers target with
    | some effect => effect
    | none =>
        match lookup argumentDependentHelpers target with
        | some helper => analyzeArguments arguments helper
        | none => completeBoundary

/-! ## Condition register reads -/

theorem lookup_mem
    {α : Type} {entries : List (String × α)} {name : String} {a : α}
    (h : lookup entries name = some a) :
    ∃ key, (key, a) ∈ entries := by
  rw [lookup, Option.map_eq_some_iff] at h
  obtain ⟨⟨key, b⟩, hfind, rfl⟩ := h
  exact ⟨key, List.mem_of_find?_eq_some hfind⟩

def ReadsPackedCr (effect : GuestHelperEffect) : Prop :=
  effect.writes.cr ≠ 0 → effect.reads.cr = 0xFF

theorem readsPackedCr_constant
    {name : String} {effect : GuestHelperEffect}
    (h : (name, effect) ∈ constantEffectHelpers) :
    ReadsPackedCr effect := by
  have hmap : ∀ (names : List String) (e : GuestHelperEffect),
      (name, effect) ∈ names.map (·, e) → effect = e := by
    intro names e hin
    obtain ⟨_, -, heq⟩ := List.mem_map.mp hin
    exact (Prod.mk.inj heq).2.symm
  rw [constantEffectHelpers] at h
  simp only [List.mem_append] at h
  intro hcr
  rcases h with ((h | h) | h) | h
  · rw [hmap _ _ h] at hcr
    exact absurd rfl hcr
  · rw [hmap _ _ h] at hcr
    exact absurd rfl hcr
  · rw [hmap _ _ h] at hcr
    exact absurd rfl hcr
  · simp only [List.mem_cons, List.not_mem_nil, or_false, Prod.mk.injEq] at h
    rcases h with ⟨-, rfl⟩ | ⟨-, rfl⟩ | ⟨-, rfl⟩ | ⟨-, rfl⟩ | ⟨-, rfl⟩
    · exact absurd rfl hcr
    · rfl
    · exact absurd rfl hcr
    · exact absurd rfl hcr
    · rfl

theorem readsPackedCr_arguments
    (arguments : List IrValue)
    (helper : ArgumentDependentHelper) :
    ReadsPackedCr (analyzeArguments arguments helper) := by
  have hspr : ∀ write, ReadsPackedCr
      (sprEffect arguments write) := by
    intro write
    rw [sprEffect]
    split
    · exact fun _ => rfl
    · cases write
      all_goals
        simp only [Bool.false_eq_true, if_false, if_true]
        split_ifs <;> exact fun hcr => absurd rfl hcr
  have hstring : ∀ index,
      (stringRegisterMask arguments index).cr = 0 := by
    intro index
    rw [stringRegisterMask]
    split
    · split <;> rfl
    · rfl
  cases helper
  case readSpr => exact hspr false
  case writeSpr => exact hspr true
  case loadStringImmediate => exact fun hcr => absurd (hstring 2) hcr
  case storeStringImmediate => exact fun hcr => absurd rfl hcr
  all_goals exact fun _ => rfl

theorem readsPackedCr_analyze (target : String) (arguments : List IrValue) :
    ReadsPackedCr (analyze target arguments) := by
  rw [analyze]
  split
  · exact fun hcr => absurd rfl hcr
  · split
    · rename_i hlookup
      obtain ⟨_, hmem⟩ := lookup_mem hlookup
      exact readsPackedCr_constant hmem
    · split
      · exact readsPackedCr_arguments arguments _
      · exact fun _ => rfl

end GuestHelperEffectCatalog

end Wiicompiled.Analysis
