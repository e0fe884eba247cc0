import Mathlib.Data.List.Sort
import Wiicompiled.Translation.GqrConstantPropagation

/-!
# Compact summaries of functions

The projection of a function that interprocedural propagation of quantization
registers keeps between discovery and emission: the instructions that can change a
known constant, over numbers in place of names.
-/

namespace Wiicompiled.Translation

open Ir GqrConstantPropagation

/-! ## Summaries -/

inductive GqrBinaryOperation where
  | unknown
  | add
  | subtract
  | or
  | and
  | xor
  | shiftLeft
  | rotateLeft
  | shiftRight
deriving DecidableEq

inductive GqrSummaryValue where
  | unknown
  | variableValue (id : ℕ)
  | constantValue (value : UInt32)
deriving DecidableEq

/-- A source of a phi; no predecessor is the ordinal -1. -/
structure GqrPhiSource where
  predecessor : Option ℕ
  variableId : ℕ
deriving DecidableEq

/-- The instructions of a summary; a call without a target has an unknown one. -/
inductive GqrSummaryInstruction where
  | assign (destination : ℕ) (value : GqrSummaryValue)
  | binary (destination : ℕ) (left right : GqrSummaryValue) (op : GqrBinaryOperation)
  | phi (destination : ℕ) (sources : List GqrPhiSource)
  | kill (destination : ℕ)
  | guestCall (target : Option UInt32)
  | indirectCall
deriving DecidableEq

structure GqrSummaryBlock where
  predecessors : List ℕ
  instructions : List GqrSummaryInstruction
deriving DecidableEq

/-- The affinity of a variable is the quantization register that it is a version of. -/
structure GqrFunctionSummary where
  entryBlock : ℕ
  blocks : List GqrSummaryBlock
  directGuestTargets : List UInt32
  gqrAffinityByVariable : List (Option ℕ)
  localWriteMask : BitVec 8
  hasUnknownGuestOrIndirectCall : Bool
deriving DecidableEq

/-- The map that has the constants of the eight registers, in their order, under
these keys. -/
def registerMap {α : Type*} [DecidableEq α] (key : ℕ → α) (values : ℕ → Option UInt32) :
    AList fun _ : α => UInt32 :=
  (List.range 8).foldl
    (fun state n =>
      match values n with
      | some v => state.insert (key n) v
      | none => state)
    ∅

namespace GqrFunctionSummary

def getGqrAffinity (summary : GqrFunctionSummary) (id : ℕ) : Option ℕ :=
  summary.gqrAffinityByVariable.getD id none

/-! ## Variables -/

/-- The register of a plain name `gqrN`. -/
def plainGqr (name : List Char) : Option ℕ :=
  (List.range 8).find? fun n => name = gqrName n

def valueNames (value : IrValue) : List String :=
  if value.kind = "const" ∧ value.constant.isSome then []
  else if value.kind = "register" then value.registerName.toList
  else []

/-- The names that the projection of an instruction asks a number for, in order. -/
def instructionNames : IrInstruction → List String
  | .assign destination value =>
      (if (gqrKey (folded destination)).isSome then [] else [destination]) ++
        valueNames value
  | .binary destination left right _ =>
      destination :: (valueNames left ++ valueNames right)
  | .phi destination sources => destination :: sources.entries.map Prod.snd
  | .load destination _ _ => [destination]
  | .call destination target _ =>
      if isGuestCall target ∨ isNullOrWhiteSpace destination then [] else [destination]
  | _ => []

/-- The names that have numbers from eight on, in the order of their first use. -/
def variableNames (function : IrFunction) : List (List Char) :=
  (((function.blocks.flatMap IrBasicBlock.instructions).flatMap instructionNames).map
    folded).eraseDups.filter fun name => (plainGqr name).isNone

/-- The number of a name: that of its register for a plain name, else the next free
number at its first use. -/
def exactVariable (names : List (List Char)) (name : List Char) : ℕ :=
  match plainGqr name with
  | some n => n
  | none => 8 + names.idxOf name

def assignDestination (names : List (List Char)) (name : List Char) : ℕ :=
  match gqrKey name with
  | some n => n
  | none => exactVariable names name

/-! ## Projection -/

def summaryValue (names : List (List Char)) (value : IrValue) : GqrSummaryValue :=
  if value.kind = "const" ∧ value.constant.isSome then
    match value.constant with
    | some immediate => .constantValue (truncate immediate)
    | none => .unknown
  else if value.kind = "register" then
    match value.registerName with
    | some name => .variableValue (exactVariable names (folded name))
    | none => .unknown
  else .unknown

def parseBinary (op : String) : GqrBinaryOperation :=
  let named := fun names : List String => names.any fun n => folded op = n.toList
  if named ["add", "add_u"] then .add
  else if named ["sub", "sub_u"] then .subtract
  else if named ["or"] then .or
  else if named ["and"] then .and
  else if named ["xor"] then .xor
  else if named ["shl"] then .shiftLeft
  else if named ["rotl"] then .rotateLeft
  else if named ["shr", "shr_u"] then .shiftRight
  else .unknown

def project (function : IrFunction) (names : List (List Char)) :
    IrInstruction → Option GqrSummaryInstruction
  | .assign destination value =>
      some (.assign (assignDestination names (folded destination))
        (summaryValue names value))
  | .binary destination left right op =>
      some (.binary (exactVariable names (folded destination)) (summaryValue names left)
        (summaryValue names right) (parseBinary op))
  | .phi destination sources =>
      some (.phi (exactVariable names (folded destination))
        (sources.entries.map fun source =>
          ⟨IrCfg.ordinal function source.1, exactVariable names (folded source.2)⟩))
  | .load destination _ _ => some (.kill (exactVariable names (folded destination)))
  | .call destination target _ =>
      if isGuestCall target then some (.guestCall (tryParseAddressOrDecimal target))
      else if isNullOrWhiteSpace destination then none
      else some (.kill (exactVariable names (folded destination)))
  | .indirectCall .. => some .indirectCall
  | _ => none

def assignedMask : IrInstruction → BitVec 8
  | .assign destination _ =>
      match gqrKey (folded destination) with
      | some n => BitVec.twoPow 8 n
      | none => 0
  | _ => 0

/-- The targets of the guest calls of a function; an unknown one is `none`. -/
def guestTargets (function : IrFunction) : List (Option UInt32) :=
  (function.blocks.flatMap IrBasicBlock.instructions).filterMap fun i =>
    match i with
    | .call _ target _ =>
        if isGuestCall target then some (tryParseAddressOrDecimal target) else none
    | _ => none

def isIndirectCall : IrInstruction → Bool
  | .indirectCall .. => true
  | _ => false

/-- The summary; two blocks with one label are an exception. -/
def create (function : IrFunction) : Option GqrFunctionSummary :=
  if IrCfg.DistinctLabels function then
    let names := variableNames function
    let instructions := function.blocks.flatMap IrBasicBlock.instructions
    some
      { entryBlock := (IrCfg.ordinal function function.entryLabel).getD 0
        blocks := (List.range function.blocks.length).map fun index =>
          ⟨IrCfg.predecessors function index,
            (function.blockAt index).instructions.filterMap (project function names)⟩
        directGuestTargets :=
          ((guestTargets function).filterMap id).dedup.insertionSort (· ≤ ·)
        gqrAffinityByVariable := (List.range 8).map some ++ names.map gqrKey
        localWriteMask := (instructions.map assignedMask).foldl (· ||| ·) 0
        hasUnknownGuestOrIndirectCall :=
          (guestTargets function).contains none || instructions.any isIndirectCall }
  else none

/-! ## Numbers of names -/

section Numbers

variable {function : IrFunction} {names : List (List Char)} {name name' : List Char}

theorem plainGqr_eq_some {name : List Char} {n : ℕ} (h : plainGqr name = some n) :
    name = gqrName n ∧ n < 8 := by
  constructor
  · simpa using List.find?_some h
  · exact List.mem_range.mp (List.mem_of_find?_eq_some h)

theorem plainGqr_gqrName {n : ℕ} (h : n < 8) : plainGqr (gqrName n) = some n := by
  have hall : ∀ k < 8, plainGqr (gqrName k) = some k := by decide
  exact hall n h

def Numbered (names : List (List Char)) (name : List Char) : Prop :=
  (plainGqr name).isSome ∨ name ∈ names

theorem exactVariable_injective (hname : Numbered names name)
    (h : exactVariable names name = exactVariable names name') : name = name' := by
  unfold exactVariable at h
  rcases hplain : plainGqr name with _ | n <;> rcases hplain' : plainGqr name' with _ | n' <;>
    simp only [hplain, hplain'] at h
  · have hmem : name ∈ names := hname.resolve_left (by simp [hplain])
    exact (List.idxOf_inj hmem).mp (by omega)
  · have := (plainGqr_eq_some hplain').2
    omega
  · have := (plainGqr_eq_some hplain).2
    omega
  · rw [(plainGqr_eq_some hplain).1, (plainGqr_eq_some hplain').1, h]

theorem numbered_of_mem {block : IrBasicBlock} {i : IrInstruction} {name : String}
    (hblock : block ∈ function.blocks) (hi : i ∈ block.instructions)
    (hname : name ∈ instructionNames i) :
    Numbered (variableNames function) (folded name) := by
  by_cases hplain : (plainGqr (folded name)).isSome
  · exact .inl hplain
  · right
    rw [variableNames, List.mem_filter, List.mem_eraseDups]
    refine ⟨List.mem_map_of_mem ?_, by simpa using hplain⟩
    exact List.mem_flatMap.mpr ⟨i, List.mem_flatMap.mpr ⟨block, hblock, hi⟩, hname⟩

end Numbers

end GqrFunctionSummary

/-! ## Maps -/

section Maps

variable {α : Type*} [DecidableEq α] {key : ℕ → α} {values : ℕ → Option UInt32}

theorem lookup_foldl_registers {a : α} {l : List ℕ} {m : AList fun _ : α => UInt32} :
    (l.foldl
      (fun state n =>
        match values n with
        | some v => state.insert (key n) v
        | none => state) m).lookup a =
      ((l.reverse.find? fun n => key n = a ∧ (values n).isSome).bind values).or
        (m.lookup a) := by
  induction l generalizing m with
  | nil => rfl
  | cons n l ih =>
      rw [List.foldl_cons, ih, List.reverse_cons, List.find?_append]
      rcases hfound : l.reverse.find? fun n => decide (key n = a ∧ (values n).isSome) with
        _ | k
      · cases hvalue : values n with
        | none => simp [hvalue]
        | some v =>
            by_cases ha : key n = a
            · subst ha
              simp [hvalue]
            · simp [hvalue, ha, AList.lookup_insert_ne (Ne.symm ha)]
      · have hk := List.find?_some hfound
        obtain ⟨v, hv⟩ := Option.isSome_iff_exists.mp (of_decide_eq_true hk).2
        simp [hv]

theorem lookup_registerMap_of_ne {a : α} (h : ∀ n < 8, key n ≠ a) :
    (registerMap key values).lookup a = none := by
  rw [registerMap, lookup_foldl_registers, List.find?_eq_none.mpr]
  · rfl
  · intro n hn
    have hlt : n < 8 := by simpa using hn
    simp [h n hlt]

theorem lookup_registerMap (hkey : ∀ n < 8, ∀ k < 8, key n = key k → n = k) {n : ℕ}
    (hn : n < 8) : (registerMap key values).lookup (key n) = values n := by
  rw [registerMap, lookup_foldl_registers, AList.lookup_empty, Option.or_none]
  rcases hfound : (List.range 8).reverse.find? fun k =>
      decide (key k = key n ∧ (values k).isSome) with _ | k
  · have hnone := List.find?_eq_none.mp hfound n (by simpa using hn)
    have hvalue : values n = none := by simpa using hnone
    rw [hvalue]
    rfl
  · have hmem : k < 8 := by simpa using List.mem_of_find?_eq_some hfound
    have hk := List.find?_some hfound
    obtain rfl := hkey k hmem n hn (of_decide_eq_true hk).1
    rfl

end Maps

end Wiicompiled.Translation
