import Wiicompiled.CodeGen.AddressConstants

/-!
# When a constant address is the address

The map of constants follows some kinds of instructions only.  A constant that it gives for
a name is the value of the register as long as the last instruction that wrote the register
is one that the map followed, under that name.
-/

namespace Wiicompiled.CodeGen.CxxLinearCodeGenerator

open Ir

/-! ## Names that the map knows rightly -/

/-- The map follows a name of the register with a given base name. -/
def follows (key : List Char) (instruction : IrInstruction) : Bool :=
  match trackedDestination instruction with
  | some destination => baseKey destination = key
  | none => false

/-- What was executed since the map last followed a name with the base name. -/
def executedSince (key : List Char) (executed : List IrInstruction) : List IrInstruction :=
  executed.takeWhile fun instruction => !follows key instruction

/-- The destination under which the map last followed a base name. -/
def lastFollowed (key : List Char) (executed : List IrInstruction) : Option String :=
  (executed.find? (follows key)).bind trackedDestination

/-- The entries for a name are those of its register: the destination that the map followed
last is kept at the same place, and is the name itself where the block defines the name;
and nothing else has written the place since. -/
def Current (clobbers : Clobbers) (executed : List IrInstruction) (name : String) : Prop :=
  ∀ destination, lastFollowed (baseKey name) executed = some destination →
    location destination = location name ∧
      (baseKey name = folded name ∨ folded destination = folded name ∨
        ∀ instruction ∈ executed, ∀ other, trackedDestination instruction = some other →
          folded other ≠ folded name) ∧
      ∀ instruction ∈ executedSince (baseKey name) executed,
        ¬ MayWrite clobbers instruction (location name)

/-- The names that an instruction has looked up in the map when the map follows it. -/
def followedOperands : IrInstruction → List String
  | .assign _ value => value.registerName.toList
  | .binary _ left right _ => left.registerName.toList ++ right.registerName.toList
  | _ => []

def lookedUpNames (instruction : IrInstruction) : List String :=
  followedOperands instruction ++ (remappedAddresses instruction).map IrAddress.base

/-- All names that are looked up for an instruction are known rightly. -/
def LooksUpCurrent (clobbers : Clobbers) (executed : List IrInstruction)
    (instruction : IrInstruction) : Prop :=
  ∀ name ∈ lookedUpNames instruction, Current clobbers executed name

/-- What the map gives for such names is the value of the register. -/
def ConstantsHold (clobbers : Clobbers) (executed : List IrInstruction)
    (registers : Registers) : Prop :=
  ∀ name, Current clobbers executed name →
    ∀ value, baseConstant (localConstants executed) name = some value →
      read registers name = value

/-! ## One instruction -/

section Update

variable {clobbers : Clobbers} {executed : List IrInstruction} {instruction : IrInstruction}
  {constants : Constants} {destination name : String} {registers registers' : Registers}

theorem UpdateKnownUIntConstants_of_none
    (h : trackedDestination instruction = none) :
    UpdateKnownUIntConstants instruction constants = constants := by
  unfold UpdateKnownUIntConstants
  rw [h]

theorem UpdateKnownUIntConstants_apply
    (h : trackedDestination instruction = some destination) (key : List Char) :
    UpdateKnownUIntConstants instruction constants key =
      if key = baseKey destination ∨ key = folded destination then
        trackedConstant instruction constants
      else constants key := by
  unfold UpdateKnownUIntConstants
  rw [h]
  simp only [setOrRemove, folded_getRegisterBaseName]
  by_cases hbase : key = baseKey destination
  · rw [hbase, Function.update_self, if_pos (Or.inl rfl)]
  · rw [Function.update_of_ne hbase]
    by_cases hname : key = folded destination
    · rw [hname, Function.update_self, if_pos (Or.inr rfl)]
    · rw [Function.update_of_ne hname, if_neg (by simp [hbase, hname])]

theorem UpdateKnownUIntConstants_of_not_follows
    (h : follows (baseKey name) instruction = false) {key : List Char}
    (hkey : key = folded name ∨ key = baseKey name) :
    UpdateKnownUIntConstants instruction constants key = constants key := by
  cases hdestination : trackedDestination instruction with
  | none => rw [UpdateKnownUIntConstants_of_none hdestination]
  | some destination =>
      have hbase : registerBaseSpan key = baseKey name := by
        rcases hkey with rfl | rfl
        · rfl
        · exact registerBaseSpan_baseKey name
      unfold follows at h
      rw [hdestination] at h
      simp only [decide_eq_false_iff_not] at h
      rw [UpdateKnownUIntConstants_apply hdestination, if_neg]
      rintro (rfl | rfl)
      · exact h (by rw [← hbase, registerBaseSpan_baseKey])
      · exact h (by rw [← hbase]; rfl)

/-- A versioned name that the block has not defined has no entry. -/
theorem localConstants_eq_none
    (hversioned : baseKey name ≠ folded name)
    (h : ∀ instruction ∈ executed, ∀ other, trackedDestination instruction = some other →
      folded other ≠ folded name) :
    localConstants executed (folded name) = none := by
  induction executed with
  | nil => rfl
  | cons first executed ih =>
      have hrest := ih fun i hi => h i (List.mem_cons_of_mem _ hi)
      rw [localConstants, List.foldr_cons, ← localConstants]
      cases hdestination : trackedDestination first with
      | none => rw [UpdateKnownUIntConstants_of_none hdestination, hrest]
      | some destination =>
          rw [UpdateKnownUIntConstants_apply hdestination, if_neg, hrest]
          rintro (hbase | hname)
          · refine hversioned ?_
            rw [baseKey, hbase, registerBaseSpan_baseKey]
          · exact h first List.mem_cons_self destination hdestination hname.symm

theorem operandValue_of_constant
    (h : ConstantsHold clobbers executed registers) {value : IrValue} {word : UInt32}
    (hcurrent : ∀ name ∈ value.registerName.toList, Current clobbers executed name)
    (hword : TryGetUIntConstant value (localConstants executed) = some word) :
    operandValue registers value = word := by
  unfold TryGetUIntConstant at hword
  unfold operandValue
  by_cases hconst : value.kind = "const" ∧ value.constant.isSome
  · obtain ⟨immediate, himmediate⟩ := Option.isSome_iff_exists.mp hconst.2
    rw [if_pos hconst, himmediate] at hword
    rw [if_pos hconst, himmediate]
    exact Option.some_inj.mp hword
  · rw [if_neg hconst] at hword
    by_cases hregister : value.kind = "register"
    · rw [if_pos hregister] at hword
      obtain ⟨name, hname, hentry⟩ := Option.bind_eq_some_iff.mp hword
      rw [if_neg hconst, if_pos ⟨hregister, by rw [hname]; rfl⟩, hname]
      refine h name (hcurrent name (by rw [hname]; exact List.mem_cons_self)) word ?_
      rw [baseConstant, hentry]
      rfl
    · rw [if_neg hregister] at hword
      exact absurd hword.symm (Option.some_ne_none _)

theorem operator_of_constant
    (h : ConstantsHold clobbers executed registers) {left right : IrValue} {op : String}
    {word : UInt32}
    (hcurrent : ∀ name ∈ left.registerName.toList ++ right.registerName.toList,
      Current clobbers executed name)
    (hword : TryEvaluateUIntBinary left right op (localConstants executed) = some word) :
    ∃ f, Translation.GqrConstantPropagation.operatorMeaning op = some f ∧
      f (operandValue registers left) (operandValue registers right) = word := by
  unfold TryEvaluateUIntBinary at hword
  cases hl : TryGetUIntConstant left (localConstants executed) with
  | none =>
      rw [hl] at hword
      exact absurd hword.symm (Option.some_ne_none _)
  | some l =>
      cases hr : TryGetUIntConstant right (localConstants executed) with
      | none =>
          rw [hl, hr] at hword
          exact absurd hword.symm (Option.some_ne_none _)
      | some r =>
          rw [hl, hr] at hword
          rw [operandValue_of_constant h
              (fun name hname => hcurrent name (List.mem_append_left _ hname)) hl,
            operandValue_of_constant h
              (fun name hname => hcurrent name (List.mem_append_right _ hname)) hr]
          unfold Translation.GqrConstantPropagation.operatorMeaning
          simp only at hword
          split_ifs at hword ⊢ <;> exact ⟨_, rfl, Option.some_inj.mp hword⟩

theorem baseConstant_eq_none (h : lastFollowed (baseKey name) executed = none) :
    baseConstant (localConstants executed) name = none := by
  induction executed with
  | nil => rfl
  | cons first executed ih =>
      have hfirst : follows (baseKey name) first = false := by
        by_contra hfollows
        rw [Bool.not_eq_false] at hfollows
        rw [lastFollowed, List.find?_cons, hfollows, Option.bind_some] at h
        rw [follows, h] at hfollows
        exact absurd hfollows Bool.false_ne_true
      rw [lastFollowed, List.find?_cons, hfirst] at h
      rw [← ih h, baseConstant, baseConstant, folded_getRegisterBaseName,
        localConstants, List.foldr_cons, ← localConstants,
        UpdateKnownUIntConstants_of_not_follows hfirst (Or.inl rfl),
        UpdateKnownUIntConstants_of_not_follows hfirst (Or.inr rfl)]

/-- Right after the map followed a name's register, it gives the constant it assigned. -/
theorem baseConstant_of_follows
    (hdestination : trackedDestination instruction = some destination)
    (hbase : baseKey destination = baseKey name)
    (hname : baseKey name = folded name ∨ folded destination = folded name ∨
      ∀ i ∈ executed, ∀ other, trackedDestination i = some other →
        folded other ≠ folded name) :
    baseConstant (localConstants (instruction :: executed)) name =
      trackedConstant instruction (localConstants executed) := by
  rw [baseConstant, folded_getRegisterBaseName, localConstants, List.foldr_cons,
    ← localConstants, UpdateKnownUIntConstants_apply hdestination,
    UpdateKnownUIntConstants_apply hdestination,
    if_pos (Or.inl hbase.symm : baseKey name = baseKey destination ∨ _)]
  by_cases hkey : folded name = baseKey destination ∨ folded name = folded destination
  · rw [if_pos hkey, Option.or_self]
  · rw [not_or, hbase] at hkey
    rw [if_neg (by rw [not_or, hbase]; exact hkey)]
    rcases hname with hname | hname | hname
    · exact absurd hname.symm hkey.1
    · exact absurd hname.symm hkey.2
    · rw [localConstants_eq_none (fun h => hkey.1 h.symm) hname, Option.none_or]

theorem Executes.frame (h : Executes clobbers instruction registers registers')
    {place : List Char} (hplace : ¬ MayWrite clobbers instruction place) :
    registers' place = registers place := by
  rcases h with ⟨destination, value, _⟩ | ⟨destination, left, right, op, _, word, hword⟩ |
    ⟨hcomputes, hframe⟩
  · refine Function.update_of_ne (fun heq => hplace (Or.inl ?_)) _ _
    exact ⟨destination, List.mem_singleton_self _, heq.symm⟩
  · refine Function.update_of_ne (fun heq => hplace (Or.inl ?_)) _ _
    exact ⟨destination, List.mem_singleton_self _, heq.symm⟩
  · exact hframe place hplace

theorem Executes.destination_eq (hexecutes : Executes clobbers instruction registers registers')
    (h : ConstantsHold clobbers executed registers)
    (hcurrent : ∀ name ∈ followedOperands instruction, Current clobbers executed name)
    (hdestination : trackedDestination instruction = some destination) {word : UInt32}
    (hword : trackedConstant instruction (localConstants executed) = some word) :
    registers' (location destination) = word := by
  rcases hexecutes with ⟨_, value, _⟩ | ⟨_, left, right, op, _, result, hresult⟩ |
    ⟨hcomputes, hframe⟩
  · obtain rfl := Option.some_inj.mp hdestination
    rw [Function.update_self]
    exact operandValue_of_constant h hcurrent hword
  · obtain rfl := Option.some_inj.mp hdestination
    rw [Function.update_self]
    obtain ⟨f, hf, hvalue⟩ := operator_of_constant h hcurrent hword
    rw [hresult f hf, hvalue]
  · exfalso
    revert hcomputes hword
    rcases instruction <;> simp [computes, trackedConstant]

/-- **One instruction.**  The constants of current names stay the values of their
registers. -/
theorem ConstantsHold.executes (h : ConstantsHold clobbers executed registers)
    (hcurrent : ∀ name ∈ followedOperands instruction, Current clobbers executed name)
    (hexecutes : Executes clobbers instruction registers registers') :
    ConstantsHold clobbers (instruction :: executed) registers' := by
  intro name hname value hvalue
  by_cases hfollows : follows (baseKey name) instruction = true
  · -- The instruction assigns the register: both entries come from it.
    obtain ⟨destination, hdestination⟩ : ∃ destination,
        trackedDestination instruction = some destination := by
      rcases hd : trackedDestination instruction with _ | destination
      · rw [follows, hd] at hfollows
        exact absurd hfollows Bool.false_ne_true
      · exact ⟨destination, rfl⟩
    have hbase : baseKey destination = baseKey name := by
      rw [follows, hdestination] at hfollows
      exact of_decide_eq_true hfollows
    obtain ⟨hlocation, hentry, -⟩ := hname destination (by
      rw [lastFollowed, List.find?_cons, hfollows]
      exact hdestination)
    have hentry' : baseKey name = folded name ∨ folded destination = folded name ∨
        ∀ i ∈ executed, ∀ other, trackedDestination i = some other →
          folded other ≠ folded name :=
      hentry.imp id (Or.imp id fun hnone i hi => hnone i (List.mem_cons_of_mem _ hi))
    rw [baseConstant_of_follows hdestination hbase hentry'] at hvalue
    rw [read, ← hlocation]
    exact hexecutes.destination_eq h hcurrent hdestination hvalue
  · -- The entries stay, and so does the register once it has an entry.
    rw [Bool.not_eq_true] at hfollows
    have hlast : lastFollowed (baseKey name) (instruction :: executed) =
        lastFollowed (baseKey name) executed := by
      rw [lastFollowed, List.find?_cons, hfollows, lastFollowed]
    have hsince : executedSince (baseKey name) (instruction :: executed) =
        instruction :: executedSince (baseKey name) executed := by
      rw [executedSince, List.takeWhile_cons, hfollows, executedSince]
      rfl
    have hentries : baseConstant (localConstants (instruction :: executed)) name =
        baseConstant (localConstants executed) name := by
      rw [baseConstant, baseConstant, folded_getRegisterBaseName, localConstants,
        List.foldr_cons, ← localConstants,
        UpdateKnownUIntConstants_of_not_follows hfollows (Or.inl rfl),
        UpdateKnownUIntConstants_of_not_follows hfollows (Or.inr rfl)]
    rw [hentries] at hvalue
    rcases hd : lastFollowed (baseKey name) executed with _ | destination
    · rw [baseConstant_eq_none hd] at hvalue
      exact absurd hvalue.symm (Option.some_ne_none _)
    · obtain ⟨-, -, hwrites⟩ := hname destination (by rw [hlast, hd])
      rw [hsince] at hwrites
      have hbefore : Current clobbers executed name := by
        intro other hother
        obtain ⟨hlocation, hentry, hwrites⟩ := hname other (by rw [hlast, hother])
        rw [hsince] at hwrites
        exact ⟨hlocation,
          hentry.imp id (Or.imp id fun hnone i hi => hnone i (List.mem_cons_of_mem _ hi)),
          fun i hi => hwrites i (List.mem_cons_of_mem _ hi)⟩
      rw [read, hexecutes.frame (hwrites instruction List.mem_cons_self)]
      exact h name hbefore value hvalue

end Update

/-! ## Runs -/

def movedAddress (remap : LinkedAddressRemap) (address : UInt32) : Option UInt32 :=
  if remap.LinkBase.toNat ≤ address.toNat ∧
      address.toNat < remap.LinkBase.toNat + remap.CodeSize.toNat then
    some (remap.GuestBase + (address - remap.LinkBase))
  else none

/-- The accesses of the next instruction whose base has a constant: the base holds it, and
the emitted address is that of the run-time address. -/
def AccessesFolded (c : Config) : Prop :=
  ∀ i ∈ c.remaining.head?, ∀ address ∈ remappedAddresses i, ∀ value,
    baseConstant (localConstants c.executed) address.base = some value →
      read c.registers address.base = value ∧
        ∀ remap result, RemapAddress address (localConstants c.executed) remap = .ok result →
          result = movedAddress remap
            (read c.registers address.base + address.offset.toUInt32)

def AddressFoldingSound (function : IrFunction) (clobbers : Clobbers) : Prop :=
  ∀ start registers c,
    Relation.ReflTransGen (Step function clobbers) (enter function start registers) c →
      AccessesFolded c

/-- The next instruction looks up names that the map knows rightly. -/
def LooksUpCurrentNext (clobbers : Clobbers) (c : Config) : Prop :=
  ∀ i ∈ c.remaining.head?, LooksUpCurrent clobbers c.executed i

/-- A step that looks up such names only. -/
def CurrentStep (function : IrFunction) (clobbers : Clobbers) (c c' : Config) : Prop :=
  LooksUpCurrentNext clobbers c ∧ Step function clobbers c c'

section Runs

variable {function : IrFunction} {clobbers : Clobbers} {c c' : Config}

theorem ConstantsHold.nil (registers : Registers) : ConstantsHold clobbers [] registers := by
  intro name _ value hvalue
  exact absurd hvalue.symm (Option.some_ne_none value)

/-- **One step.**  The constants stay the values of their registers. -/
theorem ConstantsHold.step (h : ConstantsHold clobbers c.executed c.registers)
    (hstep : CurrentStep function clobbers c c') :
    ConstantsHold clobbers c'.executed c'.registers := by
  obtain ⟨hcurrent, hstep⟩ := hstep
  rcases hstep with ⟨htransfers, hstops, hexecutes⟩ | ⟨hlabel, hnext⟩ | ⟨hnext⟩
  · refine h.executes (fun name hname => ?_) hexecutes
    exact hcurrent _ rfl name (List.mem_append_left _ hname)
  · exact ConstantsHold.nil _
  · exact ConstantsHold.nil _

/-- **Runs.**  Along current steps the constants are the values of their registers. -/
theorem ConstantsHold.run {start : ℕ} {registers : Registers}
    (hrun : Relation.ReflTransGen (CurrentStep function clobbers)
      (enter function start registers) c) :
    ConstantsHold clobbers c.executed c.registers := by
  induction hrun with
  | refl => exact ConstantsHold.nil registers
  | tail _ hstep ih => exact ih.step hstep

theorem RemapAddress_eq_movedAddress {address : IrAddress} {constants : Constants}
    {remap : LinkedAddressRemap} {value : UInt32} {result : Option UInt32}
    (hbase : baseConstant constants address.base = some value)
    (hresult : RemapAddress address constants remap = .ok result) :
    result = movedAddress remap (value + address.offset.toUInt32) := by
  rw [RemapAddress, hbase] at hresult
  unfold checkedAdd at hresult
  by_cases hlink : remap.LinkBase.toNat + remap.CodeSize.toNat < UInt32.size
  · rw [if_pos hlink] at hresult
    have hend : (remap.LinkBase + remap.CodeSize).toNat =
        remap.LinkBase.toNat + remap.CodeSize.toNat := by
      rw [UInt32.toNat_add]
      exact Nat.mod_eq_of_lt hlink
    by_cases hinside : remap.LinkBase ≤ value + address.offset.toUInt32 ∧
        value + address.offset.toUInt32 < remap.LinkBase + remap.CodeSize
    · rw [movedAddress, if_pos]
      · by_cases hguest : remap.GuestBase.toNat +
            (value + address.offset.toUInt32 - remap.LinkBase).toNat < UInt32.size
        · simp only [bind, Except.bind, if_pos hinside, if_pos hguest, pure, Except.pure,
            Except.ok.injEq] at hresult
          exact hresult.symm
        · simp only [bind, Except.bind, if_pos hinside, if_neg hguest] at hresult
          exact absurd hresult (by simp)
      · rw [UInt32.le_iff_toNat_le, UInt32.lt_iff_toNat_lt, hend] at hinside
        exact hinside
    · rw [movedAddress, if_neg]
      · simp only [bind, Except.bind, if_neg hinside, pure, Except.pure,
          Except.ok.injEq] at hresult
        exact hresult.symm
      · rw [UInt32.le_iff_toNat_le, UInt32.lt_iff_toNat_lt, hend] at hinside
        exact hinside
  · rw [if_neg hlink] at hresult
    exact absurd hresult (by simp [bind, Except.bind])

/-- **Constant addresses.**  In a run whose instructions look up only names that the map
knows rightly, the constant that replaces an address is the value of its base. -/
theorem accessesFolded_of_looksUpCurrent (start : ℕ) (registers : Registers)
    (hrun : Relation.ReflTransGen (CurrentStep function clobbers)
      (enter function start registers) c)
    (hnext : LooksUpCurrentNext clobbers c) :
    AccessesFolded c := by
  intro i hi address haddress value hvalue
  have hread : read c.registers address.base = value :=
    ConstantsHold.run hrun address.base
      (hnext i hi address.base
        (List.mem_append_right _ (List.mem_map_of_mem haddress))) value hvalue
  refine ⟨hread, fun remap result hresult => ?_⟩
  rw [hread]
  exact RemapAddress_eq_movedAddress hvalue hresult

end Runs

/-- A block that assigns `r3` and loads through it. -/
def assignedLoad : IrFunction where
  name := "assigned"
  entryLabel := "bb_80500000"
  blocks := [⟨"bb_80500000",
    [.assign "r3_1" (IrValue.imm 0x80500000), .load "r6_1" ⟨"r3_1", 8⟩ 4, .ret none]⟩]

def beforeAssignedLoad : Config where
  block := 0
  executed := [.assign "r3_1" (IrValue.imm 0x80500000)]
  remaining := [.load "r6_1" ⟨"r3_1", 8⟩ 4, .ret none]
  registers := Function.update (fun _ => 0) (location "r3_1") 0x80500000

/-- The load looks up the name that the assignment gave its constant. -/
theorem current_assigned :
    Current (fun _ _ => False) [.assign "r3_1" (IrValue.imm 0x80500000)] "r3_1" := by
  intro destination hdestination
  have hlast : lastFollowed (baseKey "r3_1") [.assign "r3_1" (IrValue.imm 0x80500000)] =
      some "r3_1" := by
    decide +kernel
  have hsince : executedSince (baseKey "r3_1")
      [.assign "r3_1" (IrValue.imm 0x80500000)] = [] := by
    decide +kernel
  rw [hlast, Option.some_inj] at hdestination
  subst hdestination
  refine ⟨rfl, Or.inr (Or.inl rfl), ?_⟩
  rw [hsince]
  intro instruction hinstruction
  exact absurd hinstruction List.not_mem_nil

/-- The load of `assignedLoad` reads the address that its constant gives. -/
theorem accessesFolded_assignedLoad : AccessesFolded beforeAssignedLoad := by
  refine @accessesFolded_of_looksUpCurrent assignedLoad (fun _ _ => False) _ 0 (fun _ => 0)
    (.tail .refl ⟨?_, .instruction rfl rfl (.assign "r3_1" (IrValue.imm 0x80500000) _)⟩) ?_
  · rintro i hi name hname
    obtain rfl := Option.some_inj.mp hi
    exact absurd hname List.not_mem_nil
  · rintro i hi name hname
    obtain rfl := Option.some_inj.mp hi
    obtain rfl := List.mem_singleton.mp hname
    exact current_assigned

/-! ## A base register that a lowered load writes -/

/-- A block that assigns `r3`, loads it and `r4` through one resolved range, and accesses
the address in `r3`. -/
def reloadedBase : IrFunction where
  name := "reloaded"
  entryLabel := "bb_80500000"
  blocks := [⟨"bb_80500000",
    [.assign "r3_1" (IrValue.imm 0x80500000),
     .resolveGuestMemoryRange "guest_range_0" (IrValue.register "r5_0") 0 12 true false,
     .resolvedLoad "r3_2" "guest_range_0" ⟨"r5_0", 0⟩ 0 4,
     .resolvedLoad "r4_1" "guest_range_0" ⟨"r5_0", 8⟩ 8 4,
     .load "r6_1" ⟨"r3_2", 0⟩ 4,
     .ret none]⟩]

def assignedBase : Registers :=
  Function.update (fun _ => 0) (location "r3_1") 0x80500000

/-- A position before the last access, at which the loads have given zero. -/
def beforeAccess : Config where
  block := 0
  executed :=
    [.resolvedLoad "r4_1" "guest_range_0" ⟨"r5_0", 8⟩ 8 4,
     .resolvedLoad "r3_2" "guest_range_0" ⟨"r5_0", 0⟩ 0 4,
     .resolveGuestMemoryRange "guest_range_0" (IrValue.register "r5_0") 0 12 true false,
     .assign "r3_1" (IrValue.imm 0x80500000)]
  remaining := [.load "r6_1" ⟨"r3_2", 0⟩ 4, .ret none]
  registers := fun _ => 0

theorem location_r3 : location "r3_2" = location "r3_1" := by
  decide +kernel

theorem beforeAccess_reached :
    Relation.ReflTransGen (Step reloadedBase fun _ _ => False)
      (enter reloadedBase 0 fun _ => 0) beforeAccess := by
  refine .head (.instruction rfl rfl (.assign "r3_1" (IrValue.imm 0x80500000) _)) ?_
  refine .head (.instruction rfl rfl (@Executes.other _ _ _ assignedBase rfl ?_)) ?_
  · intro place _
    rfl
  refine .head (.instruction rfl rfl (@Executes.other _ _ _ (fun _ => 0) rfl ?_)) ?_
  · -- The first resolved load writes zero over the constant.
    intro place hplace
    rw [assignedBase, Function.update_of_ne]
    rintro rfl
    exact hplace (Or.inl ⟨"r3_2", List.mem_singleton_self _, location_r3⟩)
  refine .head (.instruction rfl rfl (@Executes.other _ _ _ (fun _ => 0) rfl ?_)) .refl
  intro place _
  rfl

/-- The constant of the assignment is still found under the base name `r3`. -/
theorem baseConstant_beforeAccess :
    baseConstant (localConstants beforeAccess.executed) "r3_2" = some 0x80500000 := by
  decide +kernel

/-- A load through a resolved range does not end the constant of its destination. -/
theorem not_addressFoldingSound :
    ¬ AddressFoldingSound reloadedBase (fun _ _ => False) := by
  intro h
  have hfolded := h 0 (fun _ => 0) beforeAccess beforeAccess_reached
    (.load "r6_1" ⟨"r3_2", 0⟩ 4) rfl ⟨"r3_2", 0⟩ (List.mem_singleton_self _) 0x80500000
    baseConstant_beforeAccess
  exact absurd hfolded.1 (by decide)

end Wiicompiled.CodeGen.CxxLinearCodeGenerator
