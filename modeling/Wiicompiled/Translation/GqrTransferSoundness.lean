import Wiicompiled.Translation.GqrExecution

/-!
# Soundness of one transfer

A dictionary of constants is sound for a machine when the machine has every
value in it.  One instruction takes sound dictionaries to sound dictionaries,
provided that the analysis understands it: quantization registers change only
where it looks for changes.
-/

namespace Wiicompiled.Translation.GqrConstantPropagation

open Ir

/-! ## Names -/

theorem strip_gqrName (n : ℕ) :
    stripNumericSuffixSpan (gqrName n) = gqrName n := by
  have hnot : '_' ∉ gqrName n := by
    simp [gqrName]
  have hlast : lastIndexOf '_' (gqrName n) = none := by
    rw [lastIndexOf, Option.map_eq_none_iff, List.idxOf?_eq_none_iff]
    simpa using hnot
  rw [stripNumericSuffixSpan, hlast]

theorem gqrKey_eq_some
    {name : List Char} {n : ℕ} (h : gqrKey name = some n) :
    stripNumericSuffixSpan name = gqrName n ∧ n < 8 := by
  constructor
  · simpa using List.find?_some h
  · exact List.mem_range.mp (List.mem_of_find?_eq_some h)

theorem gqrKey_gqrName
    {n : ℕ} (h : n < 8) : gqrKey (gqrName n) = some n := by
  have hall : ∀ k < 8, gqrKey (gqrName k) = some k := by decide
  exact hall n h

theorem ne_gqrName_of_versioned
    {name : String} (h : isVersioned name = true) (n : ℕ) :
    folded name ≠ gqrName n := by
  intro heq
  rw [isVersioned, heq, strip_gqrName] at h
  simp at h

theorem ne_gqrName_of_gqrKey
    {name : List Char} (h : gqrKey name = none) {n : ℕ} (hn : n < 8) :
    name ≠ gqrName n := by
  rintro rfl
  rw [gqrKey_gqrName hn] at h
  cases h

theorem gqrName_injective {n k : ℕ} (h : gqrName n = gqrName k) : n = k := by
  have hdigits : Nat.toDigits 10 n = Nat.toDigits 10 k := by
    simpa [gqrName] using h
  rw [← Nat.ofDigitChars_ten_toDigits (n := n), hdigits, Nat.ofDigitChars_ten_toDigits]

/-! ## Reading the machine -/

namespace Machine

theorem read_gqrName
    (m : Machine) {n : ℕ} (h : n < 8) : m.read (gqrName n) = m.gqr n := by
  simp [read, gqrKey_gqrName h]

theorem read_of_ne
    (m : Machine) {name : List Char} (h : ∀ n < 8, name ≠ gqrName n) :
    m.read name = m.registers name := by
  rw [read]
  cases hkey : gqrKey name with
  | none => rfl
  | some n => simp [h n (gqrKey_eq_some hkey).2]

theorem read_setRegister_of_ne
    (m : Machine) {name key : List Char} (value : UInt32) (h : key ≠ name) :
    (m.setRegister name value).read key = m.read key := by
  simp [read, setRegister, Function.update_of_ne h]

theorem read_setRegister_self
    (m : Machine) {name : List Char} (value : UInt32)
    (h : ∀ n < 8, name ≠ gqrName n) :
    (m.setRegister name value).read name = value := by
  rw [read_of_ne _ h]
  simp [setRegister]

theorem define_eq_setRegister
    (m : Machine) {name : List Char} (value : UInt32) (h : gqrKey name = none) :
    m.define name value = m.setRegister name value := by
  simp [define, h, setRegister]

end Machine

/-! ## What holds of a machine -/

/-- Instructions whose result the analysis may know. -/
def evaluated : IrInstruction → Bool
  | .assign .. | .binary .. | .phi .. => true
  | _ => false

/-- Some instruction that the analysis evaluates defines the name. -/
def EvaluatedName (function : IrFunction) (key : List Char) : Prop :=
  ∃ block ∈ function.blocks, ∃ i ∈ block.instructions,
    evaluated i = true ∧ key ∈ (ssaDefinitions i).map folded

/-- Every entry is a value that the machine has, under the name of a
quantization register or of an evaluated definition. -/
structure Sound (function : IrFunction) (state : NameMap) (m : Machine) : Prop where
  holds : ∀ key value, state.lookup key = some value → m.read key = value
  tracked : ∀ key value, state.lookup key = some value →
    (∃ n < 8, key = gqrName n) ∨ (gqrKey key = none ∧ EvaluatedName function key)

/-- Every entry of the first map is one of the second. -/
def Below (a b : NameMap) : Prop :=
  ∀ key value, a.lookup key = some value → b.lookup key = some value

theorem below_of_same {a b : NameMap} (h : same a b = true) : Below a b := by
  intro key value hlookup
  rw [same, Bool.and_eq_true, List.all_eq_true] at h
  have hmem : (⟨key, value⟩ : Sigma fun _ : List Char => UInt32) ∈ a.entries :=
    AList.mem_lookup_iff.mp hlookup
  exact of_decide_eq_true (h.2 _ hmem)

theorem below_intersect
    {maps : List NameMap} {a : NameMap} (h : a ∈ maps) :
    Below (intersect maps) a := by
  intro key value hlookup
  cases maps with
  | nil => cases h
  | cons first others =>
      have hmem : (⟨key, value⟩ : Sigma fun _ : List Char => UInt32) ∈
          (intersect (first :: others)).entries := AList.mem_lookup_iff.mp hlookup
      obtain ⟨hfirst, hothers⟩ := List.mem_filter.mp hmem
      rcases List.mem_cons.mp h with rfl | hin
      · exact AList.mem_lookup_iff.mpr hfirst
      · exact of_decide_eq_true (List.all_eq_true.mp hothers a hin)

theorem below_erase (state : NameMap) (key : List Char) :
    Below (state.erase key) state := by
  intro k value hlookup
  by_cases hk : k = key
  · subst hk
    simp at hlookup
  · rwa [AList.lookup_erase_ne hk] at hlookup

theorem lookup_assignOrRemove
    {state : NameMap} {name key : List Char} {value : Option UInt32} {v : UInt32}
    (h : (assignOrRemove state name value).lookup key = some v) :
    (key ≠ name ∧ state.lookup key = some v) ∨ (key = name ∧ value = some v) := by
  by_cases hk : key = name
  · subst hk
    right
    cases value with
    | none => simp [assignOrRemove] at h
    | some w => simpa [assignOrRemove] using h
  · left
    refine ⟨hk, ?_⟩
    cases value with
    | none => simpa [assignOrRemove, AList.lookup_erase_ne hk] using h
    | some w => simpa [assignOrRemove, AList.lookup_insert_ne hk] using h

namespace Sound

variable {function : IrFunction} {state below : NameMap} {m m' : Machine}

theorem mono (h : Sound function state m) (hle : Below below state) :
    Sound function below m :=
  ⟨fun key value hlookup => h.holds key value (hle key value hlookup),
    fun key value hlookup => h.tracked key value (hle key value hlookup)⟩

theorem empty : Sound function ∅ m := by
  constructor <;> intro key value hlookup <;> simp at hlookup

/-- A key that is a version of a quantization register is its name. -/
theorem key_eq
    (h : Sound function state m) {key : List Char} {value : UInt32} {n : ℕ}
    (hlookup : state.lookup key = some value) (hkey : gqrKey key = some n) :
    key = gqrName n := by
  rcases h.tracked key value hlookup with ⟨k, hk, rfl⟩ | ⟨hnone, -⟩
  · rw [gqrKey_gqrName hk] at hkey
    cases hkey
    rfl
  · rw [hnone] at hkey
    cases hkey

theorem setRegister
    (h : Sound function state m) {name : List Char} {word : UInt32}
    {value : Option UInt32} (hname : ∀ n < 8, name ≠ gqrName n)
    (hvalue : ∀ v, value = some v →
      word = v ∧ gqrKey name = none ∧ EvaluatedName function name) :
    Sound function (assignOrRemove state name value) (m.setRegister name word) := by
  constructor
  · intro key v hlookup
    rcases lookup_assignOrRemove hlookup with ⟨hk, hold⟩ | ⟨rfl, hv⟩
    · rw [Machine.read_setRegister_of_ne m word hk]
      exact h.holds key v hold
    · rw [Machine.read_setRegister_self m word hname]
      exact (hvalue v hv).1
  · intro key v hlookup
    rcases lookup_assignOrRemove hlookup with ⟨-, hold⟩ | ⟨rfl, hv⟩
    · exact h.tracked key v hold
    · exact Or.inr (hvalue v hv).2

/-- Writing a version of a quantization register changes the register's entry. -/
theorem defineGqr
    (h : Sound function state m) {name : List Char} {n : ℕ} {word : UInt32}
    {value : Option UInt32} (hkey : gqrKey name = some n)
    (hvalue : ∀ v, value = some v → word = v) :
    Sound function (assignOrRemove state (gqrName n) value) (m.define name word) := by
  have hn := (gqrKey_eq_some hkey).2
  have hself : (m.define name word).read (gqrName n) = word := by
    rw [Machine.read_gqrName _ hn]
    simp [Machine.define, hkey]
  have hother : ∀ key v, key ≠ gqrName n → state.lookup key = some v →
      (m.define name word).read key = m.read key := by
    intro key v hk hlookup
    rcases h.tracked key v hlookup with ⟨k, hlt, rfl⟩ | ⟨hnone, -⟩
    · rw [Machine.read_gqrName _ hlt, Machine.read_gqrName _ hlt]
      have hne : k ≠ n := fun heq => hk (by rw [heq])
      simp [Machine.define, hkey, Function.update_of_ne hne]
    · have hfree : ∀ k < 8, key ≠ gqrName k :=
        fun k hlt => ne_gqrName_of_gqrKey hnone hlt
      have hne : key ≠ name := by
        rintro rfl
        rw [hnone] at hkey
        cases hkey
      rw [Machine.read_of_ne _ hfree, Machine.read_of_ne _ hfree]
      simp [Machine.define, Machine.setRegister, Function.update_of_ne hne]
  constructor
  · intro key v hlookup
    rcases lookup_assignOrRemove hlookup with ⟨hk, hold⟩ | ⟨rfl, hv⟩
    · rw [hother key v hk hold]
      exact h.holds key v hold
    · rw [hself]
      exact hvalue v hv
  · intro key v hlookup
    rcases lookup_assignOrRemove hlookup with ⟨-, hold⟩ | ⟨rfl, -⟩
    · exact h.tracked key v hold
    · exact Or.inl ⟨n, hn, rfl⟩

end Sound

/-! ## Values and operators -/

theorem Sound.tryValue
    {function : IrFunction} {state : NameMap} {m : Machine}
    (h : Sound function state m) {value : IrValue} {v word : UInt32}
    (hvalue : tryValue value state = some v) (heval : Evaluates m value word) :
    word = v := by
  rw [GqrConstantPropagation.tryValue] at hvalue
  by_cases hconst : value.kind = "const" ∧ value.constant.isSome = true
  · obtain ⟨immediate, himmediate⟩ := Option.isSome_iff_exists.mp hconst.2
    rw [if_pos hconst, himmediate] at hvalue
    rw [Evaluates, if_pos hconst.1] at heval
    rw [heval immediate himmediate]
    simpa using hvalue
  · rw [if_neg hconst] at hvalue
    by_cases hregister : value.kind = "register"
    · rw [if_pos hregister] at hvalue
      obtain ⟨name, hname, hlookup⟩ := Option.bind_eq_some_iff.mp hvalue
      have hkind : value.kind ≠ "const" := by simp [hregister]
      rw [Evaluates, if_neg hkind, if_pos hregister] at heval
      rw [heval name hname]
      exact h.holds _ v hlookup
    · rw [if_neg hregister] at hvalue
      cases hvalue

/-- What the analysis folds is what an emitted operator computes. -/
theorem tryBinary_eq
    {op : String} {l r v : UInt32} {f : UInt32 → UInt32 → UInt32}
    (hfold : tryBinary op l r = some v) (hf : operatorMeaning op = some f) :
    v = f l r := by
  rw [operatorMeaning] at hf
  split_ifs at hf with hadd hsub hand hor hxor hshl hrotl hshr
  all_goals
    cases hf
    subst op
    exact (Option.some.inj hfold).symm

/-! ## One instruction -/

/-- The instruction writes no quantization register as a destination. -/
def WritesNoGqr (i : IrInstruction) : Prop :=
  ∀ name ∈ i.definitions, gqrKey (folded name) = none

/-- Instructions that the analysis understands: quantization registers are
written by assignments and guest calls alone, folded operators are emitted ones,
and a phi has a source for the block just left. -/
def Understood (function : IrFunction) (runs : CallRuns) (source : Option ℕ)
    (i : IrInstruction) : Prop :=
  match i with
  | .assign .. | .indirectCall .. | .setCrField .. => True
  | .phi _ sources =>
      ∃ pair ∈ sources.entries, ∃ p, source = some p ∧
        IrCfg.ordinal function pair.1 = some p
  | .binary _ _ _ op =>
      WritesNoGqr i ∧
        ∀ l r, (tryBinary op l r).isSome → (operatorMeaning op).isSome
  | .call _ target _ =>
      WritesNoGqr i ∧ (isGuestCall target = false →
        ∀ before after, runs target before after → after = before)
  | i => WritesNoGqr i

theorem DefinesAll.frame
    {names : List String} {m m' : Machine} (h : DefinesAll names m m')
    (hnames : ∀ name ∈ names, gqrKey (folded name) = none) :
    m'.gqr = m.gqr ∧
      ∀ key, key ∉ names.map folded → m'.registers key = m.registers key := by
  induction h with
  | nil => exact ⟨rfl, fun _ _ => rfl⟩
  | @cons name names m m' value _ ih =>
      obtain ⟨hgqr, hregisters⟩ := ih fun n hn => hnames n (List.mem_cons_of_mem _ hn)
      rw [Machine.define_eq_setRegister m value (hnames name List.mem_cons_self)]
        at hgqr hregisters
      constructor
      · exact hgqr
      · intro key hkey
        rw [List.map_cons, List.mem_cons, not_or] at hkey
        rw [hregisters key hkey.2]
        exact Function.update_of_ne hkey.1 _ _

/-- What is kept across a guest call was known before it of a register that the
callee leaves alone. -/
theorem exists_of_lookup_preserved
    {target : String} {masks : WriteMasks} {state : NameMap} {key : List Char}
    {value : UInt32}
    (h : (preserveUnmodifiedGqrsAcrossCall target masks state).lookup key = some value) :
    ∃ pair ∈ state.entries, ∃ n, gqrKey pair.1 = some n ∧ key = gqrName n ∧
      (callWriteMask target masks).getLsbD n = false ∧ pair.2 = value := by
  rw [preserveUnmodifiedGqrsAcrossCall] at h
  generalize state.entries = pairs at h ⊢
  induction pairs with
  | nil => simp at h
  | cons pair entries ih =>
      have hlater := fun hlookup => (ih hlookup).imp
        fun _ hp => And.imp_left (List.mem_cons_of_mem pair) hp
      rw [List.foldr_cons] at h
      cases hkey : gqrKey pair.1 with
      | none =>
          simp only [hkey] at h
          exact hlater h
      | some n =>
          simp only [hkey] at h
          by_cases hmask : (callWriteMask target masks).getLsbD n = true
          · rw [if_pos hmask] at h
            exact hlater h
          · rw [if_neg hmask] at h
            by_cases hk : key = gqrName n
            · subst hk
              rw [AList.lookup_insert, Option.some_inj] at h
              exact ⟨pair, List.mem_cons_self, n, hkey, rfl, by simpa using hmask, h⟩
            · rw [AList.lookup_insert_ne hk] at h
              exact hlater h

namespace Sound

variable {function : IrFunction} {state : NameMap} {m m' : Machine}

theorem definesAll
    (h : Sound function state m) {names : List String}
    (hnames : ∀ name ∈ names, gqrKey (folded name) = none)
    (hfresh : ∀ key value, state.lookup key = some value →
      EvaluatedName function key → key ∉ names.map folded)
    (hdefines : DefinesAll names m m') : Sound function state m' := by
  obtain ⟨hgqr, hregisters⟩ := hdefines.frame hnames
  constructor
  · intro key value hlookup
    rw [← h.holds key value hlookup]
    rcases h.tracked key value hlookup with ⟨n, hn, rfl⟩ | ⟨hnone, hname⟩
    · rw [Machine.read_gqrName _ hn, Machine.read_gqrName _ hn, hgqr]
    · have hfree : ∀ n < 8, key ≠ gqrName n := fun n hn => ne_gqrName_of_gqrKey hnone hn
      rw [Machine.read_of_ne _ hfree, Machine.read_of_ne _ hfree]
      exact hregisters key (hfresh key value hlookup hname)
  · exact h.tracked

theorem guestCall
    (h : Sound function state m) {masks : WriteMasks} {runs : CallRuns}
    (hmasks : SoundMasks masks runs) {target : String} {gqr : ℕ → UInt32}
    (htarget : isGuestCall target = true) (hrun : runs target m.gqr gqr)
    (hgqr : m'.gqr = gqr) :
    Sound function (preserveUnmodifiedGqrsAcrossCall target masks state) m' := by
  constructor
  · intro key value hlookup
    obtain ⟨pair, hpair, n, hkey, rfl, hmask, rfl⟩ := exists_of_lookup_preserved hlookup
    have hn := (gqrKey_eq_some hkey).2
    have hold : state.lookup pair.1 = some pair.2 := AList.mem_lookup_iff.mpr hpair
    have hname := h.key_eq hold hkey
    rw [Machine.read_gqrName _ hn, hgqr,
      hmasks target _ _ htarget hrun n hn hmask, ← Machine.read_gqrName _ hn, ← hname]
    exact h.holds _ _ hold
  · intro key value hlookup
    obtain ⟨_, _, n, hkey, rfl, _, _⟩ := exists_of_lookup_preserved hlookup
    exact Or.inl ⟨n, (gqrKey_eq_some hkey).2, rfl⟩

end Sound

/-- A phi whose sources all have one value at the ends of their blocks has it. -/
theorem lookup_of_phiValue
    {predecessorOut : String → Option NameMap} {sources : PhiSources} {v : UInt32}
    (h : phiValue predecessorOut sources = some v) {pair : String × String}
    (hpair : pair ∈ sources.entries) :
    ∃ pred, predecessorOut pair.1 = some pred ∧ pred.lookup (folded pair.2) = some v := by
  obtain ⟨first, others, hentries⟩ : ∃ first others,
      sources.entries = first :: others := by
    cases hentries : sources.entries with
    | nil => simp [hentries] at hpair
    | cons first others => exact ⟨first, others, rfl⟩
  rw [hentries] at hpair
  simp only [phiValue, hentries, List.map_cons] at h
  split at h
  · rename_i value rest hincoming
    obtain ⟨hfirst, rfl⟩ := List.cons_eq_cons.mp hincoming
    split_ifs at h with hall
    cases h
    rcases List.mem_cons.mp hpair with rfl | hin
    · exact Option.bind_eq_some_iff.mp hfirst
    · have hsame := List.all_eq_true.mp hall _ (List.mem_map.mpr ⟨pair, hin, rfl⟩)
      exact Option.bind_eq_some_iff.mp (of_decide_eq_true hsame)
  · cases h

section Instruction

variable {function : IrFunction} {runs : CallRuns} {masks : WriteMasks}
  {predecessorOut : String → Option NameMap} {source : Option ℕ}
  {entered m m' : Machine} {state : NameMap} {block : IrBasicBlock}
  {i : IrInstruction}

/-- The definitions of an instruction that the analysis does not evaluate are
under no key that it keeps. -/
theorem SsaForm.fresh
    (hssa : SsaForm function) (hblock : block ∈ function.blocks)
    (hi : i ∈ block.instructions) (hdefines : onlyDefines i = true)
    {key : List Char} (hname : EvaluatedName function key) :
    key ∉ i.definitions.map folded := by
  intro hin
  obtain ⟨other, hother, j, hj, hkind, hkey⟩ := hname
  have hne : i ≠ j := by
    rintro rfl
    cases i <;> simp_all [onlyDefines, evaluated]
  have hsame : ssaDefinitions i = i.definitions := by
    cases i <;> first | rfl | cases hdefines
  have hsymm : Std.Symm
      (Function.onFun List.Disjoint fun i => (ssaDefinitions i).map folded) :=
    ⟨fun _ _ h => h.symm⟩
  have hdisjoint := (List.nodup_flatMap.mp hssa.definedOnce).2.forall
    (List.mem_flatMap.mpr ⟨block, hblock, hi⟩)
    (List.mem_flatMap.mpr ⟨other, hother, hj⟩) hne
  have hown : key ∈ (ssaDefinitions i).map folded := by
    rw [hsame]
    exact hin
  exact hdisjoint hown hkey

theorem SsaForm.ne_gqrName
    (hssa : SsaForm function) {key : List Char} (hname : EvaluatedName function key)
    (n : ℕ) : key ≠ gqrName n := by
  obtain ⟨block, hblock, i, hi, -, hkey⟩ := hname
  obtain ⟨name, hdefinition, rfl⟩ := List.mem_map.mp hkey
  exact ne_gqrName_of_versioned (hssa.versioned block hblock i hi name hdefinition) n

theorem SsaForm.not_gqrName
    (hssa : SsaForm function) (hblock : block ∈ function.blocks)
    (hi : i ∈ block.instructions) {name : String} (hname : name ∈ ssaDefinitions i)
    (n : ℕ) : folded name ≠ gqrName n :=
  ne_gqrName_of_versioned (hssa.versioned block hblock i hi name hname) n

/-- One instruction takes what holds before it to what holds after it. -/
theorem Sound.transfer
    (hssa : SsaForm function) (hmasks : SoundMasks masks runs)
    (hblock : block ∈ function.blocks) (hi : i ∈ block.instructions)
    (hunderstood : Understood function runs source i)
    (hsource : ∀ p, source = some p → ∀ label pred,
      IrCfg.ordinal function label = some p → predecessorOut label = some pred →
        Sound function pred entered)
    (h : Sound function state m)
    (hexecutes : Executes function runs source entered i m m') :
    Sound function (transfer predecessorOut masks i state) m' := by
  have hevaluated : ∀ name, name ∈ ssaDefinitions i →
      evaluated i = true → EvaluatedName function (folded name) :=
    fun name hname hkind =>
      ⟨block, hblock, i, hi, hkind, List.mem_map.mpr ⟨name, hname, rfl⟩⟩
  cases hexecutes with
  | @assign destination value word _ hvalue =>
      show Sound function (setOrKill destination value state) _
      rw [setOrKill, slot]
      have hword : ∀ v, GqrConstantPropagation.tryValue value state = some v → word = v :=
        fun v hv => h.tryValue hv hvalue
      cases hkey : gqrKey (folded destination) with
      | some n => exact h.defineGqr hkey hword
      | none =>
          rw [Machine.define_eq_setRegister _ _ hkey]
          exact h.setRegister (fun n _ => hssa.not_gqrName hblock hi (by
              simp [ssaDefinitions, IrInstruction.definitions]) n)
            fun v hv => ⟨hword v hv, hkey,
              hevaluated destination (by
                simp [ssaDefinitions, IrInstruction.definitions]) rfl⟩
  | @binary destination op left right l r word _ hleft hright hword =>
      obtain ⟨hgqr, hemitted⟩ := hunderstood
      have hkey : gqrKey (folded destination) = none :=
        hgqr destination (by simp [IrInstruction.definitions])
      rw [Machine.define_eq_setRegister _ _ hkey]
      refine h.setRegister (fun n hn => ne_gqrName_of_gqrKey hkey hn) fun v hv => ?_
      obtain ⟨l', hl, hv⟩ := Option.bind_eq_some_iff.mp hv
      obtain ⟨r', hr, hv⟩ := Option.bind_eq_some_iff.mp hv
      obtain ⟨f, hf⟩ := Option.isSome_iff_exists.mp
        (hemitted l' r' (by rw [hv]; rfl))
      rw [hword f hf, h.tryValue hl hleft, h.tryValue hr hright]
      exact ⟨(tryBinary_eq hv hf).symm, hkey,
        hevaluated destination (by simp [ssaDefinitions, IrInstruction.definitions])
          rfl⟩
  | @phi destination sources word _ hword =>
      obtain ⟨pair, hpair, p, hp, hlabel⟩ := hunderstood
      have hdestination : destination ∈ ssaDefinitions (.phi destination sources) := by
        simp [ssaDefinitions, IrInstruction.definitions]
      refine h.setRegister (fun n _ => hssa.not_gqrName hblock hi hdestination n)
        fun v hv => ?_
      obtain ⟨pred, hpred, hlookup⟩ := lookup_of_phiValue hv hpair
      have hsound := hsource p hp pair.1 pred hlabel hpred
      have hversions := hssa.phis block hblock _ hi
      simp only [phiSourcesVersioned, List.all_eq_true, Bool.and_eq_true,
        decide_eq_true_eq] at hversions
      obtain ⟨hversioned, hbase⟩ := hversions pair hpair
      refine ⟨?_, ?_, hevaluated destination hdestination rfl⟩
      · rw [hword pair hpair p hp hlabel]
        exact hsound.holds _ v hlookup
      · -- A version of a quantization register has no entry of its own.
        rcases hsound.tracked _ v hlookup with ⟨n, -, heq⟩ | ⟨hnone, -⟩
        · exact absurd heq (ne_gqrName_of_versioned hversioned n)
        · rw [gqrKey, ← hbase]
          exact hnone
  | @guestCall destination target arguments _ _ registers gqr htarget hrun hdefines =>
      simp only [GqrConstantPropagation.transfer, if_pos htarget]
      exact h.guestCall hmasks htarget hrun (hdefines.frame hunderstood.1).1
  | @helperCall destination target arguments _ _ gqr htarget hrun hdefines =>
      have hkept := hunderstood.2 htarget _ _ hrun
      subst hkept
      simp only [GqrConstantPropagation.transfer, htarget, Bool.false_eq_true,
        if_false]
      by_cases hblank : isNullOrWhiteSpace destination = true
      · rw [if_pos hblank]
        refine h.definesAll hunderstood.1 ?_ hdefines
        simp [IrInstruction.definitions, hblank]
      · rw [if_neg hblank]
        refine (h.mono (below_erase _ _)).definesAll hunderstood.1 ?_ hdefines
        intro key value hlookup _ hin
        simp only [IrInstruction.definitions, hblank, Bool.false_eq_true, if_false,
          List.map_cons, List.map_nil, List.mem_singleton] at hin
        rw [hin, AList.lookup_erase] at hlookup
        cases hlookup
  | indirectCall => exact Sound.empty
  | setCrField => exact h
  | other honly hdefines =>
      have hgqr : WritesNoGqr i := by
        cases i <;> first | exact hunderstood | cases honly
      have hfresh : ∀ st : NameMap, ∀ key value, st.lookup key = some value →
          EvaluatedName function key → key ∉ i.definitions.map folded :=
        fun _ _ _ _ hname => hssa.fresh hblock hi honly hname
      have hbelow : Below (GqrConstantPropagation.transfer predecessorOut masks i state)
          state := by
        cases i
        case load => exact below_erase _ _
        all_goals first | exact fun _ _ h => h | cases honly
      exact (h.mono hbelow).definesAll hgqr (hfresh _) hdefines

end Instruction

end Wiicompiled.Translation.GqrConstantPropagation
