import Mathlib.Order.Filter.AtTopBot.Basic
import Mathlib.Order.Filter.Finite
import Wiicompiled.Analysis.GuestAbiInterprocedural

/-!
# When the rounds end

The definite writes, the possible writes and the flags of the contracts only
grow from round to round, so they become constant.  The reads need not: a read
that disappears when the definite writes of a callee become known goes on
through chains of calls, and a cycle of calls can pass it round for ever.  The
rounds end exactly when the chains of calls to a read eventually exist for every
length or for none.
-/

namespace Wiicompiled.Analysis.GuestAbiInterproceduralAnalyzer

open Ir GuestStateMask Filter
open GuestAbiContractAnalyzer (analyze calledAddress callReads callWrites
  definiteFacts definiteWrites definiteWrites_mono exitWrites instructionFlags
  possibleWrites reads sameEffect_of_called thunkWrites writes SameEffect Unwritten)

/-! ## Sequences that become constant -/

/-- A property of numbers that eventually always or eventually never holds. -/
def Settles (p : ℕ → Prop) : Prop :=
  (∀ᶠ n in atTop, p n) ∨ ∀ᶠ n in atTop, ¬p n

theorem Settles.of_growing {p : ℕ → Prop} (h : ∀ n, p n → p (n + 1)) : Settles p := by
  by_cases hsome : ∃ n, p n
  · obtain ⟨n, hn⟩ := hsome
    left
    filter_upwards [eventually_ge_atTop n] with m hm
    exact Nat.le_induction hn (fun k _ hk => h k hk) m hm
  · right
    exact Eventually.of_forall fun n hn => hsome ⟨n, hn⟩

theorem Settles.eventually_succ_iff {p : ℕ → Prop} (h : Settles p) :
    ∀ᶠ n in atTop, (p (n + 1) ↔ p n) := by
  rcases h with h | h
  · filter_upwards [h, (tendsto_add_atTop_nat 1).eventually h] with n hn hsucc
    exact iff_of_true hsucc hn
  · filter_upwards [h, (tendsto_add_atTop_nat 1).eventually h] with n hn hsucc
    exact iff_of_false hsucc hn

/-! ## Growing contracts -/

/-- The parts of contracts that grow. -/
structure ContractLe (a b : GuestAbiContract) : Prop where
  definite : a.definiteWrites ≤ b.definiteWrites
  possible : a.possibleWrites ≤ b.possibleWrites
  flags : ∀ k, a.boundaryFlags.getLsbD k = true → b.boundaryFlags.getLsbD k = true

/-- A contract map knows more about an address than another.  A save or restore
thunk without a contract is known by its register window. -/
def KnowsMore (thunks : GuestSaveRestoreThunks) (contracts contracts' : ContractMap)
    (address : UInt32) : Prop :=
  match contracts address, contracts' address with
  | some a, some b => ContractLe a b
  | none, some _ => tryGetInlineThunk thunks address = none
  | none, none => True
  | some _, none => False

section Growth

variable {thunks : GuestSaveRestoreThunks} {contracts contracts' : ContractMap}
  {i : IrInstruction}

theorem thunkWrites_eq_empty
    {address : UInt32} (h : tryGetInlineThunk thunks address = none) :
    thunkWrites thunks address = empty := by
  rw [thunkWrites, h]

/-- More knowledge of the callee gives an instruction more writes and flags. -/
theorem instruction_le
    (h : ∀ address, calledAddress i = some address →
      KnowsMore thunks contracts contracts' address) :
    definiteWrites thunks contracts i ≤ definiteWrites thunks contracts' i ∧
      possibleWrites thunks contracts i ≤ possibleWrites thunks contracts' i ∧
      ∀ k, (instructionFlags contracts i).getLsbD k = true →
        (instructionFlags contracts' i).getLsbD k = true := by
  cases i
  case call destination target arguments =>
    cases haddress : tryParseAddress target with
    | none =>
        simp only [definiteWrites, possibleWrites, writes, callWrites,
          instructionFlags, haddress]
        exact ⟨le_rfl, le_rfl, fun _ hk => hk⟩
    | some address =>
        have hmore := h address haddress
        rw [KnowsMore] at hmore
        simp only [definiteWrites, possibleWrites, writes, callWrites,
          instructionFlags, haddress]
        cases hold : contracts address with
        | none =>
            cases hnew : contracts' address with
            | none => exact ⟨le_rfl, le_rfl, fun _ hk => hk⟩
            | some b =>
                rw [hold, hnew] at hmore
                have hempty := thunkWrites_eq_empty hmore
                simp only [hempty]
                refine ⟨union_mono le_rfl (empty_le _), union_mono le_rfl (empty_le _), ?_⟩
                intro k hk
                simp at hk
        | some a =>
            cases hnew : contracts' address with
            | none =>
                rw [hold, hnew] at hmore
                exact hmore.elim
            | some b =>
                rw [hold, hnew] at hmore
                exact ⟨union_mono le_rfl hmore.definite,
                  union_mono le_rfl hmore.possible, hmore.flags⟩
  all_goals exact ⟨le_rfl, le_rfl, fun _ hk => hk⟩

theorem contract_le
    {body : IrFunction} {contract contract' : GuestAbiContract}
    (h : ∀ block ∈ body.blocks, ∀ i ∈ block.instructions, ∀ address,
      calledAddress i = some address → KnowsMore thunks contracts contracts' address)
    (hcontract : analyze thunks contracts body = some contract)
    (hcontract' : analyze thunks contracts' body = some contract') :
    ContractLe contract contract' := by
  constructor
  · exact definiteWrites_mono
      (fun block hblock i hi => (instruction_le (h block hblock i hi)).1)
      hcontract hcontract'
  · intro r hr
    rw [GuestAbiContractAnalyzer.possibleWrites_iff hcontract] at hr
    rw [GuestAbiContractAnalyzer.possibleWrites_iff hcontract']
    obtain ⟨block, hblock, i, hi, hr⟩ := hr
    exact ⟨block, hblock, i, hi, (instruction_le (h block hblock i hi)).2.1 r hr⟩
  · intro k hk
    rw [GuestAbiContractAnalyzer.boundaryFlags_iff hcontract] at hk
    rw [GuestAbiContractAnalyzer.boundaryFlags_iff hcontract']
    obtain ⟨block, hblock, i, hi, hk⟩ := hk
    exact ⟨block, hblock, i, hi, (instruction_le (h block hblock i hi)).2.2 k hk⟩

end Growth

section Depth

variable {thunks : GuestSaveRestoreThunks} {functions : GuestFunctions}
  {external : ContractMap}

def NoThunkContracts (thunks : GuestSaveRestoreThunks) (functions : GuestFunctions)
    (external : ContractMap) : Prop :=
  ∀ body ∈ functions.bodies, ∀ block ∈ body.blocks, ∀ i ∈ block.instructions,
    ∀ address, calledAddress i = some address →
      (functions.ordinal address).isSome ∨ (external address).isSome →
        tryGetInlineThunk thunks address = none

theorem body_mem {f : ℕ} (hf : f < functions.count) :
    functions.body f ∈ functions.bodies := by
  rw [← functions.length_bodies] at hf
  rw [← functions.getElem_bodies hf]
  exact List.getElem_mem hf

theorem level_le
    (hthunks : NoThunkContracts thunks functions external)
    (hlabels : DistinctLabels functions) (depth : ℕ) :
    ∀ f, f < functions.count →
      ContractLe (level thunks functions external depth f)
        (level thunks functions external (depth + 1) f) := by
  induction depth with
  | zero =>
      intro f hf
      refine contract_le ?_ (analyze_level hlabels 0 hf) (analyze_level hlabels 1 hf)
      intro block hblock i hi address haddress
      have hthunk := hthunks _ (body_mem hf) block hblock i hi address haddress
      rw [KnowsMore, known_succ]
      cases hordinal : functions.ordinal address with
      | some g => exact hthunk (Or.inl (by rw [hordinal]; rfl))
      | none =>
          cases hexternal : external address with
          | none => trivial
          | some contract => exact hthunk (Or.inr (by rw [hexternal]; rfl))
  | succ depth ih =>
      intro f hf
      refine contract_le ?_ (analyze_level hlabels (depth + 1) hf)
        (analyze_level hlabels (depth + 2) hf)
      intro block hblock i hi address haddress
      rw [KnowsMore, known_succ, known_succ]
      cases hordinal : functions.ordinal address with
      | some g => exact ih g (functions.ordinal_lt hordinal)
      | none =>
          cases hexternal : external address with
          | none => trivial
          | some contract => exact ⟨le_rfl, le_rfl, fun _ hk => hk⟩

/-! ## Chains of calls to a read -/

section Chains

variable (thunks : GuestSaveRestoreThunks) (functions : GuestFunctions)
  (external : ContractMap)

def definiteWritesUnder (contracts : ContractMap) (body : IrFunction) :
    GuestStateMask :=
  match definiteFacts thunks contracts body (184 * body.blocks.length + 1) with
  | some facts => exitWrites body facts
  | none => empty

/-- What callees surely write when calls are followed to a given depth. -/
def surelyWritten : ℕ → ContractMap
  | 0 => fun _ => none
  | depth + 1 => fun address =>
      match functions.ordinal address with
      | some g => some { (default : GuestAbiContract) with
          definiteWrites :=
            definiteWritesUnder thunks (surelyWritten depth) (functions.body g) }
      | none => external address

/-- A chain of calls of a given length from a function to a read of a register,
which at every link need not be written yet.  A chain may end early, at a read
of its own or of a callee outside the program; the callee at its full length is
unknown. -/
def ReadChain (r : Reg) : ℕ → ℕ → Prop
  | 0, f => ∃ i, Unwritten thunks (fun _ => none) (functions.body f) r i ∧
      (reads thunks (fun _ => none) i).has r = true
  | length + 1, f => ∃ i,
      Unwritten thunks (surelyWritten thunks functions external (length + 1))
        (functions.body f) r i ∧
      match (calledAddress i).bind functions.ordinal with
      | some g => ReadChain r length g
      | none => (reads thunks external i).has r = true

end Chains

theorem definiteWrites_congr
    {contracts contracts' : ContractMap}
    (h : ∀ address, (contracts address).map GuestAbiContract.definiteWrites =
      (contracts' address).map GuestAbiContract.definiteWrites)
    (i : IrInstruction) :
    definiteWrites thunks contracts i = definiteWrites thunks contracts' i := by
  cases i
  case call destination target arguments =>
    cases haddress : tryParseAddress target with
    | none => simp only [definiteWrites, writes, callWrites, haddress]
    | some address =>
        have hsame := h address
        simp only [definiteWrites, writes, callWrites, haddress]
        cases hold : contracts address with
        | none =>
            rw [hold, Option.map_none, eq_comm, Option.map_eq_none_iff] at hsame
            rw [hsame]
        | some a =>
            rw [hold, Option.map_some, eq_comm, Option.map_eq_some_iff] at hsame
            obtain ⟨b, hnew, hdefinite⟩ := hsame
            rw [hnew]
            simp only [hdefinite]
  all_goals rfl

theorem surelyWritten_succ (depth : ℕ) (address : UInt32) :
    surelyWritten thunks functions external (depth + 1) address =
      match functions.ordinal address with
      | some g => some { (default : GuestAbiContract) with
          definiteWrites := definiteWritesUnder thunks
            (surelyWritten thunks functions external depth) (functions.body g) }
      | none => external address :=
  rfl

theorem definiteWritesUnder_eq
    {contracts : ContractMap} {body : IrFunction} {contract : GuestAbiContract}
    (h : analyze thunks contracts body = some contract) :
    definiteWritesUnder thunks contracts body = contract.definiteWrites := by
  obtain ⟨-, facts, hfacts, -, rfl⟩ := GuestAbiContractAnalyzer.analyze_eq_some h
  rw [definiteWritesUnder, hfacts]
  rfl

theorem surelyWritten_eq_known (hlabels : DistinctLabels functions) (depth : ℕ) :
    ∀ i, definiteWrites thunks (surelyWritten thunks functions external depth) i =
      definiteWrites thunks (known thunks functions external depth) i := by
  induction depth with
  | zero => exact fun _ => rfl
  | succ depth ih =>
      apply definiteWrites_congr
      intro address
      rw [surelyWritten_succ, known_succ]
      cases hordinal : functions.ordinal address with
      | none => rfl
      | some g =>
          have hfacts : definiteWritesUnder thunks
              (surelyWritten thunks functions external depth) (functions.body g) =
              definiteWritesUnder thunks (known thunks functions external depth)
                (functions.body g) := by
            rw [definiteWritesUnder, definiteWritesUnder,
              GuestAbiContractAnalyzer.definiteFacts_congr fun _ _ i _ => ih i]
          have hlevel := definiteWritesUnder_eq
            (analyze_level hlabels depth (functions.ordinal_lt hordinal) :
              analyze thunks (known thunks functions external depth) _ = _)
          rw [Option.map_some, Option.map_some, hfacts, hlevel]

theorem reads_of_contract
    {contracts : ContractMap} {i : IrInstruction} {address : UInt32}
    {contract : GuestAbiContract} (haddress : calledAddress i = some address)
    (hcontract : contracts address = some contract) :
    reads thunks contracts i = contract.readBeforeWrite := by
  cases i
  case call destination target arguments =>
    have htarget : tryParseAddress target = some address := haddress
    simp only [reads, callReads, htarget, hcontract]
  all_goals cases haddress

theorem link_reads_iff
    {r : Reg} {depth : ℕ}
    (h : ∀ g, g < functions.count →
      (ReadChain thunks functions external r depth g ↔
        (level thunks functions external depth g).readBeforeWrite.has r = true))
    (i : IrInstruction) :
    (match (calledAddress i).bind functions.ordinal with
      | some g => ReadChain thunks functions external r depth g
      | none => (reads thunks external i).has r = true) ↔
      (reads thunks (known thunks functions external (depth + 1)) i).has r = true := by
  cases hlink : (calledAddress i).bind functions.ordinal with
  | none =>
      have hsame : SameEffect thunks external
          (known thunks functions external (depth + 1)) i := by
        apply sameEffect_of_called
        intro address haddress
        rw [haddress, Option.bind_some] at hlink
        rw [known_succ, hlink]
      rw [← hsame.reads]
  | some g =>
      obtain ⟨address, haddress, hordinal⟩ := Option.bind_eq_some_iff.mp hlink
      have hknown : known thunks functions external (depth + 1) address =
          some (level thunks functions external depth g) := by
        rw [known_succ, hordinal]
      rw [reads_of_contract haddress hknown]
      exact h g (functions.ordinal_lt hordinal)

theorem readChain_iff
    (hlabels : DistinctLabels functions) (r : Reg) (depth : ℕ) :
    ∀ f, f < functions.count →
      (ReadChain thunks functions external r depth f ↔
        (level thunks functions external depth f).readBeforeWrite.has r = true) := by
  induction depth with
  | zero =>
      intro f hf
      rw [GuestAbiContractAnalyzer.readBeforeWrite_iff (analyze_level hlabels 0 hf)]
      rfl
  | succ depth ih =>
      intro f hf
      have hsame : ∀ i, definiteWrites thunks
          (surelyWritten thunks functions external (depth + 1)) i =
          definiteWrites thunks (known thunks functions external (depth + 1)) i :=
        surelyWritten_eq_known hlabels (depth + 1)
      rw [GuestAbiContractAnalyzer.readBeforeWrite_iff
        (analyze_level hlabels (depth + 1) hf), ReadChain]
      constructor
      · rintro ⟨i, hunwritten, hread⟩
        exact ⟨i, hunwritten.congr fun _ _ j _ => hsame j, (link_reads_iff ih i).mp hread⟩
      · rintro ⟨i, hunwritten, hread⟩
        exact ⟨i, hunwritten.congr fun _ _ j _ => (hsame j).symm, (link_reads_iff ih i).mpr hread⟩

theorem Stable.level_eq
    {depth : ℕ} (h : Stable thunks functions external depth) {n : ℕ} (hn : depth ≤ n) :
    ∀ f, f < functions.count →
      level thunks functions external n f = level thunks functions external depth f := by
  have hstable : ∀ m, depth ≤ m → Stable thunks functions external m :=
    fun m hm => Nat.le_induction h (fun _ _ hk => hk.succ) m hm
  induction n, hn using Nat.le_induction with
  | base => exact fun _ _ => rfl
  | succ n hn ih =>
      intro f hf
      rw [hstable n hn f hf, ih f hf]

/-- The contracts of a function become constant when its reads do. -/
theorem eventually_level_succ_eq
    (hthunks : NoThunkContracts thunks functions external)
    (hlabels : DistinctLabels functions) {f : ℕ} (hf : f < functions.count)
    (hreads : ∀ r, Settles fun n =>
      (level thunks functions external n f).readBeforeWrite.has r = true) :
    ∀ᶠ n in atTop, level thunks functions external (n + 1) f =
      level thunks functions external n f := by
  have hgrow := fun n => level_le hthunks hlabels n f hf
  have hread := eventually_all.mpr fun r => (hreads r).eventually_succ_iff
  have hpossible := eventually_all.mpr fun r : Reg =>
    (Settles.of_growing fun n => (hgrow n).possible r).eventually_succ_iff
  have hdefinite := eventually_all.mpr fun r : Reg =>
    (Settles.of_growing fun n => (hgrow n).definite r).eventually_succ_iff
  have hflags := eventually_all.mpr fun k : Fin 4 =>
    (Settles.of_growing fun n => (hgrow n).flags k).eventually_succ_iff
  filter_upwards [hread, hpossible, hdefinite, hflags] with n hr hp hd hk
  refine GuestAbiContractAnalyzer.contract_ext (analyze_level hlabels (n + 1) hf)
    (analyze_level hlabels n hf) ?_ ?_ ?_ ?_
  · ext r
    exact Bool.eq_iff_iff.mpr (hr r)
  · ext r
    exact Bool.eq_iff_iff.mpr (hp r)
  · ext r
    exact Bool.eq_iff_iff.mpr (hd r)
  · apply BitVec.eq_of_getLsbD_eq
    intro k hlt
    exact Bool.eq_iff_iff.mpr (hk ⟨k, hlt⟩)

end Depth


/-! ## A read that is passed round -/

/-- A function that calls a second function and a third one and then reads
`r11`; the second calls the first, and the third writes `r11`. -/
def relayFunctions : GuestFunctions where
  entries :=
    [(0x80001000, ⟨"func_80001000", "entry",
        [⟨"entry", [.call "" "0x80002000" [], .call "" "0x80003000" [],
          .assign "r5" (.register "r11"), .ret none]⟩]⟩),
      (0x80002000, ⟨"func_80002000", "entry",
        [⟨"entry", [.call "" "0x80001000" [], .ret none]⟩]⟩),
      (0x80003000, ⟨"func_80003000", "entry",
        [⟨"entry", [.assign "r11" (.imm 0), .ret none]⟩]⟩)]
  ascending := by decide

/-- The contracts of `relayFunctions` with given reads of the first two. -/
def relayContracts (first second : GuestStateMask) : List GuestAbiContract :=
  let writes : GuestStateMask := { empty with gpr := 0x820 }
  [⟨first, writes, writes, 0, 0, 0, [0x80002000, 0x80003000]⟩,
    ⟨second, writes, writes, 0, 0, 0, [0x80001000]⟩,
    ⟨empty, ofReg (.gpr 11), ofReg (.gpr 11), 0, 0, 0, []⟩]

theorem levels_succ
    {thunks : GuestSaveRestoreThunks} {functions : GuestFunctions}
    {external : ContractMap} {contracts : List GuestAbiContract} {depth : ℕ}
    (h : levels thunks functions external depth = contracts) :
    levels thunks functions external (depth + 1) =
      (List.range functions.count).map fun f =>
        contractUnder thunks (visible functions external contracts)
          (functions.body f) := by
  rw [← h, visible_levels]
  rfl

theorem relay_levels (n : ℕ) :
    levels .none relayFunctions (fun _ => none) (2 * n + 2) =
        relayContracts (ofReg (.gpr 11)) empty ∧
      levels .none relayFunctions (fun _ => none) (2 * n + 3) =
        relayContracts empty (ofReg (.gpr 11)) := by
  have hodd : ∀ depth, levels .none relayFunctions (fun _ => none) depth =
        relayContracts (ofReg (.gpr 11)) empty →
      levels .none relayFunctions (fun _ => none) (depth + 1) =
        relayContracts empty (ofReg (.gpr 11)) := by
    intro depth h
    rw [levels_succ h]
    decide
  have heven : ∀ depth, levels .none relayFunctions (fun _ => none) depth =
        relayContracts empty (ofReg (.gpr 11)) →
      levels .none relayFunctions (fun _ => none) (depth + 1) =
        relayContracts (ofReg (.gpr 11)) empty := by
    intro depth h
    rw [levels_succ h]
    decide
  induction n with
  | zero =>
      have htwo : levels .none relayFunctions (fun _ => none) 2 =
          relayContracts (ofReg (.gpr 11)) empty := by
        decide
      exact ⟨htwo, hodd 2 htwo⟩
  | succ n ih =>
      have hnext := heven _ ih.2
      exact ⟨hnext, hodd _ hnext⟩

end Wiicompiled.Analysis.GuestAbiInterproceduralAnalyzer
