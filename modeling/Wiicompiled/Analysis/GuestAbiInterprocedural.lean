import Wiicompiled.Analysis.GuestAbiContractMap
import Wiicompiled.Support.PartialMaps

/-!
# Interprocedural contracts

The contracts of all functions of a program together.  The analyzer starts from
the contracts inferred without any callee, and then works in rounds: every
pending function is analyzed again under the contracts as they stood at the
start of the round, and the callers of those whose contract has changed are
pending in the next round.  It stops after a round that changes nothing.
-/

namespace Wiicompiled.Analysis

open Ir

/-- The functions of a program by address, in ascending order. -/
structure GuestFunctions where
  entries : List (UInt32 × IrFunction)
  ascending : (entries.map Prod.fst).Pairwise (· < ·)

namespace GuestFunctions

variable (functions : GuestFunctions)

def count : ℕ :=
  functions.entries.length

def bodies : List IrFunction :=
  functions.entries.map Prod.snd

def body (ordinal : ℕ) : IrFunction :=
  functions.bodies.getD ordinal ⟨"", "", []⟩

def ordinal (address : UInt32) : Option ℕ :=
  (functions.entries.map Prod.fst).idxOf? address

@[simp]
theorem length_bodies : functions.bodies.length = functions.count :=
  List.length_map _

theorem ordinal_lt {address : UInt32} {g : ℕ}
    (h : functions.ordinal address = some g) : g < functions.count := by
  obtain ⟨hlt, -⟩ := List.idxOf?_eq_some_iff.mp h
  simpa [count] using hlt

theorem getElem_bodies {f : ℕ} (hf : f < functions.bodies.length) :
    functions.bodies[f] = functions.body f := by
  rw [body, List.getD_eq_getElem?_getD, List.getElem?_eq_getElem hf, Option.getD_some]

end GuestFunctions

namespace GuestAbiInterproceduralAnalyzer

open GuestAbiContractAnalyzer (analyze calledAddress analyze_congr analyze_isSome
  sameEffect_of_called)

/-! ## The rounds -/

section Rounds

variable (thunks : GuestSaveRestoreThunks) (functions : GuestFunctions)
  (external : ContractMap)

/-- The contracts that a round sees: those of the functions, and those given for
other addresses. -/
def visible (current : List GuestAbiContract) : ContractMap :=
  fun address =>
    match functions.ordinal address with
    | some ordinal => current[ordinal]?
    | none => external address

def directCallees (body : IrFunction) : List ℕ :=
  body.blocks.flatMap fun block =>
    block.instructions.filterMap fun i =>
      (calledAddress i).bind functions.ordinal

/-- The contracts so far, and the functions to analyze in the next round. -/
structure RoundState where
  current : List GuestAbiContract
  pending : List Bool

/-- The new contract of each pending function, unless it is the old one. -/
def roundResults (s : RoundState) : Option (List (Option GuestAbiContract)) :=
  (List.range functions.count).mapM fun ordinal =>
    if s.pending.getD ordinal false then
      (analyze thunks (visible functions external s.current)
        (functions.body ordinal)).map fun next =>
          if s.current[ordinal]? = some next then none else some next
    else some none

/-- Take over the results, and make the callers of changed functions pending. -/
def nextState (s : RoundState) (results : List (Option GuestAbiContract)) :
    RoundState where
  current := List.zipWith (fun old result => result.getD old) s.current results
  pending := functions.bodies.map fun body =>
    (directCallees functions body).any fun callee =>
      (results.getD callee none).isSome

/-- The round loop, within the given number of rounds; `none` also stands for an
exception in the analysis of a function. -/
def rounds : ℕ → RoundState → Option (List GuestAbiContract)
  | 0, _ => none
  | fuel + 1, s =>
      match roundResults thunks functions external s with
      | none => none
      | some results =>
          if results.all Option.isNone then some s.current
          else rounds fuel (nextState functions s results)

/-- The contracts of all functions, by ordinal. -/
def analyzeAll (fuel : ℕ) : Option (List GuestAbiContract) :=
  match functions.bodies.mapM (analyze thunks fun _ => none) with
  | none => none
  | some current =>
      rounds thunks functions external fuel
        ⟨current, List.replicate functions.count true⟩

/-- Every contract is the one inferred under all of them. -/
def IsFixpoint (contracts : List GuestAbiContract) : Prop :=
  contracts.length = functions.count ∧
    ∀ f, f < functions.count →
      analyze thunks (visible functions external contracts) (functions.body f) =
        contracts[f]?

/-- The round loop stops, and what it returns is a fixpoint. -/
def StopsAtFixpoint : Prop :=
  (∃ fuel contracts, analyzeAll thunks functions external fuel = some contracts) ∧
    ∀ fuel contracts, analyzeAll thunks functions external fuel = some contracts →
      IsFixpoint thunks functions external contracts

end Rounds

/-! ## Contracts by depth -/

section Depth

variable (thunks : GuestSaveRestoreThunks) (functions : GuestFunctions)
  (external : ContractMap)

instance : Inhabited GuestAbiContract :=
  ⟨⟨.empty, .empty, .empty, 0, 0, 0, []⟩⟩

def contractUnder (contracts : ContractMap) (body : IrFunction) :
    GuestAbiContract :=
  (analyze thunks contracts body).getD default

/-- What is known about callees when calls are followed to a given depth. -/
def known : ℕ → ContractMap
  | 0 => fun _ => none
  | depth + 1 => fun address =>
      match functions.ordinal address with
      | some g => some (contractUnder thunks (known depth) (functions.body g))
      | none => external address

/-- The contract of a function with calls followed to a given depth. -/
def level (depth f : ℕ) : GuestAbiContract :=
  contractUnder thunks (known thunks functions external depth) (functions.body f)

/-- Following calls one level deeper changes no contract. -/
def Stable (depth : ℕ) : Prop :=
  ∀ f, f < functions.count →
    level thunks functions external (depth + 1) f =
      level thunks functions external depth f

def DistinctLabels : Prop :=
  ∀ body ∈ functions.bodies, body.DistinctLabels

variable {thunks functions external}

theorem analyze_eq_contractUnder
    {contracts : ContractMap} {body : IrFunction} (h : body.DistinctLabels) :
    analyze thunks contracts body = some (contractUnder thunks contracts body) := by
  obtain ⟨contract, hcontract⟩ := Option.isSome_iff_exists.mp
    (analyze_isSome h : (analyze thunks contracts body).isSome = true)
  rw [contractUnder, hcontract, Option.getD_some]

theorem known_succ (depth : ℕ) (address : UInt32) :
    known thunks functions external (depth + 1) address =
      match functions.ordinal address with
      | some g => some (level thunks functions external depth g)
      | none => external address :=
  rfl

theorem DistinctLabels.body (h : DistinctLabels functions) {f : ℕ}
    (hf : f < functions.count) : (functions.body f).DistinctLabels := by
  rw [← functions.length_bodies] at hf
  rw [← functions.getElem_bodies hf]
  exact h _ (List.getElem_mem hf)

theorem analyze_level
    (hlabels : DistinctLabels functions) (depth : ℕ) {f : ℕ}
    (hf : f < functions.count) :
    analyze thunks (known thunks functions external depth) (functions.body f) =
      some (level thunks functions external depth f) :=
  analyze_eq_contractUnder (hlabels.body hf)

def levels (thunks : GuestSaveRestoreThunks) (functions : GuestFunctions)
    (external : ContractMap) (depth : ℕ) : List GuestAbiContract :=
  (List.range functions.count).map (level thunks functions external depth)

theorem getElem?_levels (depth : ℕ) {f : ℕ} (hf : f < functions.count) :
    (levels thunks functions external depth)[f]? =
      some (level thunks functions external depth f) := by
  simp [levels, hf]

theorem visible_levels (depth : ℕ) :
    visible functions external (levels thunks functions external depth) =
      known thunks functions external (depth + 1) := by
  funext address
  rw [visible, known_succ]
  cases hordinal : functions.ordinal address with
  | none => rfl
  | some g => exact getElem?_levels depth (functions.ordinal_lt hordinal)

theorem directCallees_lt
    {body : IrFunction} {g : ℕ} (h : g ∈ directCallees functions body) :
    g < functions.count := by
  rw [directCallees, List.mem_flatMap] at h
  obtain ⟨block, -, h⟩ := h
  obtain ⟨i, -, h⟩ := List.mem_filterMap.mp h
  obtain ⟨address, -, hordinal⟩ := Option.bind_eq_some_iff.mp h
  exact functions.ordinal_lt hordinal

/-- A function whose callees keep their contracts keeps its own. -/
theorem level_succ_eq
    {depth f : ℕ}
    (h : ∀ g ∈ directCallees functions (functions.body f),
      level thunks functions external (depth + 1) g =
        level thunks functions external depth g) :
    level thunks functions external (depth + 2) f =
      level thunks functions external (depth + 1) f := by
  have hsame : analyze thunks (known thunks functions external (depth + 2))
      (functions.body f) =
      analyze thunks (known thunks functions external (depth + 1))
        (functions.body f) := by
    apply analyze_congr
    intro block hblock i hi
    apply sameEffect_of_called
    intro address haddress
    rw [known_succ, known_succ]
    cases hordinal : functions.ordinal address with
    | none => rfl
    | some g =>
        have hcallee : g ∈ directCallees functions (functions.body f) := by
          rw [directCallees, List.mem_flatMap]
          refine ⟨block, hblock, List.mem_filterMap.mpr ⟨i, hi, ?_⟩⟩
          rw [haddress]
          exact hordinal
        simp only [h g hcallee]
  rw [level, level, contractUnder, contractUnder, hsame]

theorem Stable.succ {depth : ℕ} (h : Stable thunks functions external depth) :
    Stable thunks functions external (depth + 1) := by
  intro f hf
  exact level_succ_eq fun g hg => h g (directCallees_lt hg)

end Depth

/-! ## What the rounds compute -/

section Correctness

variable {thunks : GuestSaveRestoreThunks} {functions : GuestFunctions}
  {external : ContractMap}

theorem mapM_eq_some
    {α β : Type} {f : α → Option β} {g : α → β} {l : List α}
    (h : ∀ a ∈ l, f a = some (g a)) : l.mapM f = some (l.map g) := by
  induction l with
  | nil => rfl
  | cons a l ih =>
      have htail := ih fun b hb => h b (List.mem_cons_of_mem _ hb)
      rw [List.mapM_cons, h a List.mem_cons_self, htail]
      rfl

/-- The state at the start of a round: the contracts of one depth, with every
function pending whose contract the round changes. -/
structure AtRound (thunks : GuestSaveRestoreThunks) (functions : GuestFunctions)
    (external : ContractMap) (depth : ℕ) (s : RoundState) : Prop where
  current : s.current = levels thunks functions external depth
  pending : ∀ f, f < functions.count → s.pending.getD f false = false →
    level thunks functions external (depth + 1) f =
      level thunks functions external depth f

/-- The results of the round at a depth. -/
def changes (thunks : GuestSaveRestoreThunks) (functions : GuestFunctions)
    (external : ContractMap) (depth : ℕ) : List (Option GuestAbiContract) :=
  (List.range functions.count).map fun f =>
    if level thunks functions external (depth + 1) f =
        level thunks functions external depth f then none
    else some (level thunks functions external (depth + 1) f)

theorem getD_changes {depth f : ℕ} (hf : f < functions.count) :
    (changes thunks functions external depth).getD f none =
      if level thunks functions external (depth + 1) f =
          level thunks functions external depth f then none
      else some (level thunks functions external (depth + 1) f) := by
  simp [changes, hf]

theorem roundResults_eq
    (hlabels : DistinctLabels functions) {depth : ℕ} {s : RoundState}
    (h : AtRound thunks functions external depth s) :
    roundResults thunks functions external s =
      some (changes thunks functions external depth) := by
  apply mapM_eq_some
  intro f hf
  rw [List.mem_range] at hf
  by_cases hpending : s.pending.getD f false = true
  · rw [if_pos hpending, h.current, visible_levels, analyze_level hlabels _ hf,
      getElem?_levels depth hf, Option.map_some]
    simp only [Option.some.injEq, eq_comm]
  · rw [if_neg hpending, if_pos (h.pending f hf (Bool.eq_false_iff.mpr hpending))]

theorem all_changes_isNone {depth : ℕ} :
    (changes thunks functions external depth).all Option.isNone = true ↔
      Stable thunks functions external depth := by
  rw [changes, List.all_map, List.all_eq_true]
  constructor
  · intro h f hf
    by_contra hne
    have hnone := h f (List.mem_range.mpr hf)
    simp [hne] at hnone
  · intro h f hf
    simp [h f (List.mem_range.mp hf)]

theorem AtRound.next
    {depth : ℕ} {s : RoundState} (h : AtRound thunks functions external depth s) :
    AtRound thunks functions external (depth + 1)
      (nextState functions s (changes thunks functions external depth)) := by
  constructor
  · rw [nextState, h.current, levels, levels, changes, List.zipWith_map,
      List.zipWith_self]
    apply List.map_congr_left
    intro f _
    split
    · rename_i hsame
      exact hsame.symm
    · rfl
  · intro f hf hpending
    apply level_succ_eq
    intro g hg
    have hlt := directCallees_lt hg
    have hbody : functions.bodies[f]? = some (functions.body f) := by
      rw [List.getElem?_eq_getElem (by rwa [functions.length_bodies]),
        functions.getElem_bodies]
    rw [nextState, List.getD_eq_getElem?_getD, List.getElem?_map, hbody,
      Option.map_some, Option.getD_some, List.any_eq_false] at hpending
    have hnone := hpending g hg
    rw [getD_changes hlt] at hnone
    by_contra hne
    simp [hne] at hnone

theorem rounds_of_stable
    (hlabels : DistinctLabels functions) {depth : ℕ} {s : RoundState}
    (h : AtRound thunks functions external depth s)
    (hstable : Stable thunks functions external depth) (fuel : ℕ) :
    rounds thunks functions external (fuel + 1) s = some s.current := by
  rw [rounds, roundResults_eq hlabels h]
  exact if_pos (all_changes_isNone.mpr hstable)

theorem rounds_of_not_stable
    (hlabels : DistinctLabels functions) {depth : ℕ} {s : RoundState}
    (h : AtRound thunks functions external depth s)
    (hstable : ¬Stable thunks functions external depth) (fuel : ℕ) :
    rounds thunks functions external (fuel + 1) s =
      rounds thunks functions external fuel
        (nextState functions s (changes thunks functions external depth)) := by
  rw [rounds, roundResults_eq hlabels h]
  exact if_neg fun hall => hstable (all_changes_isNone.mp hall)

/-- The loop returns the contracts of the first stable depth it comes to. -/
theorem rounds_eq_some
    (hlabels : DistinctLabels functions) {fuel : ℕ} :
    ∀ {depth : ℕ} {s : RoundState} {contracts : List GuestAbiContract},
      AtRound thunks functions external depth s →
        rounds thunks functions external fuel s = some contracts →
          ∃ d, Stable thunks functions external d ∧
            contracts = levels thunks functions external d := by
  induction fuel with
  | zero =>
      intro depth s contracts _ h
      cases h
  | succ fuel ih =>
      intro depth s contracts hs h
      by_cases hstable : Stable thunks functions external depth
      · rw [rounds_of_stable hlabels hs hstable] at h
        cases h
        exact ⟨depth, hstable, hs.current⟩
      · rw [rounds_of_not_stable hlabels hs hstable] at h
        exact ih hs.next h

/-- The loop reaches every stable depth, unless it stops before. -/
theorem rounds_isSome
    (hlabels : DistinctLabels functions) {d : ℕ}
    (hstable : Stable thunks functions external d) (distance : ℕ) :
    ∀ {depth : ℕ} {s : RoundState}, depth + distance = d →
      AtRound thunks functions external depth s →
        ∃ contracts, rounds thunks functions external (distance + 1) s =
          some contracts := by
  induction distance with
  | zero =>
      intro depth s hd hs
      have hdepth : depth = d := hd
      subst hdepth
      exact ⟨s.current, rounds_of_stable hlabels hs hstable 0⟩
  | succ distance ih =>
      intro depth s hd hs
      by_cases hnow : Stable thunks functions external depth
      · exact ⟨s.current, rounds_of_stable hlabels hs hnow _⟩
      · rw [rounds_of_not_stable hlabels hs hnow]
        exact ih (by omega) hs.next

theorem atRound_start :
    AtRound thunks functions external 0
      ⟨levels thunks functions external 0, List.replicate functions.count true⟩ := by
  constructor
  · rfl
  · intro f hf hpending
    simp [hf] at hpending

theorem initial_eq (hlabels : DistinctLabels functions) :
    functions.bodies.mapM (analyze thunks fun _ => none) =
      some (levels thunks functions external 0) := by
  rw [mapM_eq_some fun body hbody => analyze_eq_contractUnder (hlabels body hbody)]
  congr 1
  apply List.ext_getElem
  · simp [levels]
  · intro f hf hf'
    simp only [List.getElem_map, levels, List.getElem_range, level, known]
    rw [functions.getElem_bodies]

theorem stable_isFixpoint
    (hlabels : DistinctLabels functions) {d : ℕ}
    (hstable : Stable thunks functions external d) :
    IsFixpoint thunks functions external (levels thunks functions external d) := by
  constructor
  · simp [levels]
  · intro f hf
    rw [visible_levels, analyze_level hlabels _ hf, getElem?_levels d hf,
      hstable f hf]

/-- The analysis stops at a fixpoint exactly when no label is duplicate and some
depth is stable. -/
theorem stopsAtFixpoint_iff_stable :
    StopsAtFixpoint thunks functions external ↔
      DistinctLabels functions ∧ ∃ d, Stable thunks functions external d := by
  constructor
  · rintro ⟨⟨fuel, contracts, h⟩, -⟩
    have hlabels : DistinctLabels functions := by
      intro body hbody
      rw [analyzeAll] at h
      split at h
      · cases h
      · rename_i hinitial
        obtain ⟨contract, -, hcontract⟩ := PartialMaps.exists_of_mem_mapM hinitial hbody
        exact (GuestAbiContractAnalyzer.analyze_eq_some hcontract).1
    rw [analyzeAll, initial_eq hlabels] at h
    obtain ⟨d, hstable, -⟩ := rounds_eq_some hlabels atRound_start h
    exact ⟨hlabels, d, hstable⟩
  · rintro ⟨hlabels, d, hstable⟩
    constructor
    · obtain ⟨contracts, h⟩ :=
        rounds_isSome hlabels hstable d (Nat.zero_add d) atRound_start
      refine ⟨d + 1, contracts, ?_⟩
      rw [analyzeAll, initial_eq hlabels]
      exact h
    · intro fuel contracts h
      rw [analyzeAll, initial_eq hlabels] at h
      obtain ⟨e, hstable', rfl⟩ := rounds_eq_some hlabels atRound_start h
      exact stable_isFixpoint hlabels hstable'

end Correctness

end GuestAbiInterproceduralAnalyzer

end Wiicompiled.Analysis
