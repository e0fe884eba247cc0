import Wiicompiled.Translation.GqrCompactFlow
import Wiicompiled.Translation.GqrConstantSoundness

/-!
# Summaries and full analysis

The evaluation of a summary and the constant propagation over the function itself go
through the same states, up to the numbers for the names, as long as only assignments
give a quantization register a constant.  The state at a direct call then holds the
same eight constants.
-/

namespace Wiicompiled.Translation.GqrInterproceduralAnalysis

open Ir GqrConstantPropagation GqrFunctionSummary

/-! ## The full analysis at direct calls -/

/-- Entry constants as the full analysis takes them. -/
def entryMap (entry : ℕ → Option UInt32) : NameMap :=
  registerMap gqrName entry

/-- The constants of the full state before the direct calls of a block. -/
def fullSiteConstants (masks : WriteMasks) (known : UInt32 → Bool) :
    List IrInstruction → NameMap → List (UInt32 × (Fin 8 → Option UInt32))
  | [], _ => []
  | i :: rest, state =>
      let later := fullSiteConstants masks known rest
        (transfer (fun _ => none) masks i state)
      match i with
      | .call _ target _ =>
          match (if isGuestCall target then tryParseAddressOrDecimal target else none) with
          | some address =>
              if known address then
                (address, fun n => state.lookup (gqrName n)) :: later
              else later
          | none => later
      | _ => later

/-- The direct calls of a function with the constants that the full analysis has just
before them. -/
def directCallConstants (function : IrFunction) (entry : ℕ → Option UInt32)
    (masks : WriteMasks) (known : UInt32 → Bool) :
    Option (List (UInt32 × (Fin 8 → Option UInt32))) :=
  (GqrConstantPropagation.analyze function (entryMap entry) masks).map fun flow =>
    (flow.zipWith
      (fun input block => fullSiteConstants masks known block.instructions input)
      function.blocks).flatten

/-- A version of a quantization register, under a name other than its plain one. -/
def isGqrVersion (name : List Char) : Bool :=
  (gqrKey name).isSome && (plainGqr name).isNone

/-- An instruction that gives no version of a quantization register a constant, except
by assignment: it is no binary operation on one, and a phi of one has a source that is
a version. -/
def keepsPlain : IrInstruction → Bool
  | .binary destination _ _ _ => !isGqrVersion (folded destination)
  | .phi destination sources =>
      !isGqrVersion (folded destination) || sources.entries.isEmpty ||
        sources.entries.any fun source => isGqrVersion (folded source.2)
  | _ => true

/-! ## Representation -/

structure Represents (names : List (List Char)) (state : NameMap) (compact : SlotMap) :
    Prop where
  lookup : ∀ name, Numbered names name →
    compact.lookup (exactVariable names name) = state.lookup name
  numbered : ∀ name, (state.lookup name).isSome → Numbered names name
  key : ∀ k, (compact.lookup k).isSome →
    ∃ name, Numbered names name ∧ exactVariable names name = k
  plain : ∀ name, (state.lookup name).isSome → isGqrVersion name = false

section Represents

variable {names : List (List Char)} {state state' : NameMap} {compact compact' : SlotMap}
  {name : List Char}

theorem isGqrVersion_gqrName {n : ℕ} (h : n < 8) : isGqrVersion (gqrName n) = false := by
  simp [isGqrVersion, plainGqr_gqrName h]

theorem numbered_gqrName {n : ℕ} (h : n < 8) : Numbered names (gqrName n) :=
  .inl (by simp [plainGqr_gqrName h])

theorem exactVariable_gqrName {n : ℕ} (h : n < 8) :
    exactVariable names (gqrName n) = n := by
  rw [exactVariable, plainGqr_gqrName h]

theorem exactVariable_lt {n : ℕ} (h : exactVariable names name = n) (hn : n < 8) :
    name = gqrName n := by
  unfold exactVariable at h
  rcases hplain : plainGqr name with _ | k <;> simp only [hplain] at h
  · omega
  · rw [← h]
    exact (plainGqr_eq_some hplain).1

theorem eq_gqrName_of_key {n : ℕ} (hkey : gqrKey name = some n)
    (hversion : isGqrVersion name = false) : name = gqrName n := by
  simp only [isGqrVersion, hkey, Option.isSome_some, Bool.true_and,
    Option.isNone_eq_false_iff, Option.isSome_iff_exists] at hversion
  obtain ⟨k, hk⟩ := hversion
  obtain ⟨hname, hlt⟩ := plainGqr_eq_some hk
  rw [hname, gqrKey_gqrName hlt] at hkey
  rw [hname, Option.some.inj hkey]

theorem represents_empty : Represents names ∅ ∅ :=
  ⟨fun _ _ => rfl, fun _ h => absurd h (by simp), fun _ h => absurd h (by simp),
    fun _ h => absurd h (by simp)⟩

theorem Represents.congr (h : Represents names state compact)
    (hstate : ∀ name, state'.lookup name = state.lookup name)
    (hcompact : ∀ k, compact'.lookup k = compact.lookup k) :
    Represents names state' compact' := by
  constructor
  · intro name hname
    rw [hstate, hcompact, h.lookup name hname]
  · intro name hname
    exact h.numbered name (by rwa [← hstate])
  · intro k hk
    exact h.key k (by rwa [← hcompact])
  · intro name hname
    exact h.plain name (by rwa [← hstate])

theorem Represents.ite (h : Represents names state compact)
    (h' : Represents names state' compact') (b : Bool) :
    Represents names (if b then state else state') (if b then compact else compact') := by
  cases b with
  | true => exact h
  | false => exact h'

theorem lookup_slotMap {values : ℕ → Option UInt32} {n : ℕ} (h : n < 8) :
    (slotMap values).lookup n = values n := by
  rw [slotMap]
  exact lookup_registerMap (fun _ _ _ _ h => h) h

theorem lookup_slotMap_of_ge {values : ℕ → Option UInt32} {n : ℕ} (h : ¬n < 8) :
    (slotMap values).lookup n = none :=
  lookup_registerMap_of_ne (by simp; omega)

theorem represents_registerMap (values : ℕ → Option UInt32) :
    Represents names (registerMap gqrName values) (slotMap values) := by
  have hfull : ∀ n < 8, (registerMap gqrName values).lookup (gqrName n) = values n :=
    fun n hn => lookup_registerMap (fun _ _ _ _ h => gqrName_injective h) hn
  have hname : ∀ name, ((registerMap gqrName values).lookup name).isSome →
      ∃ n < 8, name = gqrName n := by
    intro name h
    by_contra hnot
    push Not at hnot
    rw [lookup_registerMap_of_ne fun n hn heq => hnot n hn heq.symm] at h
    exact absurd h (by simp)
  constructor
  · intro name hnumbered
    by_cases h : ∃ n < 8, name = gqrName n
    · obtain ⟨n, hn, rfl⟩ := h
      rw [exactVariable_gqrName hn, lookup_slotMap hn, hfull n hn]
    · push Not at h
      rw [lookup_registerMap_of_ne fun n hn heq => h n hn heq.symm, lookup_slotMap_of_ge]
      intro hlt
      exact h _ hlt (exactVariable_lt rfl hlt)
  · intro name h
    obtain ⟨n, hn, rfl⟩ := hname name h
    exact numbered_gqrName hn
  · intro k h
    by_cases hk : k < 8
    · exact ⟨gqrName k, numbered_gqrName hk, exactVariable_gqrName hk⟩
    · rw [lookup_slotMap_of_ge hk] at h
      exact absurd h (by simp)
  · intro name h
    obtain ⟨n, hn, rfl⟩ := hname name h
    exact isGqrVersion_gqrName hn

theorem lookup_assignOrRemove_self (state : NameMap) (name : List Char)
    (value : Option UInt32) : (assignOrRemove state name value).lookup name = value := by
  cases value with
  | none => simp [assignOrRemove]
  | some v => simp [assignOrRemove]

theorem lookup_assignOrRemove_ne (state : NameMap) {name other : List Char}
    (h : other ≠ name) (value : Option UInt32) :
    (assignOrRemove state name value).lookup other = state.lookup other := by
  cases value with
  | none => exact AList.lookup_erase_ne h
  | some v => exact AList.lookup_insert_ne h

theorem lookup_assignOrRemoveCompact_self (compact : SlotMap) (k : ℕ)
    (value : Option UInt32) :
    (assignOrRemoveCompact compact k value).lookup k = value := by
  cases value with
  | none => simp [assignOrRemoveCompact]
  | some v => simp [assignOrRemoveCompact]

theorem lookup_assignOrRemoveCompact_ne (compact : SlotMap) {k l : ℕ} (h : l ≠ k)
    (value : Option UInt32) :
    (assignOrRemoveCompact compact k value).lookup l = compact.lookup l := by
  cases value with
  | none => exact AList.lookup_erase_ne h
  | some v => exact AList.lookup_insert_ne h

theorem Represents.assignOrRemove (h : Represents names state compact)
    (hname : Numbered names name) (value : Option UInt32)
    (hplain : value.isSome → isGqrVersion name = false) :
    Represents names (assignOrRemove state name value)
      (assignOrRemoveCompact compact (exactVariable names name) value) := by
  constructor
  · intro other hother
    by_cases heq : other = name
    · subst heq
      rw [lookup_assignOrRemove_self, lookup_assignOrRemoveCompact_self]
    · rw [lookup_assignOrRemove_ne _ heq, lookup_assignOrRemoveCompact_ne _
        (mt (exactVariable_injective hother) heq), h.lookup other hother]
  · intro other hother
    by_cases heq : other = name
    · rwa [heq]
    · rw [lookup_assignOrRemove_ne _ heq] at hother
      exact h.numbered other hother
  · intro k hk
    by_cases heq : k = exactVariable names name
    · exact ⟨name, hname, heq.symm⟩
    · rw [lookup_assignOrRemoveCompact_ne _ heq] at hk
      exact h.key k hk
  · intro other hother
    by_cases heq : other = name
    · subst heq
      rw [lookup_assignOrRemove_self] at hother
      exact hplain hother
    · rw [lookup_assignOrRemove_ne _ heq] at hother
      exact h.plain other hother

/-! ## Comparison and meet -/

theorem entries_same_iff {α : Type*} [DecidableEq α] {a b : AList fun _ : α => UInt32} :
    (a.entries.length = b.entries.length &&
        a.entries.all fun pair => b.lookup pair.1 = some pair.2) = true ↔
      ∀ k, a.lookup k = b.lookup k := by
  rw [Bool.and_eq_true, decide_eq_true_eq, List.all_eq_true]
  constructor
  · rintro ⟨hlength, hall⟩ k
    have hsub : a.entries ⊆ b.entries := by
      intro pair hpair
      exact AList.mem_lookup_iff.mp (of_decide_eq_true (hall pair hpair))
    have hperm : a.entries.Perm b.entries :=
      (List.subperm_of_subset (List.NodupKeys.nodup a.nodupKeys) hsub).perm_of_length_le hlength.ge
    exact AList.perm_lookup hperm
  · intro hlookup
    have hmem : ∀ pair, pair ∈ a.entries ↔ pair ∈ b.entries := by
      intro pair
      have ha : pair ∈ a.entries ↔ pair.2 ∈ a.lookup pair.1 :=
        AList.mem_lookup_iff.symm
      have hb : pair ∈ b.entries ↔ pair.2 ∈ b.lookup pair.1 :=
        AList.mem_lookup_iff.symm
      rw [ha, hb, hlookup]
    have hperm : a.entries.Perm b.entries :=
      (List.perm_ext_iff_of_nodup (List.NodupKeys.nodup a.nodupKeys)
        (List.NodupKeys.nodup b.nodupKeys)).mpr hmem
    refine ⟨hperm.length_eq, fun pair hpair => decide_eq_true ?_⟩
    exact AList.mem_lookup_iff.mpr ((hmem pair).mp hpair)

theorem Represents.same_eq (h : Represents names state compact)
    (h' : Represents names state' compact') :
    same state state' = compactSame compact compact' := by
  rw [Bool.eq_iff_iff, same, compactSame, entries_same_iff, entries_same_iff]
  constructor
  · intro hlookup k
    by_cases hk : ∃ name, Numbered names name ∧ exactVariable names name = k
    · obtain ⟨name, hname, rfl⟩ := hk
      rw [h.lookup name hname, h'.lookup name hname, hlookup]
    · have hnone := Option.not_isSome_iff_eq_none.mp (mt (h.key k) hk)
      have hnone' := Option.not_isSome_iff_eq_none.mp (mt (h'.key k) hk)
      rw [hnone, hnone']
  · intro hlookup name
    by_cases hname : Numbered names name
    · rw [← h.lookup name hname, ← h'.lookup name hname, hlookup]
    · have hnone := Option.not_isSome_iff_eq_none.mp (mt (h.numbered name) hname)
      have hnone' := Option.not_isSome_iff_eq_none.mp (mt (h'.numbered name) hname)
      rw [hnone, hnone']

theorem lookup_filter {α : Type*} [DecidableEq α] {m : AList fun _ : α => UInt32}
    {p : (Sigma fun _ : α => UInt32) → Bool} {hnodup} (k : α) :
    AList.lookup k ⟨m.entries.filter p, hnodup⟩ =
      (m.lookup k).filter fun v => p ⟨k, v⟩ := by
  apply Option.ext
  intro v
  have hmem : m.lookup k = some v ↔ ⟨k, v⟩ ∈ m.entries := AList.mem_lookup_iff
  rw [Option.filter_eq_some_iff, hmem]
  exact AList.mem_lookup_iff.trans List.mem_filter

theorem represents_intersect {full : ℕ → NameMap} {outputs : ℕ → SlotMap}
    (h : ∀ p, Represents names (full p) (outputs p)) (predecessors : List ℕ) :
    Represents names (intersect (predecessors.map full))
      (compactIntersect (predecessors.map outputs)) := by
  cases predecessors with
  | nil => exact represents_empty
  | cons first others =>
      have hfull : ∀ name, (intersect ((first :: others).map full)).lookup name =
          ((full first).lookup name).filter fun v =>
            (others.map full).all fun map => map.lookup name = some v :=
        fun name => lookup_filter name
      have hcompact : ∀ k, (compactIntersect ((first :: others).map outputs)).lookup k =
          ((outputs first).lookup k).filter fun v =>
            (others.map outputs).all fun map => map.lookup k = some v :=
        fun k => lookup_filter k
      have hfirst : ∀ name, ((intersect ((first :: others).map full)).lookup name).isSome →
          ((full first).lookup name).isSome := by
        intro name hname
        rw [hfull] at hname
        exact Option.isSome_of_isSome_filter _ _ hname
      constructor
      · intro name hname
        rw [hfull, hcompact, (h first).lookup name hname]
        congr 1
        funext v
        rw [List.all_map, List.all_map]
        congr 1
        funext p
        simp only [Function.comp_apply, (h p).lookup name hname]
      · intro name hname
        exact (h first).numbered name (hfirst name hname)
      · intro k hk
        rw [hcompact] at hk
        exact (h first).key k (Option.isSome_of_isSome_filter _ _ hk)
      · intro name hname
        exact (h first).plain name (hfirst name hname)

/-! ## Values -/

theorem Represents.tryValue (h : Represents names state compact) (value : IrValue)
    (hnames : ∀ name ∈ valueNames value, Numbered names (folded name)) :
    tryCompactValue (summaryValue names value) compact = tryValue value state := by
  unfold summaryValue GqrConstantPropagation.tryValue
  unfold valueNames at hnames
  split
  · next hconst =>
      obtain ⟨immediate, himmediate⟩ := Option.isSome_iff_exists.mp hconst.2
      rw [himmediate]
      rfl
  · next hconst =>
      rw [if_neg hconst] at hnames
      split
      · next hregister =>
          rw [if_pos hregister] at hnames
          rcases hname : value.registerName with _ | name
          · rfl
          · rw [hname] at hnames
            exact h.lookup _ (hnames name (by simp))
      · rfl

theorem tryCompactBinary_parseBinary (op : String) (left right : UInt32) :
    tryCompactBinary (parseBinary op) left right = tryBinary op left right := by
  unfold parseBinary tryBinary
  dsimp only
  split_ifs <;> rfl

/-- What the outputs of predecessors tell a phi, by label and by ordinal. -/
structure OutputsAgree (function : IrFunction) (names : List (List Char))
    (full : String → Option NameMap) (compact : Option (ℕ → SlotMap)) : Prop where
  lookup : ∀ label name, Numbered names name →
    (compact.bind fun out =>
        (IrCfg.ordinal function label).bind fun p =>
          (out p).lookup (exactVariable names name)) =
      (full label).bind fun state => state.lookup name
  plain : ∀ label name, isGqrVersion name = true →
    ((full label).bind fun state => state.lookup name) = none

theorem outputsAgree_none (function : IrFunction) :
    OutputsAgree function names (fun _ => none) none :=
  ⟨fun _ _ _ => rfl, fun _ _ _ => rfl⟩

theorem compactPhiValue_eq {function : IrFunction} {full : String → Option NameMap}
    {out : Option (ℕ → SlotMap)} (h : OutputsAgree function names full out)
    {sources : PhiSources}
    (hnames : ∀ source ∈ sources.entries, Numbered names (folded source.2)) :
    compactPhiValue out (sources.entries.map fun source =>
        ⟨IrCfg.ordinal function source.1, exactVariable names (folded source.2)⟩) =
      phiValue full sources := by
  have hincoming : (sources.entries.map fun source =>
        (⟨IrCfg.ordinal function source.1, exactVariable names (folded source.2)⟩ :
          GqrPhiSource)).map (fun source =>
        out.bind fun out =>
          source.predecessor.bind fun p => (out p).lookup source.variableId) =
      sources.entries.map fun source =>
        (full source.1).bind fun pred => pred.lookup (folded source.2) := by
    rw [List.map_map]
    apply List.map_congr_left
    intro source hsource
    exact h.lookup source.1 _ (hnames source hsource)
  rw [compactPhiValue, hincoming]
  rfl

theorem phiValue_eq_none {function : IrFunction} {full : String → Option NameMap}
    {out : Option (ℕ → SlotMap)} (h : OutputsAgree function names full out)
    {sources : PhiSources}
    (hsource : (sources.entries.any fun source => isGqrVersion (folded source.2)) = true) :
    phiValue full sources = none := by
  obtain ⟨source, hmem, hversion⟩ := List.any_eq_true.mp hsource
  by_contra hvalue
  obtain ⟨v, hv⟩ := Option.ne_none_iff_exists'.mp hvalue
  obtain ⟨pred, hpred, hlookup⟩ := lookup_of_phiValue hv hmem
  have hnone := h.plain source.1 (folded source.2) hversion
  rw [hpred, Option.bind_some, hlookup] at hnone
  exact absurd hnone (by simp)

/-! ## Calls -/

def KnowsAffinity (summary : GqrFunctionSummary) (names : List (List Char)) : Prop :=
  ∀ name, Numbered names name →
    summary.getGqrAffinity (exactVariable names name) = gqrKey name

/-- The constants of the registers are those under their plain names. -/
theorem Represents.collectSlots {summary : GqrFunctionSummary}
    (haffinity : KnowsAffinity summary names) (h : Represents names state compact) {n : ℕ}
    (hn : n < 8) : collectSlots summary compact n = state.lookup (gqrName n) := by
  have hslot : compact.lookup n = state.lookup (gqrName n) := by
    rw [← h.lookup _ (numbered_gqrName hn), exactVariable_gqrName hn]
  have hentry : ∀ pair ∈ compact.entries, compact.lookup pair.1 = some pair.2 :=
    fun pair hpair => AList.mem_lookup_iff.mpr hpair
  rw [GqrInterproceduralAnalysis.collectSlots, ← hslot]
  rcases hfound : compact.entries.find? fun pair =>
      decide (summary.getGqrAffinity pair.1 = some n) with _ | pair
  · rcases hlookup : compact.lookup n with _ | v
    · rw [hfound, Option.map_none]
    · have hmem : (⟨n, v⟩ : Sigma fun _ : ℕ => UInt32) ∈ compact.entries :=
        AList.mem_lookup_iff.mp hlookup
      have hnot := List.find?_eq_none.mp hfound _ hmem
      have hkey := haffinity (gqrName n) (numbered_gqrName hn)
      rw [exactVariable_gqrName hn, gqrKey_gqrName hn] at hkey
      exact absurd (decide_eq_true hkey) hnot
  · have hlookup := hentry pair (List.mem_of_find?_eq_some hfound)
    have haff : summary.getGqrAffinity pair.1 = some n := by
      simpa using List.find?_some hfound
    -- the variable is a name of the state, so the plain name of the register
    obtain ⟨name, hname, hk⟩ := h.key pair.1 (by rw [hlookup]; rfl)
    rw [← hk, haffinity name hname] at haff
    have hstate : state.lookup name = some pair.2 := by
      rw [← h.lookup name hname, hk, hlookup]
    obtain rfl := eq_gqrName_of_key haff (h.plain name (by rw [hstate]; rfl))
    rw [hfound, Option.map_some, hslot, hstate]

theorem isSome_lookup_preserved (target : String) (masks : WriteMasks) {n : ℕ}
    {pair : Sigma fun _ : List Char => UInt32} (hpair : pair ∈ state.entries)
    (hkey : gqrKey pair.1 = some n)
    (hmask : (callWriteMask target masks).getLsbD n = false) :
    ((preserveUnmodifiedGqrsAcrossCall target masks state).lookup (gqrName n)).isSome := by
  rw [preserveUnmodifiedGqrsAcrossCall]
  generalize state.entries = pairs at hpair ⊢
  induction pairs with
  | nil => exact absurd hpair List.not_mem_nil
  | cons first pairs ih =>
      rw [List.foldr_cons]
      rcases List.mem_cons.mp hpair with rfl | hpair
      · simp [hkey, hmask]
      · rcases hfirst : gqrKey first.1 with _ | k
        · exact ih hpair
        · dsimp only
          split_ifs
          · exact ih hpair
          · by_cases hk : gqrName n = gqrName k
            · rw [hk, AList.lookup_insert]
              rfl
            · rw [AList.lookup_insert_ne hk]
              exact ih hpair

theorem lookup_preserved (hplain : ∀ name, (state.lookup name).isSome →
      isGqrVersion name = false) {target : String} {masks : WriteMasks} {n : ℕ}
    (hn : n < 8) :
    (preserveUnmodifiedGqrsAcrossCall target masks state).lookup (gqrName n) =
      if (callWriteMask target masks).getLsbD n then none
      else state.lookup (gqrName n) := by
  have hforward : ∀ v,
      (preserveUnmodifiedGqrsAcrossCall target masks state).lookup (gqrName n) = some v →
        (callWriteMask target masks).getLsbD n = false ∧
          state.lookup (gqrName n) = some v := by
    intro v hv
    obtain ⟨pair, hpair, k, hkey, hname, hmask, rfl⟩ := exists_of_lookup_preserved hv
    obtain rfl := gqrName_injective hname
    have hlookup : state.lookup pair.1 = some pair.2 := AList.mem_lookup_iff.mpr hpair
    have hpairname := eq_gqrName_of_key hkey (hplain pair.1 (by rw [hlookup]; rfl))
    exact ⟨hmask, by rw [← hpairname, hlookup]⟩
  by_cases hmask : (callWriteMask target masks).getLsbD n = true
  · rw [if_pos hmask]
    by_contra hsome
    obtain ⟨v, hv⟩ := Option.ne_none_iff_exists'.mp hsome
    rw [(hforward v hv).1] at hmask
    exact absurd hmask (by simp)
  · rw [if_neg hmask]
    rcases hlookup : state.lookup (gqrName n) with _ | v
    · by_contra hsome
      obtain ⟨v, hv⟩ := Option.ne_none_iff_exists'.mp hsome
      rw [(hforward v hv).2] at hlookup
      exact absurd hlookup (by simp)
    · have hmem : (⟨gqrName n, v⟩ : Sigma fun _ : List Char => UInt32) ∈ state.entries :=
        AList.mem_lookup_iff.mp hlookup
      obtain ⟨w, hw⟩ := Option.isSome_iff_exists.mp
        (isSome_lookup_preserved target masks hmem (gqrKey_gqrName hn) (by simpa using hmask))
      rw [hw, ← (hforward w hw).2, hlookup]

theorem Represents.guestCall {summary : GqrFunctionSummary}
    (haffinity : KnowsAffinity summary names) (h : Represents names state compact)
    (target : String) (masks : WriteMasks) :
    Represents names (preserveUnmodifiedGqrsAcrossCall target masks state)
      (transferCompact summary none masks (.guestCall (tryParseAddressOrDecimal target))
        compact) := by
  set kept : ℕ → Option UInt32 := fun n =>
    if (callWriteMask target masks).getLsbD n then none else state.lookup (gqrName n)
    with hkept
  have hmask : ((tryParseAddressOrDecimal target).bind masks).getD 0xFF =
      callWriteMask target masks := by
    rw [callWriteMask]
    cases tryParseAddressOrDecimal target <;> rfl
  apply (represents_registerMap kept).congr
  · intro name
    by_cases hname : ∃ n < 8, name = gqrName n
    · obtain ⟨n, hn, rfl⟩ := hname
      rw [lookup_preserved h.plain hn,
        lookup_registerMap (fun _ _ _ _ h => gqrName_injective h) hn]
    · rw [lookup_registerMap_of_ne fun n hn heq => hname ⟨n, hn, heq.symm⟩]
      by_contra hsome
      obtain ⟨v, hv⟩ := Option.ne_none_iff_exists'.mp hsome
      obtain ⟨pair, -, n, hkey, rfl, -⟩ := exists_of_lookup_preserved hv
      exact hname ⟨n, (gqrKey_eq_some hkey).2, rfl⟩
  · intro k
    simp only [transferCompact, hmask]
    by_cases hall : callWriteMask target masks = 0xFF
    · have hnone : ∀ n < 8, kept n = none := by
        intro n hn
        have hbit : (0xFF : BitVec 8).getLsbD n = true := by
          revert n
          decide
        rw [hkept]
        dsimp only
        rw [hall, if_pos hbit]
      rw [if_pos hall]
      by_cases hk : k < 8
      · rw [lookup_slotMap hk, hnone k hk]
        rfl
      · rw [lookup_slotMap_of_ge hk]
        rfl
    · rw [if_neg hall]
      by_cases hk : k < 8
      · rw [lookup_slotMap hk, lookup_slotMap hk, hkept, h.collectSlots haffinity hk]
      · rw [lookup_slotMap_of_ge hk, lookup_slotMap_of_ge hk]

end Represents

/-! ## Instructions -/

section Transfer

variable {function : IrFunction} {names : List (List Char)} {summary : GqrFunctionSummary}
  {full : String → Option NameMap} {out : Option (ℕ → SlotMap)}
  {state : NameMap} {compact : SlotMap} {i : IrInstruction}

theorem assignDestination_eq (names : List (List Char)) (name : List Char) :
    assignDestination names name = exactVariable names (slot name) := by
  rw [assignDestination, slot]
  rcases hkey : gqrKey name with _ | n
  · rfl
  · exact (exactVariable_gqrName (gqrKey_eq_some hkey).2).symm

theorem isGqrVersion_slot (name : List Char) : isGqrVersion (slot name) = false := by
  rw [slot]
  rcases hkey : gqrKey name with _ | n
  · simp [isGqrVersion, hkey]
  · exact isGqrVersion_gqrName (gqrKey_eq_some hkey).2

theorem Represents.transfer (masks : WriteMasks) (haffinity : KnowsAffinity summary names)
    (hnames : ∀ name ∈ instructionNames i, Numbered names (folded name))
    (hplain : keepsPlain i = true) (hout : OutputsAgree function names full out)
    (h : Represents names state compact) :
    Represents names (transfer full masks i state)
      (transferBlockCompact summary out masks (project function names i).toList
        compact) := by
  cases i with
  | assign destination value =>
      have hslot : Numbered names (slot (folded destination)) := by
        rw [slot]
        rcases hkey : gqrKey (folded destination) with _ | n
        · exact hnames destination (by simp [instructionNames, hkey])
        · exact numbered_gqrName (gqrKey_eq_some hkey).2
      have hvalue := h.tryValue value fun name hname =>
        hnames name (List.mem_append_right _ hname)
      have hstep := h.assignOrRemove hslot (GqrConstantPropagation.tryValue value state)
        fun _ => isGqrVersion_slot _
      rw [← assignDestination_eq, ← hvalue] at hstep
      rw [GqrConstantPropagation.transfer, setOrKill, ← hvalue]
      exact hstep
  | binary destination left right op =>
      have hname := hnames destination List.mem_cons_self
      have hleft := h.tryValue left fun name hname =>
        hnames name (List.mem_cons_of_mem _ (List.mem_append_left _ hname))
      have hright := h.tryValue right fun name hname =>
        hnames name (List.mem_cons_of_mem _ (List.mem_append_right _ hname))
      have hversion : isGqrVersion (folded destination) = false := by
        simpa [keepsPlain] using hplain
      have hstep := h.assignOrRemove hname
        ((GqrConstantPropagation.tryValue left state).bind fun l =>
          (GqrConstantPropagation.tryValue right state).bind fun r => tryBinary op l r)
        fun _ => hversion
      have hcompact : (transferBlockCompact summary out masks
          (project function names (.binary destination left right op)).toList compact) =
          assignOrRemoveCompact compact (exactVariable names (folded destination))
            ((GqrConstantPropagation.tryValue left state).bind fun l =>
              (GqrConstantPropagation.tryValue right state).bind fun r =>
                tryBinary op l r) := by
        rw [← hleft, ← hright]
        simp only [project, Option.toList_some, transferBlockCompact, List.foldl_cons,
          List.foldl_nil, transferCompact, tryCompactBinary_parseBinary]
      rw [hcompact]
      exact hstep
  | phi destination sources =>
      have hname := hnames destination List.mem_cons_self
      have hsources : ∀ source ∈ sources.entries, Numbered names (folded source.2) :=
        fun source hsource =>
          hnames source.2 (List.mem_cons_of_mem _ (List.mem_map_of_mem hsource))
      have hstep := h.assignOrRemove hname (phiValue full sources) (by
        intro hvalue
        simp only [keepsPlain, Bool.or_eq_true, Bool.not_eq_true'] at hplain
        rcases hplain with (hversion | hempty) | hany
        · exact hversion
        · rw [List.isEmpty_iff] at hempty
          simp [phiValue, hempty] at hvalue
        · rw [phiValue_eq_none hout hany] at hvalue
          exact absurd hvalue (by simp))
      rw [← compactPhiValue_eq hout hsources] at hstep
      rw [GqrConstantPropagation.transfer, ← compactPhiValue_eq hout hsources]
      exact hstep
  | load destination address sizeBytes =>
      exact h.assignOrRemove (hnames destination List.mem_cons_self) none
        fun hnone => absurd hnone (by simp)
  | call destination target arguments =>
      rw [GqrConstantPropagation.transfer, project]
      by_cases hguest : isGuestCall target
      · rw [if_pos hguest, if_pos hguest]
        exact h.guestCall haffinity target masks
      · rw [if_neg hguest, if_neg hguest]
        by_cases hblank : isNullOrWhiteSpace destination
        · rw [if_pos hblank, if_pos hblank]
          exact h
        · rw [if_neg hblank, if_neg hblank]
          have hname := hnames destination (by simp [instructionNames, hguest, hblank])
          exact h.assignOrRemove hname none fun hnone => absurd hnone (by simp)
  | indirectCall destination target arguments => exact represents_empty
  | _ => exact h

theorem Represents.transferBlock (masks : WriteMasks) (haffinity : KnowsAffinity summary names)
    {instructions : List IrInstruction}
    (hnames : ∀ i ∈ instructions, ∀ name ∈ instructionNames i,
      Numbered names (folded name))
    (hplain : ∀ i ∈ instructions, keepsPlain i = true)
    (hout : OutputsAgree function names full out) (h : Represents names state compact) :
    Represents names (transferBlock full masks instructions state)
      (transferBlockCompact summary out masks
        (instructions.filterMap (project function names)) compact) := by
  induction instructions generalizing state compact with
  | nil => exact h
  | cons i rest ih =>
      have hstep := h.transfer masks haffinity
        (hnames i List.mem_cons_self) (hplain i List.mem_cons_self) hout
      have hrest := ih (fun j hj => hnames j (List.mem_cons_of_mem i hj))
        (fun j hj => hplain j (List.mem_cons_of_mem i hj)) hstep
      have hcompact : transferBlockCompact summary out masks
          ((i :: rest).filterMap (project function names)) compact =
          transferBlockCompact summary out masks (rest.filterMap (project function names))
            (transferBlockCompact summary out masks (project function names i).toList
              compact) := by
        rw [transferBlockCompact, transferBlockCompact, transferBlockCompact,
          ← List.foldl_append]
        congr 1
        rw [List.filterMap_cons]
        cases project function names i <;> rfl
      rw [hcompact]
      exact hrest

end Transfer

/-! ## The summary of a function -/

/-- What the projection keeps of a function whose entry label names a block. -/
structure SummaryOf (function : IrFunction) (summary : GqrFunctionSummary) : Prop where
  length : summary.blocks.length = function.blocks.length
  block : ∀ index < function.blocks.length, summaryBlockAt summary index =
    ⟨IrCfg.predecessors function index,
      (function.blockAt index).instructions.filterMap
        (project function (variableNames function))⟩
  affinity : KnowsAffinity summary (variableNames function)
  entry : ∀ index < function.blocks.length,
    isEntry function index = decide (index = summary.entryBlock)

theorem folded_label_injective {function : IrFunction}
    (hdistinct : IrCfg.DistinctLabels function) {i j : ℕ} (hi : i < function.blocks.length)
    (hj : j < function.blocks.length)
    (h : folded (function.blockAt i).label = folded (function.blockAt j).label) :
    i = j := by
  have hi' : i < (function.blocks.map fun block => folded block.label).length := by
    simpa using hi
  have hj' : j < (function.blocks.map fun block => folded block.label).length := by
    simpa using hj
  refine (List.Nodup.get_inj_iff hdistinct).mp (?_ : List.get _ ⟨i, hi'⟩ = List.get _ ⟨j, hj'⟩)
    |> Fin.mk.inj_iff.mp
  simpa [IrFunction.blockAt, hi, hj] using h

theorem create_summaryOf {function : IrFunction} {summary : GqrFunctionSummary}
    (hcreate : create function = some summary)
    (hentry : (IrCfg.ordinal function function.entryLabel).isSome) :
    SummaryOf function summary := by
  rw [create, Option.ite_none_right_eq_some] at hcreate
  obtain ⟨hdistinct, hsummary⟩ := hcreate
  obtain rfl := Option.some.inj hsummary
  constructor
  · simp
  · intro index hindex
    simp [summaryBlockAt, hindex]
  · intro name hname
    rw [getGqrAffinity, exactVariable]
    rcases hplain : plainGqr name with _ | n
    · have hmem : name ∈ variableNames function := hname.resolve_left (by simp [hplain])
      have hlt := List.idxOf_lt_length_of_mem hmem
      dsimp only
      simp [hlt]
    · obtain ⟨rfl, hn⟩ := plainGqr_eq_some hplain
      dsimp only
      rw [gqrKey_gqrName hn]
      simp [List.getElem?_append_left, hn]
  · intro index hindex
    obtain ⟨e, he⟩ := Option.isSome_iff_exists.mp hentry
    have helt := IrCfg.ordinal_lt he
    have helabel := IrCfg.folded_label_ordinal he
    rw [isEntry, he, Option.getD_some, decide_eq_decide]
    constructor
    · intro hlabel
      exact folded_label_injective hdistinct hindex helt (hlabel.trans helabel.symm)
    · rintro rfl
      exact helabel

/-! ## The fixpoint -/

/-- The two analyses keep the same for every block. -/
structure FlowsAgree (names : List (List Char)) (flows : List BlockFlow)
    (compact : List CompactBlockFlow) : Prop where
  length : compact.length = flows.length
  input : ∀ index, Represents names (flowAt flows index).input
    (compactFlowAt compact index).input
  output : ∀ index, Represents names (flowAt flows index).output
    (compactFlowAt compact index).output
  initialized : ∀ index, (compactFlowAt compact index).initialized =
    (flowAt flows index).initialized

section Fixpoint

variable {function : IrFunction} {summary : GqrFunctionSummary}
  {entry : ℕ → Option UInt32} {masks : WriteMasks} {flows : List BlockFlow}
  {compact : List CompactBlockFlow}

/-- No instruction of the function gives a version of a quantization register a
constant, except by assignment. -/
def KeepsPlain (function : IrFunction) : Prop :=
  ∀ block ∈ function.blocks, ∀ i ∈ block.instructions, keepsPlain i = true

theorem FlowsAgree.outputsAgree {names : List (List Char)}
    (h : FlowsAgree names flows compact) :
    OutputsAgree function names (outputs function flows)
      (some fun p => (compactFlowAt compact p).output) := by
  constructor
  · intro label name hname
    rw [outputs, Option.bind_some, Option.bind_map]
    congr 1
    funext p
    exact (h.output p).lookup name hname
  · intro label name hversion
    rw [outputs, Option.bind_map]
    rcases IrCfg.ordinal function label with _ | p
    · rfl
    · by_contra hsome
      have hplain := (h.output p).plain name
        (Option.isSome_iff_ne_none.mpr hsome)
      rw [hversion] at hplain
      exact absurd hplain (by simp)

theorem FlowsAgree.set {names : List (List Char)} (h : FlowsAgree names flows compact)
    {index : ℕ} {flow : BlockFlow} {compactFlow : CompactBlockFlow}
    (hinput : Represents names flow.input compactFlow.input)
    (houtput : Represents names flow.output compactFlow.output)
    (hinitialized : compactFlow.initialized = flow.initialized) :
    FlowsAgree names (flows.set index flow) (compact.set index compactFlow) := by
  have hflow : ∀ k, flowAt (flows.set index flow) k =
      if index = k ∧ k < flows.length then flow else flowAt flows k := by
    intro k
    rw [flowAt, flowAt, List.getD_eq_getElem?_getD, List.getElem?_set,
      List.getD_eq_getElem?_getD]
    split_ifs <;> simp_all
  have hcompact : ∀ k, compactFlowAt (compact.set index compactFlow) k =
      if index = k ∧ k < flows.length then compactFlow else compactFlowAt compact k := by
    intro k
    rw [compactFlowAt, compactFlowAt, List.getD_eq_getElem?_getD, List.getElem?_set,
      List.getD_eq_getElem?_getD, h.length]
    split_ifs <;> simp_all [h.length]
  constructor
  · rw [List.length_set, List.length_set, h.length]
  all_goals
    intro k
    rw [hflow, hcompact]
    split_ifs
  · exact hinput
  · exact h.input k
  · exact houtput
  · exact h.output k
  · exact hinitialized
  · exact h.initialized k

/-- Agreement of what a round has, with the flag that something changed. -/
def RoundsAgree (names : List (List Char)) (s : List BlockFlow × Bool)
    (s' : List CompactBlockFlow × Bool) : Prop :=
  FlowsAgree names s.1 s'.1 ∧ s'.2 = s.2

theorem visit_agree (entry : ℕ → Option UInt32) (masks : WriteMasks)
    (hsummary : SummaryOf function summary) (hplain : KeepsPlain function)
    {s : List BlockFlow × Bool} {s' : List CompactBlockFlow × Bool}
    (h : RoundsAgree (variableNames function) s s') {index : ℕ}
    (hindex : index < function.blocks.length) :
    RoundsAgree (variableNames function) (visit function (entryMap entry) masks s index)
      (compactVisit summary entry masks s' index) := by
  obtain ⟨flows, flag⟩ := s
  obtain ⟨compact, flag'⟩ := s'
  obtain ⟨h, rfl : flag' = flag⟩ := h
  have hpredecessors : compactPredecessors summary compact index =
      meetPredecessors function flows index := by
    rw [compactPredecessors, meetPredecessors, hsummary.block index hindex]
    apply List.filter_congr
    intro p _
    rw [h.initialized p]
  have hskip : (index ≠ summary.entryBlock ∧ compactPredecessors summary compact index = []) ↔
      skipped function flows index = true := by
    rw [skipped, hsummary.entry index hindex, hpredecessors]
    simp
  by_cases hskipped : skipped function flows index = true
  · simp only [visit, compactVisit, if_pos hskipped, if_pos (hskip.mpr hskipped)]
    exact ⟨h, rfl⟩
  · have hinput : Represents (variableNames function)
        (blockInput function (entryMap entry) flows index)
        (compactBlockInput summary entry compact index) := by
      rw [blockInput, compactBlockInput, hsummary.entry index hindex, hpredecessors]
      by_cases hentry : index = summary.entryBlock
      · simp only [hentry, decide_true, if_true]
        exact represents_registerMap entry
      · simp only [hentry, decide_false, if_false]
        exact represents_intersect h.output _
    have houtput : Represents (variableNames function)
        (blockOutput function (entryMap entry) masks flows index)
        (compactBlockOutput summary entry masks compact index) := by
      rw [compactBlockOutput, hsummary.block index hindex]
      exact hinput.transferBlock masks hsummary.affinity
        (fun i hi name hname => numbered_of_mem (function.blockAt_mem hindex) hi hname)
        (fun i hi => hplain _ (function.blockAt_mem hindex) i hi) h.outputsAgree
    simp only [visit, compactVisit, if_neg hskipped, if_neg (mt hskip.mp hskipped),
      (h.input index).same_eq hinput, (h.output index).same_eq houtput, h.initialized index]
    refine ⟨h.set ?_ ?_ rfl, rfl⟩
    · exact (h.input index).ite hinput _
    · exact (h.output index).ite houtput _

theorem round_agree (entry : ℕ → Option UInt32) (masks : WriteMasks)
    (hsummary : SummaryOf function summary) (hplain : KeepsPlain function)
    (h : FlowsAgree (variableNames function) flows compact) :
    RoundsAgree (variableNames function) (round function (entryMap entry) masks flows)
      (compactRound summary entry masks compact) := by
  have hfold : ∀ (order : List ℕ), (∀ index ∈ order, index < function.blocks.length) →
      ∀ s s', RoundsAgree (variableNames function) s s' →
        RoundsAgree (variableNames function)
          (order.foldl (visit function (entryMap entry) masks) s)
          (order.foldl (compactVisit summary entry masks) s') := by
    intro order
    induction order with
    | nil => exact fun _ _ _ hs => hs
    | cons index order ih =>
        intro horder s s' hs
        exact ih (fun k hk => horder k (List.mem_cons_of_mem index hk)) _ _
          (visit_agree entry masks hsummary hplain hs (horder index List.mem_cons_self))
  rw [GqrConstantPropagation.round, compactRound, hsummary.length]
  exact hfold _ (fun index hindex => List.mem_range.mp hindex) _ _ ⟨h, rfl⟩

theorem rounds_agree (entry : ℕ → Option UInt32) (masks : WriteMasks)
    (hsummary : SummaryOf function summary) (hplain : KeepsPlain function)
    (h : FlowsAgree (variableNames function) flows compact) (fuel : ℕ) :
    Option.Rel (FlowsAgree (variableNames function))
      (rounds function (entryMap entry) masks fuel flows)
      (compactRounds summary entry masks fuel compact) := by
  induction fuel generalizing flows compact with
  | zero => exact .none
  | succ fuel ih =>
      obtain ⟨hflows, hflag⟩ := round_agree entry masks hsummary hplain h
      rw [rounds, compactRounds, hflag]
      split
      · exact ih hflows
      · exact .some hflows

end Fixpoint

/-! ## Call sites -/

theorem FlowsAgree.inputs {names : List (List Char)} {flows : List BlockFlow}
    {compact : List CompactBlockFlow} (h : FlowsAgree names flows compact) :
    List.Forall₂ (Represents names) (flows.map BlockFlow.input)
      (compact.map CompactBlockFlow.input) := by
  rw [List.forall₂_map_left_iff, List.forall₂_map_right_iff, List.forall₂_iff_get]
  refine ⟨h.length.symm, fun k hk hk' => ?_⟩
  have hinput := h.input k
  simpa [flowAt, compactFlowAt, hk, hk'] using hinput

theorem inputs_agree {function : IrFunction} {summary : GqrFunctionSummary}
    (entry : ℕ → Option UInt32) (masks : WriteMasks)
    (hsummary : SummaryOf function summary) (hplain : KeepsPlain function)
    {flow : List NameMap}
    (hflow : GqrConstantPropagation.analyze function (entryMap entry) masks = some flow) :
    List.Forall₂ (Represents (variableNames function)) flow
      (compactInputs summary entry masks) := by
  have hstart : FlowsAgree (variableNames function)
      (function.blocks.map fun _ => (default : BlockFlow))
      (summary.blocks.map fun _ => (default : CompactBlockFlow)) := by
    have hflow : ∀ k, flowAt (function.blocks.map fun _ => default) k = default := by
      intro k
      by_cases hk : k < function.blocks.length <;> simp [flowAt, hk]
    have hcompact : ∀ k, compactFlowAt (summary.blocks.map fun _ => default) k =
        default := by
      intro k
      by_cases hk : k < summary.blocks.length <;> simp [compactFlowAt, hk]
    constructor
    · rw [List.length_map, List.length_map, hsummary.length]
    all_goals
      intro k
      rw [hflow, hcompact]
    · exact represents_empty
    · exact represents_empty
    · rfl
  have hrounds := rounds_agree entry masks hsummary hplain hstart (iterationLimit function)
  rw [GqrConstantPropagation.analyze, Option.ite_none_right_eq_some] at hflow
  obtain ⟨-, hflow⟩ := hflow
  have hlimit : max 256 (summary.blocks.length * 4 + 16) = iterationLimit function := by
    rw [hsummary.length, iterationLimit]
  rw [compactInputs, hlimit]
  dsimp only at hflow
  rcases hfull : rounds function (entryMap entry) masks (iterationLimit function)
      (function.blocks.map fun _ => default) with _ | flows <;>
    rcases hcompact : compactRounds summary entry masks (iterationLimit function)
      (summary.blocks.map fun _ => default) with _ | compact <;>
    rw [hfull, hcompact] at hrounds <;> rw [hfull] at hflow <;>
    obtain rfl := Option.some.inj hflow
  · rw [List.forall₂_map_left_iff, List.forall₂_map_right_iff, List.forall₂_iff_get]
    exact ⟨hsummary.length.symm, fun _ _ _ => represents_empty⟩
  · cases hrounds
  · cases hrounds
  · cases hrounds with
    | some hagree => exact hagree.inputs

section Sites

variable {function : IrFunction} {names : List (List Char)} {summary : GqrFunctionSummary}
  {state : NameMap} {compact : SlotMap}

/-- A summary reports the constants of the full state at the direct calls of a block. -/
theorem siteConstants_eq (masks : WriteMasks) (known : UInt32 → Bool)
    (haffinity : KnowsAffinity summary names) {instructions : List IrInstruction}
    (hnames : ∀ i ∈ instructions, ∀ name ∈ instructionNames i,
      Numbered names (folded name))
    (hplain : ∀ i ∈ instructions, keepsPlain i = true)
    (h : Represents names state compact) :
    siteConstants summary masks known
        (instructions.filterMap (project function names)) compact =
      fullSiteConstants masks known instructions state := by
  induction instructions generalizing state compact with
  | nil => rfl
  | cons i rest ih =>
      have hstep := h.transfer masks haffinity (hnames i List.mem_cons_self)
        (hplain i List.mem_cons_self) (outputsAgree_none function)
      have hrest := ih (fun j hj => hnames j (List.mem_cons_of_mem i hj))
        (fun j hj => hplain j (List.mem_cons_of_mem i hj)) hstep
      have hslots : (fun n : Fin 8 => collectSlots summary compact n) =
          fun n : Fin 8 => state.lookup (gqrName n) := by
        funext n
        exact h.collectSlots haffinity n.isLt
      -- an instruction that is no direct call reports nothing
      have hother : fullSiteConstants masks known (i :: rest) state =
            fullSiteConstants masks known rest
              (GqrConstantPropagation.transfer (fun _ => none) masks i state) →
          (∀ address, project function names i ≠ some (.guestCall (some address))) →
          siteConstants summary masks known
              ((i :: rest).filterMap (project function names)) compact =
            fullSiteConstants masks known (i :: rest) state := by
        intro hfull hproject
        rw [hfull, ← hrest, List.filterMap_cons]
        rcases hi : project function names i with _ | j
        · rfl
        · rw [hi] at hproject
          cases j with
          | guestCall target =>
              cases target with
              | none => rfl
              | some address => exact absurd rfl (hproject address)
          | _ => rfl
      cases i with
      | call destination target arguments =>
          by_cases hguest : isGuestCall target
          · rcases haddress : tryParseAddressOrDecimal target with _ | address
            · apply hother
              · rw [fullSiteConstants, if_pos hguest, haddress]
              · rw [project, if_pos hguest, haddress]
                simp
            · have hproject : project function names (.call destination target arguments) =
                  some (.guestCall (some address)) := by
                rw [project, if_pos hguest, haddress]
              rw [hproject] at hrest
              rw [List.filterMap_cons_some hproject, siteConstants, fullSiteConstants,
                if_pos hguest, haddress]
              dsimp only
              rw [hslots]
              split_ifs
              · exact congrArg _ hrest
              · exact hrest
          · apply hother
            · rw [fullSiteConstants, if_neg hguest]
            · rw [project, if_neg hguest]
              split_ifs <;> simp
      | _ => exact hother rfl (by simp [project])

end Sites

theorem zipWith_eq_of_forall₂ {α β γ δ ε : Type*} {r : α → β → Prop} {s : γ → δ → Prop}
    {f : α → γ → ε} {g : β → δ → ε} {as : List α} {bs : List β} {cs : List γ}
    {ds : List δ} (hr : List.Forall₂ r as bs) (hs : List.Forall₂ s cs ds)
    (h : ∀ a b c d, r a b → s c d → f a c = g b d) :
    List.zipWith f as cs = List.zipWith g bs ds := by
  induction hr generalizing cs ds with
  | nil => rfl
  | cons hab _ ih =>
      cases hs with
      | nil => rfl
      | cons hcd hrest =>
          rw [List.zipWith_cons_cons, List.zipWith_cons_cons, h _ _ _ _ hab hcd, ih hrest]

theorem SummaryOf.blocks {function : IrFunction} {summary : GqrFunctionSummary}
    (h : SummaryOf function summary) :
    List.Forall₂ (fun block summaryBlock => block ∈ function.blocks ∧
        summaryBlock.instructions = block.instructions.filterMap
          (project function (variableNames function)))
      function.blocks summary.blocks := by
  rw [List.forall₂_iff_get]
  refine ⟨h.length.symm, fun k hk hk' => ⟨List.get_mem _ _, ?_⟩⟩
  have hblock := congrArg GqrSummaryBlock.instructions (h.block k hk)
  simpa [summaryBlockAt, IrFunction.blockAt, hk, hk'] using hblock

/-- Where only assignments give a quantization register a constant and the entry label
names a block, the summary of a function reports at its direct calls the constants that
the full analysis has just before them. -/
theorem evaluateCompactCaller_eq {function : IrFunction}
    (hentry : (IrCfg.ordinal function function.entryLabel).isSome)
    (hplain : KeepsPlain function) (entry : ℕ → Option UInt32) (masks : WriteMasks)
    (known : UInt32 → Bool) :
    ((create function).map fun summary =>
        evaluateCompactCaller summary entry masks known) =
      directCallConstants function entry masks known := by
  rw [directCallConstants]
  rcases hcreate : create function with _ | summary
  · have hdistinct : ¬IrCfg.DistinctLabels function := by
      intro hdistinct
      rw [create, if_pos hdistinct] at hcreate
      exact absurd hcreate (by simp)
    rw [GqrConstantPropagation.analyze, if_neg hdistinct]
    rfl
  · have hsummary := create_summaryOf hcreate hentry
    obtain ⟨flow, hflow⟩ : ∃ flow,
        GqrConstantPropagation.analyze function (entryMap entry) masks = some flow := by
      rw [create, Option.ite_none_right_eq_some] at hcreate
      rw [GqrConstantPropagation.analyze, if_pos hcreate.1]
      dsimp only
      split <;> exact ⟨_, rfl⟩
    rw [hflow, Option.map_some, Option.map_some, evaluateCompactCaller]
    congr 2
    symm
    apply zipWith_eq_of_forall₂ (inputs_agree entry masks hsummary hplain hflow)
      hsummary.blocks
    intro input compact block summaryBlock hinput hblock
    rw [hblock.2]
    exact (siteConstants_eq masks known hsummary.affinity
      (fun i hi name hname => numbered_of_mem hblock.1 hi hname) (hplain block hblock.1)
      hinput).symm

/-! ## Binary operations on quantization registers -/

/-- A function that assigns a quantization register, may add to it, and calls. -/
def addToRegister (destination : String) : IrFunction :=
  ⟨"add_to_register", "entry",
    [⟨"entry", [.assign "gqr0_1" (.imm 5), .binary destination (.imm 3) (.imm 4) "add",
      .call "" "func_80004000" [], .ret none]⟩]⟩

/-- The sum in a new version is reported in place of the constant of the register. -/
theorem addToRegister_disagrees :
    SsaForm (addToRegister "gqr0_2") ∧
      ((create (addToRegister "gqr0_2")).map fun summary =>
          evaluateCompactCaller summary (fun _ => none) noMasks fun _ => true) ≠
        directCallConstants (addToRegister "gqr0_2") (fun _ => none) noMasks
          fun _ => true := by
  refine ⟨⟨by decide, by decide, by decide⟩, ?_⟩
  intro hsame
  have hfirst := congrArg (Option.map (List.map fun site => site.2 0)) hsame
  revert hfirst
  decide +kernel

/-- The sum in another register is not. -/
theorem addToRegister_agrees :
    ((create (addToRegister "r3_1")).map fun summary =>
        evaluateCompactCaller summary (fun _ => none) noMasks fun _ => true) =
      directCallConstants (addToRegister "r3_1") (fun _ => none) noMasks (fun _ => true) ∧
    (directCallConstants (addToRegister "r3_1") (fun _ => none) noMasks
        (fun _ => true)).map (List.map fun site => (site.1, site.2 0)) =
      some [(0x80004000, some 5)] :=
  ⟨evaluateCompactCaller_eq (by decide) (by unfold KeepsPlain; decide) _ _ _,
    by decide +kernel⟩

end Wiicompiled.Translation.GqrInterproceduralAnalysis
