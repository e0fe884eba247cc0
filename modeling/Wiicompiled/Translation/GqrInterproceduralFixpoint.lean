import Mathlib.Algebra.Group.Action.Defs
import Mathlib.Data.Fintype.Fin
import Wiicompiled.Translation.GqrInterproceduralAnalysis

/-!
# The fixpoints of the interprocedural analysis

The queue of write masks ends with the least solution of the write equations, the queue
of reachable functions with a set closed under direct calls, and the rounds over dirty
callers keep step with rounds that evaluate every function: the analysis throws exactly
when these have not settled within its limit.
-/

namespace Wiicompiled.Translation.GqrInterproceduralAnalysis

open Ir GqrConstantPropagation GqrFunctionSummary

/-! ## Sets of registers -/

namespace WriteMask

@[ext]
theorem ext_has {a b : WriteMask} (h : ∀ n, a.has n = b.has n) : a = b := by
  obtain ⟨a⟩ := a
  obtain ⟨b⟩ := b
  congr 1
  apply BitVec.eq_of_getLsbD_eq
  intro n hn
  exact h ⟨n, hn⟩

@[simp]
theorem has_union (a b : WriteMask) (n : Fin 8) : (a.union b).has n = (a.has n || b.has n) :=
  BitVec.getLsbD_or

@[simp]
theorem has_all (n : Fin 8) : (⟨0xFF⟩ : WriteMask).has n = true := by
  revert n
  decide

instance : PartialOrder WriteMask where
  le a b := ∀ n, a.has n = true → b.has n = true
  le_refl _ _ h := h
  le_trans _ _ _ hab hbc n h := hbc n (hab n h)
  le_antisymm a b hab hba := by
    ext n
    exact Bool.eq_iff_iff.mpr ⟨hab n, hba n⟩

/-- The number of registers in a set. -/
def size (mask : WriteMask) : ℕ :=
  (Finset.univ.filter fun n => mask.has n = true).card

theorem size_le (mask : WriteMask) : mask.size ≤ 8 := by
  have hcard : Fintype.card (Fin 8) = 8 := rfl
  rw [← hcard]
  exact Finset.card_le_univ _

theorem size_strictMono : StrictMono size := by
  intro a b hab
  obtain ⟨hle, hnot⟩ := lt_iff_le_not_ge.mp hab
  obtain ⟨n, hn⟩ := not_forall.mp hnot
  obtain ⟨hb, ha⟩ := Classical.not_imp.mp hn
  apply Finset.card_lt_card
  refine ⟨fun k hk => ?_, fun hsub => ?_⟩
  · simp only [Finset.mem_filter, Finset.mem_univ, true_and] at hk ⊢
    exact hle k hk
  · have hin := hsub (Finset.mem_filter.mpr ⟨Finset.mem_univ n, hb⟩)
    exact ha (Finset.mem_filter.mp hin).2

end WriteMask

/-! ## Write masks -/

section WriteMasks

variable {functions : Summaries} {address target : UInt32} {masks : UInt32 → WriteMask}

theorem mem_of_mem_calleesOf (h : target ∈ calleesOf functions address) :
    target ∈ functions := by
  rw [calleesOf] at h
  rcases hlookup : functions.lookup address with _ | summary <;> rw [hlookup] at h
  · cases h
  · exact of_decide_eq_true (List.mem_filter.mp h).2

theorem mem_of_calleesOf_ne_nil (h : target ∈ calleesOf functions address) :
    address ∈ functions := by
  rw [calleesOf] at h
  rcases hlookup : functions.lookup address with _ | summary <;> rw [hlookup] at h
  · cases h
  · exact AList.lookup_isSome.mp (by rw [hlookup]; rfl)

theorem mem_callersOf :
    address ∈ callersOf functions target ↔ target ∈ calleesOf functions address := by
  rw [callersOf, List.mem_filter, decide_eq_true_eq]
  exact ⟨And.right, fun h => ⟨AList.mem_keys.mp (mem_of_calleesOf_ne_nil h), h⟩⟩

theorem has_writeEquation (n : Fin 8) :
    (writeEquation functions address masks).has n = true ↔
      (localMasks functions address).has n = true ∨
        ∃ target ∈ calleesOf functions address, (masks target).has n = true := by
  have hfold : ∀ (targets : List UInt32) (start : WriteMask),
      (targets.foldl (fun mask target => mask.union (masks target)) start).has n = true ↔
        start.has n = true ∨ ∃ target ∈ targets, (masks target).has n = true := by
    intro targets
    induction targets with
    | nil => simp
    | cons target targets ih =>
        intro start
        rw [List.foldl_cons, ih, WriteMask.has_union, Bool.or_eq_true]
        simp only [List.mem_cons, exists_eq_or_imp, or_assoc]
  exact hfold _ _

theorem writeEquation_mono (address : UInt32) :
    Monotone (writeEquation functions address) := by
  intro masks masks' hle n hn
  rw [has_writeEquation] at hn ⊢
  rcases hn with hlocal | ⟨target, htarget, hmask⟩
  · exact .inl hlocal
  · exact .inr ⟨target, htarget, hle target n hmask⟩

theorem localMasks_le_writeEquation (address : UInt32) (masks : UInt32 → WriteMask) :
    localMasks functions address ≤ writeEquation functions address masks :=
  fun n hn => (has_writeEquation n).mpr (.inl hn)

theorem writeEquation_update {value : WriteMask}
    (h : address ∉ callersOf functions target) :
    writeEquation functions address (Function.update masks target value) =
      writeEquation functions address masks := by
  have hne : ∀ callee ∈ calleesOf functions address, callee ≠ target := by
    rintro callee hcallee rfl
    exact h (mem_callersOf.mpr hcallee)
  apply WriteMask.ext_has
  intro n
  rw [Bool.eq_iff_iff, has_writeEquation, has_writeEquation]
  apply or_congr_right
  constructor
  · rintro ⟨callee, hcallee, hmask⟩
    rw [Function.update_of_ne (hne callee hcallee)] at hmask
    exact ⟨callee, hcallee, hmask⟩
  · rintro ⟨callee, hcallee, hmask⟩
    refine ⟨callee, hcallee, ?_⟩
    rwa [Function.update_of_ne (hne callee hcallee)]

theorem writeEquation_of_notMem (h : address ∉ functions) :
    writeEquation functions address masks = localMasks functions address := by
  have hcallees : calleesOf functions address = [] := by
    rw [List.eq_nil_iff_forall_not_mem]
    exact fun target htarget => h (mem_of_calleesOf_ne_nil htarget)
  rw [writeEquation, hcallees]
  rfl

def WriteSolutions (functions : Summaries) : Set (UInt32 → WriteMask) :=
  {masks | ∀ address, writeEquation functions address masks = masks address}

theorem computeCompactWriteMasks_isSome (functions : Summaries) :
    (computeCompactWriteMasks functions).isSome := by
  have hbound : Worklist.headroom WriteMask.size 8 functions.keys (localMasks functions) ≤
      8 * functions.keys.length := by
    have hsum := List.sum_le_card_nsmul
      (functions.keys.map fun a => 8 - WriteMask.size (localMasks functions a)) 8
      (by simp)
    rw [List.length_map, smul_eq_mul, mul_comm] at hsum
    exact hsum
  have hwidth : ∀ target, (callersOf functions target).length ≤ functions.keys.length :=
    fun _ => List.length_filter_le _ _
  refine Worklist.drain_isSome writeEquation_mono WriteMask.size_le
    WriteMask.size_strictMono ?_ hwidth (fun a => localMasks_le_writeEquation a _)
    (fun _ h => h) ?_
  · intro target _ caller hcaller
    exact (List.mem_filter.mp hcaller).1
  · have hpaid := Nat.mul_le_mul_right (functions.keys.length + 1) hbound
    omega

theorem computeCompactWriteMasks_least
    (h : computeCompactWriteMasks functions = some masks) :
    IsLeast (WriteSolutions functions) masks := by
  have hsettled : Worklist.SettledOutside (writeEquation functions) (localMasks functions)
      functions.keys := by
    intro address haddress
    exact writeEquation_of_notMem fun hmem => haddress (AList.mem_keys.mp hmem)
  obtain ⟨hsolves, hleast⟩ := Worklist.drain_least writeEquation_mono
    (fun target address masks value => writeEquation_update)
    (fun a => localMasks_le_writeEquation a _) hsettled h
  refine ⟨hsolves, fun other hother => hleast other (fun a => (hother a).le) ?_⟩
  intro address
  rw [← hother address]
  exact localMasks_le_writeEquation address other

end WriteMasks

/-! ## Reachable functions -/

section Reachable

variable {functions : Summaries} {roots reachable : List UInt32} {address target : UInt32}

theorem mem_rootSet :
    address ∈ rootSet functions roots ↔ address ∈ roots ∧ address ∈ functions := by
  rw [rootSet, List.mem_eraseDups, List.mem_filter, decide_eq_true_eq]

theorem computeCompactReachable_isSome (functions : Summaries) (roots : List UInt32) :
    (computeCompactReachable functions roots).isSome := by
  have hcallees : ∀ address ∈ functions.keys, ∀ target ∈ calleesOf functions address,
      target ∈ functions.keys :=
    fun _ _ _ htarget => AList.mem_keys.mp (mem_of_mem_calleesOf htarget)
  refine Worklist.search_isSome hcallees ?_ ?_
  · intro root hroot
    exact AList.mem_keys.mp (mem_rootSet.mp hroot).2
  · simp [Worklist.remaining]

/-- A function that direct calls lead to from the roots. -/
inductive Reaches (functions : Summaries) (roots : List UInt32) : UInt32 → Prop
  | root {address : UInt32} (hroot : address ∈ rootSet functions roots) :
      Reaches functions roots address
  | call {address target : UInt32} (h : Reaches functions roots address)
      (htarget : target ∈ calleesOf functions address) : Reaches functions roots target

structure ReachableList (functions : Summaries) (roots reachable : List UInt32) : Prop where
  mem : ∀ address, address ∈ reachable ↔ Reaches functions roots address
  nodup : reachable.Nodup
  sorted : reachable.Pairwise (· ≤ ·)

theorem computeCompactReachable_list {found : List UInt32}
    (h : computeCompactReachable functions roots = some found) :
    ReachableList functions roots (found.insertionSort (· ≤ ·)) := by
  obtain ⟨-, hroots, hcallees⟩ := Worklist.search_closed (by simp) h
  have hperm := List.perm_insertionSort (· ≤ ·) found
  refine ⟨fun address => ?_, ?_, List.pairwise_insertionSort _ _⟩
  · rw [hperm.mem_iff]
    constructor
    · apply Worklist.search_forall (fun _ hi _ => Reaches.call hi) (fun _ => Reaches.root)
        (by simp) h
    · intro hreaches
      induction hreaches with
      | root hroot => exact hroots _ hroot
      | call _ htarget ih => exact hcallees _ ih _ htarget
  · exact hperm.nodup_iff.mpr (Worklist.search_nodup List.nodup_nil h)

end Reachable

/-! ## Rounds -/

section Rounds

variable {functions : Summaries} {roots reachable : List UInt32} {writeMasks : WriteMasks}
  {entries : UInt32 → Slots}

/-- The entry constants that result from evaluating every function. -/
def recomputeEntries (functions : Summaries) (roots reachable : List UInt32)
    (writeMasks : WriteMasks) (entries : UInt32 → Slots) : UInt32 → Slots :=
  Worklist.recomputeAll (evaluateCaller functions reachable writeMasks)
    (mergeEntry functions roots reachable) entries

theorem mergeEntry_mergesTargets :
    Worklist.MergesTargets (mergeEntry functions roots reachable)
      (targetsOf functions reachable) := by
  intro c c' target hsame
  rw [mergeEntry, mergeEntry]
  congr 2
  rw [sitesTo, sitesTo]
  congr 1
  funext caller
  by_cases htarget : target ∈ targetsOf functions reachable caller
  · rw [hsame caller htarget]
  · have hnone : ∀ sites : List Slots,
        ((targetsOf functions reachable caller).zip sites).filterMap
          (fun site => if site.1 = target then some site.2 else none) = [] := by
      intro sites
      rw [List.filterMap_eq_nil_iff]
      rintro ⟨callee, slots⟩ hsite
      have hne : callee ≠ target := by
        rintro rfl
        exact htarget (List.of_mem_zip hsite).1
      exact if_neg hne
    rw [hnone, hnone]

theorem mergeEntry_of_noSites {contributions : UInt32 → List Slots} {target : UInt32}
    (h : ∀ caller ∈ reachable, target ∉ targetsOf functions reachable caller) :
    mergeEntry functions roots reachable contributions target = noSlots := by
  have hsites : sitesTo functions reachable contributions target = [] := by
    rw [sitesTo, List.flatMap_eq_nil_iff]
    intro caller hcaller
    rw [List.filterMap_eq_nil_iff]
    rintro ⟨callee, slots⟩ hsite
    have hne : callee ≠ target := by
      rintro rfl
      exact h caller hcaller (List.of_mem_zip hsite).1
    exact if_neg hne
  rw [mergeEntry, hsites]
  split_ifs <;> rfl

theorem startProgress_upToDate :
    Worklist.UpToDate (evaluateCaller functions reachable writeMasks)
      (mergeEntry functions roots reachable) (targetsOf functions reachable)
      (startProgress functions reachable) := by
  have hdirty : ∀ caller, targetsOf functions reachable caller ≠ [] →
      caller ∈ (startProgress functions reachable).dirty := by
    intro caller htargets
    refine List.mem_filter.mpr ⟨?_, by simpa using htargets⟩
    by_contra hcaller
    exact htargets (if_neg hcaller)
  constructor
  · intro caller hcaller htargets
    exact absurd (hdirty caller htargets) hcaller
  · intro target htarget
    apply mergeEntry_of_noSites
    intro caller _ hmem
    exact htarget caller (hdirty caller (List.ne_nil_of_mem hmem)) hmem

/-- The rounds over dirty callers end with the entry constants at which recomputing
every function, from nothing known, stops; they end if it does so within the limit. -/
theorem propagateEntries_eq_some :
    propagateEntries functions roots reachable writeMasks = some entries ↔
      recomputeEntries functions roots reachable writeMasks entries = entries ∧
        ∃ k < entryRoundLimit functions,
          (recomputeEntries functions roots reachable writeMasks)^[k] (fun _ => noSlots) =
            entries :=
  Worklist.dirtyRounds_eq_some mergeEntry_mergesTargets startProgress_upToDate

end Rounds

/-! ## Call sites -/

section Sites

variable {functions : Summaries} {roots reachable : List UInt32} {writeMasks : WriteMasks}
  {summary : GqrFunctionSummary} {known : UInt32 → Bool}

@[simp]
theorem compactVisit_length (summary : GqrFunctionSummary) (entry : ℕ → Option UInt32)
    (masks : WriteMasks) (s : List CompactBlockFlow × Bool) (index : ℕ) :
    (compactVisit summary entry masks s index).1.length = s.1.length := by
  rw [compactVisit]
  split <;> simp

theorem compactRounds_length {entry : ℕ → Option UInt32} {masks : WriteMasks} {fuel : ℕ}
    {flows result : List CompactBlockFlow}
    (h : compactRounds summary entry masks fuel flows = some result) :
    result.length = flows.length := by
  have hround : ∀ (order : List ℕ) (s : List CompactBlockFlow × Bool),
      (order.foldl (compactVisit summary entry masks) s).1.length = s.1.length := by
    intro order
    induction order with
    | nil => exact fun _ => rfl
    | cons index order ih => exact fun s => by rw [List.foldl_cons, ih, compactVisit_length]
  induction fuel generalizing flows with
  | zero => cases h
  | succ fuel ih =>
      rw [compactRounds] at h
      by_cases hchanged : (compactRound summary entry masks flows).2 = true
      · rw [if_pos hchanged] at h
        rw [ih h]
        exact hround _ _
      · rw [if_neg hchanged] at h
        obtain rfl := Option.some.inj h
        exact hround _ _

theorem compactInputs_length (entry : ℕ → Option UInt32) (masks : WriteMasks) :
    (compactInputs summary entry masks).length = summary.blocks.length := by
  rw [compactInputs]
  split
  · rename_i flows hrounds
    rw [List.length_map, compactRounds_length hrounds, List.length_map]
  · rw [List.length_map]

theorem siteConstants_targets (masks : WriteMasks)
    (instructions : List GqrSummaryInstruction) (state : SlotMap) :
    (siteConstants summary masks known instructions state).map Prod.fst =
      instructions.filterMap (siteTarget known) := by
  induction instructions generalizing state with
  | nil => rfl
  | cons i rest ih =>
      have hrest := ih (transferCompact summary none masks i state)
      cases i with
      | guestCall target =>
          rcases target with _ | target
          · exact hrest
          · rw [siteConstants, List.filterMap_cons, siteTarget]
            by_cases hknown : known target = true
            · rw [if_pos hknown, if_pos hknown, List.map_cons, hrest]
            · rw [if_neg hknown, if_neg hknown]
              exact hrest
      | _ => exact hrest

theorem evaluateCompactCaller_targets (entry : ℕ → Option UInt32) (masks : WriteMasks) :
    (evaluateCompactCaller summary entry masks known).map Prod.fst =
      buildCompactCallSites summary known := by
  have hzip : ∀ (inputs : List SlotMap) (blocks : List GqrSummaryBlock),
      inputs.length = blocks.length →
      (inputs.zipWith
          (fun input block => siteConstants summary masks known block.instructions input)
          blocks).flatten.map Prod.fst =
        blocks.flatMap fun block => block.instructions.filterMap (siteTarget known) := by
    intro inputs
    induction inputs with
    | nil =>
        intro blocks hlength
        obtain rfl := List.length_eq_zero_iff.mp hlength.symm
        rfl
    | cons input inputs ih =>
        intro blocks hlength
        cases blocks with
        | nil => cases hlength
        | cons block blocks =>
            rw [List.zipWith_cons_cons, List.flatten_cons, List.map_append,
              siteConstants_targets, ih blocks (Nat.succ.inj hlength), List.flatMap_cons]
  exact hzip _ _ (compactInputs_length entry masks)

/-- The constants at a direct call are among those that are merged at its target. -/
theorem mem_sitesTo {entries : UInt32 → Slots} {caller target : UInt32} {site : Slots}
    (hcaller : caller ∈ reachable) (hlookup : functions.lookup caller = some summary)
    (hsite : (target, site) ∈ evaluateCompactCaller summary (slotAt (entries caller))
      writeMasks fun address => address ∈ reachable) :
    site ∈ sitesTo functions reachable
      (fun caller => evaluateCaller functions reachable writeMasks caller (entries caller))
      target := by
  have hpairs : (targetsOf functions reachable caller).zip
      (evaluateCaller functions reachable writeMasks caller (entries caller)) =
        evaluateCompactCaller summary (slotAt (entries caller)) writeMasks
          fun address => address ∈ reachable := by
    rw [targetsOf, if_pos hcaller, evaluateCaller, hlookup]
    dsimp only
    rw [← evaluateCompactCaller_targets (slotAt (entries caller)) writeMasks,
      ← List.unzip_fst, ← List.unzip_snd, List.zip_unzip]
  rw [sitesTo, List.mem_flatMap]
  refine ⟨caller, hcaller, List.mem_filterMap.mpr ⟨(target, site), ?_, if_pos rfl⟩⟩
  rw [hpairs]
  exact hsite

theorem mergeSites_eq_some {sites : List Slots} {n : Fin 8} {value : UInt32}
    (h : mergeSites sites n = some value) : ∀ site ∈ sites, site n = some value := by
  have hfold : ∀ (others : List Slots) (first : Slots),
      others.foldl meetSlots first n = some value →
        first n = some value ∧ ∀ site ∈ others, site n = some value := by
    intro others
    induction others with
    | nil => simp
    | cons other others ih =>
        intro first hmerged
        obtain ⟨hmeet, hrest⟩ := ih _ hmerged
        rw [meetSlots] at hmeet
        by_cases hsame : first n = other n
        · rw [if_pos hsame] at hmeet
          refine ⟨hmeet, ?_⟩
          intro site hsite
          rcases List.mem_cons.mp hsite with rfl | hsite
          · rw [← hsame, hmeet]
          · exact hrest site hsite
        · rw [if_neg hsame] at hmeet
          cases hmeet
  cases sites with
  | nil => cases h
  | cons first others =>
      obtain ⟨hfirst, hothers⟩ := hfold others first h
      intro site hsite
      rcases List.mem_cons.mp hsite with rfl | hsite
      · exact hfirst
      · exact hothers site hsite

end Sites

end Wiicompiled.Translation.GqrInterproceduralAnalysis
