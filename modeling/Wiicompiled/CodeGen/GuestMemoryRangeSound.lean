import Wiicompiled.CodeGen.GuestMemoryRangeTracking

/-!
# Lowered accesses keep their addresses

Accesses of one group have one origin, so along every run their addresses differ by their
offsets.  A range that is resolved in front of the first of them therefore serves all of
them, provided that no checked sum leaves the range of `int`: there the lowering throws.
-/

namespace Wiicompiled.CodeGen.GuestMemoryRangeLowering

open Ir Analysis

/-! ## Accesses -/

section Accesses

variable {constants : CxxLinearCodeGenerator.Constants} {segment : List IrInstruction}

/-- The sums of base distance and displacement stay in the range of `int`. -/
def Fits (constants : CxxLinearCodeGenerator.Constants) (segment : List IrInstruction) : Prop :=
  ∀ k instruction raw, segment[k]? = some instruction →
    IsProvenHardwareRegisterAccess constants instruction = false →
    TryCreate instruction = some raw →
    InInt ((origin segment k raw.address.base).distance + raw.address.offset.toInt)

structure IsAccess (segment : List IrInstruction) (access : Access)
    (instruction : IrInstruction) (raw : RawAccess) : Prop where
  at_index : segment[access.index]? = some instruction
  created : TryCreate instruction = some raw
  root : access.root = rootOf segment (origin segment access.index raw.address.base)
  baseDelta : access.baseDelta = (origin segment access.index raw.address.base).distance
  offset : access.offset = access.baseDelta + raw.address.offset.toInt
  inInt : InInt access.offset
  originalBase : access.originalBase = raw.address.base
  sizeBytes : access.sizeBytes = raw.sizeBytes
  isStore : access.isStore = raw.isStore
  psq : access.psq = raw.psq

theorem isAccess_of_newAccess {k : ℕ} {instruction : IrInstruction} {access : Access}
    (hi : segment[k]? = some instruction)
    (h : newAccess constants (trackerAt segment k) k instruction = some (some access)) :
    access.index = k ∧ ∃ raw, IsAccess segment access instruction raw := by
  rw [newAccess] at h
  split at h
  · exact absurd (Option.some.inj h).symm (Option.some_ne_none _)
  · split at h
    · exact absurd (Option.some.inj h).symm (Option.some_ne_none _)
    · rename_i raw hraw
      rw [(Lookup_trackerAt segment k).2] at h
      simp only [checked] at h
      split at h
      · rename_i hin
        obtain rfl := Option.some.inj (Option.some.inj h)
        exact ⟨rfl, raw, hi, hraw, rfl, rfl, rfl, hin, rfl, rfl, rfl, rfl⟩
      · exact absurd h.symm (Option.some_ne_none _)

theorem newAccess_ne_none {k : ℕ} {instruction : IrInstruction} :
    newAccess constants (trackerAt segment k) k instruction ≠ none ↔
      ∀ raw, IsProvenHardwareRegisterAccess constants instruction = false →
        TryCreate instruction = some raw →
        InInt ((origin segment k raw.address.base).distance + raw.address.offset.toInt) := by
  rw [newAccess]
  by_cases hhardware : IsProvenHardwareRegisterAccess constants instruction = true
  · rw [if_pos hhardware]
    constructor
    · intro _ raw hnot
      rw [hhardware] at hnot
      exact absurd hnot.symm Bool.false_ne_true
    · intro _
      exact Option.some_ne_none _
  · rw [if_neg hhardware]
    rw [Bool.not_eq_true] at hhardware
    rcases hraw : TryCreate instruction with _ | raw
    · constructor
      · intro _ raw _ h
        exact absurd h.symm (Option.some_ne_none _)
      · intro _
        exact Option.some_ne_none _
    · simp only [(Lookup_trackerAt segment k).2, checked]
      constructor
      · intro h raw' _ hraw'
        obtain rfl := Option.some.inj hraw'
        by_contra hin
        rw [if_neg hin] at h
        exact h rfl
      · intro h
        rw [if_pos (h raw hhardware rfl)]
        exact Option.some_ne_none _

theorem drop_succ_of_drop_eq_cons {k : ℕ} {instruction : IrInstruction}
    {rest : List IrInstruction} (h : segment.drop k = instruction :: rest) :
    segment[k]? = some instruction ∧ segment.drop (k + 1) = rest := by
  constructor
  · have hhead := congrArg List.head? h
    rwa [List.head?_drop] at hhead
  · rw [← List.tail_drop, h, List.tail_cons]

theorem mem_BuildAccesses {k : ℕ} {accesses : List Access}
    (h : BuildAccesses constants (trackerAt segment k) k (segment.drop k) = some accesses) :
    ∀ access ∈ accesses, ∃ instruction, segment[access.index]? = some instruction ∧
      newAccess constants (trackerAt segment access.index) access.index instruction =
        some (some access) := by
  induction hrest : segment.drop k generalizing k accesses with
  | nil =>
      rw [hrest, BuildAccesses] at h
      obtain rfl := Option.some.inj h
      exact fun access hmem => absurd hmem List.not_mem_nil
  | cons instruction rest ih =>
      obtain ⟨hi, hdrop⟩ := drop_succ_of_drop_eq_cons hrest
      rw [hrest, BuildAccesses, Option.bind_eq_some_iff] at h
      obtain ⟨new, hnew, hlater⟩ := h
      rw [Option.map_eq_some_iff, ← trackerAt_succ hi, ← hdrop] at hlater
      obtain ⟨later, hlater, rfl⟩ := hlater
      intro access hmem
      rcases List.mem_append.mp hmem with hmem | hmem
      · obtain rfl := Option.mem_toList.mp hmem
        obtain ⟨rfl, _⟩ := isAccess_of_newAccess hi hnew
        exact ⟨instruction, hi, hnew⟩
      · exact ih hlater hdrop access hmem

theorem BuildAccesses_ne_none_from {k : ℕ} :
    BuildAccesses constants (trackerAt segment k) k (segment.drop k) ≠ none ↔
      ∀ j instruction, k ≤ j → segment[j]? = some instruction →
        newAccess constants (trackerAt segment j) j instruction ≠ none := by
  induction hrest : segment.drop k generalizing k with
  | nil =>
      constructor
      · intro _ j instruction hj hi
        have hlength := (List.getElem?_eq_some_iff.mp hi).1
        have hdrop := List.drop_eq_nil_iff.mp hrest
        omega
      · intro _
        exact Option.some_ne_none _
  | cons instruction rest ih =>
      obtain ⟨hi, hdrop⟩ := drop_succ_of_drop_eq_cons hrest
      have hlater := ih hdrop
      rw [trackerAt_succ hi] at hlater
      rw [BuildAccesses]
      constructor
      · intro h j other hj hother hnone
        rcases Nat.eq_or_lt_of_le hj with rfl | hlt
        · rw [hi] at hother
          obtain rfl := Option.some.inj hother
          rw [hnone] at h
          exact h rfl
        · refine hlater.mp ?_ j other hlt hother hnone
          intro hbuild
          rw [hbuild] at h
          exact h (by rcases newAccess _ _ _ _ <;> rfl)
      · intro h hbuild
        rw [Option.bind_eq_none_iff] at hbuild
        obtain ⟨new, hnew⟩ := Option.ne_none_iff_exists'.mp (h k instruction (le_refl k) hi)
        have hnone := hbuild new hnew
        rw [Option.map_eq_none_iff] at hnone
        exact hlater.mpr (fun j other hj hother => h j other (Nat.le_of_succ_le hj) hother) hnone

/-- The tracker throws exactly when a sum leaves the range of `int`. -/
theorem BuildAccesses_ne_none :
    BuildAccesses constants .initial 0 segment ≠ none ↔ Fits constants segment := by
  have hfrom : BuildAccesses constants (trackerAt segment 0) 0 (segment.drop 0) ≠ none ↔ _ :=
    BuildAccesses_ne_none_from
  rw [List.drop_zero] at hfrom
  refine hfrom.trans ?_
  constructor
  · intro h k instruction raw hi
    exact newAccess_ne_none.mp (h k instruction (Nat.zero_le k) hi) raw
  · intro h j instruction _ hi
    exact newAccess_ne_none.mpr fun raw => h j instruction raw hi

end Accesses

/-! ## Plans -/

theorem rangeName_injective {m n : ℕ} (h : rangeName m = rangeName n) : m = n := by
  apply Numerals.toString_injective
  have hlist := congrArg String.toList h
  rw [rangeName, rangeName, String.toList_append, String.toList_append] at hlist
  exact List.append_cancel_left hlist

theorem min?_getD_le {values : List ℤ} {value : ℤ} (h : value ∈ values) (default : ℤ) :
    values.min?.getD default ≤ value := by
  rcases hmin : values.min? with _ | least
  · rw [List.min?_eq_none_iff.mp hmin] at h
    exact absurd h List.not_mem_nil
  · exact (List.le_min?_iff hmin).mp (le_refl least) value h

theorem le_max?_getD {values : List ℤ} {value : ℤ} (h : value ∈ values) (default : ℤ) :
    value ≤ values.max?.getD default := by
  rcases hmax : values.max? with _ | greatest
  · rw [List.max?_eq_none_iff.mp hmax] at h
    exact absurd h List.not_mem_nil
  · exact (List.max?_le_iff hmax).mp (le_refl greatest) value h

structure Serves (plan : Plan) (grouped : List Access) : Prop where
  within : ∀ access ∈ grouped, plan.minOffset ≤ access.offset ∧
    access.offset + access.sizeBytes ≤ plan.minOffset + plan.length
  length_pos : 0 < plan.length
  length_le : plan.length ≤ 4096

theorem planGroup_eq_some {minimumAccesses : ℤ} {accesses grouped : List Access} {number : ℕ}
    {plan : Plan} (h : planGroup minimumAccesses accesses number grouped = some plan) :
    plan.range = rangeName number ∧ Serves plan grouped := by
  simp only [planGroup] at h
  split at h
  · exact absurd h.symm (Option.some_ne_none _)
  split at h
  · exact absurd h.symm (Option.some_ne_none _)
  split at h
  · exact absurd h.symm (Option.some_ne_none _)
  split at h
  · exact absurd h.symm (Option.some_ne_none _)
  rename_i hlength
  obtain rfl := Option.some.inj h
  rw [MaxRangeLength, not_or, not_le, not_lt] at hlength
  refine ⟨rfl, ?_, hlength.1, hlength.2⟩
  intro access hmem
  have hoffset : access.offset ∈ grouped.map Access.offset := List.mem_map_of_mem hmem
  have hend : access.endOffset ∈ grouped.map Access.endOffset := List.mem_map_of_mem hmem
  have hmin := min?_getD_le hoffset 0
  have hmax := le_max?_getD hend 0
  rw [Access.endOffset] at hmax
  dsimp only
  omega

theorem mem_makePlans {minimumAccesses : ℤ} {accesses : List Access}
    {groups : List (List Access)} {number : ℕ} {grouped : List Access} {plan : Plan}
    (h : (grouped, plan) ∈ (makePlans minimumAccesses accesses groups number).1) :
    grouped ∈ groups ∧ Serves plan grouped ∧ ∃ n, number ≤ n ∧ plan.range = rangeName n := by
  induction groups generalizing number with
  | nil => exact absurd h List.not_mem_nil
  | cons first groups ih =>
      rw [makePlans] at h
      rcases hplan : planGroup minimumAccesses accesses number first with _ | firstPlan
      · rw [hplan] at h
        obtain ⟨hmem, hserves, n, hn, hrange⟩ := ih h
        exact ⟨List.mem_cons_of_mem _ hmem, hserves, n, hn, hrange⟩
      · rw [hplan] at h
        rcases List.mem_cons.mp h with heq | h
        · obtain ⟨rfl, rfl⟩ := Prod.mk.inj heq
          obtain ⟨hrange, hserves⟩ := planGroup_eq_some hplan
          exact ⟨List.mem_cons_self, hserves, number, le_refl _, hrange⟩
        · obtain ⟨hmem, hserves, n, hn, hrange⟩ := ih h
          exact ⟨List.mem_cons_of_mem _ hmem, hserves, n, Nat.le_of_succ_le hn, hrange⟩

theorem eq_of_range_eq {minimumAccesses : ℤ} {accesses : List Access}
    {groups : List (List Access)} {number : ℕ} {first second : List Access × Plan}
    (hfirst : first ∈ (makePlans minimumAccesses accesses groups number).1)
    (hsecond : second ∈ (makePlans minimumAccesses accesses groups number).1)
    (h : first.2.range = second.2.range) : first = second := by
  induction groups generalizing number with
  | nil => exact absurd hfirst List.not_mem_nil
  | cons head groups ih =>
      rw [makePlans] at hfirst hsecond
      rcases hplan : planGroup minimumAccesses accesses number head with _ | plan
      · rw [hplan] at hfirst hsecond
        exact ih hfirst hsecond
      · rw [hplan] at hfirst hsecond
        have hlater : ∀ other ∈ (makePlans minimumAccesses accesses groups (number + 1)).1,
            other.2.range ≠ plan.range := by
          intro other hother heq
          obtain ⟨_, _, n, hn, hrange⟩ := mem_makePlans hother
          rw [hrange, (planGroup_eq_some hplan).1] at heq
          have hsame := rangeName_injective heq
          omega
        rcases List.mem_cons.mp hfirst with rfl | hfirst
        · rcases List.mem_cons.mp hsecond with rfl | hsecond
          · rfl
          · exact absurd h.symm (hlater _ hsecond)
        · rcases List.mem_cons.mp hsecond with rfl | hsecond
          · exact absurd h (hlater _ hfirst)
          · exact ih hfirst hsecond

theorem mem_groupAccesses {accesses grouped : List Access} (h : grouped ∈ groupAccesses accesses) :
    (∀ access ∈ grouped, access ∈ accesses) ∧
      ∀ first ∈ grouped, ∀ second ∈ grouped, first.root.text = second.root.text := by
  rw [groupAccesses, List.mem_map] at h
  obtain ⟨key, _, rfl⟩ := h
  constructor
  · intro access hmem
    exact List.mem_of_mem_filter hmem
  · intro first hfirst second hsecond
    have hkey := of_decide_eq_true (List.mem_filter.mp hfirst).2
    have hkey' := of_decide_eq_true (List.mem_filter.mp hsecond).2
    exact congrArg Prod.fst (hkey.trans hkey'.symm)

theorem plannedAt_eq_some {plans : List (List Access × Plan)} {k : ℕ} {access : Access}
    {plan : Plan} (h : plannedAt plans k = some (access, plan)) :
    ∃ grouped, (grouped, plan) ∈ plans ∧ access ∈ grouped ∧ access.index = k := by
  rw [plannedAt] at h
  obtain ⟨⟨grouped, plan'⟩, hmem, hfound⟩ := List.exists_of_findSome?_eq_some h
  rw [Option.map_eq_some_iff] at hfound
  obtain ⟨found, hfind, heq⟩ := hfound
  obtain ⟨rfl, rfl⟩ := Prod.mk.inj heq
  have hindex : decide (found.index = k) = true :=
    @List.find?_some _ (fun access : Access => decide (access.index = k)) _ _ hfind
  exact ⟨grouped, hmem, List.mem_of_find?_eq_some hfind, of_decide_eq_true hindex⟩

/-! ## Emission -/

section Emission

variable {plans : List (List Access × Plan)} {segment : List IrInstruction}

def rangeAt (plans : List (List Access × Plan)) (k : ℕ) : Option String :=
  (plannedAt plans k).map fun planned => planned.2.range

/-- The resolution of a range in front of its anchor. -/
def resolveAt (access : Access) (plan : Plan) : IrInstruction :=
  .resolveGuestMemoryRange plan.range (IrValue.register access.originalBase)
    (Int32.ofInt (plan.minOffset - access.baseDelta)) (Int32.ofInt plan.length) plan.needsRead
    plan.needsWrite

/-- What is emitted for the instruction of an index, if emission starts at another one. -/
structure IsEmitted (plans : List (List Access × Plan)) (emitted : List String) (start k : ℕ)
    (instruction : IrInstruction) (chunk : Chunk) : Prop where
  unplanned : plannedAt plans k = none → chunk = ⟨none, instruction⟩
  planned : ∀ access plan, plannedAt plans k = some (access, plan) →
    chunk.instruction = ToResolved instruction access plan
  anchor : ∀ access plan, plannedAt plans k = some (access, plan) →
    plan.range ∉ emitted → (∀ j, start ≤ j → j < k → rangeAt plans j ≠ some plan.range) →
    chunk.resolve = some (resolveAt access plan) ∧ InInt (plan.minOffset - access.baseDelta)
  later : ∀ access plan, plannedAt plans k = some (access, plan) →
    (plan.range ∈ emitted ∨ ∃ j, start ≤ j ∧ j < k ∧ rangeAt plans j = some plan.range) →
    chunk.resolve = none

theorem isEmitted_head {emitted : List String} {k : ℕ} {instruction : IrInstruction}
    {rest : List IrInstruction} {chunks : List Chunk}
    (h : emitSegment plans emitted k (instruction :: rest) = some chunks) :
    ∃ chunk later emitted', chunks = chunk :: later ∧
      IsEmitted plans emitted k k instruction chunk ∧
      emitSegment plans emitted' (k + 1) rest = some later ∧
      ∀ range, range ∈ emitted' ↔ range ∈ emitted ∨ rangeAt plans k = some range := by
  rw [emitSegment] at h
  rcases hplanned : plannedAt plans k with _ | ⟨access, plan⟩
  · rw [hplanned, Option.map_eq_some_iff] at h
    obtain ⟨later, hlater, rfl⟩ := h
    refine ⟨_, later, emitted, rfl, ⟨fun _ => rfl, ?_, ?_, ?_⟩, hlater, ?_⟩
    · intro access plan hsome
      exact absurd (hplanned ▸ hsome).symm (Option.some_ne_none _)
    · intro access plan hsome
      exact absurd (hplanned ▸ hsome).symm (Option.some_ne_none _)
    · intro access plan hsome
      exact absurd (hplanned ▸ hsome).symm (Option.some_ne_none _)
    · intro range
      simp [rangeAt, hplanned]
  · have hsame : ∀ {access' plan'}, plannedAt plans k = some (access', plan') →
        access' = access ∧ plan' = plan := by
      intro access' plan' hsome
      exact Prod.mk.inj (Option.some.inj (hsome.symm.trans hplanned))
    have hnone : plannedAt plans k ≠ none := by
      rw [hplanned]
      exact Option.some_ne_none _
    simp only [hplanned] at h
    by_cases hemitted : plan.range ∈ emitted
    · rw [if_pos hemitted, Option.map_eq_some_iff] at h
      obtain ⟨later, hlater, rfl⟩ := h
      refine ⟨_, later, emitted, rfl, ⟨fun hn => absurd hn hnone, ?_, ?_, ?_⟩, hlater, ?_⟩
      · intro access' plan' hsome
        obtain ⟨rfl, rfl⟩ := hsame hsome
        rfl
      · intro access' plan' hsome hnot
        obtain ⟨rfl, rfl⟩ := hsame hsome
        exact absurd hemitted hnot
      · intro _ _ _ _
        rfl
      · intro range
        rw [rangeAt, hplanned, Option.map_some, Option.some.injEq]
        constructor
        · exact Or.inl
        · rintro (hin | rfl)
          · exact hin
          · exact hemitted
    · rw [if_neg hemitted, Option.bind_eq_some_iff] at h
      obtain ⟨minOffset, hmin, hlater⟩ := h
      rw [Option.map_eq_some_iff] at hlater
      obtain ⟨later, hlater, rfl⟩ := hlater
      rw [checked] at hmin
      split at hmin
      · rename_i hin
        obtain rfl := Option.some.inj hmin
        refine ⟨_, later, plan.range :: emitted, rfl,
          ⟨fun hn => absurd hn hnone, ?_, ?_, ?_⟩, hlater, ?_⟩
        · intro access' plan' hsome
          obtain ⟨rfl, rfl⟩ := hsame hsome
          rfl
        · intro access' plan' hsome _ _
          obtain ⟨rfl, rfl⟩ := hsame hsome
          exact ⟨rfl, hin⟩
        · rintro access' plan' hsome (hmem | ⟨j, hj, hj', _⟩)
          · obtain ⟨rfl, rfl⟩ := hsame hsome
            exact absurd hmem hemitted
          · exact absurd hj' (Nat.not_lt_of_le hj)
        · intro range
          rw [rangeAt, hplanned, Option.map_some, Option.some.injEq, List.mem_cons, or_comm]
          rw [eq_comm]
      · exact absurd hmin.symm (Option.some_ne_none _)

theorem isEmitted_emitSegment {emitted : List String} {k : ℕ} {chunks : List Chunk}
    (h : emitSegment plans emitted k (segment.drop k) = some chunks) :
    chunks.length = (segment.drop k).length ∧
      ∀ n chunk, chunks[n]? = some chunk → ∃ instruction, segment[k + n]? = some instruction ∧
        IsEmitted plans emitted k (k + n) instruction chunk := by
  induction hrest : segment.drop k generalizing k emitted chunks with
  | nil =>
      rw [hrest, emitSegment] at h
      obtain rfl := Option.some.inj h
      exact ⟨rfl, fun n chunk hn => absurd hn.symm (Option.some_ne_none _)⟩
  | cons instruction rest ih =>
      obtain ⟨hi, hdrop⟩ := drop_succ_of_drop_eq_cons hrest
      rw [hrest] at h
      obtain ⟨chunk, later, emitted', rfl, hhead, hlater, hmem⟩ := isEmitted_head h
      rw [← hdrop] at hlater
      obtain ⟨hlength, hchunks⟩ := ih hlater hdrop
      refine ⟨congrArg (· + 1) hlength, ?_⟩
      intro n other hn
      rcases n with _ | n
      · obtain rfl := Option.some.inj hn
        exact ⟨instruction, hi, hhead⟩
      · rw [List.getElem?_cons_succ] at hn
        obtain ⟨next, hnext, hother⟩ := hchunks n other hn
        have hindex : k + 1 + n = k + (n + 1) := by omega
        rw [hindex] at hnext hother
        refine ⟨next, hnext, hother.unplanned, hother.planned, ?_, ?_⟩
        · intro access plan hplanned hnot hfirst
          refine hother.anchor access plan hplanned ?_ ?_
          · rw [hmem]
            rintro (hin | hhere)
            · exact hnot hin
            · exact hfirst k (le_refl k) (by omega) hhere
          · intro j hj hj'
            exact hfirst j (Nat.le_of_succ_le hj) hj'
        · intro access plan hplanned hbefore
          refine hother.later access plan hplanned ?_
          rcases hbefore with hin | ⟨j, hj, hj', hrange⟩
          · exact Or.inl ((hmem _).mpr (Or.inl hin))
          · rcases Nat.eq_or_lt_of_le hj with rfl | hlt
            · exact Or.inl ((hmem _).mpr (Or.inr hrange))
            · exact Or.inr ⟨j, hlt, hj', hrange⟩

theorem emitSegment_ne_none
    (hplans : ∀ k access plan, plannedAt plans k = some (access, plan) →
      InInt (plan.minOffset - access.baseDelta))
    (emitted : List String) (k : ℕ) (rest : List IrInstruction) :
    emitSegment plans emitted k rest ≠ none := by
  induction rest generalizing emitted k with
  | nil => exact Option.some_ne_none _
  | cons instruction rest ih =>
      rw [emitSegment]
      rcases hplanned : plannedAt plans k with _ | ⟨access, plan⟩
      · rw [Ne, Option.map_eq_none_iff]
        exact ih emitted (k + 1)
      · dsimp only
        split
        · rw [Ne, Option.map_eq_none_iff]
          exact ih emitted (k + 1)
        · rw [checked, if_pos (hplans k access plan hplanned), Option.bind_some, Ne,
            Option.map_eq_none_iff]
          exact ih (plan.range :: emitted) (k + 1)

theorem IsEmitted.of_resolve {k : ℕ} {instruction resolve : IrInstruction} {chunk : Chunk}
    (h : IsEmitted plans [] 0 k instruction chunk) (hresolve : chunk.resolve = some resolve) :
    ∃ access plan, plannedAt plans k = some (access, plan) ∧ resolve = resolveAt access plan ∧
      ∀ j, j < k → rangeAt plans j ≠ some plan.range := by
  rcases hplanned : plannedAt plans k with _ | ⟨access, plan⟩
  · rw [h.unplanned hplanned] at hresolve
    exact absurd hresolve.symm (Option.some_ne_none _)
  · by_cases hearlier : ∃ j, 0 ≤ j ∧ j < k ∧ rangeAt plans j = some plan.range
    · rw [h.later access plan hplanned (Or.inr hearlier)] at hresolve
      exact absurd hresolve.symm (Option.some_ne_none _)
    · have hfirst : ∀ j, 0 ≤ j → j < k → rangeAt plans j ≠ some plan.range :=
        fun j hj hj' hrange => hearlier ⟨j, hj, hj', hrange⟩
      obtain ⟨hsome, _⟩ := h.anchor access plan hplanned List.not_mem_nil hfirst
      exact ⟨access, plan, rfl, Option.some.inj (hresolve.symm.trans hsome),
        fun j hj => hfirst j (Nat.zero_le j) hj⟩

end Emission

/-! ## Resolved accesses -/

inductive RangeEvent where
  | resolve (range : String) (base : IrValue) (minOffset length : Int32)
  | access (range : String) (address : IrAddress) (offset sizeBytes : ℤ) (isStore : Bool)

/-- The two halves of a pair, in the order in which the program has them. -/
def pairEvents (range : String) (first second : IrAddress) (offset sizeBytes : Int32)
    (descending isStore : Bool) : List RangeEvent :=
  let high := offset.toInt + sizeBytes.toInt
  [.access range first (if descending then high else offset.toInt) sizeBytes.toInt isStore,
    .access range second (if descending then offset.toInt else high) sizeBytes.toInt isStore]

def rangeEvents : IrInstruction → List RangeEvent
  | .resolveGuestMemoryRange range base minOffset length _ _ =>
      [.resolve range base minOffset length]
  | .resolvedLoad _ range address offset sizeBytes =>
      [.access range address offset.toInt sizeBytes.toInt false]
  | .resolvedStore range address offset _ sizeBytes =>
      [.access range address offset.toInt sizeBytes.toInt true]
  | .resolvedPsqLoad _ range address offset w _ _ _ =>
      [.access range ⟨address.registerName.getD "", 0⟩ offset.toInt (if w = 0 then 8 else 4) false]
  | .resolvedPsqStore range address offset _ w _ _ _ =>
      [.access range ⟨address.registerName.getD "", 0⟩ offset.toInt (if w = 0 then 8 else 4) true]
  | .resolvedLoadPair _ _ range first second offset sizeBytes descending =>
      pairEvents range first second offset sizeBytes descending false
  | .resolvedStorePair range first second offset _ _ sizeBytes descending =>
      pairEvents range first second offset sizeBytes descending true
  | _ => []

/-- An access is served by a range that is resolved once, at or before it: whatever the
registers hold, it lies in the range and has the address it had. -/
structure IsServed (segment : List IrInstruction) (chunks : List Chunk) (k : ℕ)
    (instruction : IrInstruction) (chunk : Chunk) (raw : RawAccess) (range base : String)
    (minOffset length : Int32) (offset : ℤ) (anchor : ℕ) : Prop where
  original : TryCreate instruction = some raw
  resolved : rangeEvents chunk.instruction =
    [.access range raw.address offset raw.sizeBytes raw.isStore]
  anchor_le : anchor ≤ k
  anchored : ∃ first resolve, chunks[anchor]? = some first ∧ first.resolve = some resolve ∧
    rangeEvents resolve = [.resolve range (IrValue.register base) minOffset length]
  unique : ∀ j other resolve base' minOffset' length', chunks[j]? = some other →
    other.resolve = some resolve →
    rangeEvents resolve = [.resolve range base' minOffset' length'] → j = anchor
  offset_nonneg : 0 ≤ offset
  end_le : offset + raw.sizeBytes ≤ length.toInt
  length_le : length.toInt ≤ 4096
  address : ∀ registers, IsRun segment registers →
    registers anchor (cellOf base) + minOffset.toUInt32 + word offset =
      registers k (cellOf raw.address.base) + raw.address.offset.toUInt32

/-- Every instruction of a segment is left as it is, or it is a served access. -/
structure SegmentSound (segment : List IrInstruction) (chunks : List Chunk) : Prop where
  length : chunks.length = segment.length
  resolves : ∀ chunk ∈ chunks, ∀ resolve, chunk.resolve = some resolve →
    ∃ range base minOffset length,
      rangeEvents resolve = [.resolve range (IrValue.register base) minOffset length]
  each : ∀ (k : ℕ) (chunk : Chunk), chunks[k]? = some chunk →
    ∃ instruction, segment[k]? = some instruction ∧
      (chunk = ⟨none, instruction⟩ ∨
        ∃ raw range base minOffset length offset anchor,
          IsServed segment chunks k instruction chunk raw range base minOffset length offset
            anchor)

/-- What the passes in front promise of an access: its base is no hidden cell, its
displacement has 16 bits, and its size is not negative. -/
structure IsOrdinary (hidden : Set (List Char)) (raw : RawAccess) : Prop where
  base : cellOf raw.address.base ∉ hidden
  displacement : -32768 ≤ raw.address.offset.toInt ∧ raw.address.offset.toInt ≤ 32767
  sizeBytes : 0 ≤ raw.sizeBytes

theorem rangeEvents_ToResolved {segment : List IrInstruction} {instruction : IrInstruction}
    {access : Access} {raw : RawAccess} (plan : Plan)
    (h : IsAccess segment access instruction raw) :
    rangeEvents (ToResolved instruction access plan) =
      [.access plan.range raw.address (Int32.ofInt (access.offset - plan.minOffset)).toInt
        raw.sizeBytes raw.isStore] := by
  have hcreated := h.created
  have hpsq := h.psq
  rcases instruction
  case load destination address sizeBytes =>
    rw [TryCreate] at hcreated
    obtain rfl := Option.some.inj hcreated
    rfl
  case store address source sizeBytes =>
    rw [TryCreate] at hcreated
    obtain rfl := Option.some.inj hcreated
    rfl
  case call destination target arguments =>
    rw [TryCreate] at hcreated
    split at hcreated
    · rename_i psq name hparse hname
      obtain rfl := Option.some.inj hcreated
      rcases arguments with _ | ⟨first, arguments⟩
      · exact absurd hname.symm (Option.some_ne_none _)
      · have hfirst : first.registerName = some name := hname
        have hsome : access.psq = some psq := hpsq
        by_cases hstore : psq.isStore = true
        · simp [ToResolved, hsome, hstore, rangeEvents, hfirst]
        · rw [Bool.not_eq_true] at hstore
          simp [ToResolved, hsome, hstore, rangeEvents, hfirst]
    · exact absurd hcreated.symm (Option.some_ne_none _)
  all_goals exact absurd hcreated.symm (Option.some_ne_none _)

theorem word_eq_toUInt32 (value : Int32) : word value.toInt = value.toUInt32 := by
  rw [word, Int32.ofInt_toInt]

section Segments

variable {hidden : Set (List Char)} {options : Options} {segment : List IrInstruction}

/-- Names that the tracker reads are spelled without its separator. -/
def Spelled (segment : List IrInstruction) : Prop :=
  ∀ instruction ∈ segment, ∀ name ∈ reads instruction, '#' ∉ name.toList

theorem base_mem_reads {instruction : IrInstruction} {raw : RawAccess}
    (h : TryCreate instruction = some raw) : raw.address.base ∈ reads instruction := by
  rw [reads, h]
  exact List.mem_append_left _ (List.mem_singleton_self _)

theorem hash_notMem_origin (hspelled : Spelled segment) {k : ℕ} {name : String}
    (hname : '#' ∉ name.toList) : '#' ∉ (origin segment k name).name.toList := by
  obtain ⟨q, _, _, ⟨_, hsame⟩ | ⟨reader, hreader, hmem⟩⟩ := origin_read segment k name
  · rw [hsame]
    exact hname
  · exact hspelled reader (List.mem_of_getElem? hreader) _ hmem

theorem origin_eq_of_text_eq (hspelled : Spelled segment) (hsettled : Settled segment)
    {access access' : Access} {instruction instruction' : IrInstruction} {raw raw' : RawAccess}
    (h : IsAccess segment access instruction raw)
    (h' : IsAccess segment access' instruction' raw')
    (htext : access.root.text = access'.root.text) :
    (origin segment access.index raw.address.base).position =
        (origin segment access'.index raw'.address.base).position ∧
      cellOf (origin segment access.index raw.address.base).name =
        cellOf (origin segment access'.index raw'.address.base).name := by
  have hread := base_mem_reads h.created
  have hread' := base_mem_reads h'.created
  have hspell := hspelled _ (List.mem_of_getElem? h.at_index) _ hread
  have hspell' := hspelled _ (List.mem_of_getElem? h'.at_index) _ hread'
  rw [h.root, h'.root] at htext
  obtain ⟨hcell, hgeneration⟩ := eq_of_text_eq (hash_notMem_origin hspelled hspell)
    (hash_notMem_origin hspelled hspell') htext
  have hnot := not_position_lt hsettled h.at_index hread hcell hgeneration
  have hnot' := not_position_lt hsettled h'.at_index hread' hcell.symm hgeneration.symm
  exact ⟨by omega, hcell⟩

/-- Along a run, accesses under one root lie apart by the difference of their offsets. -/
theorem address_eq (hcovers : Covers hidden segment) (hspelled : Spelled segment)
    (hsettled : Settled segment) {access access' : Access}
    {instruction instruction' : IrInstruction} {raw raw' : RawAccess}
    (h : IsAccess segment access instruction raw)
    (h' : IsAccess segment access' instruction' raw')
    (htext : access.root.text = access'.root.text)
    (hbase : cellOf raw.address.base ∉ hidden) (hbase' : cellOf raw'.address.base ∉ hidden)
    {registers : ℕ → Registers} (hrun : IsRun segment registers) (minOffset : ℤ) :
    registers access.index (cellOf raw.address.base) + word (minOffset - access.baseDelta) +
        word (access'.offset - minOffset) =
      registers access'.index (cellOf raw'.address.base) + raw'.address.offset.toUInt32 := by
  obtain ⟨hposition, hcell⟩ := origin_eq_of_text_eq hspelled hsettled h h' htext
  have hlength := (List.getElem?_eq_some_iff.mp h.at_index).1
  have hlength' := (List.getElem?_eq_some_iff.mp h'.at_index).1
  rw [value_origin hcovers hrun access.index (Nat.le_of_lt hlength) _ hbase,
    value_origin hcovers hrun access'.index (Nat.le_of_lt hlength') _ hbase', ← h.baseDelta,
    ← h'.baseDelta, hposition, hcell, ← word_eq_toUInt32, UInt32.add_assoc, UInt32.add_assoc,
    UInt32.add_assoc, ← word_add, ← word_add, ← word_add]
  congr 2
  rw [h'.offset]
  omega

theorem plan_facts {n : ℕ} {accesses : List Access} {k : ℕ} {access : Access} {plan : Plan}
    (haccesses : segmentAccesses options segment = some accesses)
    (hplanned : plannedAt (makePlans options.minimumAccesses accesses (groupAccesses accesses)
      n).1 k = some (access, plan)) :
    access.index = k ∧ (∃ instruction raw, IsAccess segment access instruction raw) ∧
      plan.minOffset ≤ access.offset ∧
      access.offset + access.sizeBytes ≤ plan.minOffset + plan.length ∧ 0 < plan.length ∧
      plan.length ≤ 4096 := by
  obtain ⟨grouped, hmem, hin, hindex⟩ := plannedAt_eq_some hplanned
  obtain ⟨hgroup, hserves, _⟩ := mem_makePlans hmem
  have haccess := (mem_groupAccesses hgroup).1 access hin
  rw [segmentAccesses, Option.map_eq_some_iff] at haccesses
  obtain ⟨all, hall, rfl⟩ := haccesses
  have hall' : BuildAccesses options.hardwareConstants (trackerAt segment 0) 0
      (segment.drop 0) = some all := hall
  obtain ⟨instruction, hi, hnew⟩ :=
    mem_BuildAccesses hall' access (List.mem_of_mem_filter haccess)
  obtain ⟨_, raw, hraw⟩ := isAccess_of_newAccess hi hnew
  have hwithin := hserves.within access hin
  exact ⟨hindex, ⟨instruction, raw, hraw⟩, hwithin.1, hwithin.2, hserves.length_pos,
    hserves.length_le⟩

theorem text_eq_of_range_eq {n : ℕ} {accesses : List Access} {k k' : ℕ}
    {access access' : Access} {plan plan' : Plan}
    (hplanned : plannedAt (makePlans options.minimumAccesses accesses (groupAccesses accesses)
      n).1 k = some (access, plan))
    (hplanned' : plannedAt (makePlans options.minimumAccesses accesses (groupAccesses accesses)
      n).1 k' = some (access', plan'))
    (h : plan.range = plan'.range) :
    access.root.text = access'.root.text ∧ plan = plan' := by
  obtain ⟨grouped, hmem, hin, _⟩ := plannedAt_eq_some hplanned
  obtain ⟨grouped', hmem', hin', _⟩ := plannedAt_eq_some hplanned'
  obtain ⟨rfl, rfl⟩ := Prod.mk.inj (eq_of_range_eq hmem hmem' h)
  exact ⟨(mem_groupAccesses (mem_makePlans hmem).1).2 access hin access' hin', rfl⟩

theorem exists_first {p : ℕ → Prop} {k : ℕ} (h : p k) :
    ∃ j, j ≤ k ∧ p j ∧ ∀ i, i < j → ¬ p i := by
  classical
  exact ⟨Nat.find ⟨k, h⟩, Nat.find_min' ⟨k, h⟩ h, Nat.find_spec ⟨k, h⟩,
    fun i hi => Nat.find_min ⟨k, h⟩ hi⟩

theorem toInt_ofInt_small {value : ℤ} (h : 0 ≤ value) (h' : value ≤ 4096) :
    (Int32.ofInt value).toInt = value :=
  Int32.toInt_ofInt_of_le (by omega) (by omega)

theorem LowerSegment_sound (hcovers : Covers hidden segment) (hspelled : Spelled segment)
    (hsettled : Settled segment)
    (hordinary : ∀ instruction ∈ segment, ∀ raw, TryCreate instruction = some raw →
      IsOrdinary hidden raw)
    {nextRange number : ℕ} {chunks : List Chunk}
    (h : LowerSegment options segment nextRange = some (chunks, number)) :
    SegmentSound segment chunks := by
  rw [LowerSegment, Option.bind_eq_some_iff] at h
  obtain ⟨accesses, haccesses, h⟩ := h
  rw [Option.map_eq_some_iff] at h
  obtain ⟨emitted, hemit, heq⟩ := h
  obtain ⟨rfl, rfl⟩ := Prod.mk.inj heq
  have hemit' : emitSegment (makePlans options.minimumAccesses accesses
      (groupAccesses accesses) nextRange).1 [] 0 (segment.drop 0) = some emitted := hemit
  obtain ⟨hlength, hchunks⟩ := isEmitted_emitSegment hemit'
  simp only [Nat.zero_add] at hchunks
  have hresolves : ∀ chunk ∈ emitted, ∀ resolve, chunk.resolve = some resolve →
      ∃ range base minOffset length,
        rangeEvents resolve = [.resolve range (IrValue.register base) minOffset length] := by
    intro chunk hmem resolve hresolve
    obtain ⟨k, hk⟩ := List.getElem?_of_mem hmem
    obtain ⟨instruction, _, hchunk⟩ := hchunks k chunk hk
    obtain ⟨access, plan, _, rfl, _⟩ := hchunk.of_resolve hresolve
    exact ⟨_, _, _, _, rfl⟩
  refine ⟨hlength, hresolves, fun k chunk hk => ?_⟩
  obtain ⟨instruction, hi, hchunk⟩ := hchunks k chunk hk
  refine ⟨instruction, hi, ?_⟩
  rcases hplanned : plannedAt (makePlans options.minimumAccesses accesses
      (groupAccesses accesses) nextRange).1 k with _ | ⟨access, plan⟩
  · exact Or.inl (hchunk.unplanned hplanned)
  right
  obtain ⟨hindex, ⟨instruction', raw, haccess⟩, hmin, hend, hpos, hle⟩ :=
    plan_facts haccesses hplanned
  subst hindex
  obtain rfl := Option.some.inj (haccess.at_index.symm.trans hi)
  have hraw := hordinary _ (List.mem_of_getElem? hi) raw haccess.created
  have hrange : rangeAt (makePlans options.minimumAccesses accesses
      (groupAccesses accesses) nextRange).1 access.index = some plan.range := by
    rw [rangeAt, hplanned, Option.map_some]
  -- The first access of the range is its anchor.
  obtain ⟨j, hj, hjrange, hfirst⟩ := exists_first (p := fun j => rangeAt
    (makePlans options.minimumAccesses accesses (groupAccesses accesses) nextRange).1 j =
      some plan.range) hrange
  rw [rangeAt, Option.map_eq_some_iff] at hjrange
  obtain ⟨⟨anchor, plan'⟩, hanchor, hsame⟩ := hjrange
  obtain ⟨htext, rfl⟩ := text_eq_of_range_eq hanchor hplanned hsame
  obtain ⟨rfl, ⟨anchorInstruction, anchorRaw, hanchorAccess⟩, hmin', hend', _, _⟩ :=
    plan_facts haccesses hanchor
  have hanchorRaw := hordinary _ (List.mem_of_getElem? hanchorAccess.at_index) anchorRaw
    hanchorAccess.created
  have hanchorLength : anchor.index < emitted.length := by
    rw [hlength, List.drop_zero]
    exact (List.getElem?_eq_some_iff.mp hanchorAccess.at_index).1
  have hanchorChunk := List.getElem?_eq_getElem hanchorLength
  obtain ⟨_, _, hanchorEmitted⟩ := hchunks anchor.index _ hanchorChunk
  obtain ⟨hresolve, _⟩ := hanchorEmitted.anchor anchor plan' hanchor List.not_mem_nil
    fun i _ hi => hfirst i hi
  have hsize := hraw.sizeBytes
  rw [← haccess.sizeBytes] at hsize
  have hrelative : (Int32.ofInt (access.offset - plan'.minOffset)).toInt =
      access.offset - plan'.minOffset := toInt_ofInt_small (by omega) (by omega)
  have hplanLength : (Int32.ofInt plan'.length).toInt = plan'.length :=
    toInt_ofInt_small (by omega) (by omega)
  refine ⟨raw, plan'.range, anchor.originalBase, Int32.ofInt (plan'.minOffset - anchor.baseDelta),
    Int32.ofInt plan'.length, access.offset - plan'.minOffset, anchor.index, ?_⟩
  refine
    { original := haccess.created
      resolved := ?_
      anchor_le := hj
      anchored := ⟨_, _, hanchorChunk, hresolve, rfl⟩
      unique := ?_
      offset_nonneg := by omega
      end_le := ?_
      length_le := ?_
      address := ?_ }
  · rw [hchunk.planned access plan' hplanned, rangeEvents_ToResolved plan' haccess, hrelative]
  · intro i other resolve base' minOffset' length' hother hsomething hevents
    obtain ⟨otherInstruction, _, hotherEmitted⟩ := hchunks i other hother
    obtain ⟨otherAccess, otherPlan, hotherPlan, rfl, hnone⟩ :=
      hotherEmitted.of_resolve hsomething
    rw [resolveAt, rangeEvents, List.cons.injEq, RangeEvent.resolve.injEq] at hevents
    have hname : otherPlan.range = plan'.range := hevents.1.1
    rcases Nat.lt_trichotomy i anchor.index with hlt | heq | hlt
    · refine absurd ?_ (hfirst i hlt)
      rw [rangeAt, hotherPlan, Option.map_some, hname]
    · exact heq
    · refine absurd ?_ (hnone anchor.index hlt)
      rw [rangeAt, hanchor, Option.map_some, hname]
  · rw [hplanLength, ← haccess.sizeBytes]
    omega
  · rw [hplanLength]
    exact hle
  · intro registers hrun
    rw [hanchorAccess.originalBase]
    exact address_eq hcovers hspelled hsettled hanchorAccess haccess htext hanchorRaw.base
      hraw.base hrun plan'.minOffset

theorem LowerSegment_ne_none
    (hordinary : ∀ instruction ∈ segment, ∀ raw, TryCreate instruction = some raw →
      IsOrdinary hidden raw) (nextRange : ℕ) :
    LowerSegment options segment nextRange ≠ none ↔ Fits options.hardwareConstants segment := by
  rw [← BuildAccesses_ne_none, LowerSegment, segmentAccesses]
  rcases hbuild : BuildAccesses options.hardwareConstants .initial 0 segment with _ | all
  · exact ⟨fun h => absurd rfl h, fun h => absurd rfl h⟩
  · have haccesses : segmentAccesses options segment =
        some (all.filter fun access => !options.scalarOnly || access.psq.isNone) := by
      rw [segmentAccesses, hbuild, Option.map_some]
    constructor
    · exact fun _ => Option.some_ne_none _
    · intro _
      rw [Option.map_some, Option.bind_some, Ne, Option.map_eq_none_iff]
      apply emitSegment_ne_none
      intro k access plan hplanned
      obtain ⟨_, ⟨instruction, raw, haccess⟩, hmin, hend, hpos, hle⟩ :=
        plan_facts haccesses hplanned
      have hraw := hordinary _ (List.mem_of_getElem? haccess.at_index) raw haccess.created
      have hsize := hraw.sizeBytes
      have hdisplacement := hraw.displacement
      rw [← haccess.sizeBytes] at hsize
      rw [haccess.offset] at hmin hend
      constructor <;> omega

end Segments

/-! ## Blocks -/

def Part.original : Part → List IrInstruction
  | .boundary instruction => [instruction]
  | .segment instructions => instructions

def LoweredPart.original : LoweredPart → List IrInstruction
  | .boundary instruction => [instruction]
  | .segment instructions _ => instructions

/-- What the passes in front of the lowering promise of a block. -/
structure WellFormed (hidden : Set (List Char)) (block : List IrInstruction) : Prop where
  spelled : Spelled block
  settled : Settled block
  helper : ∀ instruction ∈ block, IsOwnershipBoundary instruction = false →
    ∀ cell, HelperWrites instruction cell → cell ∈ hidden
  passed : ∀ instruction ∈ block, ∀ source constant,
    followed instruction = some (source, constant) → cellOf source ∈ hidden →
    ∀ destination ∈ instruction.definitions, cellOf destination ∈ hidden
  ordinary : ∀ instruction ∈ block, ∀ raw, TryCreate instruction = some raw →
    IsOrdinary hidden raw
  resolved : ∀ instruction ∈ block, ∀ range address offset sizeBytes isStore,
    .access range address offset sizeBytes isStore ∈ rangeEvents instruction →
    0 ≤ offset ∧ offset ≤ 4096

theorem flatMap_flushed (segment : List IrInstruction) :
    (flushed segment).flatMap Part.original = segment := by
  rw [flushed]
  rcases segment with _ | ⟨instruction, segment⟩
  · rfl
  · simp [Part.original]

theorem flatMap_parts (block segment : List IrInstruction) :
    (parts block segment).flatMap Part.original = segment ++ block := by
  induction block generalizing segment with
  | nil => rw [parts, flatMap_flushed, List.append_nil]
  | cons instruction block ih =>
      rw [parts]
      split
      · rw [List.flatMap_append, flatMap_flushed, List.flatMap_cons, ih]
        rfl
      · rw [ih, List.append_assoc]
        rfl

theorem mem_flushed {segment instructions : List IrInstruction}
    (h : .segment instructions ∈ flushed segment) : instructions = segment := by
  rw [flushed] at h
  split at h
  · exact absurd h List.not_mem_nil
  · exact Part.segment.inj (List.mem_singleton.mp h)

theorem not_boundary_of_mem_parts {block segment instructions : List IrInstruction}
    (hsegment : ∀ instruction ∈ segment, IsOwnershipBoundary instruction = false)
    (h : .segment instructions ∈ parts block segment) :
    ∀ instruction ∈ instructions, IsOwnershipBoundary instruction = false := by
  induction block generalizing segment with
  | nil =>
      obtain rfl := mem_flushed h
      exact hsegment
  | cons instruction block ih =>
      rw [parts] at h
      split at h
      · rw [List.mem_append, List.mem_cons] at h
        rcases h with h | h | h
        · obtain rfl := mem_flushed h
          exact hsegment
        · exact absurd h Part.noConfusion
        · exact ih (fun _ hmem => absurd hmem List.not_mem_nil) h
      · rename_i hboundary
        rw [Bool.not_eq_true] at hboundary
        refine ih ?_ h
        intro other hother
        rcases List.mem_append.mp hother with hother | hother
        · exact hsegment other hother
        · rw [List.mem_singleton.mp hother]
          exact hboundary

theorem Settled.part {block segment : List IrInstruction} (h : Settled block)
    (hpart : segment <:+: block) : Settled segment := by
  obtain ⟨before, after, rfl⟩ := hpart
  intro i j first later name hij hi hj
  have hshift : ∀ n instruction, segment[n]? = some instruction →
      (before ++ segment ++ after)[before.length + n]? = some instruction := by
    intro n instruction hn
    have hlength := (List.getElem?_eq_some_iff.mp hn).1
    rw [List.append_assoc, List.getElem?_append_right (by omega), Nat.add_sub_cancel_left,
      List.getElem?_append_left hlength]
    exact hn
  exact h (before.length + i) (before.length + j) first later name (by omega)
    (hshift i first hi) (hshift j later hj)

section Blocks

variable {hidden : Set (List Char)} {options : Options} {block : List IrInstruction}

/-- The promises for a block hold for its segments. -/
structure WellFormedSegment (hidden : Set (List Char)) (segment : List IrInstruction) :
    Prop where
  covers : Covers hidden segment
  spelled : Spelled segment
  settled : Settled segment
  ordinary : ∀ instruction ∈ segment, ∀ raw, TryCreate instruction = some raw →
    IsOrdinary hidden raw

theorem WellFormed.segment (h : WellFormed hidden block) {segment : List IrInstruction}
    (hsegment : .segment segment ∈ parts block []) : WellFormedSegment hidden segment := by
  have hpart : segment <:+: block := by
    obtain ⟨before, after, hparts⟩ := List.append_of_mem hsegment
    have hflat := flatMap_parts block []
    rw [hparts, List.nil_append, List.flatMap_append, List.flatMap_cons,
      ← List.append_assoc] at hflat
    exact ⟨_, _, hflat⟩
  have hmem : ∀ instruction ∈ segment, instruction ∈ block := fun _ hin => hpart.subset hin
  have hinside := not_boundary_of_mem_parts (fun _ hnil => absurd hnil List.not_mem_nil) hsegment
  refine ⟨⟨?_, ?_⟩, ?_, h.settled.part hpart, ?_⟩
  · exact fun instruction hin => h.helper instruction (hmem _ hin) (hinside _ hin)
  · exact fun instruction hin => h.passed instruction (hmem _ hin)
  · exact fun instruction hin => h.spelled instruction (hmem _ hin)
  · exact fun instruction hin => h.ordinary instruction (hmem _ hin)

theorem lowerParts_ne_none {pieces : List Part}
    (hpieces : ∀ segment, .segment segment ∈ pieces → WellFormedSegment hidden segment)
    (nextRange : ℕ) :
    lowerParts options pieces nextRange ≠ none ↔
      ∀ segment, .segment segment ∈ pieces → Fits options.hardwareConstants segment := by
  induction pieces generalizing nextRange with
  | nil =>
      constructor
      · exact fun _ segment h => absurd h List.not_mem_nil
      · exact fun _ => Option.some_ne_none _
  | cons piece pieces ih =>
      have hrest : ∀ segment, .segment segment ∈ pieces → WellFormedSegment hidden segment :=
        fun segment h => hpieces segment (List.mem_cons_of_mem _ h)
      rcases piece with instruction | instructions
      · rw [lowerParts, Ne, Option.map_eq_none_iff, ← Ne, ih hrest]
        constructor
        · intro h segment hsegment
          exact h segment ((List.mem_cons.mp hsegment).resolve_left nofun)
        · exact fun h segment hsegment => h segment (List.mem_cons_of_mem _ hsegment)
      · have hfirst : LowerSegment options instructions nextRange ≠ none ↔ _ :=
          LowerSegment_ne_none (hpieces _ List.mem_cons_self).ordinary nextRange
        rw [lowerParts]
        rcases hlower : LowerSegment options instructions nextRange with _ | ⟨chunks, number⟩
        · rw [hlower] at hfirst
          constructor
          · exact fun h => absurd rfl h
          · exact fun h => absurd (h instructions List.mem_cons_self) fun hfits =>
              hfirst.mpr hfits rfl
        · rw [Option.bind_some, Ne, Option.map_eq_none_iff, ← Ne, ih hrest]
          rw [hlower] at hfirst
          constructor
          · intro h segment hsegment
            rcases List.mem_cons.mp hsegment with heq | hsegment
            · rw [Part.segment.inj heq]
              exact hfirst.mp (Option.some_ne_none _)
            · exact h segment hsegment
          · exact fun h segment hsegment => h segment (List.mem_cons_of_mem _ hsegment)

theorem lowerParts_sound {pieces : List Part}
    (hpieces : ∀ segment, .segment segment ∈ pieces → WellFormedSegment hidden segment)
    {nextRange number : ℕ} {lowered : List LoweredPart}
    (h : lowerParts options pieces nextRange = some (lowered, number)) :
    lowered.flatMap LoweredPart.original = pieces.flatMap Part.original ∧
      ∀ segment chunks, .segment segment chunks ∈ lowered → SegmentSound segment chunks := by
  induction pieces generalizing nextRange number lowered with
  | nil =>
      rw [lowerParts] at h
      obtain ⟨rfl, _⟩ := Prod.mk.inj (Option.some.inj h)
      exact ⟨rfl, fun segment chunks hmem => absurd hmem List.not_mem_nil⟩
  | cons piece pieces ih =>
      have hrest : ∀ segment, .segment segment ∈ pieces → WellFormedSegment hidden segment :=
        fun segment h => hpieces segment (List.mem_cons_of_mem _ h)
      rcases piece with instruction | instructions
      · rw [lowerParts, Option.map_eq_some_iff] at h
        obtain ⟨⟨later, number'⟩, hlater, heq⟩ := h
        obtain ⟨rfl, _⟩ := Prod.mk.inj heq
        obtain ⟨hflat, hsound⟩ := ih hrest hlater
        refine ⟨congrArg (instruction :: ·) hflat, ?_⟩
        intro segment chunks hmem
        exact hsound segment chunks ((List.mem_cons.mp hmem).resolve_left nofun)
      · rw [lowerParts, Option.bind_eq_some_iff] at h
        obtain ⟨⟨chunks, middle⟩, hlower, h⟩ := h
        rw [Option.map_eq_some_iff] at h
        obtain ⟨⟨later, number'⟩, hlater, heq⟩ := h
        obtain ⟨rfl, _⟩ := Prod.mk.inj heq
        obtain ⟨hflat, hsound⟩ := ih hrest hlater
        refine ⟨congrArg (instructions ++ ·) hflat, ?_⟩
        intro segment chunks' hmem
        rcases List.mem_cons.mp hmem with heq | hmem
        · obtain ⟨rfl, rfl⟩ := LoweredPart.segment.inj heq
          have hfirst := hpieces _ List.mem_cons_self
          exact LowerSegment_sound hfirst.covers hfirst.spelled hfirst.settled hfirst.ordinary
            hlower
        · exact hsound segment chunks' hmem

end Blocks

/-! ## Pairs -/

def OffsetsSmall (instructions : List IrInstruction) : Prop :=
  ∀ instruction ∈ instructions, ∀ range address offset sizeBytes isStore,
    .access range address offset sizeBytes isStore ∈ rangeEvents instruction →
    0 ≤ offset ∧ offset ≤ 4096

theorem rangeEvents_of_skips {ignoreTraces : Bool} {forbiddenUse : Option String}
    {instruction : IrInstruction} (h : skips ignoreTraces forbiddenUse instruction = true) :
    rangeEvents instruction = [] := by
  rcases instruction
  case assign => rfl
  case binary => rfl
  case tracePpc => rfl
  all_goals
    have hnone : (ignoreTraces && false || false) = true := h
    rw [Bool.and_false] at hnone
    exact absurd hnone (by decide)

theorem rangeEvents_of_mem_skipped {ignoreTraces : Bool} {first instruction : IrInstruction}
    {rest : List IrInstruction} (h : instruction ∈ skipped ignoreTraces first rest) :
    rangeEvents instruction = [] := by
  rw [skipped.eq_def] at h
  split at h
  · exact rangeEvents_of_skips (List.all_eq_true.mp List.all_takeWhile _ h)
  · exact rangeEvents_of_skips (List.all_eq_true.mp List.all_takeWhile _ h)
  · exact absurd h List.not_mem_nil

theorem skipped_append_drop (ignoreTraces : Bool) (first : IrInstruction)
    (rest : List IrInstruction) :
    skipped ignoreTraces first rest ++
      rest.drop (skipped ignoreTraces first rest).length = rest := by
  have hstart : skipped ignoreTraces first rest <+: rest := by
    rw [skipped.eq_def]
    split
    · exact List.takeWhile_prefix _
    · exact List.takeWhile_prefix _
    · exact List.nil_prefix
  exact List.prefix_iff_eq_append.mp hstart

theorem areAdjacent_small {first second size : Int32}
    (hfirst : 0 ≤ first.toInt ∧ first.toInt ≤ 4096)
    (hsecond : 0 ≤ second.toInt ∧ second.toInt ≤ 4096) :
    ∃ adjacent, areAdjacent first second size = some adjacent ∧
      (adjacent = true → (second < first → first.toInt = second.toInt + size.toInt) ∧
        (¬ second < first → second.toInt = first.toInt + size.toInt)) := by
  have hdifference : (second - first).toInt = second.toInt - first.toInt := by
    rw [Int32.toInt_sub]
    exact Int.bmod_eq_of_le (by omega) (by omega)
  have hnot : second - first ≠ Int32.minValue := by
    intro h
    have hmin := congrArg Int32.toInt h
    rw [hdifference] at hmin
    have hvalue : Int32.minValue.toInt = -2147483648 := by decide
    omega
  rw [areAdjacent]
  by_cases hsize : size = 2 ∨ size = 4
  · rw [if_pos hsize, absInt, if_neg hnot, Option.map_some]
    refine ⟨_, rfl, fun h => ?_⟩
    have habs := of_decide_eq_true h
    rw [hdifference] at habs
    rw [Int32.lt_iff_toInt_lt]
    omega
  · rw [if_neg hsize]
    exact ⟨false, rfl, fun h => absurd h Bool.false_ne_true⟩

theorem areAdjacent_sound {firstOffset secondOffset : Int32}
    (hfirst : 0 ≤ firstOffset.toInt ∧ firstOffset.toInt ≤ 4096)
    (hsecond : 0 ≤ secondOffset.toInt ∧ secondOffset.toInt ≤ 4096)
    (range : String) (firstAddress secondAddress : IrAddress) (size : Int32) (isStore : Bool)
    {combined : IrInstruction}
    (hcombined : rangeEvents combined = pairEvents range firstAddress secondAddress
      (min firstOffset secondOffset) size (decide (secondOffset < firstOffset)) isStore) :
    ∃ pair, ((areAdjacent firstOffset secondOffset size).map fun adjacent =>
        if adjacent then some combined else none) = some pair ∧
      ∀ instruction, pair = some instruction → rangeEvents instruction =
        [.access range firstAddress firstOffset.toInt size.toInt isStore,
          .access range secondAddress secondOffset.toInt size.toInt isStore] := by
  obtain ⟨adjacent, hadjacent, hoffsets⟩ := @areAdjacent_small _ _ size hfirst hsecond
  rw [hadjacent, Option.map_some]
  refine ⟨_, rfl, fun instruction h => ?_⟩
  by_cases hyes : adjacent = true
  · rw [if_pos hyes] at h
    obtain rfl := Option.some.inj h
    rw [hcombined]
    by_cases hlt : secondOffset < firstOffset
    · have hmin : min firstOffset secondOffset = secondOffset := if_neg (Int32.not_le.mpr hlt)
      rw [pairEvents, hmin, ← (hoffsets hyes).1 hlt]
      simp [hlt]
    · have hmin : min firstOffset secondOffset = firstOffset := if_pos (Int32.not_lt.mp hlt)
      rw [pairEvents, hmin, ← (hoffsets hyes).2 hlt]
      simp [hlt]
  · rw [if_neg hyes] at h
    exact absurd h.symm (Option.some_ne_none _)

theorem combinePair_sound {first second : IrInstruction}
    (hsmall : OffsetsSmall [first, second]) :
    ∃ pair, combinePair first second = some pair ∧
      ∀ instruction, pair = some instruction →
        rangeEvents instruction = rangeEvents first ++ rangeEvents second := by
  have hfirst := hsmall first List.mem_cons_self
  have hsecond := hsmall second (List.mem_cons_of_mem _ List.mem_cons_self)
  have hnone : ∃ pair : Option IrInstruction, some none = some pair ∧
      ∀ instruction, pair = some instruction →
        rangeEvents instruction = rangeEvents first ++ rangeEvents second :=
    ⟨none, rfl, fun _ h => absurd h.symm (Option.some_ne_none _)⟩
  rw [combinePair.eq_def]
  split
  · split
    · rename_i hsame
      obtain ⟨rfl, rfl⟩ := hsame
      exact areAdjacent_sound (hfirst _ _ _ _ _ (List.mem_singleton_self _))
        (hsecond _ _ _ _ _ (List.mem_singleton_self _)) _ _ _ _ _ rfl
    · exact hnone
  · split
    · rename_i hsame
      obtain ⟨rfl, rfl⟩ := hsame
      exact areAdjacent_sound (hfirst _ _ _ _ _ (List.mem_singleton_self _))
        (hsecond _ _ _ _ _ (List.mem_singleton_self _)) _ _ _ _ _ rfl
    · exact hnone
  · exact hnone

/-- Combining neither throws nor changes what happens to the ranges. -/
theorem CombineAdjacentLoads_sound (ignoreTraces : Bool) (instructions : List IrInstruction)
    (hsmall : OffsetsSmall instructions) :
    ∃ combined, CombineAdjacentLoads ignoreTraces instructions = some combined ∧
      combined.flatMap rangeEvents = instructions.flatMap rangeEvents := by
  induction hn : instructions.length using Nat.strong_induction_on generalizing instructions with
  | _ n ih =>
      rcases instructions with _ | ⟨first, rest⟩
      · exact ⟨[], by rw [CombineAdjacentLoads], rfl⟩
      have hrest : OffsetsSmall rest := fun i hi => hsmall i (List.mem_cons_of_mem _ hi)
      obtain ⟨combined, hcombined, hflat⟩ := ih rest.length (by rw [← hn]; simp) rest hrest rfl
      have hkeep : ∃ kept, (CombineAdjacentLoads ignoreTraces rest).map (first :: ·) = some kept ∧
          kept.flatMap rangeEvents = (first :: rest).flatMap rangeEvents := by
        rw [hcombined, Option.map_some]
        refine ⟨_, rfl, ?_⟩
        rw [List.flatMap_cons, List.flatMap_cons, hflat]
      have hsplit := skipped_append_drop ignoreTraces first rest
      rw [CombineAdjacentLoads]
      split
      · exact hkeep
      · rename_i second later hdrop
        rw [hdrop] at hsplit
        have hsecond : second ∈ rest := by
          rw [← hsplit]
          exact List.mem_append_right _ List.mem_cons_self
        obtain ⟨pair, hpair, hevents⟩ := combinePair_sound (fun i hi => hsmall i (by
          rcases List.mem_cons.mp hi with rfl | hi
          · exact List.mem_cons_self
          · rw [List.mem_singleton.mp hi]
            exact List.mem_cons_of_mem _ hsecond) : OffsetsSmall [first, second])
        rw [hpair, Option.bind_some]
        rcases pair with _ | pair
        · exact hkeep
        · have hlength : later.length < n := by
            rw [← hn, ← hsplit]
            simp only [List.length_cons, List.length_append]
            omega
          obtain ⟨combined', hcombined', hflat'⟩ := ih later.length hlength later
            (fun i hi => hrest i (by
              rw [← hsplit]
              exact List.mem_append_right _ (List.mem_cons_of_mem _ hi))) rfl
          dsimp only
          rw [hcombined', Option.map_some]
          refine ⟨_, rfl, ?_⟩
          have hskipped : (skipped ignoreTraces first rest).flatMap rangeEvents = [] :=
            List.flatMap_eq_nil_iff.mpr fun i hi => rangeEvents_of_mem_skipped hi
          rw [List.flatMap_append, List.flatMap_cons, hskipped, hflat', hevents pair rfl,
            List.flatMap_cons]
          conv_rhs => rw [← hsplit]
          rw [List.flatMap_append, hskipped, List.flatMap_cons, List.nil_append, List.nil_append,
            List.append_assoc]

/-! ## The lowering of a block -/

/-- The lowering returns, each of its segments is sound, and combining pairs keeps what
happens to the ranges. -/
def LowersSoundly (options : Options) (block : List IrInstruction) (nextRange : ℕ) : Prop :=
  ∃ lowered number combined,
    LowerBlock options block nextRange = some (lowered, number) ∧
    Lower options block nextRange = some (combined, number) ∧
    lowered.flatMap LoweredPart.original = block ∧
    combined.flatMap rangeEvents =
      (lowered.flatMap LoweredPart.instructions).flatMap rangeEvents ∧
    ∀ segment chunks, .segment segment chunks ∈ lowered → SegmentSound segment chunks

theorem SegmentSound.offsetsSmall {hidden : Set (List Char)} {segment : List IrInstruction}
    {chunks : List Chunk} (h : SegmentSound segment chunks) (hsmall : OffsetsSmall segment)
    (hordinary : ∀ instruction ∈ segment, ∀ raw, TryCreate instruction = some raw →
      IsOrdinary hidden raw) :
    OffsetsSmall (chunks.flatMap Chunk.instructions) := by
  intro instruction hmem range address offset sizeBytes isStore hevent
  obtain ⟨chunk, hchunk, hin⟩ := List.mem_flatMap.mp hmem
  rcases List.mem_append.mp hin with hin | hin
  · obtain ⟨range', base, minOffset, length, hresolve⟩ :=
      h.resolves chunk hchunk instruction (Option.mem_toList.mp hin)
    rw [hresolve, List.mem_singleton] at hevent
    exact absurd hevent RangeEvent.noConfusion
  · obtain rfl := List.mem_singleton.mp hin
    obtain ⟨k, hk⟩ := List.getElem?_of_mem hchunk
    obtain ⟨original, hi, hsame | ⟨raw, _, _, _, _, relative, _, hserved⟩⟩ := h.each k chunk hk
    · rw [hsame] at hevent
      exact hsmall original (List.mem_of_getElem? hi) _ _ _ _ _ hevent
    · rw [hserved.resolved, List.mem_singleton, RangeEvent.access.injEq] at hevent
      have hsize := (hordinary _ (List.mem_of_getElem? hi) raw hserved.original).sizeBytes
      have hend := hserved.end_le
      have hle := hserved.length_le
      have hnonneg := hserved.offset_nonneg
      rw [hevent.2.2.1]
      omega

theorem offsetsSmall_lowered {hidden : Set (List Char)} {options : Options}
    {block : List IrInstruction} (hwell : WellFormed hidden block) {nextRange number : ℕ}
    {lowered : List LoweredPart}
    (h : LowerBlock options block nextRange = some (lowered, number)) :
    OffsetsSmall (lowered.flatMap LoweredPart.instructions) := by
  have hsegments : ∀ segment, .segment segment ∈ parts block [] →
      WellFormedSegment hidden segment := fun segment hsegment => hwell.segment hsegment
  obtain ⟨hflat, hsound⟩ := lowerParts_sound hsegments h
  have hmem : ∀ part ∈ lowered, ∀ instruction ∈ part.original, instruction ∈ block := by
    intro part hpart instruction hin
    have hall := List.mem_flatMap.mpr ⟨part, hpart, hin⟩
    rwa [hflat, flatMap_parts, List.nil_append] at hall
  intro instruction hin
  obtain ⟨part, hpart, hin⟩ := List.mem_flatMap.mp hin
  rcases part with boundary | ⟨segment, chunks⟩
  · obtain rfl := List.mem_singleton.mp hin
    exact hwell.resolved _ (hmem _ hpart _ (List.mem_singleton_self _))
  · have hordinary : ∀ i ∈ segment, ∀ raw, TryCreate i = some raw → IsOrdinary hidden raw :=
      fun i hi => hwell.ordinary i (hmem _ hpart i hi)
    have hresolved : OffsetsSmall segment := fun i hi => hwell.resolved i (hmem _ hpart i hi)
    exact (hsound segment chunks hpart).offsetsSmall hresolved hordinary instruction hin

theorem WellFormed.of_architectural {block : List IrInstruction}
    (hkinds : ∀ instruction ∈ block, instruction matches .load .. | .binary ..)
    (hreads : ∀ instruction ∈ block, ∀ name ∈ reads instruction,
      '#' ∉ name.toList ∧ IsArchitecturalRegister name = true)
    (hordinary : ∀ instruction ∈ block, ∀ raw ∈ TryCreate instruction,
      (-32768 ≤ raw.address.offset.toInt ∧ raw.address.offset.toInt ≤ 32767) ∧
        0 ≤ raw.sizeBytes) :
    WellFormed ∅ block where
  spelled instruction hin name hname := (hreads instruction hin name hname).1
  settled i j first later name _ hi _ hname hnot := by
    rw [(hreads first (List.mem_of_getElem? hi) name hname).2] at hnot
    exact absurd hnot.symm Bool.false_ne_true
  helper instruction hin _ cell hcell := by
    obtain ⟨destination, target, arguments, _, rfl, _⟩ := hcell
    exact absurd (hkinds _ hin) Bool.false_ne_true
  passed _ _ _ _ _ hhidden := absurd hhidden (Set.notMem_empty _)
  ordinary instruction hin raw hraw :=
    ⟨Set.notMem_empty _, (hordinary instruction hin raw hraw).1,
      (hordinary instruction hin raw hraw).2⟩
  resolved instruction hin range address offset sizeBytes isStore hevent := by
    have hkind := hkinds instruction hin
    rcases instruction
    case load => exact absurd hevent List.not_mem_nil
    case binary => exact absurd hevent List.not_mem_nil
    all_goals exact absurd hkind Bool.false_ne_true

def sampleOptions : Options where
  minimumAccesses := 2
  scalarOnly := false
  ignoreDisabledPcTraces := false
  hardwareConstants _ := none

/-- `addi r3, r3, 8` and two loads. -/
def updatedBaseBlock : List IrInstruction :=
  [.binary "r3_1" (IrValue.register "r3_0") (IrValue.imm 8) "add",
    .load "r4_0" ⟨"r3_1", 0⟩ 4, .load "r5_0" ⟨"r3_1", 4⟩ 4]

/-- `addis r3, r3, 0x7FFF`, two `addi r3, r3, 0x7FFF`, and a load past them. -/
def walkedBaseBlock : List IrInstruction :=
  [.binary "r3_1" (IrValue.register "r3_0") (IrValue.imm 0x7FFF0000) "add",
    .binary "r3_2" (IrValue.register "r3_1") (IrValue.imm 0x7FFF) "add",
    .binary "r3_3" (IrValue.register "r3_2") (IrValue.imm 0x7FFF) "add",
    .load "r4_0" ⟨"r3_3", 2⟩ 4]

end Wiicompiled.CodeGen.GuestMemoryRangeLowering
