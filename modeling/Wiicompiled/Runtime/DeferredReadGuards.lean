import Wiicompiled.Runtime.GuestFlatMemory
import Mathlib.Data.List.Count
import Mathlib.Data.List.Perm.Basic
import Mathlib.Data.List.TakeWhile

/-!
# Guards of deferred reads

A page of mapped memory should be inaccessible exactly when a deferred read that is not
yet filled touches it.  Pages are opened for a whole read at a time, so this is kept as
long as reads that share a page are taken out together.
-/

namespace Wiicompiled.Runtime.GuestFlat

open PageSpans

/-! ## Pages of reads -/

namespace DeferredRead

variable (read : DeferredRead)

/-- A read that the registration accepts. -/
structure Valid : Prop where
  pos : 0 < read.length
  fits : read.start + read.length ≤ 2 ^ 32

def TouchesPage (page : ℕ) : Prop :=
  Touches hostPageSize read.start read.length page

instance (page : ℕ) : Decidable (read.TouchesPage page) :=
  inferInstanceAs (Decidable (Touches ..))

/-- The entry of the read in the table of the view. -/
def guard : GuardedRange :=
  ⟨read.start, (read.start + read.length) % 2 ^ 32⟩

variable {read} {other : DeferredRead} {page : ℕ}

theorem Valid.eq_of_guard_eq (h : read.Valid) (hother : other.Valid)
    (heq : read.guard = other.guard) :
    read.start = other.start ∧ read.length = other.length := by
  obtain ⟨hpos, hfits⟩ := h
  obtain ⟨hpos', hfits'⟩ := hother
  simp only [guard, GuardedRange.mk.injEq] at heq
  omega

end DeferredRead

/-! ## Opening pages -/

namespace FlatState

variable {flat : FlatState} {read : DeferredRead} {reads : List DeferredRead} {page : ℕ}

@[simp]
theorem deferredRanges_protectRange (address size : ℕ) (flags : Protection) :
    (flat.protectRange address size flags).deferredRanges = flat.deferredRanges := by
  rw [protectRange]

@[simp]
theorem executableProtectedPages_protectRange (address size : ℕ) (flags : Protection) :
    (flat.protectRange address size flags).executableProtectedPages =
      flat.executableProtectedPages := by
  rw [protectRange]

theorem protection_protectRange_span (flags : Protection) :
    (flat.protectRange (roundDown hostPageSize read.start)
        (roundUp hostPageSize (read.start + read.length) -
          roundDown hostPageSize read.start) flags).protection page =
      if Touches hostPageSize read.start read.length page then flags
      else flat.protection page := by
  have hsize : 0 < hostPageSize := by decide
  have hle : roundDown hostPageSize read.start ≤
      roundUp hostPageSize (read.start + read.length) :=
    roundDown_le.trans ((Nat.le_add_right _ _).trans (le_roundUp hsize))
  simp only [protectRange, Nat.add_sub_cancel' hle, mem_span_iff hsize]

theorem unprotectDeferredRange_eq (h : read.Valid) :
    flat.unprotectDeferredRange read.start read.length =
      if read.guard ∈ flat.deferredRanges then
        { flat with deferredRanges := flat.deferredRanges.erase read.guard }.protectRange
          (roundDown hostPageSize read.start)
          (roundUp hostPageSize (read.start + read.length) -
            roundDown hostPageSize read.start) .readWrite
      else flat := by
  rw [unprotectDeferredRange, if_neg (Nat.pos_iff_ne_zero.mp h.pos)]
  rfl

theorem deferredRanges_unprotect (h : read.Valid) :
    (flat.unprotectDeferredRange read.start read.length).deferredRanges =
      flat.deferredRanges.erase read.guard := by
  rw [unprotectDeferredRange_eq h]
  split_ifs with hmem
  · rfl
  · rw [List.erase_of_not_mem hmem]

theorem protection_unprotect (h : read.Valid) :
    (flat.unprotectDeferredRange read.start read.length).protection page =
      if read.guard ∈ flat.deferredRanges ∧ read.TouchesPage page then .readWrite
      else flat.protection page := by
  rw [unprotectDeferredRange_eq h]
  by_cases hmem : read.guard ∈ flat.deferredRanges
  · rw [if_pos hmem, protection_protectRange_span]
    simp only [hmem, true_and]
    rfl
  · rw [if_neg hmem, if_neg fun h => hmem h.1]

theorem executableProtectedPages_unprotect (h : read.Valid) :
    (flat.unprotectDeferredRange read.start read.length).executableProtectedPages =
      flat.executableProtectedPages := by
  rw [unprotectDeferredRange_eq h]
  split_ifs <;> rfl

end FlatState

namespace DeferredState

variable {flat : FlatState} {read : DeferredRead} {reads : List DeferredRead} {page : ℕ}

theorem unprotectReads_cons :
    unprotectReads flat (read :: reads) =
      unprotectReads (flat.unprotectDeferredRange read.start read.length) reads :=
  rfl

theorem deferredRanges_unprotectReads (h : ∀ read ∈ reads, read.Valid) :
    (unprotectReads flat reads).deferredRanges =
      flat.deferredRanges.diff (reads.map DeferredRead.guard) := by
  induction reads generalizing flat with
  | nil => rfl
  | cons read reads ih =>
      rw [List.forall_mem_cons] at h
      rw [unprotectReads_cons, ih h.2, FlatState.deferredRanges_unprotect h.1, List.map_cons,
        List.diff_cons]

theorem executableProtectedPages_unprotectReads (h : ∀ read ∈ reads, read.Valid) :
    (unprotectReads flat reads).executableProtectedPages = flat.executableProtectedPages := by
  induction reads generalizing flat with
  | nil => rfl
  | cons read reads ih =>
      rw [List.forall_mem_cons] at h
      rw [unprotectReads_cons, ih h.2, FlatState.executableProtectedPages_unprotect h.1]

theorem protection_unprotectReads_of_forall_not (h : ∀ read ∈ reads, read.Valid)
    (hpage : ∀ read ∈ reads, ¬read.TouchesPage page) :
    (unprotectReads flat reads).protection page = flat.protection page := by
  induction reads generalizing flat with
  | nil => rfl
  | cons read reads ih =>
      rw [List.forall_mem_cons] at h hpage
      rw [unprotectReads_cons, ih h.2 hpage.2, FlatState.protection_unprotect h.1,
        if_neg fun hboth => hpage.1 hboth.2]

theorem protection_unprotectReads_of_readWrite (h : ∀ read ∈ reads, read.Valid)
    (hpage : flat.protection page = .readWrite) :
    (unprotectReads flat reads).protection page = .readWrite := by
  induction reads generalizing flat with
  | nil => exact hpage
  | cons read reads ih =>
      rw [List.forall_mem_cons] at h
      rw [unprotectReads_cons]
      refine ih h.2 ?_
      rw [FlatState.protection_unprotect h.1]
      split_ifs
      · rfl
      · exact hpage

theorem protection_unprotectReads_of_mem (h : ∀ read ∈ reads, read.Valid)
    (hread : read ∈ reads) (hguard : read.guard ∈ flat.deferredRanges)
    (hpage : read.TouchesPage page) :
    (unprotectReads flat reads).protection page = .readWrite := by
  induction reads generalizing flat with
  | nil => cases hread
  | cons first reads ih =>
      rw [List.forall_mem_cons] at h
      rw [unprotectReads_cons]
      have hvalid : read.Valid := by
        rcases List.mem_cons.mp hread with rfl | hmem
        · exact h.1
        · exact h.2 read hmem
      by_cases heq : first.guard = read.guard
      · -- the entry is erased here, and the pages are opened here
        obtain ⟨hstart, hlength⟩ := h.1.eq_of_guard_eq hvalid heq
        refine protection_unprotectReads_of_readWrite h.2 ?_
        rw [FlatState.protection_unprotect h.1, if_pos]
        rw [heq, DeferredRead.TouchesPage, hstart, hlength]
        exact ⟨hguard, hpage⟩
      · refine ih h.2 ?_ ?_
        · rcases List.mem_cons.mp hread with rfl | hmem
          · exact absurd rfl heq
          · exact hmem
        · rw [FlatState.deferredRanges_unprotect h.1]
          exact (List.mem_erase_of_ne (Ne.symm heq)).mpr hguard

end DeferredState

/-! ## The table of the view -/

section Counting

variable {α β : Type*} [DecidableEq β] {f : α → β} {taken : α → Bool} {reads : List α}
  {ranges : List β} {range : β}

theorem count_map_eq_add (taken : α → Bool) (x : β) :
    (reads.map f).count x = ((reads.filter taken).map f).count x +
      ((reads.filter fun read => !taken read).map f).count x := by
  rw [← List.count_append, ← List.map_append]
  exact ((List.filter_append_perm taken reads).map f).symm.count_eq x

theorem perm_diff (h : ranges.Perm (reads.map f)) :
    (ranges.diff ((reads.filter taken).map f)).Perm
      ((reads.filter fun read => !taken read).map f) := by
  rw [List.perm_iff_count]
  intro x
  have hcount : (reads.map f).count x = _ := count_map_eq_add taken x
  rw [List.count_diff, h.count_eq x]
  omega

/-- It does not matter that an entry of reads that are taken out is erased before. -/
theorem perm_diff_erase (h : ranges.Perm (reads.map f))
    (hrange : ∀ read ∈ reads, f read = range → taken read = true) :
    ((ranges.erase range).diff ((reads.filter taken).map f)).Perm
      ((reads.filter fun read => !taken read).map f) := by
  rw [List.perm_iff_count]
  intro x
  have hcount : (reads.map f).count x = _ := count_map_eq_add taken x
  rw [List.count_diff, List.count_erase, h.count_eq x]
  by_cases hx : range = x
  · have hnone : ((reads.filter fun read => !taken read).map f).count x = 0 := by
      rw [List.count_eq_zero, List.mem_map]
      rintro ⟨read, hread, rfl⟩
      rw [List.mem_filter] at hread
      have htaken := hrange read hread.1 hx.symm
      simp [htaken] at hread
    omega
  · have hne : (range == x) = false := by simpa using hx
    simp only [hne]
    simp only [Bool.false_eq_true, if_false]
    omega

end Counting

/-! ## The invariant -/

/-- In mapped memory exactly the pages of reads that are to be filled are inaccessible;
the table of the view has the ranges of these reads, and a page that can only be read is
one of executable code. -/
structure Guarded (mapped : ℕ → Bool) (state : DeferredState) : Prop where
  valid : ∀ read ∈ state.reads, read.Valid
  ranges : state.flat.deferredRanges.Perm (state.reads.map DeferredRead.guard)
  guarded : ∀ page, mapped page = true →
    (state.flat.protection page = .none ↔ ∃ read ∈ state.reads, read.TouchesPage page)
  executable : ∀ page, mapped page = true → state.flat.protection page = .read →
    state.flat.executableProtectedPages page = true

/-- No read that is taken out shares a page with one that stays. -/
def Separate (reads : List DeferredRead) (taken : DeferredRead → Bool) : Prop :=
  ∀ read ∈ reads, taken read = true → ∀ other ∈ reads, taken other = false →
    ∀ page, ¬(read.TouchesPage page ∧ other.TouchesPage page)

namespace Guarded

variable {mapped : ℕ → Bool} {state state' : DeferredState} {taken : DeferredRead → Bool}

theorem of_taken (h : Guarded mapped state) (hseparate : Separate state.reads taken)
    (hreads : state'.reads = state.reads.filter fun read => !taken read)
    (hranges : state'.flat.deferredRanges.Perm (state'.reads.map DeferredRead.guard))
    (hopened : ∀ read ∈ state.reads, taken read = true → ∀ page, read.TouchesPage page →
      state'.flat.protection page = .readWrite)
    (hothers : ∀ page, (∀ read ∈ state.reads, taken read = true → ¬read.TouchesPage page) →
      state'.flat.protection page = state.flat.protection page)
    (hexecutable : state'.flat.executableProtectedPages =
      state.flat.executableProtectedPages) : Guarded mapped state' := by
  have hmem : ∀ read, read ∈ state'.reads ↔ read ∈ state.reads ∧ taken read = false := by
    intro read
    rw [hreads, List.mem_filter, Bool.not_eq_true']
  refine ⟨fun read hread => h.valid read ((hmem read).mp hread).1, hranges, ?_, ?_⟩
  · intro page hpage
    by_cases htaken : ∃ read ∈ state.reads, taken read = true ∧ read.TouchesPage page
    · obtain ⟨read, hread, htrue, htouches⟩ := htaken
      rw [hopened read hread htrue page htouches]
      simp only [reduceCtorEq, false_iff, not_exists, not_and]
      intro other hother htouches'
      obtain ⟨hother, hfalse⟩ := (hmem other).mp hother
      exact hseparate read hread htrue other hother hfalse page ⟨htouches, htouches'⟩
    · have hnone : ∀ read ∈ state.reads, taken read = true → ¬read.TouchesPage page :=
        fun read hread htrue htouches => htaken ⟨read, hread, htrue, htouches⟩
      rw [hothers page hnone, h.guarded page hpage]
      constructor
      · rintro ⟨read, hread, htouches⟩
        refine ⟨read, (hmem read).mpr ⟨hread, ?_⟩, htouches⟩
        exact Bool.eq_false_iff.mpr fun htrue => hnone read hread htrue htouches
      · rintro ⟨read, hread, htouches⟩
        exact ⟨read, ((hmem read).mp hread).1, htouches⟩
  · intro page hpage hread
    rw [hexecutable]
    by_cases htaken : ∃ read ∈ state.reads, taken read = true ∧ read.TouchesPage page
    · obtain ⟨read, hmemread, htrue, htouches⟩ := htaken
      rw [hopened read hmemread htrue page htouches] at hread
      cases hread
    · rw [hothers page fun read hmemread htrue htouches =>
        htaken ⟨read, hmemread, htrue, htouches⟩] at hread
      exact h.executable page hpage hread

theorem clearDeferredReads (h : Guarded mapped state) :
    Guarded mapped state.clearDeferredReads := by
  have hseparate : Separate state.reads fun _ => true := by
    intro _ _ _ _ _ hfalse
    cases hfalse
  have hranges : (state.clearDeferredReads).flat.deferredRanges =
      state.flat.deferredRanges.diff (state.reads.map DeferredRead.guard) :=
    DeferredState.deferredRanges_unprotectReads h.valid
  refine h.of_taken hseparate ?_ ?_ ?_ ?_ ?_
  · simp [DeferredState.clearDeferredReads]
  · rw [hranges, List.perm_iff_count]
    intro range
    rw [List.count_diff, h.ranges.count_eq, Nat.sub_self]
    rfl
  · intro read hread _ page htouches
    refine DeferredState.protection_unprotectReads_of_mem h.valid hread ?_ htouches
    exact h.ranges.mem_iff.mpr (List.mem_map_of_mem hread)
  · intro page hnone
    exact DeferredState.protection_unprotectReads_of_forall_not h.valid fun read hread =>
      hnone read hread rfl
  · exact DeferredState.executableProtectedPages_unprotectReads h.valid

theorem put (h : Guarded mapped state) {read : DeferredRead} (hvalid : read.Valid)
    (nextToken : ℕ) :
    Guarded mapped
      { reads := state.reads ++ [read]
        nextToken := nextToken
        flat := state.flat.protectDeferredRange read.start read.length } := by
  have hflat : state.flat.protectDeferredRange read.start read.length =
      { state.flat.protectRange (roundDown hostPageSize read.start)
          (roundUp hostPageSize (read.start + read.length) -
            roundDown hostPageSize read.start) .none with
        deferredRanges := state.flat.deferredRanges ++ [read.guard] } := by
    have hfits : ¬guestSpaceSize < read.start + read.length := Nat.not_lt.mpr hvalid.fits
    rw [FlatState.protectDeferredRange, if_neg (Nat.pos_iff_ne_zero.mp hvalid.pos),
      if_neg hfits]
    rfl
  have hprotection : ∀ page,
      (state.flat.protectDeferredRange read.start read.length).protection page =
        if read.TouchesPage page then .none else state.flat.protection page := by
    intro page
    rw [hflat]
    exact FlatState.protection_protectRange_span .none
  refine ⟨?_, ?_, ?_, ?_⟩
  · intro other hother
    rcases List.mem_append.mp hother with hother | hother
    · exact h.valid other hother
    · rwa [List.mem_singleton.mp hother]
  · rw [hflat, List.map_append]
    exact h.ranges.append_right _
  · intro page hpage
    rw [hprotection]
    by_cases htouches : read.TouchesPage page
    · rw [if_pos htouches]
      exact iff_of_true rfl ⟨read, by simp, htouches⟩
    · rw [if_neg htouches, h.guarded page hpage]
      simp only [List.mem_append, List.mem_singleton, or_and_right, exists_or,
        exists_eq_left, htouches, or_false]
  · intro page hpage hread
    rw [hprotection] at hread
    rw [hflat]
    split_ifs at hread
    exact h.executable page hpage hread

theorem registerDeferredRead (h : Guarded mapped state) (address length : ℕ)
    (hasCallback : Bool) :
    Guarded mapped (state.registerDeferredRead address length hasCallback).2 := by
  rw [DeferredState.registerDeferredRead]
  by_cases hrefused : length = 0 ∨ hasCallback = false ∨ 2 ^ 32 < address + length
  · rwa [if_pos hrefused]
  · rw [if_neg hrefused]
    simp only [not_or, not_lt] at hrefused
    exact h.put ⟨Nat.pos_of_ne_zero hrefused.1, hrefused.2.2⟩ _

/-- The reads that an access meets can be taken out when they share no page with the
others. -/
theorem resolveDeferredReads (h : Guarded mapped state) {address length : ℕ}
    (hseparate : Separate state.reads (DeferredState.meets address length))
    (materializes : DeferredRead → Bool) :
    Guarded mapped (state.resolveDeferredReads address length materializes).1 := by
  have hvalid : ∀ read ∈ state.reads.filter (DeferredState.meets address length),
      read.Valid := fun read hread => h.valid read (List.mem_of_mem_filter hread)
  refine h.of_taken hseparate rfl ?_ ?_ ?_ ?_
  · simp only [DeferredState.resolveDeferredReads,
      DeferredState.deferredRanges_unprotectReads hvalid]
    exact perm_diff h.ranges
  · intro read hread htaken page htouches
    refine DeferredState.protection_unprotectReads_of_mem hvalid
      (List.mem_filter.mpr ⟨hread, htaken⟩) ?_ htouches
    exact h.ranges.mem_iff.mpr (List.mem_map_of_mem hread)
  · intro page hnone
    refine DeferredState.protection_unprotectReads_of_forall_not hvalid fun read hread => ?_
    exact hnone read (List.mem_of_mem_filter hread) (List.of_mem_filter hread)
  · exact DeferredState.executableProtectedPages_unprotectReads hvalid

theorem meets_span_iff {read other : DeferredRead} (h : read.Valid) (hother : other.Valid) :
    DeferredState.meets (roundDown hostPageSize read.start)
        (roundUp hostPageSize (read.start + read.length) - roundDown hostPageSize read.start)
        other = true ↔
      ∃ page, read.TouchesPage page ∧ other.TouchesPage page := by
  rw [DeferredState.meets, decide_eq_true_eq, overlaps_span_iff (by decide) h.pos hother.pos]
  rfl

theorem exists_touchesPage {read : DeferredRead} (h : read.Valid) :
    ∃ page, read.TouchesPage page :=
  ⟨_, touches_of_mem (by decide) (le_refl _) (Nat.lt_add_of_pos_right h.pos)⟩

/-- A read whose pages are opened and whose entry is erased can be taken out with those
that share a page with it, when these share no page with the others. -/
theorem resolve_opened (h : Guarded mapped state) {read : DeferredRead}
    (hread : read ∈ state.reads)
    (hseparate : Separate state.reads (DeferredState.meets (roundDown hostPageSize read.start)
      (roundUp hostPageSize (read.start + read.length) -
        roundDown hostPageSize read.start)))
    (materializes : DeferredRead → Bool) :
    Guarded mapped
      ({ state with
        flat :=
          { state.flat with deferredRanges := state.flat.deferredRanges.erase read.guard
            }.protectRange (roundDown hostPageSize read.start)
              (roundUp hostPageSize (read.start + read.length) -
                roundDown hostPageSize read.start) .readWrite
        }.resolveDeferredReads (roundDown hostPageSize read.start)
          (roundUp hostPageSize (read.start + read.length) -
            roundDown hostPageSize read.start) materializes).1 := by
  have hvalid := h.valid read hread
  have htaken : ∀ other ∈ state.reads.filter (DeferredState.meets
      (roundDown hostPageSize read.start) (roundUp hostPageSize (read.start + read.length) -
        roundDown hostPageSize read.start)), other.Valid :=
    fun other hother => h.valid other (List.mem_of_mem_filter hother)
  refine h.of_taken hseparate rfl ?_ ?_ ?_ ?_
  · simp only [DeferredState.resolveDeferredReads,
      DeferredState.deferredRanges_unprotectReads htaken]
    refine perm_diff_erase h.ranges fun other hother hguard => ?_
    obtain ⟨hstart, hlength⟩ := (h.valid other hother).eq_of_guard_eq hvalid hguard
    obtain ⟨page, hpage⟩ := exists_touchesPage hvalid
    refine (meets_span_iff hvalid (h.valid other hother)).mpr ⟨page, hpage, ?_⟩
    rwa [DeferredRead.TouchesPage, hstart, hlength]
  · intro other hother hmeets page htouches
    by_cases hguard : other.guard = read.guard
    · obtain ⟨hstart, hlength⟩ := (h.valid other hother).eq_of_guard_eq hvalid hguard
      refine DeferredState.protection_unprotectReads_of_readWrite htaken ?_
      rw [FlatState.protection_protectRange_span, if_pos]
      rwa [← hstart, ← hlength]
    · refine DeferredState.protection_unprotectReads_of_mem htaken
        (List.mem_filter.mpr ⟨hother, hmeets⟩) ?_ htouches
      refine (List.mem_erase_of_ne hguard).mpr ?_
      exact h.ranges.mem_iff.mpr (List.mem_map_of_mem hother)
  · intro page hnone
    refine (DeferredState.protection_unprotectReads_of_forall_not htaken fun other hother =>
      hnone other (List.mem_of_mem_filter hother) (List.of_mem_filter hother)).trans ?_
    rw [FlatState.protection_protectRange_span, if_neg]
    obtain ⟨shared, hshared⟩ := exists_touchesPage hvalid
    exact hnone read hread ((meets_span_iff hvalid hvalid).mpr ⟨shared, hshared, hshared⟩)
  · exact DeferredState.executableProtectedPages_unprotectReads htaken

/-- The read whose page faults can be taken out with those that share a page with it,
when these share no page with the others. -/
theorem handleAccessViolation_some (h : Guarded mapped state) {range : GuardedRange}
    {guestAddress : ℕ} (hfind : state.flat.deferredRanges.find? (·.spans guestAddress) =
      some range)
    (hseparate : Separate state.reads (DeferredState.meets (roundDown hostPageSize range.start)
      (roundUp hostPageSize range.stop - roundDown hostPageSize range.start)))
    {platform : Platform} {permitted isWrite : Bool} {materializes : DeferredRead → Bool}
    (hresumed : handleAccessViolation platform mapped permitted materializes state guestAddress
      isWrite = .resumed state') : Guarded mapped state' := by
  -- the range is that of a read that does not end at the end of the address space
  obtain ⟨read, hread, rfl⟩ := List.mem_map.mp
    (h.ranges.mem_iff.mp (List.mem_of_find?_eq_some hfind))
  have hvalid := h.valid read hread
  have hstop : read.guard.stop = read.start + read.length := by
    have hspans := List.find?_some hfind
    simp only [GuardedRange.spans, decide_eq_true_eq] at hspans
    have hfits := hvalid.fits
    rcases Nat.lt_or_ge (read.start + read.length) (2 ^ 32) with hlt | hge
    · exact Nat.mod_eq_of_lt hlt
    · have hzero : read.guard.stop = 0 := by
        have hend : read.start + read.length = 2 ^ 32 := by omega
        rw [DeferredRead.guard, hend]
        rfl
      rw [hzero] at hspans
      exact absurd hspans.2 (Nat.not_lt_zero _)
  simp only [handleAccessViolation, hfind, hstop] at hresumed
  rw [hstop] at hseparate
  split_ifs at hresumed with hfilled
  simp only [FaultOutcome.resumed.injEq] at hresumed
  rw [← hresumed]
  exact h.resolve_opened hread hseparate materializes

theorem of_protection (h : Guarded mapped state) (hreads : state'.reads = state.reads)
    (hranges : state'.flat.deferredRanges = state.flat.deferredRanges)
    (hpages : ∀ page, mapped page = true →
      (state'.flat.protection page = state.flat.protection page ∧
        state'.flat.executableProtectedPages page =
          state.flat.executableProtectedPages page) ∨
      (state'.flat.protection page = .readWrite ∧
        ∀ read ∈ state.reads, ¬read.TouchesPage page)) : Guarded mapped state' := by
  refine ⟨?_, ?_, ?_, ?_⟩
  · rw [hreads]
    exact h.valid
  · rw [hranges, hreads]
    exact h.ranges
  · intro page hpage
    rw [hreads]
    rcases hpages page hpage with ⟨hsame, -⟩ | ⟨hopen, hnone⟩
    · rw [hsame, h.guarded page hpage]
    · rw [hopen]
      simpa using hnone
  · intro page hpage hread
    rcases hpages page hpage with ⟨hsame, hflag⟩ | ⟨hopen, -⟩
    · rw [hflag]
      exact h.executable page hpage (hsame ▸ hread)
    · rw [hopen] at hread
      cases hread

theorem protectRange (h : Guarded mapped state) {address size : ℕ} {flags : Protection}
    {committed : ℕ → Bool}
    (hpages : ∀ page, mapped page = true →
      (state.flat.protectRange address size flags).protection page =
        state.flat.protection page) :
    Guarded mapped
      { state with
        flat :=
          { state.flat.protectRange address size flags with
            committedBlocks := committed } } :=
  h.of_protection rfl (FlatState.deferredRanges_protectRange address size flags)
    fun page hpage => Or.inl ⟨hpages page hpage,
      congrFun (FlatState.executableProtectedPages_protectRange address size flags) page⟩

end Guarded

/-! ## Mapped memory -/

/-- The host pages of the regions.  A region is mapped in whole blocks. -/
structure MappedMemory where
  page : ℕ → Bool
  block : ∀ p q, p / (allocationGranularity / hostPageSize) =
    q / (allocationGranularity / hostPageSize) → page p = page q

theorem protection_protectRange_page {flat : FlatState} {flags : Protection} {page other : ℕ} :
    (flat.protectRange (page * hostPageSize) hostPageSize flags).protection other =
      if other = page then flags else flat.protection other := by
  have hiff : page * hostPageSize < (other + 1) * hostPageSize ∧
      other * hostPageSize < page * hostPageSize + hostPageSize ↔ other = page := by
    unfold hostPageSize
    omega
  simp only [FlatState.protectRange, hiff]

theorem protection_protectRange_block {flat : FlatState} {flags : Protection}
    {block page : ℕ} :
    (flat.protectRange (block * allocationGranularity) allocationGranularity flags).protection
        page =
      if page / (allocationGranularity / hostPageSize) = block then flags
      else flat.protection page := by
  have hiff : block * allocationGranularity < (page + 1) * hostPageSize ∧
      page * hostPageSize < block * allocationGranularity + allocationGranularity ↔
        page / (allocationGranularity / hostPageSize) = block := by
    unfold hostPageSize allocationGranularity
    omega
  simp only [FlatState.protectRange, hiff]

theorem Guarded.handleAccessViolation_none {mapped : MappedMemory}
    {state state' : DeferredState} (h : Guarded mapped.page state) {guestAddress : ℕ}
    (hfind : state.flat.deferredRanges.find? (·.spans guestAddress) = none)
    (hnone : ∀ read ∈ state.reads, ¬read.TouchesPage (guestAddress / hostPageSize))
    {platform : Platform} {permitted isWrite : Bool} {materializes : DeferredRead → Bool}
    (hfault : (state.flat.protection (guestAddress / hostPageSize)).allows isWrite = false)
    (hresumed : handleAccessViolation platform mapped.page permitted materializes state
      guestAddress isWrite = .resumed state') : Guarded mapped.page state' := by
  simp only [handleAccessViolation, hfind] at hresumed
  by_cases hexecutable :
      state.flat.executableProtectedPages (guestAddress / hostPageSize) = true
  · -- a page of executable code is opened for the loader
    rw [if_pos hexecutable] at hresumed
    split_ifs at hresumed
    simp only [FaultOutcome.resumed.injEq] at hresumed
    subst hresumed
    refine h.of_protection rfl (by simp) fun page _ => ?_
    rw [protection_protectRange_page]
    by_cases hpage : page = guestAddress / hostPageSize
    · subst hpage
      rw [if_pos rfl]
      exact Or.inr ⟨rfl, hnone⟩
    · rw [if_neg hpage]
      exact Or.inl ⟨rfl, Function.update_of_ne hpage _ _⟩
  · rw [if_neg hexecutable] at hresumed
    -- a mapped page that faults is one of a read or of executable code
    have hunmapped : mapped.page (guestAddress / hostPageSize) = false := by
      rw [← Bool.not_eq_true]
      intro hmapped
      cases hprotection : state.flat.protection (guestAddress / hostPageSize) with
      | none =>
          obtain ⟨read, hread, htouches⟩ := (h.guarded _ hmapped).mp hprotection
          exact hnone read hread htouches
      | read => exact hexecutable (h.executable _ hmapped hprotection)
      | readWrite =>
          rw [hprotection] at hfault
          cases hfault
    split_ifs at hresumed with hmmio hcommitted hallowed
    · -- the block is committed already
      cases platform <;> exact (FaultOutcome.resumed.inj hresumed) ▸ h
    · cases platform with
      | posix => exact (FaultOutcome.resumed.inj hresumed) ▸ h
      | windows => cases hresumed
    · simp only [FaultOutcome.resumed.injEq] at hresumed
      subst hresumed
      refine h.protectRange fun page hpage =>
        protection_protectRange_block.trans (if_neg fun hblock => ?_)
      have hsame : mapped.page page = mapped.page (guestAddress / hostPageSize) := by
        have hsizes : hostPageSize * (allocationGranularity / hostPageSize) =
            allocationGranularity := by decide
        apply mapped.block
        rw [hblock, Nat.div_div_eq_div_mul, hsizes]
      rw [hunmapped, hpage] at hsame
      cases hsame

/-! ## Runs -/

/-- What happens to the deferred reads: a registration, the drop of them all, an access of
the checked path, and an access to the view that faults. -/
inductive DeferredEvent where
  | register (address length : ℕ) (hasCallback : Bool)
  | clear
  | resolve (address length : ℕ) (materializes : DeferredRead → Bool)
  | fault (address : ℕ) (isWrite permitted : Bool) (materializes : DeferredRead → Bool)

namespace DeferredEvent

/-- The state after an event, and the reads that are given up because a callback fails;
nothing, when the run is stopped. -/
def perform (platform : Platform) (mapped : ℕ → Bool) :
    DeferredEvent → DeferredState → Option (DeferredState × List DeferredRead)
  | .register address length hasCallback, state =>
      some ((state.registerDeferredRead address length hasCallback).2, [])
  | .clear, state => some (state.clearDeferredReads, [])
  | .resolve address length materializes, state =>
      some (state.resolveDeferredReads address length materializes)
  | .fault address isWrite permitted materializes, state =>
      match handleAccessViolation platform mapped permitted materializes state address
        isWrite with
      | .resumed state => some (state, [])
      | .notHandled | .stopped => none

/-- A range that is registered is in mapped memory, and an access that faults is one that
the view does not allow. -/
def WellFormed (mapped : ℕ → Bool) (state : DeferredState) : DeferredEvent → Prop
  | .register address length _ =>
      ∀ page, Touches hostPageSize address length page → mapped page = true
  | .clear => True
  | .resolve _ _ _ => True
  | .fault address isWrite _ _ =>
      address < guestSpaceSize ∧
        (state.flat.protection (address / hostPageSize)).allows isWrite = false

/-- Reads are taken out only together with the reads that they share a page with, every
callback of an access succeeds, and a page that faults is not one of reads that all end
at the end of the address space. -/
def Admissible (state : DeferredState) : DeferredEvent → Prop
  | .register _ _ _ => True
  | .clear => True
  | .resolve address length materializes =>
      Separate state.reads (DeferredState.meets address length) ∧
        ∀ read ∈ state.reads, DeferredState.meets address length read = true →
          materializes read = true
  | .fault address _ _ _ =>
      (∀ read ∈ state.reads, read.TouchesPage (address / hostPageSize) →
        ∃ other ∈ state.reads, other.TouchesPage (address / hostPageSize) ∧
          other.start + other.length < 2 ^ 32) ∧
      ∀ range, state.flat.deferredRanges.find? (·.spans address) = some range →
        Separate state.reads (DeferredState.meets (roundDown hostPageSize range.start)
          (roundUp hostPageSize range.stop - roundDown hostPageSize range.start))

end DeferredEvent

/-- A run whose events are all admitted in the states they happen in, and the reads that
are given up in it. -/
inductive Run (platform : Platform) (mapped : MappedMemory)
    (Admits : DeferredState → DeferredEvent → Prop) :
    DeferredState → List DeferredEvent → DeferredState → List DeferredRead → Prop
  | nil (state : DeferredState) : Run platform mapped Admits state [] state []
  | cons {state middle state' : DeferredState} {event : DeferredEvent}
      {events : List DeferredEvent} {unfilled unfilled' : List DeferredRead}
      (hwell : event.WellFormed mapped.page state) (hadmits : Admits state event)
      (hstep : event.perform platform mapped.page state = some (middle, unfilled))
      (hrun : Run platform mapped Admits middle events state' unfilled') :
      Run platform mapped Admits state (event :: events) state' (unfilled ++ unfilled')

/-- The state after the view is made: nothing is deferred, and a page of mapped memory
that cannot be written is one of executable code. -/
structure Fresh (mapped : ℕ → Bool) (state : DeferredState) : Prop where
  reads : state.reads = []
  ranges : state.flat.deferredRanges = []
  protection : ∀ page, mapped page = true → state.flat.protection page = .readWrite ∨
    state.flat.protection page = .read ∧ state.flat.executableProtectedPages page = true

theorem Fresh.guarded {mapped : ℕ → Bool} {state : DeferredState} (h : Fresh mapped state) :
    Guarded mapped state := by
  refine ⟨?_, ?_, ?_, ?_⟩
  · simp [h.reads]
  · rw [h.reads, h.ranges]
    exact List.Perm.refl _
  · intro page hpage
    rcases h.protection page hpage with hopen | ⟨hread, -⟩ <;> simp [h.reads, *]
  · intro page hpage hread
    rcases h.protection page hpage with hopen | ⟨-, hflag⟩
    · rw [hopen] at hread
      cases hread
    · exact hflag

section Runs

variable {platform : Platform} {mapped : MappedMemory} {state state' : DeferredState}
  {event : DeferredEvent} {events : List DeferredEvent} {unfilled : List DeferredRead}

/-- An admissible event leaves the reads guarded and gives none of them up. -/
theorem Guarded.perform (h : Guarded mapped.page state)
    (hwell : event.WellFormed mapped.page state) (hadmissible : event.Admissible state)
    (hstep : event.perform platform mapped.page state = some (state', unfilled)) :
    Guarded mapped.page state' ∧ unfilled = [] := by
  cases event with
  | register address length hasCallback =>
      simp only [DeferredEvent.perform, Option.some.injEq, Prod.mk.injEq] at hstep
      obtain ⟨rfl, rfl⟩ := hstep
      exact ⟨h.registerDeferredRead address length hasCallback, rfl⟩
  | clear =>
      simp only [DeferredEvent.perform, Option.some.injEq, Prod.mk.injEq] at hstep
      obtain ⟨rfl, rfl⟩ := hstep
      exact ⟨h.clearDeferredReads, rfl⟩
  | resolve address length materializes =>
      obtain ⟨hseparate, hfilled⟩ := hadmissible
      simp only [DeferredEvent.perform, Option.some.injEq] at hstep
      have hguarded := h.resolveDeferredReads hseparate materializes
      rw [hstep] at hguarded
      refine ⟨hguarded, ?_⟩
      have hunfilled := congrArg Prod.snd hstep
      simp only [DeferredState.resolveDeferredReads] at hunfilled
      rw [← hunfilled, List.dropWhile_eq_nil_iff]
      intro read hread
      rw [List.mem_filter] at hread
      exact hfilled read hread.1 hread.2
  | fault address isWrite permitted materializes =>
      obtain ⟨hend, hseparate⟩ := hadmissible
      simp only [DeferredEvent.perform] at hstep
      split at hstep
      · rename_i hresumed
        simp only [Option.some.injEq, Prod.mk.injEq] at hstep
        obtain ⟨rfl, rfl⟩ := hstep
        refine ⟨?_, rfl⟩
        cases hfind : state.flat.deferredRanges.find? (·.spans address) with
        | some range => exact h.handleAccessViolation_some hfind (hseparate range hfind) hresumed
        | none =>
            refine h.handleAccessViolation_none hfind ?_ hwell.2 hresumed
            -- a read of the page that ends below the end would be found
            intro read hread htouches
            obtain ⟨other, hother, htouches', hlt⟩ := hend read hread htouches
            have hguard : other.guard ∈ state.flat.deferredRanges :=
              h.ranges.mem_iff.mpr (List.mem_map_of_mem hother)
            refine List.find?_eq_none.mp hfind _ hguard ?_
            have hstop : other.guard.stop = other.start + other.length :=
              Nat.mod_eq_of_lt hlt
            rw [GuardedRange.spans, decide_eq_true_eq, hstop]
            exact mem_span_of_touches (by decide) htouches'
      · cases hstep
      · cases hstep

/-- An admissible run leaves the reads guarded and gives none of them up. -/
theorem Guarded.run {events : List DeferredEvent} (h : Guarded mapped.page state)
    (hrun : Run platform mapped (fun state event => event.Admissible state) state events
      state' unfilled) : Guarded mapped.page state' ∧ unfilled = [] := by
  induction hrun with
  | nil => exact ⟨h, rfl⟩
  | cons hwell hadmits hstep _ ih =>
      obtain ⟨hmiddle, rfl⟩ := h.perform hwell hadmits hstep
      obtain ⟨hguarded, rfl⟩ := ih hmiddle
      exact ⟨hguarded, rfl⟩

end Runs

/-! ## Two reads on a page -/

/-- The first bank of memory, at its cached addresses. -/
def mem1 : MappedMemory where
  page p := decide (0x80000 ≤ p ∧ p < 0x81800)
  block p q h := by
    have hdiv : p / 16 = q / 16 := h
    rw [decide_eq_decide]
    omega

/-- The view of the bank, without executable code. -/
def freshState : DeferredState where
  reads := []
  nextToken := 1
  flat :=
    { deferredRanges := []
      protection := fun page => if mem1.page page then .readWrite else .none
      executableProtectedPages := fun _ => false
      committedBlocks := fun _ => false }

theorem fresh_freshState : Fresh mem1.page freshState := by
  refine ⟨rfl, rfl, fun page hpage => Or.inl ?_⟩
  exact if_pos hpage

theorem wellFormed_mem1 {address : ℕ} (hfirst : 0x80001000 ≤ address)
    (hlast : address < 0x80001F00) (state : DeferredState) :
    DeferredEvent.WellFormed mem1.page state (.register address 0x10 true) := by
  intro page htouches
  simp only [Touches, hostPageSize] at htouches
  simp only [mem1, decide_eq_true_eq]
  omega

/-! ## Guarded runs -/

section GuardedRuns

variable {platform : Platform} {mapped : MappedMemory} {state state' : DeferredState}
  {events : List DeferredEvent} {unfilled : List DeferredRead}

/-- An access to the view that does not fault: every page of it is of mapped memory and
accessible. -/
def ReadsFlat (mapped : ℕ → Bool) (state : DeferredState) (address width : ℕ) : Prop :=
  0 < width ∧ ∀ page, Touches hostPageSize address width page →
    mapped page = true ∧ state.flat.protection page ≠ .none

/-- Over every admissible run a page of mapped memory is inaccessible if and only if it
has bytes of a read that is not filled, and no access to the view reads such bytes. -/
theorem deferred_reads_stay_guarded (hfresh : Fresh mapped.page state)
    (hrun : Run platform mapped (fun state event => event.Admissible state) state events
      state' unfilled) :
    (∀ page, mapped.page page = true → (state'.flat.protection page = .none ↔
      ∃ read ∈ state'.reads ++ unfilled, read.TouchesPage page)) ∧
    ∀ address width, ReadsFlat mapped.page state' address width →
      ∀ read ∈ state'.reads ++ unfilled,
        ¬Overlaps address width read.start read.length := by
  obtain ⟨hguarded, rfl⟩ := hfresh.guarded.run hrun
  rw [List.append_nil]
  refine ⟨hguarded.guarded, fun address width hreads read hread hoverlaps => ?_⟩
  obtain ⟨hleft, hright⟩ := hoverlaps
  obtain ⟨hwidth, hpages⟩ := hreads
  have hlength := (hguarded.valid read hread).pos
  have hsize : 0 < hostPageSize := by decide
  -- the first byte of both is on a page of both
  let byte := max address read.start
  have hbyte : byte < address + width ∧ byte < read.start + read.length := by omega
  obtain ⟨hmapped, hopen⟩ := hpages (byte / hostPageSize)
    (touches_of_mem hsize (le_max_left _ _) hbyte.1)
  exact hopen ((hguarded.guarded _ hmapped).mpr
    ⟨read, hread, touches_of_mem hsize (le_max_right _ _) hbyte.2⟩)

end GuardedRuns

/-- Two reads on a page are filled together by a fault on it. -/
theorem shared_page_is_guarded : ∃ state' unfilled,
    Run .posix mem1 (fun state event => event.Admissible state) freshState
      [.register 0x80001000 0x10 true, .register 0x80001020 0x10 true,
        .fault 0x80001004 false false fun _ => true] state' unfilled ∧
    (∀ page, mem1.page page = true → (state'.flat.protection page = .none ↔
      ∃ read ∈ state'.reads ++ unfilled, read.TouchesPage page)) ∧
    ∀ address width, ReadsFlat mem1.page state' address width →
      ∀ read ∈ state'.reads ++ unfilled,
        ¬Overlaps address width read.start read.length := by
  have hrun : Run .posix mem1 (fun state event => event.Admissible state) freshState
      [.register 0x80001000 0x10 true, .register 0x80001020 0x10 true,
        .fault 0x80001004 false false fun _ => true] _ _ :=
    .cons (wellFormed_mem1 (by omega) (by omega) _) trivial rfl
      (.cons (wellFormed_mem1 (by omega) (by omega) _) trivial rfl
        (.cons ⟨by decide, rfl⟩ ⟨?_, ?_⟩ rfl (.nil _)))
  · exact ⟨_, _, hrun, deferred_reads_stay_guarded fresh_freshState hrun⟩
  · intro _ _ _
    exact ⟨⟨1, 0x80001000, 0x10⟩, List.mem_cons_self, by decide, by decide⟩
  · -- both reads are on the page
    intro range hrange
    obtain rfl : (⟨0x80001000, 0x80001010⟩ : GuardedRange) = range := Option.some.inj hrange
    intro _ _ _ other hother hfalse
    have hmeets : DeferredState.meets 0x80001000 0x1000 other = true := by
      rcases List.mem_cons.mp hother with rfl | hother
      · rfl
      · rw [List.mem_singleton.mp hother]
        rfl
    exact absurd (hmeets.symm.trans hfalse) (by decide)

/-- A page is opened under a read that is not filled: of two reads on a page, the first
is resolved by an access of the checked path. -/
theorem shared_page_is_opened :
    ¬∀ (platform : Platform) (mapped : MappedMemory) (state state' : DeferredState)
      (events : List DeferredEvent) (unfilled : List DeferredRead),
      Fresh mapped.page state →
      Run platform mapped (fun _ _ => True) state events state' unfilled →
        (∀ page, mapped.page page = true → (state'.flat.protection page = .none ↔
          ∃ read ∈ state'.reads ++ unfilled, read.TouchesPage page)) ∧
        ∀ address width, ReadsFlat mapped.page state' address width →
          ∀ read ∈ state'.reads ++ unfilled,
            ¬Overlaps address width read.start read.length := by
  intro hclaim
  have hrun := hclaim .posix mem1 freshState _
    [.register 0x80001000 0x10 true, .register 0x80001020 0x10 true,
      .resolve 0x80001000 4 fun _ => true] _ fresh_freshState
    (.cons (wellFormed_mem1 (by omega) (by omega) _) trivial rfl
      (.cons (wellFormed_mem1 (by omega) (by omega) _) trivial rfl
        (.cons trivial trivial rfl (.nil _))))
  obtain ⟨hpages, -⟩ := hrun
  have hpage := (hpages 0x80001 rfl).mpr
    ⟨⟨2, 0x80001020, 0x10⟩, List.mem_singleton.mpr rfl, by decide⟩
  exact absurd hpage (by decide)

end Wiicompiled.Runtime.GuestFlat
