import Wiicompiled.Runtime.FastPathSound
import Mathlib.Data.Nat.Bitwise

/-!
# Guards of the aliases

A byte of a bank is visible at a physical, a cached and an uncached address.  A store to
a registered range should come to the guard at each of them.  The loader adds the cached
and the uncached alias of a range but not the physical one, and stores of two kinds go
past the guard tables.
-/

namespace Wiicompiled.Runtime.MemoryInline

open GuestFlat RecompMod FlatMemory

/-! ## Stores -/

/-- The ways of translated code to store a number: the checked write, the store of a
pair through the writable tables, the store of a stack slot through the page tables, and
the stores through the view, with the policy for device registers or without. -/
inductive StoreKind where
  | checked
  | pairFast
  | stack
  | flat
  | flatRam
deriving DecidableEq, Repr

/-- Device registers are in the way of a store through the view. -/
def flatWriteNeedsPolicy (address : BitVec 32) : Bool :=
  address &&& 0xFE000000#32 == 0xCC000000#32

theorem isMmioAddress_of_flatWriteNeedsPolicy {address : BitVec 32}
    (h : flatWriteNeedsPolicy address = true) : isMmioAddress address = true := by
  rw [flatWriteNeedsPolicy, beq_iff_eq] at h
  have hnat : address.toNat &&& 0xFE000000 = 0xCC000000 := congrArg BitVec.toNat h
  have hshift : (address.toNat &&& 0xFE000000) >>> 25 = 0xCC000000 >>> 25 := by rw [hnat]
  rw [Nat.shiftRight_and_distrib, Nat.shiftRight_eq_div_pow,
    show 0xFE000000 >>> 25 = 2 ^ 7 - 1 from rfl, Nat.and_two_pow_sub_one_eq_mod,
    show 0xCC000000 >>> 25 = 102 from rfl] at hshift
  rw [isMmioAddress, Bool.and_eq_true, decide_eq_true_iff, decide_eq_true_iff]
  constructor
  · show 0xCC000000 ≤ address.toNat
    omega
  · show address.toNat < 0xCE000000
    omega

namespace MemoryState

/-- A host page of the view can be written. -/
def Writable (state : MemoryState) (byte : ℕ) : Prop :=
  (state.deferred.flat.protection (byte / hostPageSize)).allows true = true

instance (state : MemoryState) (byte : ℕ) : Decidable (state.Writable byte) :=
  inferInstanceAs (Decidable (_ = _))

/-- A store through the view.  It runs again after each fault that the handler resolves,
and puts its bytes when all of their pages can be written. -/
inductive FlatStore (system : HostSystem) (lr : Option (BitVec 32)) (address : ℕ)
    (bytes : List UInt8) : MemoryState → List WriteEvent → Prop where
  | put {state : MemoryState}
      (h : ∀ byte, address ≤ byte → byte < address + bytes.length → state.Writable byte) :
      FlatStore system lr address bytes state [.putView address bytes]
  | fault {state state' : MemoryState} {byte : ℕ} {events rest : List WriteEvent}
      (haddress : address ≤ byte) (hbyte : byte < address + bytes.length)
      (hblocked : ¬state.Writable byte)
      (hfault : state.handleAccessViolation system lr byte true = (events, some state'))
      (hrest : FlatStore system lr address bytes state' rest) :
      FlatStore system lr address bytes state (events ++ rest)
  | stop {state : MemoryState} {byte : ℕ} {events : List WriteEvent}
      (haddress : address ≤ byte) (hbyte : byte < address + bytes.length)
      (hblocked : ¬state.Writable byte)
      (hfault : state.handleAccessViolation system lr byte true = (events, none)) :
      FlatStore system lr address bytes state events

inductive Stores (system : HostSystem) (lr : Option (BitVec 32)) (state : MemoryState)
    (address : BitVec 32) (width value : ℕ) : StoreKind → List WriteEvent → Prop where
  | checked : Stores system lr state address width value .checked
      (state.write lr address width value).1
  | pairFast {pointer : BitVec 64}
      (h : state.tables.tryGetWritablePointerFast state.executables address width =
        some pointer) :
      Stores system lr state address width value .pairFast
        [.put pointer (ByteImage.toBytes width value)]
  | pairChecked
      (h : state.tables.tryGetWritablePointerFast state.executables address width = none) :
      Stores system lr state address width value .pairFast
        (state.write lr address width value).1
  | stackFast {pointer : BitVec 64}
      (h : state.tables.tryGetPointerFast address width = some pointer) :
      Stores system lr state address width value .stack
        [.put pointer (ByteImage.toBytes width value)]
  | stackChecked (h : state.tables.tryGetPointerFast address width = none) :
      Stores system lr state address width value .stack
        (state.write lr address width value).1
  | flatSlow (h : flatWriteNeedsPolicy address = true) :
      Stores system lr state address width value .flat
        (state.writeSlow lr address width value).1
  | flat {events : List WriteEvent} (h : flatWriteNeedsPolicy address = false)
      (hstore : FlatStore system lr address.toNat (ByteImage.toBytes width value) state
        events) :
      Stores system lr state address width value .flat events
  | flatRam {events : List WriteEvent}
      (hstore : FlatStore system lr address.toNat (ByteImage.toBytes width value) state
        events) :
      Stores system lr state address width value .flatRam events

/-! ## Guarded bytes -/

/-- An event that changes memory. -/
def IsPut : WriteEvent → Prop
  | .put _ _ => True
  | .putView _ _ => True
  | _ => False

/-- The guard is called for a range that has the byte, before memory is changed. -/
def Reached (state : MemoryState) (events : List WriteEvent) (byte : ℕ) : Prop :=
  ∃ before address length after,
    events = before ++ .handleExecutableWrite address length :: after ∧
      (∀ event ∈ before, ¬IsPut event) ∧
      ∃ range ∈ state.executables.ranges, range.Has byte ∧
        address < range.stop ∧ range.start < address + length

/-- The page of the byte is kept read-only for the guard, and no deferred read is on it. -/
structure GuardedPage (state : MemoryState) (byte : ℕ) : Prop where
  blocked : ¬state.Writable byte
  executable : state.deferred.flat.executableProtectedPages (byte / hostPageSize) = true
  ranges : ∀ range ∈ state.deferred.flat.deferredRanges, range.spans byte = false
  reads : ∀ read ∈ state.deferred.reads, ¬read.TouchesPage (byte / hostPageSize)

/-- No other page of the store is one that a fault commits together with the page of the
byte. -/
def NeighboursMapped (state : MemoryState) (address width byte : ℕ) : Prop :=
  ∀ other, address ≤ other → other < address + width →
    other / hostPageSize ≠ byte / hostPageSize → ¬state.Writable other →
    other / allocationGranularity = byte / allocationGranularity →
      (∃ range ∈ state.deferred.flat.deferredRanges, range.spans other = true) ∨
        state.deferred.flat.executableProtectedPages (other / hostPageSize) = true ∨
        isMmio other = true

def Watched (state : MemoryState) (address : BitVec 32) (width byte : ℕ) :
    StoreKind → Prop
  | .checked => True
  | .pairFast => True
  | .stack => state.tables.tryGetPointerFast address width = none
  | .flat => state.GuardedPage byte ∧ state.NeighboursMapped address.toNat width byte
  | .flatRam => state.GuardedPage byte ∧ state.NeighboursMapped address.toNat width byte

/-! ## Faults on other pages -/

section Faults

variable {platform : Platform} {mapped : ℕ → Bool} {permitted isWrite : Bool}
  {materializes : DeferredRead → Bool} {deferred deferred' : DeferredState}
  {byte other page : ℕ} {range : GuardedRange}

theorem spans_of_page (h : other / hostPageSize = byte / hostPageSize) :
    range.spans other = range.spans byte := by
  rw [GuardedRange.spans, GuardedRange.spans, decide_eq_decide, PageSpans.roundDown,
    PageSpans.roundUp]
  have hsize : hostPageSize = 4096 := rfl
  rw [hsize] at h ⊢
  omega

theorem protection_protectRange_of_not_spans {flat : FlatState} (flags : Protection)
    (h : range.spans byte = false) :
    (flat.protectRange (PageSpans.roundDown hostPageSize range.start)
        (PageSpans.roundUp hostPageSize range.stop -
          PageSpans.roundDown hostPageSize range.start) flags).protection
        (byte / hostPageSize) = flat.protection (byte / hostPageSize) := by
  rw [FlatState.protectRange]
  dsimp only
  rw [if_neg]
  rw [GuardedRange.spans, decide_eq_false_iff_not, PageSpans.roundDown,
    PageSpans.roundUp] at h
  rw [PageSpans.roundDown, PageSpans.roundUp]
  have hsize : hostPageSize = 4096 := rfl
  rw [hsize] at h ⊢
  omega

theorem protection_protectRange_of_spans {flat : FlatState} (flags : Protection)
    (h : range.spans byte = true) :
    (flat.protectRange (PageSpans.roundDown hostPageSize range.start)
        (PageSpans.roundUp hostPageSize range.stop -
          PageSpans.roundDown hostPageSize range.start) flags).protection
        (byte / hostPageSize) = flags := by
  rw [FlatState.protectRange]
  dsimp only
  rw [if_pos]
  rw [GuardedRange.spans, decide_eq_true_iff, PageSpans.roundDown, PageSpans.roundUp] at h
  rw [PageSpans.roundDown, PageSpans.roundUp]
  have hsize : hostPageSize = 4096 := rfl
  rw [hsize] at h ⊢
  omega

/-- A fault that is resolved adds no range to the table of the view. -/
theorem deferredRanges_of_resumed (hvalid : ∀ read ∈ deferred.reads, read.Valid)
    (h : GuestFlat.handleAccessViolation platform mapped permitted materializes deferred
      other isWrite = .resumed deferred') :
    ∀ range ∈ deferred'.flat.deferredRanges, range ∈ deferred.flat.deferredRanges := by
  unfold GuestFlat.handleAccessViolation at h
  split at h
  · dsimp only at h
    split at h <;> cases h
    intro range hrange
    dsimp only [DeferredState.resolveDeferredReads] at hrange
    rw [DeferredState.deferredRanges_unprotectReads
      fun read hread => hvalid read (List.mem_filter.mp hread).1] at hrange
    exact List.mem_of_mem_erase ((List.diff_subset _ _) hrange)
  · dsimp only at h
    split at h
    · split at h <;> cases h
      exact fun range hrange => hrange
    · split at h
      · cases h
      · split at h
        · split at h
          · cases h
            exact fun range hrange => hrange
          · split at h <;> cases h
            exact fun range hrange => hrange
        · cases h
          exact fun range hrange => hrange

theorem executableProtectedPages_of_resumed (hvalid : ∀ read ∈ deferred.reads, read.Valid)
    (h : GuestFlat.handleAccessViolation platform mapped permitted materializes deferred
      other isWrite = .resumed deferred') :
    (deferred'.flat.executableProtectedPages page = true →
        deferred.flat.executableProtectedPages page = true) ∧
      (page ≠ other / hostPageSize →
        deferred'.flat.executableProtectedPages page =
          deferred.flat.executableProtectedPages page) := by
  unfold GuestFlat.handleAccessViolation at h
  split at h
  · dsimp only at h
    split at h <;> cases h
    dsimp only [DeferredState.resolveDeferredReads]
    rw [DeferredState.executableProtectedPages_unprotectReads
      fun read hread => hvalid read (List.mem_filter.mp hread).1]
    exact ⟨fun hpage => hpage, fun _ => rfl⟩
  · dsimp only at h
    split at h
    · split at h <;> cases h
      dsimp only
      by_cases hpage : page = other / hostPageSize
      · rw [hpage, Function.update_self]
        exact ⟨fun hfalse => Bool.noConfusion hfalse, fun hne => absurd rfl hne⟩
      · rw [Function.update_of_ne hpage]
        exact ⟨fun hpage => hpage, fun _ => rfl⟩
    · split at h
      · cases h
      · split at h
        · split at h
          · cases h
            exact ⟨fun hpage => hpage, fun _ => rfl⟩
          · split at h <;> cases h
            exact ⟨fun hpage => hpage, fun _ => rfl⟩
        · cases h
          exact ⟨fun hpage => hpage, fun _ => rfl⟩

/-- What a fault does to the page of another byte that no deferred read is on: nothing,
unless the block of both is committed. -/
theorem protection_of_resumed_other (hvalid : ∀ read ∈ deferred.reads, read.Valid)
    (hpage : other / hostPageSize ≠ byte / hostPageSize)
    (hranges : ∀ range ∈ deferred.flat.deferredRanges, range.spans byte = false)
    (hreads : ∀ read ∈ deferred.reads, ¬read.TouchesPage (byte / hostPageSize))
    (hblock : other / allocationGranularity = byte / allocationGranularity →
      (∃ range ∈ deferred.flat.deferredRanges, range.spans other = true) ∨
        deferred.flat.executableProtectedPages (other / hostPageSize) = true ∨
        isMmio other = true)
    (h : GuestFlat.handleAccessViolation platform mapped permitted materializes deferred
      other isWrite = .resumed deferred') :
    deferred'.flat.protection (byte / hostPageSize) =
      deferred.flat.protection (byte / hostPageSize) := by
  unfold GuestFlat.handleAccessViolation at h
  split at h
  case h_1 range hfind =>
    have hmem := List.mem_of_find?_eq_some hfind
    dsimp only at h
    split at h <;> cases h
    dsimp only [DeferredState.resolveDeferredReads]
    rw [DeferredState.protection_unprotectReads_of_forall_not
        (fun read hread => hvalid read (List.mem_filter.mp hread).1)
        fun read hread => hreads read (List.mem_filter.mp hread).1]
    exact protection_protectRange_of_not_spans _ (hranges range hmem)
  case h_2 hfind =>
    have hspans : ¬∃ range ∈ deferred.flat.deferredRanges, range.spans other = true := by
      rintro ⟨range, hrange, hspans⟩
      exact List.find?_eq_none.mp hfind range hrange hspans
    have hsize : hostPageSize = 4096 := rfl
    have hgranularity : allocationGranularity = 65536 := rfl
    dsimp only at h
    split at h
    · split at h <;> cases h
      dsimp only [FlatState.protectRange]
      rw [if_neg]
      rw [hsize] at hpage ⊢
      omega
    case isFalse hexecutable =>
      split at h
      · cases h
      case isFalse hmmio =>
        split at h
        · split at h
          · cases h
            rfl
          · split at h <;> cases h
            rfl
        · cases h
          dsimp only [FlatState.protectRange]
          have hother : other / allocationGranularity ≠ byte / allocationGranularity := by
            intro heq
            rcases hblock heq with hrange | hflag | hdevice
            · exact hspans hrange
            · exact hexecutable hflag
            · exact hmmio hdevice
          rw [if_neg]
          rw [hsize, hgranularity] at *
          omega

theorem protection_of_resumed_self (hvalid : ∀ read ∈ deferred.reads, read.Valid)
    (h : GuestFlat.handleAccessViolation platform mapped permitted materializes deferred
      other isWrite = .resumed deferred') :
    deferred'.flat.protection (other / hostPageSize) = .readWrite ∨ deferred' = deferred := by
  unfold GuestFlat.handleAccessViolation at h
  split at h
  case h_1 range hfind =>
    have hspans := List.find?_some hfind
    dsimp only at h
    split at h <;> cases h
    left
    dsimp only [DeferredState.resolveDeferredReads]
    refine DeferredState.protection_unprotectReads_of_readWrite
      (fun read hread => hvalid read (List.mem_filter.mp hread).1) ?_
    exact protection_protectRange_of_spans _ hspans
  case h_2 =>
    have hsize : hostPageSize = 4096 := rfl
    have hgranularity : allocationGranularity = 65536 := rfl
    dsimp only at h
    split at h
    · split at h <;> cases h
      left
      dsimp only [FlatState.protectRange]
      rw [if_pos]
      rw [hsize]
      omega
    · split at h
      · cases h
      · split at h
        · split at h
          · cases h
            exact Or.inr rfl
          · split at h <;> cases h
            exact Or.inr rfl
        · cases h
          left
          dsimp only [FlatState.protectRange]
          rw [if_pos]
          rw [hsize, hgranularity]
          omega

end Faults

/-! ## The guard of the view -/

/-- The ranges of the view are registered, and a page that is guarded lies in one. -/
structure ViewSound (state : MemoryState) : Prop where
  ranges : ∀ guarded ∈ state.flatExecutables, ∃ range ∈ state.executables.ranges,
    range.start = guarded.start ∧ range.stop = guarded.stop
  pages : ∀ page, state.deferred.flat.executableProtectedPages page = true →
    ∃ range ∈ state.executables.ranges,
      range.start ≤ page * hostPageSize ∧ (page + 1) * hostPageSize ≤ range.stop

section ViewSteps

variable {state state' : MemoryState} {system : HostSystem}

theorem executableProtectedPages_applyExecutableProtection {ranges : List GuardedRange}
    {flat : FlatState} {page : ℕ}
    (h : (applyExecutableProtection ranges flat).executableProtectedPages page = true) :
    flat.executableProtectedPages page = true ∨
      ∃ range ∈ ranges, range.start ≤ page * hostPageSize ∧
        (page + 1) * hostPageSize ≤ range.stop := by
  unfold applyExecutableProtection at h
  dsimp only at h
  rcases Bool.or_eq_true_iff.mp h with hcovered | hold
  · obtain ⟨range, hrange, hspan⟩ := List.any_eq_true.mp hcovered
    refine Or.inr ⟨range, hrange, ?_⟩
    rw [decide_eq_true_iff, PageSpans.roundUp, PageSpans.roundDown] at hspan
    have hsize : hostPageSize = 4096 := rfl
    rw [hsize] at hspan ⊢
    omega
  · exact Or.inl hold

theorem viewSound_initial (host : HostMemory) : (initial host).ViewSound where
  ranges := fun _ h => by cases h
  pages := fun _ h => Bool.noConfusion h

/-- The guard stays sound when no range is taken away and only pages of its ranges are
added. -/
theorem ViewSound.extend (h : state.ViewSound)
    (hexecutables : ∀ range ∈ state.executables.ranges, range ∈ state'.executables.ranges)
    (hranges : ∀ guarded ∈ state'.flatExecutables, guarded ∈ state.flatExecutables ∨
      ∃ range ∈ state'.executables.ranges,
        range.start = guarded.start ∧ range.stop = guarded.stop)
    (hpages : ∀ page, state'.deferred.flat.executableProtectedPages page = true →
      state.deferred.flat.executableProtectedPages page = true ∨
        ∃ guarded ∈ state'.flatExecutables, guarded.start ≤ page * hostPageSize ∧
          (page + 1) * hostPageSize ≤ guarded.stop) : state'.ViewSound := by
  have hall : ∀ guarded ∈ state'.flatExecutables, ∃ range ∈ state'.executables.ranges,
      range.start = guarded.start ∧ range.stop = guarded.stop := by
    intro guarded hguarded
    rcases hranges guarded hguarded with hold | hnew
    · obtain ⟨range, hrange, hspan⟩ := h.ranges guarded hold
      exact ⟨range, hexecutables range hrange, hspan⟩
    · exact hnew
  refine ⟨hall, fun page hpage => ?_⟩
  rcases hpages page hpage with hold | ⟨guarded, hguarded, hstart, hstop⟩
  · obtain ⟨range, hrange, hspan⟩ := h.pages page hold
    exact ⟨range, hexecutables range hrange, hspan⟩
  · obtain ⟨range, hrange, hfirst, hlast⟩ := hall guarded hguarded
    exact ⟨range, hrange, hfirst ▸ hstart, hlast ▸ hstop⟩

theorem ViewSound.init (h : state.ViewSound) {layout : List Region} {cleared : HostMemory}
    (hinit : state.init layout cleared = some state') : state'.ViewSound := by
  unfold MemoryState.init at hinit
  rw [Option.ite_none_right_eq_some] at hinit
  obtain ⟨-, hinit⟩ := hinit
  cases hinit
  exact h.extend (fun _ hrange => hrange) (fun _ hguarded => Or.inl hguarded)
    fun page hpage => executableProtectedPages_applyExecutableProtection hpage

theorem ViewSound.congr (h : state.ViewSound)
    (hexecutables : state'.executables = state.executables)
    (hflat : state'.flatExecutables = state.flatExecutables)
    (hpages : ∀ page, state'.deferred.flat.executableProtectedPages page = true →
      state.deferred.flat.executableProtectedPages page = true) : state'.ViewSound :=
  h.extend (fun _ hrange => hexecutables ▸ hrange) (fun _ hguarded => Or.inl (hflat ▸ hguarded))
    fun page hpage => Or.inl (hpages page hpage)

theorem ViewSound.registerFlatExecutable (h : state.ViewSound) {range : ExecutableRange}
    (hrange : range ∈ state.executables.ranges) :
    (state.registerFlatExecutable range).ViewSound := by
  have hranges : ∀ guarded ∈ state.flatExecutables ++ [⟨range.start, range.stop⟩],
      guarded ∈ state.flatExecutables ∨ ∃ other ∈ state.executables.ranges,
        other.start = guarded.start ∧ other.stop = guarded.stop := by
    intro guarded hguarded
    rcases List.mem_append.mp hguarded with hold | hnew
    · exact Or.inl hold
    · rw [List.mem_singleton.mp hnew]
      exact Or.inr ⟨range, hrange, rfl, rfl⟩
  unfold MemoryState.registerFlatExecutable
  split_ifs
  · exact h
  · exact h
  · exact h.extend (fun _ hmem => hmem) hranges fun page hpage =>
      executableProtectedPages_applyExecutableProtection hpage
  · exact h.extend (fun _ hmem => hmem) hranges fun page hpage => Or.inl hpage

theorem ViewSound.foldl_registerFlatExecutable (h : state.ViewSound)
    {ranges : List ExecutableRange} (hranges : ∀ range ∈ ranges, range ∈ state.executables.ranges) :
    (ranges.foldl MemoryState.registerFlatExecutable state).ViewSound := by
  induction ranges generalizing state with
  | nil => exact h
  | cons range ranges ih =>
      rw [List.forall_mem_cons] at hranges
      refine ih (h.registerFlatExecutable hranges.1) ?_
      rw [(registerFlatExecutable_frame _ range).2.2.1]
      exact hranges.2

theorem ViewSound.registerExecutableRange (h : state.ViewSound) {start stop : ℕ}
    {name : String} : (state.registerExecutableRange start stop name).ViewSound := by
  unfold MemoryState.registerExecutableRange
  split_ifs with hle
  · exact h
  · have hregistered : ViewSound { state with
        executables := state.executables.registerExecutableRange start stop name } :=
      h.extend (fun range hrange =>
          (Executables.mem_registerExecutableRange_iff (Nat.not_le.mp hle)).mpr (Or.inl hrange))
        (fun _ hguarded => Or.inl hguarded) fun _ hpage => Or.inl hpage
    have hdrop : ∀ range ∈ (state.executables.registerExecutableRange start stop
        name).ranges.drop state.executables.ranges.length,
        range ∈ (state.executables.registerExecutableRange start stop name).ranges :=
      fun range hrange => List.mem_of_mem_drop hrange
    refine (hregistered.foldl_registerFlatExecutable hdrop).congr ?_ rfl fun _ hpage => hpage
    rw [(foldl_registerFlatExecutable_frame _ _).2.2.1]

theorem ViewSound.resolveDeferredReads (h : state.ViewSound) (hsound : state.Sound)
    (renderer : Renderer) (address length : ℕ) :
    (state.resolveDeferredReads renderer address length).1.ViewSound := by
  refine h.congr rfl rfl fun page hpage => ?_
  have hvalid : ∀ read ∈ state.deferred.reads.filter (DeferredState.meets address length),
      read.Valid := fun read hread => hsound.reads read (List.mem_filter.mp hread).1
  rw [← DeferredState.executableProtectedPages_unprotectReads hvalid]
  exact hpage

theorem ViewSound.clearDeferredReads (h : state.ViewSound) (hsound : state.Sound) :
    state.clearDeferredReads.ViewSound := by
  refine h.congr rfl rfl fun page hpage => ?_
  rw [← DeferredState.executableProtectedPages_unprotectReads hsound.reads]
  exact hpage

theorem ViewSound.handleAccessViolation (h : state.ViewSound) (hsound : state.Sound)
    {lr : Option (BitVec 32)} {guestAddress : ℕ} {isWrite : Bool} {events : List WriteEvent}
    (hfault : state.handleAccessViolation system lr guestAddress isWrite =
      (events, some state')) : state'.ViewSound := by
  unfold MemoryState.handleAccessViolation at hfault
  dsimp only at hfault
  split at hfault
  case h_1 deferred hresumed =>
    cases hfault
    exact h.congr rfl rfl fun page hpage =>
      (executableProtectedPages_of_resumed hsound.reads hresumed).1 hpage
  case h_2 => cases hfault

theorem executableProtectedPages_protectDeferredRange {flat : FlatState}
    (address length : ℕ) :
    (flat.protectDeferredRange address length).executableProtectedPages =
      flat.executableProtectedPages := by
  unfold FlatState.protectDeferredRange
  split_ifs <;> rfl

theorem ViewSound.registerDeferredRead (h : state.ViewSound) (address length : ℕ)
    (hasCallback : Bool) :
    (state.registerDeferredRead address length hasCallback).2.ViewSound := by
  unfold MemoryState.registerDeferredRead DeferredState.registerDeferredRead
  by_cases hrefused : length = 0 ∨ hasCallback = false ∨ 2 ^ 32 < address + length
  · rw [if_pos hrefused]
    exact h
  · rw [if_neg hrefused]
    dsimp only
    by_cases hactive : state.activeRegions.isSome = true
    · rw [if_pos hactive]
      split_ifs
      · exact h
      · exact h.congr rfl rfl fun page hpage => by
          rwa [executableProtectedPages_protectDeferredRange] at hpage
      · exact h.congr rfl rfl fun page hpage => by
          rwa [executableProtectedPages_protectDeferredRange] at hpage
    · rw [if_neg hactive]
      split_ifs
      · exact h
      · exact h.congr rfl rfl fun _ hpage => hpage
      · exact h.congr rfl rfl fun _ hpage => hpage

theorem ViewSound.read (h : state.ViewSound) (hsound : state.Sound) (renderer : Renderer)
    (address : BitVec 32) (width : ℕ) : (state.read renderer address width).2.ViewSound := by
  unfold MemoryState.read
  split
  · exact h
  · unfold readSlow
    split_ifs
    · exact h
    · have hresolved := h.resolveDeferredReads hsound renderer address.toNat width
      split <;> rename_i heq <;> rw [heq] at hresolved
      · exact hresolved
      · split <;> exact hresolved

theorem ViewSound.step (h : state.ViewSound) (hsound : state.Sound)
    (hstep : Step system state state') : state'.ViewSound := by
  cases hstep with
  | init layout cleared hinit => exact h.init hinit
  | reset => exact (h.clearDeferredReads hsound).congr rfl rfl fun _ hpage => hpage
  | registerExecutableRange start stop name => exact h.registerExecutableRange
  | registerDeferredRead address length hasCallback =>
      exact h.registerDeferredRead address.toNat length hasCallback
  | clearDeferredReads => exact h.clearDeferredReads hsound
  | resolveDeferredReads address length =>
      exact h.resolveDeferredReads hsound system.renderer address.toNat length
  | read address width => exact h.read hsound system.renderer address width
  | fault hfault => exact h.handleAccessViolation hsound hfault
  | put host => exact h.congr rfl rfl fun _ hpage => hpage

theorem Reachable.viewSound (h : Reachable system state) : state.ViewSound := by
  induction h with
  | initial host => exact viewSound_initial host
  | step hreach hstep ih => exact ih.step hreach.sound hstep

end ViewSteps

/-! ## Stores that are looked at -/

section Stores

variable {state state' : MemoryState} {system : HostSystem} {lr : Option (BitVec 32)}
  {address : BitVec 32} {width value byte other : ℕ} {kind : StoreKind}
  {events : List WriteEvent} {range : ExecutableRange}

theorem exists_put_of_write (h : ∃ event ∈ (state.write lr address width value).1, IsPut event) :
    ∃ pointer bytes, WriteEvent.put pointer bytes ∈ (state.write lr address width value).1 := by
  obtain ⟨event, hmem, hput⟩ := h
  cases event with
  | put pointer bytes => exact ⟨pointer, bytes, hmem⟩
  | handleExecutableWrite address length => exact hput.elim
  | gatherPipe bytes => exact hput.elim
  | putView address bytes =>
      unfold MemoryState.write at hmem
      split at hmem
      · simp at hmem
      · unfold writeSlow at hmem
        dsimp only at hmem
        split_ifs at hmem
        · simp at hmem
        · simp at hmem
        split at hmem
        · simp at hmem
        · split at hmem <;> simp at hmem

/-- A checked write that changes a registered byte reaches the guard. -/
theorem Sound.reached_write (h : state.Sound) (hwidth : width ≤ 8)
    (hmem : range ∈ state.executables.ranges) (hhas : range.Has byte)
    (haddress : address.toNat ≤ byte) (hbyte : byte < address.toNat + width)
    (hput : ∃ event ∈ (state.write lr address width value).1, IsPut event) :
    Reached state (state.write lr address width value).1 byte := by
  obtain ⟨pointer, bytes, hevent⟩ := exists_put_of_write hput
  have hguard : state.executables.pages (byte / writableSubPageSize) = true :=
    h.executables.pages range hmem _ (spansPage_of_mem hhas.1 hhas.2)
  rw [h.write_handled hwidth hevent haddress hbyte hguard]
  have hrange : address.toNat < range.stop ∧ range.start < address.toNat + width := by
    obtain ⟨hstart, hstop⟩ := hhas
    omega
  exact ⟨[], address.toNat, width, _, rfl, List.forall_mem_nil _, range, hmem,
    hhas, hrange⟩

theorem events_of_fault {result : Option MemoryState} {isWrite : Bool}
    (h : state.handleAccessViolation system lr other isWrite = (events, result)) :
    (∀ event ∈ events, ¬IsPut event) ∧
      (state.isGuardFault other = true → events = [.handleExecutableWrite other 1]) := by
  have hevents : events =
      if state.isGuardFault other then [.handleExecutableWrite other 1] else [] := by
    unfold MemoryState.handleAccessViolation at h
    dsimp only at h
    split at h <;> cases h <;> rfl
  rw [hevents]
  split_ifs with hguard
  · refine ⟨fun event hevent => ?_, fun _ => rfl⟩
    rw [List.mem_singleton.mp hevent]
    exact not_false
  · exact ⟨fun _ hevent => by simp at hevent, fun htrue => absurd htrue hguard⟩

theorem GuardedPage.isGuardFault (h : state.GuardedPage byte)
    (hpage : other / hostPageSize = byte / hostPageSize) : state.isGuardFault other = true := by
  unfold MemoryState.isGuardFault
  rw [Bool.and_eq_true, hpage]
  refine ⟨?_, h.executable⟩
  rw [Option.isNone_iff_eq_none, List.find?_eq_none]
  intro range hrange
  rw [spans_of_page hpage, h.ranges range hrange]
  exact Bool.false_ne_true

theorem GuardedPage.fault (h : state.GuardedPage byte) (hsound : state.Sound)
    (hneighbours : state.NeighboursMapped address.toNat width byte) (hwidth : width ≤ 8)
    (haddress : address.toNat ≤ byte) (hbyte : byte < address.toNat + width)
    (hother : address.toNat ≤ other) (hother' : other < address.toNat + width)
    (hpage : other / hostPageSize ≠ byte / hostPageSize) (hblocked : ¬state.Writable other)
    (hfault : state.handleAccessViolation system lr other true = (events, some state')) :
    state'.GuardedPage byte ∧ state'.NeighboursMapped address.toNat width byte ∧
      state'.executables = state.executables := by
  unfold MemoryState.handleAccessViolation at hfault
  dsimp only at hfault
  split at hfault
  case h_2 => cases hfault
  case h_1 deferred hresumed =>
    cases hfault
    have hprotection := protection_of_resumed_other hsound.reads hpage h.ranges h.reads
      (hneighbours other hother hother' hpage hblocked) hresumed
    have hflag := (executableProtectedPages_of_resumed hsound.reads hresumed).2
      (Ne.symm hpage)
    refine ⟨⟨?_, ?_, ?_, ?_⟩, ?_, rfl⟩
    · unfold Writable
      dsimp only
      rw [hprotection]
      exact h.blocked
    · dsimp only
      rw [hflag]
      exact h.executable
    · exact fun range hrange =>
        h.ranges range (deferredRanges_of_resumed hsound.reads hresumed range hrange)
    · exact fun read hread => h.reads read (reads_of_resumed hresumed read hread)
    · -- the page of the fault is open now, or nothing changed
      rcases protection_of_resumed_self hsound.reads hresumed with hopen | hsame
      · intro third hthird hthird' hthirdPage hthirdBlocked
        have hsize : hostPageSize = 4096 := rfl
        have heq : third / hostPageSize = other / hostPageSize := by
          rw [hsize] at hthirdPage hpage ⊢
          omega
        refine absurd ?_ hthirdBlocked
        unfold Writable
        dsimp only
        rw [heq, hopen]
        rfl
      · cases hsame
        exact hneighbours

/-- A store through the view that changes a byte of a guarded page reaches the guard. -/
theorem FlatStore.reached {bytes : List UInt8} (hstore : FlatStore system lr address.toNat bytes
      state events) (hsound : state.Sound) (hview : state.ViewSound) (hwidth : bytes.length ≤ 8)
    (haddress : address.toNat ≤ byte) (hbyte : byte < address.toNat + bytes.length)
    (hguarded : state.GuardedPage byte)
    (hneighbours : state.NeighboursMapped address.toNat bytes.length byte)
    (hput : ∃ event ∈ events, IsPut event) : Reached state events byte := by
  -- a fault on the page of the byte calls the guard of a range that has the whole page
  have hcall : ∀ {state : MemoryState} {other : ℕ} (after : List WriteEvent),
      state.ViewSound → state.GuardedPage byte →
      other / hostPageSize = byte / hostPageSize →
      Reached state ([.handleExecutableWrite other 1] ++ after) byte := by
    intro state other after hview hguarded hpage
    obtain ⟨range, hrange, hstart, hstop⟩ := hview.pages _ hguarded.executable
    have hsize : hostPageSize = 4096 := rfl
    rw [hsize] at hpage hstart hstop
    refine ⟨[], other, 1, after, rfl, List.forall_mem_nil _, range, hrange, ?_, ?_⟩
    · exact ⟨by omega, by omega⟩
    · omega
  induction hstore with
  | put hwritable => exact absurd (hwritable byte haddress hbyte) hguarded.blocked
  | @fault state state' other events rest hother hother' hblocked hfault _ ih =>
      obtain ⟨hnotPut, hguardFault⟩ := events_of_fault hfault
      by_cases hpage : other / hostPageSize = byte / hostPageSize
      · rw [hguardFault (hguarded.isGuardFault hpage)]
        exact hcall rest hview hguarded hpage
      · obtain ⟨hguarded', hneighbours', hexecutables⟩ := hguarded.fault hsound hneighbours
          hwidth haddress hbyte hother hother' hpage hblocked hfault
        have hput' : ∃ event ∈ rest, IsPut event := by
          obtain ⟨event, hevent, hisPut⟩ := hput
          rcases List.mem_append.mp hevent with hfirst | hrest
          · exact absurd hisPut (hnotPut event hfirst)
          · exact ⟨event, hrest, hisPut⟩
        obtain ⟨before, call, length, after, heq, hbefore, hreached⟩ :=
          ih (hsound.handleAccessViolation hfault) (hview.handleAccessViolation hsound hfault)
            hguarded' hneighbours' hput'
        refine ⟨events ++ before, call, length, after, ?_, ?_, ?_⟩
        · rw [heq, List.append_assoc]
        · intro event hevent
          rcases List.mem_append.mp hevent with hfirst | hrest
          · exact hnotPut event hfirst
          · exact hbefore event hrest
        · rwa [hexecutables] at hreached
  | stop hother hother' hblocked hfault =>
      obtain ⟨event, hevent, hisPut⟩ := hput
      exact absurd hisPut ((events_of_fault hfault).1 event hevent)

/-- A watched store that changes a byte of a range of the table reaches the guard. -/
theorem Sound.reached_store (h : state.Sound) (hview : state.ViewSound) (hwidth : width ≤ 8)
    (hmem : range ∈ state.executables.ranges) (hhas : range.Has byte)
    (haddress : address.toNat ≤ byte) (hbyte : byte < address.toNat + width)
    (hstore : Stores system lr state address width value kind events)
    (hwatched : state.Watched address width byte kind)
    (hput : ∃ event ∈ events, IsPut event) : Reached state events byte := by
  have hlength := ByteImage.length_toBytes width value
  cases hstore with
  | checked => exact h.reached_write hwidth hmem hhas haddress hbyte hput
  | pairFast hpointer =>
      have hfree := (tryGetWritablePointerFast_spec h.mapped h.guarded h.executables hpointer).2
        byte haddress hbyte
      have hguard : state.executables.pages (byte / writableSubPageSize) = true :=
        h.executables.pages range hmem _ (spansPage_of_mem hhas.1 hhas.2)
      rw [hfree] at hguard
      cases hguard
  | pairChecked => exact h.reached_write hwidth hmem hhas haddress hbyte hput
  | stackFast hpointer =>
      rw [Watched, hpointer] at hwatched
      cases hwatched
  | stackChecked => exact h.reached_write hwidth hmem hhas haddress hbyte hput
  | flatSlow hpolicy =>
      -- a device register is not memory, so the slow path changes nothing
      have hmmio := isMmioAddress_of_flatWriteNeedsPolicy hpolicy
      obtain ⟨event, hevent, hisPut⟩ := hput
      unfold writeSlow at hevent
      dsimp only at hevent
      split_ifs at hevent
      · rw [List.mem_singleton.mp hevent] at hisPut
        exact hisPut.elim
      · cases hevent
  | flat _ hflat =>
      rw [← hlength] at hwatched hbyte hwidth
      exact hflat.reached h hview hwidth haddress hbyte hwatched.1 hwatched.2 hput
  | flatRam hflat =>
      rw [← hlength] at hwatched hbyte hwidth
      exact hflat.reached h hview hwidth haddress hbyte hwatched.1 hwatched.2 hput

end Stores

/-! ## Runs with registrations -/

section Runs

variable {system : HostSystem} {state state' : MemoryState} {registered : List (ℕ × ℕ)}
  {start stop base offset : ℕ} {bank : Bank}

/-- A run and the ranges that were registered in it. -/
inductive Run (system : HostSystem) : List (ℕ × ℕ) → MemoryState → Prop where
  | initial (host : HostMemory) : Run system [] (MemoryState.initial host)
  | register {registered : List (ℕ × ℕ)} {state : MemoryState} (h : Run system registered state)
      (start stop : BitVec 32) (name : String) :
      Run system ((start.toNat, stop.toNat) :: registered)
        (state.registerExecutableRange start.toNat stop.toNat name)
  | step {registered : List (ℕ × ℕ)} {state state' : MemoryState}
      (h : Run system registered state) (hstep : Step system state state')
      (hexecutables : state'.executables = state.executables) : Run system registered state'

theorem Run.reachable (h : Run system registered state) : Reachable system state := by
  induction h with
  | initial host => exact .initial host
  | register _ start stop name ih => exact .step ih (.registerExecutableRange _ _ _ _)
  | step _ hstep _ ih => exact .step ih hstep

def IsAlias (bank : Bank) (offset byte : ℕ) : Prop :=
  byte = bank.physicalBase + offset ∨ byte = bank.cachedBase + offset ∨
    byte = bank.uncachedBase + offset

instance (bank : Bank) (offset byte : ℕ) : Decidable (IsAlias bank offset byte) :=
  inferInstanceAs (Decidable (_ ∨ _))

/-- A range of the table has the byte. -/
def Covered (state : MemoryState) (byte : ℕ) : Prop :=
  ∃ range ∈ state.executables.ranges, range.Has byte

theorem executables_registerExecutableRange (hlt : start < stop) (name : String) :
    (state.registerExecutableRange start stop name).executables =
      state.executables.registerExecutableRange start stop name := by
  unfold MemoryState.registerExecutableRange
  rw [if_neg (Nat.not_le.mpr hlt)]
  exact (foldl_registerFlatExecutable_frame _ _).2.2.1

theorem Covered.register (h : Covered state byte) (name : String) :
    Covered (state.registerExecutableRange start stop name) byte := by
  rcases Nat.lt_or_ge start stop with hlt | hle
  · obtain ⟨range, hrange, hhas⟩ := h
    refine ⟨range, ?_, hhas⟩
    rw [executables_registerExecutableRange hlt,
      Executables.mem_registerExecutableRange_iff hlt]
    exact Or.inl hrange
  · unfold MemoryState.registerExecutableRange
    rwa [if_pos hle]

theorem covered_register_self (hstart : start ≤ byte) (hstop : byte < stop) (name : String) :
    Covered (state.registerExecutableRange start stop name) byte := by
  have hlt : start < stop := hstart.trans_lt hstop
  refine ⟨⟨start, stop, Executables.rangeName start stop name⟩, ?_, hstart, hstop⟩
  rw [executables_registerExecutableRange hlt, Executables.mem_registerExecutableRange_iff hlt]
  exact Or.inr (Or.inl rfl)

/-- A registration in a bank covers the cached and the uncached aliases of its bytes. -/
theorem covered_register_alias (hbank : bank ∈ [RecompMod.mem1, RecompMod.mem2])
    (hbase : bank.aliasBase start stop = some base) (hstart : start ≤ base + offset)
    (hstop : base + offset < stop) (name : String)
    (halias : byte = bank.cachedBase + offset ∨ byte = bank.uncachedBase + offset) :
    Covered (state.registerExecutableRange start stop name) byte := by
  have hlt : start < stop := hstart.trans_lt hstop
  obtain ⟨-, hle, -⟩ := Bank.aliasBase_eq_some hbase
  -- the alias that has the byte is one of the two that the bank adds
  have hadded : ∃ range ∈ bank.aliases start stop (Executables.rangeName start stop name),
      range.Has byte ∧ range.start < range.stop := by
    rw [Bank.aliases_of_aliasBase hlt hbase]
    rcases halias with rfl | rfl
    · refine ⟨_, List.mem_cons_self, ⟨?_, ?_⟩, ?_⟩ <;> dsimp only <;> omega
    · refine ⟨_, List.mem_cons_of_mem _ (List.mem_singleton_self _), ⟨?_, ?_⟩, ?_⟩ <;>
        dsimp only <;> omega
  obtain ⟨range, hrange, hhas, hnonempty⟩ := hadded
  refine ⟨range, ?_, hhas⟩
  rw [executables_registerExecutableRange hlt, Executables.mem_registerExecutableRange_iff hlt]
  rcases List.mem_pair.mp hbank with rfl | rfl
  · exact Or.inr (Or.inr (Or.inl ⟨hrange, hnonempty⟩))
  · exact Or.inr (Or.inr (Or.inr ⟨hrange, hnonempty⟩))

theorem Run.covered (h : Run system registered state) (hmem : (start, stop) ∈ registered)
    (hstart : start ≤ byte) (hstop : byte < stop) : Covered state byte := by
  induction h with
  | initial => cases hmem
  | register _ start' stop' name ih =>
      rcases List.mem_cons.mp hmem with heq | hold
      · cases heq
        exact covered_register_self hstart hstop name
      · exact (ih hold).register name
  | step _ _ hexecutables ih =>
      rw [Covered, hexecutables]
      exact ih hmem

theorem Run.covered_alias (h : Run system registered state) (hmem : (start, stop) ∈ registered)
    (hbank : bank ∈ [RecompMod.mem1, RecompMod.mem2]) (hbase : bank.aliasBase start stop = some base)
    (hstart : start ≤ base + offset) (hstop : base + offset < stop)
    (halias : byte = bank.cachedBase + offset ∨ byte = bank.uncachedBase + offset) :
    Covered state byte := by
  induction h with
  | initial => cases hmem
  | register _ start' stop' name ih =>
      rcases List.mem_cons.mp hmem with heq | hold
      · cases heq
        exact covered_register_alias hbank hbase hstart hstop name halias
      · exact (ih hold).register name
  | step _ _ hexecutables ih =>
      rw [Covered, hexecutables]
      exact ih hmem

/-- In every run, a store that changes a byte of a registered range of a bank reaches the
guard before it does, when the alias that it goes through is cached, uncached or in a range
that is registered itself, and the guard looks at stores of its kind to the byte. -/
theorem guards_cover_aliases {lr : Option (BitVec 32)} {address : BitVec 32}
    {width value byte : ℕ} {kind : StoreKind} {events : List WriteEvent}
    (h : Run system registered state) (hmem : (start, stop) ∈ registered)
    (hbank : bank ∈ [RecompMod.mem1, RecompMod.mem2])
    (hbase : bank.aliasBase start stop = some base) (hstart : start ≤ base + offset)
    (hstop : base + offset < stop) (halias : IsAlias bank offset byte)
    (hwidth : width ∈ [1, 2, 4, 8]) (haddress : address.toNat ≤ byte)
    (hbyte : byte < address.toNat + width)
    (hstore : Stores system lr state address width value kind events)
    (hput : ∃ event ∈ events, IsPut event)
    (hvisible : byte ≠ bank.physicalBase + offset ∨
      ∃ range ∈ registered, range.1 ≤ byte ∧ byte < range.2)
    (hwatched : state.Watched address width byte kind) : Reached state events byte := by
  have hcovered : Covered state byte := by
    rcases hvisible with hne | ⟨range, hrange, hfirst, hlast⟩
    · rcases halias with hphysical | hvirtual
      · exact absurd hphysical hne
      · exact h.covered_alias hmem hbank hbase hstart hstop hvirtual
    · exact h.covered hrange hfirst hlast
  have hle : width ≤ 8 := by
    simp only [List.mem_cons, List.not_mem_nil, or_false] at hwidth
    omega
  obtain ⟨range, hrange, hhas⟩ := hcovered
  exact h.reachable.sound.reached_store h.reachable.viewSound hle hrange hhas haddress hbyte
    hstore hwatched hput

end Runs

/-! ## A range of the game's own module -/

/-- The physical and the cached alias of the first two pages of a bank. -/
def aliasLayout : List Region :=
  [⟨0x00000000#32, 2 ^ 21, 0x10000#64⟩, ⟨0x80000000#32, 2 ^ 21, 0x10000#64⟩]

/-- The state after the regions are mapped and a range is registered at its cached
addresses. -/
def aliasState : MemoryState :=
  (((initial fun _ => 0).init aliasLayout fun _ => 0).getD
    (initial fun _ => 0)).registerExecutableRange 0x80004000 0x80004010 "StaticR.rel"

theorem run_aliasState : Run exampleSystem [(0x80004000, 0x80004010)] aliasState :=
  .register (.step (.initial fun _ => 0) (.init aliasLayout (fun _ => 0) rfl) rfl)
    0x80004000#32 0x80004010#32 "StaticR.rel"

/-- A store through the physical alias changes the first word of the range, and the guard
is not called. -/
theorem physical_alias_not_reached :
    Run exampleSystem [(0x80004000, 0x80004010)] aliasState ∧
      RecompMod.mem1.aliasBase 0x80004000 0x80004010 = some 0x80000000 ∧
      IsAlias RecompMod.mem1 0x4000 0x4000 ∧
      ∃ events, Stores exampleSystem (some 0x8000A000#32) aliasState 0x4000#32 4 7 .checked
          events ∧
        (∃ event ∈ events, IsPut event) ∧ ¬Reached aliasState events 0x4000 := by
  refine ⟨run_aliasState, by decide, by decide, _, .checked, ?_⟩
  have hevents : (aliasState.write (some 0x8000A000#32) 0x4000#32 4 7).1 =
      [.put 0x14000#64 [0, 0, 0, 7]] := by decide +kernel
  rw [hevents]
  refine ⟨⟨_, List.mem_singleton_self _, trivial⟩, ?_⟩
  rintro ⟨before, address, length, after, heq, -⟩
  have hmem : WriteEvent.handleExecutableWrite address length ∈
      [WriteEvent.put 0x14000#64 [0, 0, 0, 7]] := by
    rw [heq]
    exact List.mem_append_right _ List.mem_cons_self
  simp at hmem

/-- The same store through the cached alias reaches the guard, which permits it. -/
theorem cached_alias_reached :
    (aliasState.write (some 0x8000A000#32) 0x80004000#32 4 7).1 =
        [.handleExecutableWrite 0x80004000 4, .put 0x14000#64 [0, 0, 0, 7]] ∧
      Reached aliasState (aliasState.write (some 0x8000A000#32) 0x80004000#32 4 7).1
        0x80004000 := by
  have hevents : (aliasState.write (some 0x8000A000#32) 0x80004000#32 4 7).1 =
      [.handleExecutableWrite 0x80004000 4, .put 0x14000#64 [0, 0, 0, 7]] := by
    decide +kernel
  refine ⟨hevents, ?_⟩
  have hstore : Stores exampleSystem (some 0x8000A000#32) aliasState 0x80004000#32 4 7
      .checked (aliasState.write (some 0x8000A000#32) 0x80004000#32 4 7).1 := .checked
  have hbase : RecompMod.mem1.aliasBase 0x80004000 0x80004010 = some 0x80000000 := by decide
  have halias : IsAlias RecompMod.mem1 0x4000 0x80004000 := by decide
  refine guards_cover_aliases run_aliasState (List.mem_singleton_self _) List.mem_cons_self
    hbase (by decide) (by decide) halias (by decide) (by decide) (by decide) hstore ?_
    (Or.inl (by decide)) trivial
  rw [hevents]
  exact ⟨_, List.mem_cons_of_mem _ (List.mem_singleton_self _), trivial⟩

end MemoryState

end Wiicompiled.Runtime.MemoryInline
