import Wiicompiled.Support.PageSpans
import Mathlib.Data.List.Infix

/-!
# Executable ranges

The module loader registers the ranges of guest memory whose code was translated.  A
range is registered as it is given and at the cached and the uncached alias of its bank,
and the pages that it touches are marked in guard tables of three page sizes.  A write
that may hit a guarded page is looked up in the ranges; one that hits a range ends the
run, unless it is known to come from the loader of the base game.
-/

namespace Wiicompiled.Runtime.RecompMod

open PageSpans

/-! ## Registration -/

def executableWriteGuardPageSize : ℕ := 2 ^ 12

def executableWriteGuardMidPageSize : ℕ := 2 ^ 16

def executableWriteGuardCoarsePageSize : ℕ := 2 ^ 20

structure ExecutableRange where
  start : ℕ
  stop : ℕ
  name : String
deriving DecidableEq, Repr

def ExecutableRange.Has (range : ExecutableRange) (address : ℕ) : Prop :=
  range.start ≤ address ∧ address < range.stop

instance (range : ExecutableRange) (address : ℕ) : Decidable (range.Has address) :=
  inferInstanceAs (Decidable (_ ∧ _))

/-- The pages from the first to the last byte of a range. -/
def spansPage (size start stop page : ℕ) : Bool :=
  decide (start / size ≤ page ∧ page ≤ (stop - 1) / size)

/-- The registered ranges and the pages that they mark. -/
structure Executables where
  ranges : List ExecutableRange
  enabled : Bool
  pages : ℕ → Bool
  midPages : ℕ → Bool
  coarsePages : ℕ → Bool

namespace Executables

/-- Nothing is registered. -/
def empty : Executables where
  ranges := []
  enabled := false
  pages := fun _ => false
  midPages := fun _ => false
  coarsePages := fun _ => false

def markExecutableGuardPages (state : Executables) (start stop : ℕ) : Executables :=
  if stop ≤ start then state
  else
    { state with
      pages := fun page =>
        spansPage executableWriteGuardPageSize start stop page || state.pages page
      midPages := fun page =>
        spansPage executableWriteGuardMidPageSize start stop page || state.midPages page
      coarsePages := fun page =>
        spansPage executableWriteGuardCoarsePageSize start stop page ||
          state.coarsePages page }

/-- Add one range.  An empty range and one that is there already change nothing. -/
def addExecutableRangeLocked (state : Executables) (range : ExecutableRange) : Executables :=
  if range.stop ≤ range.start then state
  else if range ∈ state.ranges then state
  else
    { ({ state with ranges := state.ranges ++ [range] }).markExecutableGuardPages
        range.start range.stop with
      enabled := true }

end Executables

/-! ## Aliases -/

def mem1Size : ℕ := 24 * 1024 * 1024

def mem2Size : ℕ := 128 * 1024 * 1024

/-- A bank of memory and where it is visible. -/
structure Bank where
  physicalBase : ℕ
  cachedBase : ℕ
  uncachedBase : ℕ
  size : ℕ
deriving DecidableEq, Repr

def mem1 : Bank := ⟨0x00000000, 0x80000000, 0xC0000000, mem1Size⟩

def mem2 : Bank := ⟨0x10000000, 0x90000000, 0xD0000000, mem2Size⟩

namespace Bank

def addFromOffset (bank : Bank) (offset length : ℕ) (name : String) : List ExecutableRange :=
  if bank.size < offset + length then []
  else
    [⟨bank.cachedBase + offset, bank.cachedBase + offset + length, name ++ " [cached]"⟩,
      ⟨bank.uncachedBase + offset, bank.uncachedBase + offset + length, name ++ " [uncached]"⟩]

def aliasBase (bank : Bank) (start stop : ℕ) : Option ℕ :=
  if bank.physicalBase ≤ start ∧ stop ≤ bank.physicalBase + bank.size then
    some bank.physicalBase
  else if bank.cachedBase ≤ start ∧ stop ≤ bank.cachedBase + bank.size then
    some bank.cachedBase
  else if bank.uncachedBase ≤ start ∧ stop ≤ bank.uncachedBase + bank.size then
    some bank.uncachedBase
  else none

def aliases (bank : Bank) (start stop : ℕ) (name : String) : List ExecutableRange :=
  if stop ≤ start then []
  else
    match bank.aliasBase start stop with
    | some base => bank.addFromOffset (start - base) (stop - start) name
    | none => []

end Bank

namespace Executables

def addRanges (state : Executables) (ranges : List ExecutableRange) : Executables :=
  ranges.foldl addExecutableRangeLocked state

def addMem1AliasesLocked (state : Executables) (start stop : ℕ) (name : String) : Executables :=
  state.addRanges (mem1.aliases start stop name)

def addMem2AliasesLocked (state : Executables) (start stop : ℕ) (name : String) : Executables :=
  state.addRanges (mem2.aliases start stop name)

/-- The name of a range that is registered without one. -/
def fallbackName (start stop : ℕ) : String :=
  let hex (value : ℕ) := String.ofList ((Nat.toDigits 16 value).map Char.toUpper)
  "0x" ++ hex start ++ "-0x" ++ hex stop

/-- Register a range at its own addresses and at the aliases of its bank. -/
def registerExecutableRange (state : Executables) (start stop : ℕ) (name : String) :
    Executables :=
  if stop ≤ start then state
  else
    let name := if name = "" then fallbackName start stop else name
    let state := state.addExecutableRangeLocked ⟨start, stop, name⟩
    let state := state.addMem1AliasesLocked start stop name
    state.addMem2AliasesLocked start stop name

/-! ## Writes -/

/-- One of the pages that an access touches is marked; the last page is cut to the
table. -/
def anyPage (marked : ℕ → Bool) (size address length : ℕ) : Bool :=
  let first := address / size
  let last := min ((address + length - 1) / size) (2 ^ 32 / size - 1)
  (List.range' first (last + 1 - first)).any marked

def executableWriteGuardMayHit (state : Executables) (address length : ℕ) : Bool :=
  if length = 0 || !state.enabled then false
  else if !anyPage state.coarsePages executableWriteGuardCoarsePageSize address length then
    false
  else if !anyPage state.midPages executableWriteGuardMidPageSize address length then false
  else anyPage state.pages executableWriteGuardPageSize address length

/-- The first range that an access meets. -/
def findExecutableRange (state : Executables) (address length : ℕ) : Option ExecutableRange :=
  state.ranges.find? fun range => address < range.stop && range.start < address + length

end Executables

/-- The game copies and relocates the sections of its own module before it runs them.
`lr` is the link register of the running thread, if there is one. -/
def isKnownBaseRelLoaderWrite (lr : Option (BitVec 32)) (range : ExecutableRange) : Bool :=
  if "StaticR.rel".toList <:+: range.name.toList then
    match lr with
    | none => false
    | some lr =>
        (0x8000A000#32 ≤ lr && lr < 0x8000A400#32) ||
          (0x801A6000#32 ≤ lr && lr < 0x801A7000#32)
  else false

/-- What becomes of a write: it is not one of executable code, or it is permitted, or it
ends the run. -/
inductive ExecutableWriteVerdict where
  | passed
  | permitted (range : ExecutableRange)
  | forbidden (range : ExecutableRange)
deriving DecidableEq, Repr

/-- Look at a write to memory that may hold translated code. -/
def handleExecutableWrite (state : Executables) (lr : Option (BitVec 32))
    (address length : ℕ) : ExecutableWriteVerdict :=
  if !state.executableWriteGuardMayHit address length then .passed
  else
    match state.findExecutableRange address length with
    | none => .passed
    | some range =>
        if isKnownBaseRelLoaderWrite lr range then .permitted range else .forbidden range

/-! ## Marked pages -/

section MarkedPages

variable {size start stop page address length : ℕ} {marked : ℕ → Bool}

theorem spansPage_of_mem (hstart : start ≤ address) (hstop : address < stop) :
    spansPage size start stop (address / size) = true := by
  rw [spansPage, decide_eq_true_iff]
  exact ⟨Nat.div_le_div_right hstart, Nat.div_le_div_right (by omega)⟩

theorem spansPage_div {factor : ℕ} (h : spansPage size start stop page = true) :
    spansPage (size * factor) start stop (page / factor) = true := by
  rw [spansPage, decide_eq_true_iff] at h ⊢
  rw [← Nat.div_div_eq_div_mul, ← Nat.div_div_eq_div_mul]
  exact ⟨Nat.div_le_div_right h.1, Nat.div_le_div_right h.2⟩

end MarkedPages

namespace Executables

/-- Every range is in the address space and marks its pages, and a marked page is in a
marked coarse page. -/
structure Marked (state : Executables) : Prop where
  nonempty : ∀ range ∈ state.ranges, range.start < range.stop
  fits : ∀ range ∈ state.ranges, range.stop ≤ 2 ^ 32
  enabled : state.ranges ≠ [] → state.enabled = true
  pages : ∀ range ∈ state.ranges, ∀ page,
    spansPage executableWriteGuardPageSize range.start range.stop page = true →
      state.pages page = true
  midPages : ∀ range ∈ state.ranges, ∀ page,
    spansPage executableWriteGuardMidPageSize range.start range.stop page = true →
      state.midPages page = true
  coarsePages : ∀ range ∈ state.ranges, ∀ page,
    spansPage executableWriteGuardCoarsePageSize range.start range.stop page = true →
      state.coarsePages page = true
  coarse_of_page : ∀ page, state.pages page = true → state.coarsePages (page / 256) = true

variable {state : Executables} {range : ExecutableRange} {ranges : List ExecutableRange}
  {start stop address length byte : ℕ} {name : String}

theorem marked_empty : empty.Marked where
  nonempty := by simp [empty]
  fits := by simp [empty]
  enabled := by simp [empty]
  pages := by simp [empty]
  midPages := by simp [empty]
  coarsePages := by simp [empty]
  coarse_of_page := by simp [empty]

theorem addExecutableRangeLocked_of_lt (hlt : range.start < range.stop)
    (hnotMem : range ∉ state.ranges) :
    state.addExecutableRangeLocked range =
      { ranges := state.ranges ++ [range]
        enabled := true
        pages := fun page =>
          spansPage executableWriteGuardPageSize range.start range.stop page ||
            state.pages page
        midPages := fun page =>
          spansPage executableWriteGuardMidPageSize range.start range.stop page ||
            state.midPages page
        coarsePages := fun page =>
          spansPage executableWriteGuardCoarsePageSize range.start range.stop page ||
            state.coarsePages page } := by
  rw [addExecutableRangeLocked, if_neg (Nat.not_le.mpr hlt), if_neg hnotMem,
    markExecutableGuardPages, if_neg (Nat.not_le.mpr hlt)]

theorem mem_addExecutableRangeLocked_iff {other : ExecutableRange} :
    other ∈ (state.addExecutableRangeLocked range).ranges ↔
      other ∈ state.ranges ∨ other = range ∧ range.start < range.stop := by
  by_cases hlt : range.start < range.stop
  · by_cases hmem : range ∈ state.ranges
    · rw [addExecutableRangeLocked, if_neg (Nat.not_le.mpr hlt), if_pos hmem]
      constructor
      · exact Or.inl
      · rintro (h | ⟨rfl, -⟩)
        · exact h
        · exact hmem
    · rw [addExecutableRangeLocked_of_lt hlt hmem]
      simp [hlt]
  · rw [addExecutableRangeLocked, if_pos (Nat.not_lt.mp hlt)]
    simp [hlt]

theorem Marked.addExecutableRangeLocked (h : state.Marked) (hfits : range.stop ≤ 2 ^ 32) :
    (state.addExecutableRangeLocked range).Marked := by
  by_cases hlt : range.start < range.stop
  · by_cases hmem : range ∈ state.ranges
    · rw [Executables.addExecutableRangeLocked, if_neg (Nat.not_le.mpr hlt), if_pos hmem]
      exact h
    · rw [addExecutableRangeLocked_of_lt hlt hmem]
      -- each table keeps its marks and gets those of the new range
      constructor
      · simpa [or_imp, forall_and, hlt] using h.nonempty
      · simpa [or_imp, forall_and] using ⟨h.fits, hfits⟩
      · simp
      · intro other hother page hspans
        rcases List.mem_append.mp hother with hold | hnew
        · simp [h.pages other hold page hspans]
        · simp [← List.mem_singleton.mp hnew, hspans]
      · intro other hother page hspans
        rcases List.mem_append.mp hother with hold | hnew
        · simp [h.midPages other hold page hspans]
        · simp [← List.mem_singleton.mp hnew, hspans]
      · intro other hother page hspans
        rcases List.mem_append.mp hother with hold | hnew
        · simp [h.coarsePages other hold page hspans]
        · simp [← List.mem_singleton.mp hnew, hspans]
      · intro page hpage
        rcases Bool.or_eq_true_iff.mp hpage with hspans | hold
        · have hcoarse : spansPage (executableWriteGuardPageSize * 256) range.start
              range.stop (page / 256) = true := spansPage_div hspans
          exact Bool.or_eq_true_iff.mpr (Or.inl hcoarse)
        · exact Bool.or_eq_true_iff.mpr (Or.inr (h.coarse_of_page page hold))
  · rw [Executables.addExecutableRangeLocked, if_pos (Nat.not_lt.mp hlt)]
    exact h

theorem mem_addRanges_iff {other : ExecutableRange} :
    other ∈ (state.addRanges ranges).ranges ↔
      other ∈ state.ranges ∨ other ∈ ranges ∧ other.start < other.stop := by
  induction ranges generalizing state with
  | nil => simp [addRanges]
  | cons range ranges ih =>
      have hstep : state.addRanges (range :: ranges) =
          (state.addExecutableRangeLocked range).addRanges ranges := rfl
      rw [hstep, ih, mem_addExecutableRangeLocked_iff, List.mem_cons]
      constructor
      · rintro ((h | ⟨rfl, h⟩) | ⟨h, hlt⟩)
        · exact Or.inl h
        · exact Or.inr ⟨Or.inl rfl, h⟩
        · exact Or.inr ⟨Or.inr h, hlt⟩
      · rintro (h | ⟨rfl | h, hlt⟩)
        · exact Or.inl (Or.inl h)
        · exact Or.inl (Or.inr ⟨rfl, hlt⟩)
        · exact Or.inr ⟨h, hlt⟩

theorem Marked.addRanges (h : state.Marked) (hfits : ∀ range ∈ ranges, range.stop ≤ 2 ^ 32) :
    (state.addRanges ranges).Marked := by
  induction ranges generalizing state with
  | nil => exact h
  | cons range ranges ih =>
      rw [List.forall_mem_cons] at hfits
      exact ih (h.addExecutableRangeLocked hfits.1) hfits.2

end Executables

/-! ## Registered aliases -/

namespace Bank

variable {bank : Bank} {start stop base : ℕ} {name : String} {range : ExecutableRange}

theorem aliasBase_eq_some (h : bank.aliasBase start stop = some base) :
    (base = bank.physicalBase ∨ base = bank.cachedBase ∨ base = bank.uncachedBase) ∧
      base ≤ start ∧ stop ≤ base + bank.size := by
  unfold aliasBase at h
  split_ifs at h with hphysical hcached huncached
  · cases h
    exact ⟨Or.inl rfl, hphysical⟩
  · cases h
    exact ⟨Or.inr (Or.inl rfl), hcached⟩
  · cases h
    exact ⟨Or.inr (Or.inr rfl), huncached⟩

theorem aliases_of_aliasBase (hlt : start < stop) (h : bank.aliasBase start stop = some base) :
    bank.aliases start stop name =
      [⟨bank.cachedBase + (start - base), bank.cachedBase + (start - base) + (stop - start),
          name ++ " [cached]"⟩,
        ⟨bank.uncachedBase + (start - base), bank.uncachedBase + (start - base) + (stop - start),
          name ++ " [uncached]"⟩] := by
  obtain ⟨-, hstart, hstop⟩ := aliasBase_eq_some h
  rw [aliases, if_neg (Nat.not_le.mpr hlt), h]
  dsimp only
  rw [addFromOffset, if_neg (by omega)]

theorem stop_le_of_mem_aliases (hcached : bank.cachedBase + bank.size ≤ 2 ^ 32)
    (huncached : bank.uncachedBase + bank.size ≤ 2 ^ 32)
    (h : range ∈ bank.aliases start stop name) : range.stop ≤ 2 ^ 32 := by
  rcases Nat.lt_or_ge start stop with hlt | hle
  · cases hbase : bank.aliasBase start stop with
    | none =>
        rw [aliases, if_neg (Nat.not_le.mpr hlt), hbase] at h
        cases h
    | some base =>
        obtain ⟨-, hstart, hstop⟩ := aliasBase_eq_some hbase
        rw [aliases_of_aliasBase hlt hbase, List.mem_pair] at h
        rcases h with rfl | rfl <;> dsimp only <;> omega
  · rw [aliases, if_pos hle] at h
    cases h

end Bank

namespace Executables

variable {state : Executables} {start stop : ℕ} {name : String} {range : ExecutableRange}

def rangeName (start stop : ℕ) (name : String) : String :=
  if name = "" then fallbackName start stop else name

/-- The ranges after a registration: the range as it is given, and its aliases. -/
theorem mem_registerExecutableRange_iff (hlt : start < stop) :
    range ∈ (state.registerExecutableRange start stop name).ranges ↔
      range ∈ state.ranges ∨ range = ⟨start, stop, rangeName start stop name⟩ ∨
        range ∈ mem1.aliases start stop (rangeName start stop name) ∧
            range.start < range.stop ∨
          range ∈ mem2.aliases start stop (rangeName start stop name) ∧
            range.start < range.stop := by
  have hregister : state.registerExecutableRange start stop name =
      ((state.addExecutableRangeLocked ⟨start, stop, rangeName start stop name⟩).addRanges
        (mem1.aliases start stop (rangeName start stop name))).addRanges
          (mem2.aliases start stop (rangeName start stop name)) := by
    rw [registerExecutableRange, if_neg (Nat.not_le.mpr hlt)]
    rfl
  rw [hregister, mem_addRanges_iff, mem_addRanges_iff, mem_addExecutableRangeLocked_iff,
    or_assoc, or_assoc, and_iff_left hlt]

theorem Marked.registerExecutableRange (h : state.Marked) (hstop : stop ≤ 2 ^ 32) :
    (state.registerExecutableRange start stop name).Marked := by
  rw [Executables.registerExecutableRange]
  split_ifs
  · exact h
  all_goals
    refine ((h.addExecutableRangeLocked hstop).addRanges fun range hrange => ?_).addRanges
      fun range hrange => ?_
    · exact Bank.stop_le_of_mem_aliases (by decide) (by decide) hrange
    · exact Bank.stop_le_of_mem_aliases (by decide) (by decide) hrange

end Executables

end Wiicompiled.Runtime.RecompMod
