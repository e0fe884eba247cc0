import Wiicompiled.Support.PageSpans
import Mathlib.Data.List.Basic

/-!
# Flat guest memory

Translated code reads and writes guest memory through a view of the whole address
space.  A range whose contents are still to be copied from the graphics processor is
registered as a deferred read, and its host pages are made inaccessible in the view; an
access to such a page comes to the fault handler, which copies the contents and opens
the pages.  Addresses are 64-bit here as in the runtime, and the end of a range in the
tables is cut to 32 bits.
-/

namespace Wiicompiled.Runtime.GuestFlat

open PageSpans

/-! ## Protection of the view -/

def guestSpaceSize : ℕ := 2 ^ 32

def hostPageSize : ℕ := 0x1000

def allocationGranularity : ℕ := 0x10000

/-- What the view allows on a host page. -/
inductive Protection where
  | none
  | read
  | readWrite
deriving DecidableEq, Repr

/-- An access of a kind is allowed. -/
def Protection.allows : Protection → Bool → Bool
  | .none, _ => false
  | .read, isWrite => !isWrite
  | .readWrite, _ => true

/-- A guarded range of the tables, whose end is kept in 32 bits. -/
structure GuardedRange where
  start : ℕ
  stop : ℕ
deriving DecidableEq, Repr

structure FlatState where
  deferredRanges : List GuardedRange
  protection : ℕ → Protection
  executableProtectedPages : ℕ → Bool
  committedBlocks : ℕ → Bool

namespace FlatState

def protectRange (flat : FlatState) (address size : ℕ) (flags : Protection) : FlatState :=
  { flat with
    protection := fun page =>
      if address < (page + 1) * hostPageSize ∧ page * hostPageSize < address + size then flags
      else flat.protection page }

/-- The pages of a deferred read become inaccessible. -/
def protectDeferredRange (flat : FlatState) (address length : ℕ) : FlatState :=
  if length = 0 then flat
  else if guestSpaceSize < address + length then flat
  else
    let first := roundDown hostPageSize address
    let last := roundUp hostPageSize (address + length)
    let flat := flat.protectRange first (last - first) .none
    { flat with
      deferredRanges := flat.deferredRanges ++ [⟨address, (address + length) % 2 ^ 32⟩] }

/-- The pages of a deferred read are opened, if the range is in the table. -/
def unprotectDeferredRange (flat : FlatState) (address length : ℕ) : FlatState :=
  if length = 0 then flat
  else
    let range : GuardedRange := ⟨address, (address + length) % 2 ^ 32⟩
    if range ∈ flat.deferredRanges then
      let first := roundDown hostPageSize address
      let last := roundUp hostPageSize (address + length)
      let flat := { flat with deferredRanges := flat.deferredRanges.erase range }
      flat.protectRange first (last - first) .readWrite
    else flat

end FlatState

/-! ## Deferred reads -/

/-- A range of guest memory that is to be filled, and the token of its callback. -/
structure DeferredRead where
  token : ℕ
  start : ℕ
  length : ℕ
deriving DecidableEq, Repr

structure DeferredState where
  reads : List DeferredRead
  nextToken : ℕ
  flat : FlatState

namespace DeferredState

/-- Register a deferred read; a range that is empty, without a callback or beyond the
address space is refused with token zero. -/
def registerDeferredRead (state : DeferredState) (address length : ℕ) (hasCallback : Bool) :
    ℕ × DeferredState :=
  if length = 0 ∨ hasCallback = false ∨ 2 ^ 32 < address + length then (0, state)
  else
    let next (token : ℕ) := (token + 1) % 2 ^ 64
    let token := if state.nextToken = 0 then next state.nextToken else state.nextToken
    (token,
      { reads := state.reads ++ [⟨token, address, length⟩]
        nextToken := next token
        flat := state.flat.protectDeferredRange address length })

/-- Open the pages of several deferred reads. -/
def unprotectReads (flat : FlatState) (reads : List DeferredRead) : FlatState :=
  reads.foldl (fun flat read => flat.unprotectDeferredRange read.start read.length) flat

def clearDeferredReads (state : DeferredState) : DeferredState :=
  { state with reads := [], flat := unprotectReads state.flat state.reads }

def meets (address length : ℕ) (read : DeferredRead) : Bool :=
  Overlaps address length read.start read.length

/-- Take out the deferred reads that an access meets, and open their pages.  The
callbacks come after; the first one that fails ends the resolution, and its read and
those behind it are never filled. -/
def resolveDeferredReads (state : DeferredState) (address length : ℕ)
    (materializes : DeferredRead → Bool) : DeferredState × List DeferredRead :=
  let «matches» := state.reads.filter (meets address length)
  ({ state with
      reads := state.reads.filter fun read => !meets address length read
      flat := unprotectReads state.flat «matches» },
    «matches».dropWhile materializes)

end DeferredState

/-! ## Faults -/

/-- How the host tells which blocks are committed. -/
inductive Platform where
  | windows
  | posix
deriving DecidableEq, Repr

/-- The window of device registers. -/
def isMmio (address : ℕ) : Bool :=
  decide (0xCC000000 ≤ address ∧ address < 0xCE000000)

/-- What the handler makes of a fault: the access runs again, or the fault is not one of
the view, or the run is stopped with a report. -/
inductive FaultOutcome where
  | resumed (state : DeferredState)
  | notHandled
  | stopped

/-- The pages that a range of the table touches, as the handler computes them. -/
def GuardedRange.spans (range : GuardedRange) (address : ℕ) : Bool :=
  decide (roundDown hostPageSize range.start ≤ address ∧
    address < roundUp hostPageSize range.stop)

/-- The fault handler.  `mapped` are the pages of the regions, and `permitted` tells
whether a write to executable code is one of the loader. -/
def handleAccessViolation (platform : Platform) (mapped : ℕ → Bool) (permitted : Bool)
    (materializes : DeferredRead → Bool) (state : DeferredState) (guestAddress : ℕ)
    (isWrite : Bool) : FaultOutcome :=
  match state.flat.deferredRanges.find? (·.spans guestAddress) with
  | some range =>
      let spanFirst := roundDown hostPageSize range.start
      let spanLast := roundUp hostPageSize range.stop
      let flat :=
        { state.flat with deferredRanges := state.flat.deferredRanges.erase range }
      let flat := flat.protectRange spanFirst (spanLast - spanFirst) .readWrite
      let opened : DeferredState := { state with flat := flat }
      let (resolved, unfilled) :=
        opened.resolveDeferredReads spanFirst (spanLast - spanFirst) materializes
      if unfilled = [] then .resumed resolved else .stopped
  | none =>
      let page := guestAddress / hostPageSize
      if state.flat.executableProtectedPages page then
        if permitted then
          let flat := state.flat.protectRange (page * hostPageSize) hostPageSize .readWrite
          .resumed
            { state with
              flat :=
                { flat with
                  executableProtectedPages :=
                    Function.update flat.executableProtectedPages page false } }
        else .stopped
      else if isMmio guestAddress then .stopped
      else
        let block := guestAddress / allocationGranularity
        let blockBase := block * allocationGranularity
        let isCommitted := state.flat.committedBlocks block ||
          (platform == .windows && mapped (blockBase / hostPageSize))
        if isCommitted then
          match platform with
          | .posix => .resumed state
          | .windows =>
              if (state.flat.protection (blockBase / hostPageSize)).allows isWrite then
                .resumed state
              else .notHandled
        else
          let flat := state.flat.protectRange blockBase allocationGranularity .readWrite
          .resumed
            { state with
              flat :=
                { flat with
                  committedBlocks := Function.update flat.committedBlocks block true } }

end Wiicompiled.Runtime.GuestFlat
