import Wiicompiled.Runtime.ExecutableGuards
import Wiicompiled.Runtime.GuestFlatMemory
import Wiicompiled.Runtime.GuestMemory

/-!
# Fast-path tables

The checked accesses of the runtime first ask tables with one entry for each page of
1 MiB.  A page that is mapped whole and whose successor is mapped behind it has a bias,
the difference of its host and its guest address with one added; zero means that the
page has none.  Reads and writes have biases of their own, which are zero where a
deferred read is pending or where code was translated.  Everything else goes to the
slow path.
-/

namespace Wiicompiled.Runtime.MemoryInline

open GuestFlat RecompMod FlatMemory

/-! ## Tables -/

def pageSize : ℕ := 2 ^ 20

def pageCount : ℕ := 2 ^ 12

def maxFastScalarSize : ℕ := 8

def writableSubPageSize : ℕ := executableWriteGuardPageSize

def writableSubPagesPerPage : ℕ := pageSize / writableSubPageSize

/-- Where a page is mapped, and how many of its bytes are. -/
structure PageEntry where
  base : BitVec 64
  limit : ℕ
deriving DecidableEq, Repr

structure FastTables where
  pageTable : ℕ → Option PageEntry
  fullPageBias : ℕ → BitVec 64
  fullReadablePageBias : ℕ → BitVec 64
  fullWritablePageBias : ℕ → BitVec 64
  sparseWritablePageTables : ℕ → Option (ℕ → BitVec 64)

/-- The tables without a mapping. -/
def FastTables.empty : FastTables where
  pageTable := fun _ => none
  fullPageBias := fun _ => 0
  fullReadablePageBias := fun _ => 0
  fullWritablePageBias := fun _ => 0
  sparseWritablePageTables := fun _ => none

/-- The entry of a page that a region gives.  A page that starts below the region gets
none, since the offset of its start wraps. -/
def regionEntry (region : Region) (page : ℕ) : Option PageEntry :=
  let base := region.baseAddress.toNat
  let size := region.storageSize
  if size = 0 then none
  else if page < base / pageSize ∨ (base + size - 1) / pageSize < page then none
  else if page * pageSize < base ∨ size ≤ page * pageSize - base then none
  else
    let offset := page * pageSize - base
    some ⟨region.storagePtr + BitVec.ofNat 64 offset, min pageSize (size - offset)⟩

/-- Enter the pages of a region; its entries replace those of regions before it. -/
def enterRegion (table : ℕ → Option PageEntry) (region : Region) : ℕ → Option PageEntry :=
  fun page => (regionEntry region page).or (table page)

/-- The bias of a page that is mapped whole and runs on into its successor. -/
def contiguousBias (table : ℕ → Option PageEntry) (page : ℕ) : Option (BitVec 64) :=
  if pageCount ≤ page + 1 then none
  else
    match table page, table (page + 1) with
    | some current, some next =>
        if current.limit ≠ pageSize ∨ next.limit < maxFastScalarSize - 1 ∨
            next.base ≠ current.base + BitVec.ofNat 64 pageSize then none
        else some (current.base - BitVec.ofNat 64 (page * pageSize))
    | _, _ => none

def buildPageTable (regions : List Region) (tables : FastTables) : FastTables :=
  let table := regions.foldl enterRegion tables.pageTable
  { tables with
    pageTable := table
    fullPageBias := fun page =>
      match contiguousBias table page with
      | some bias => bias + 1
      | none => tables.fullPageBias page }

def coversPage (read : DeferredRead) (page : ℕ) : Bool :=
  decide (read.start / pageSize ≤ page ∧ page ≤ (read.start + read.length - 1) / pageSize)

/-- The biases of the parts of a page, where it has code and data. -/
def sparseWritablePageTable (executables : Executables) (bias : BitVec 64) (page : ℕ) :
    Option (ℕ → BitVec 64) :=
  if !executables.coarsePages page || bias == 0 then none
  else
    let executable := fun subPage =>
      executables.pages (page * writableSubPagesPerPage + subPage)
    let subPages := List.range writableSubPagesPerPage
    if subPages.any executable && subPages.any fun subPage => !executable subPage then
      some fun subPage => if executable subPage then 0 else bias
    else none

/-- Compute the readable and the writable biases again. -/
def refreshFastPathTables (executables : Executables) (reads : List DeferredRead)
    (tables : FastTables) : FastTables :=
  { tables with
    fullReadablePageBias := fun page =>
      if reads.any (coversPage · page) then 0 else tables.fullPageBias page
    fullWritablePageBias := fun page =>
      if executables.coarsePages page then 0 else tables.fullPageBias page
    sparseWritablePageTables := fun page =>
      sparseWritablePageTable executables (tables.fullPageBias page) page }

def pageCovered (reads : List DeferredRead) (page : ℕ) : Bool :=
  reads.any fun read => PageSpans.Overlaps (page * pageSize) pageSize read.start read.length

/-- Compute the readable biases of some pages again. -/
def refreshDeferredReadPages (affected : ℕ → Bool) (reads : List DeferredRead)
    (tables : FastTables) : FastTables :=
  { tables with
    fullReadablePageBias := fun page =>
      if affected page then
        if pageCovered reads page then 0 else tables.fullPageBias page
      else tables.fullReadablePageBias page }

/-! ## State of the memory -/

/-- The regions, the tables, and what the tables are made from. -/
structure MemoryState where
  /-- The layout of the view, which is mapped once in a run. -/
  activeRegions : Option (List Region)
  regions : List Region
  tables : FastTables
  executables : Executables
  deferred : DeferredState
  flatExecutables : List GuardedRange
  host : HostMemory

/-- What the graphics processor does for a deferred read: whether it can be filled, and
what filling it writes.  Filling a read does not register another. -/
structure Renderer where
  materializes : DeferredRead → Bool
  fill : DeferredRead → HostMemory → HostMemory

namespace MemoryState

def initial (host : HostMemory) : MemoryState where
  activeRegions := none
  regions := []
  tables := FastTables.empty
  executables := Executables.empty
  deferred :=
    { reads := []
      nextToken := 1
      flat :=
        { deferredRanges := []
          protection := fun _ => .none
          executableProtectedPages := fun _ => false
          committedBlocks := fun _ => false } }
  flatExecutables := []
  host := host

/-- The pages that a registered range covers whole become read-only in the view. -/
def applyExecutableProtection (ranges : List GuardedRange) (flat : FlatState) : FlatState :=
  let covered := fun page => ranges.any fun range =>
    decide (PageSpans.roundUp hostPageSize range.start ≤ page * hostPageSize ∧
      page * hostPageSize < PageSpans.roundDown hostPageSize range.stop)
  { flat with
    protection := fun page =>
      if covered page && !flat.executableProtectedPages page then .read
      else flat.protection page
    executableProtectedPages := fun page => covered page || flat.executableProtectedPages page }

/-- Map the regions.  The view is mapped once; mapping it again with another layout
throws. -/
def init (state : MemoryState) (layout : List Region) (cleared : HostMemory) :
    Option MemoryState :=
  if state.activeRegions = none ∨ state.activeRegions = some layout then
    let mapped : FlatState :=
      { state.deferred.flat with
        deferredRanges := []
        protection := fun page =>
          if state.activeRegions.isNone then
            if layout.any fun region =>
                PageSpans.Touches hostPageSize region.baseAddress.toNat
                  (PageSpans.roundUp allocationGranularity region.storageSize) page
            then .readWrite else .none
          else if state.deferred.flat.deferredRanges.any
              (·.spans (page * hostPageSize)) then .readWrite
          else state.deferred.flat.protection page }
    some
      { state with
        activeRegions := some layout
        regions := layout
        tables := refreshFastPathTables state.executables state.deferred.reads
          (buildPageTable layout FastTables.empty)
        deferred := { state.deferred with
          flat := applyExecutableProtection state.flatExecutables mapped }
        host := cleared }
  else none

/-- Clear the readable biases of the pages of a new deferred read. -/
def registerDeferredRead (state : MemoryState) (address length : ℕ) (hasCallback : Bool) :
    ℕ × MemoryState :=
  let (token, deferred) := state.deferred.registerDeferredRead address length hasCallback
  if token = 0 then (0, state)
  else
    let read : DeferredRead := ⟨token, address, length⟩
    (token,
      { state with
        deferred :=
          { deferred with
            flat := if state.activeRegions.isSome then deferred.flat else state.deferred.flat }
        tables :=
          { state.tables with
            fullReadablePageBias := fun page =>
              if coversPage read page then 0 else state.tables.fullReadablePageBias page } })

def clearDeferredReads (state : MemoryState) : MemoryState :=
  { state with
    deferred := state.deferred.clearDeferredReads
    tables := refreshDeferredReadPages
      (fun page => state.deferred.reads.any (coversPage · page)) [] state.tables }

/-- Unmap the regions. -/
def reset (state : MemoryState) : MemoryState :=
  { state.clearDeferredReads with regions := [], tables := FastTables.empty }

/-- Take out the deferred reads that an access meets and fill them in order.  The first
one that cannot be filled ends this. -/
def resolveDeferredReads (renderer : Renderer) (state : MemoryState) (address length : ℕ) :
    MemoryState × Bool :=
  let «matches» := state.deferred.reads.filter (DeferredState.meets address length)
  let (deferred, unfilled) :=
    state.deferred.resolveDeferredReads address length renderer.materializes
  ({ state with
      deferred := deferred
      tables := refreshDeferredReadPages
        (fun page => «matches».any (coversPage · page)) deferred.reads state.tables
      host := («matches».takeWhile renderer.materializes).foldl
        (fun host read => renderer.fill read host) state.host },
    unfilled.isEmpty)

/-- Add a range to the guard of the view.  -/
def registerFlatExecutable (state : MemoryState) (range : ExecutableRange) : MemoryState :=
  if range.stop ≤ range.start then state
  else if ⟨range.start, range.stop⟩ ∈ state.flatExecutables then state
  else
    let ranges := state.flatExecutables ++ [⟨range.start, range.stop⟩]
    { state with
      flatExecutables := ranges
      deferred :=
        { state.deferred with
          flat :=
            if state.activeRegions.isSome then
              applyExecutableProtection ranges state.deferred.flat
            else state.deferred.flat } }

/-- Register an executable range.  The ranges that this adds come to the guard of the
view as well, and the tables are computed again. -/
def registerExecutableRange (state : MemoryState) (start stop : ℕ) (name : String) :
    MemoryState :=
  if stop ≤ start then state
  else
    let executables := state.executables.registerExecutableRange start stop name
    let added := executables.ranges.drop state.executables.ranges.length
    let state := added.foldl registerFlatExecutable { state with executables := executables }
    { state with
      tables := refreshFastPathTables executables state.deferred.reads state.tables }

end MemoryState

/-! ## Pointers -/

namespace FastTables

def biased (encodedBias : BitVec 64) (address : BitVec 32) : BitVec 64 :=
  encodedBias - 1 + address.setWidth 64

/-- The page entry of an access, if it has all of the bytes. -/
def entryPointer (tables : FastTables) (address : BitVec 32) (length : ℕ) :
    Option (BitVec 64) :=
  let offset := address.toNat % pageSize
  match tables.pageTable (address.toNat / pageSize) with
  | none => none
  | some entry =>
      if entry.limit < offset + length then none
      else some (entry.base + BitVec.ofNat 64 offset)

def tryGetPointerFast (tables : FastTables) (address : BitVec 32) (length : ℕ) :
    Option (BitVec 64) :=
  let encodedBias := tables.fullPageBias (address.toNat / pageSize)
  if length ≤ 8 ∧ encodedBias ≠ 0 then some (biased encodedBias address)
  else tables.entryPointer address length

/-- The exact guard of the first or of the last part of an access is set. -/
def exactGuardHit (executables : Executables) (address length : ℕ) : Bool :=
  let firstExactPage := address / writableSubPageSize
  let lastExactPage := (address + (length - 1)) / writableSubPageSize
  executables.pages firstExactPage ||
    (lastExactPage != firstExactPage && executables.pages lastExactPage)

def tryGetWritablePointerFast (tables : FastTables) (executables : Executables)
    (address : BitVec 32) (length : ℕ) : Option (BitVec 64) :=
  if length = 0 ∨ 8 < length ∨ 2 ^ 32 - 1 - (length - 1) < address.toNat then none
  else
    let coarsePage := address.toNat / pageSize
    let endAddress := address.toNat + (length - 1)
    let encodedBias := tables.fullWritablePageBias coarsePage
    if encodedBias ≠ 0 then
      if endAddress / pageSize ≠ coarsePage ∧
          executables.pages (endAddress / writableSubPageSize) then none
      else some (biased encodedBias address)
    else
      match tables.sparseWritablePageTables coarsePage with
      | some subTable =>
          let encodedBias := subTable (address.toNat % pageSize / writableSubPageSize)
          if encodedBias = 0 then none
          else if exactGuardHit executables address.toNat length then none
          else some (biased encodedBias address)
      | none =>
          match tables.entryPointer address length with
          | none => none
          | some pointer =>
              if exactGuardHit executables address.toNat length then none else some pointer

/-- Where a checked read takes its bytes from without a further check. -/
def tryReadGuestScalar (tables : FastTables) (address : BitVec 32) : Option (BitVec 64) :=
  let encodedBias := tables.fullReadablePageBias (address.toNat / pageSize)
  if encodedBias = 0 then none else some (biased encodedBias address)

/-- Where a checked write puts its bytes without a further check. -/
def tryWriteGuestScalar (tables : FastTables) (executables : Executables)
    (address : BitVec 32) (width : ℕ) : Option (BitVec 64) :=
  let coarsePage := address.toNat / pageSize
  if 2 ^ 32 - 1 - (width - 1) < address.toNat then none
  else if (address.toNat + (width - 1)) / pageSize ≠ coarsePage then none
  else
    let encodedBias := tables.fullWritablePageBias coarsePage
    if encodedBias ≠ 0 then some (biased encodedBias address)
    else tables.tryGetWritablePointerFast executables address width

end FastTables

/-! ## Accesses -/

namespace MemoryState

/-- The host address of an access, from the tables or from the first region that holds
it. -/
def getPointer (state : MemoryState) (address : BitVec 32) (length : ℕ) :
    Option (BitVec 64) :=
  (state.tables.tryGetPointerFast address length).or
    (Runtime.getPointer state.regions address length)

/-- The big-endian number at a host address. -/
def loadScalar (host : HostMemory) (pointer : BitVec 64) (width : ℕ) : ℕ :=
  ByteImage.fromBytes (load host pointer width)

def readSlow (renderer : Renderer) (state : MemoryState) (address : BitVec 32) (width : ℕ) :
    Except AccessViolation ℕ × MemoryState :=
  if isMmioAddress address then (.error ⟨address, width, .mmioReadBlocked⟩, state)
  else
    match state.resolveDeferredReads renderer address.toNat width with
    | (state, false) =>
        (.error ⟨address, width, .deferredReadMaterializationFailed⟩, state)
    | (state, true) =>
        match state.getPointer address width with
        | none => (.error ⟨address, width, .noMappedRegion⟩, state)
        | some pointer => (.ok (loadScalar state.host pointer width), state)

def read (renderer : Renderer) (state : MemoryState) (address : BitVec 32) (width : ℕ) :
    Except AccessViolation ℕ × MemoryState :=
  match state.tables.tryReadGuestScalar address with
  | some pointer => (.ok (loadScalar state.host pointer width), state)
  | none => readSlow renderer state address width

/-- What a write does, in order.  Bytes come to memory at a host address, or in the view
at a guest address. -/
inductive WriteEvent where
  | handleExecutableWrite (address length : ℕ)
  | put (pointer : BitVec 64) (bytes : List UInt8)
  | putView (address : ℕ) (bytes : List UInt8)
  | gatherPipe (bytes : List UInt8)
deriving DecidableEq

/-- How a write ends. -/
inductive WriteResult where
  | done
  | violation (violation : AccessViolation)
  | stopped (range : ExecutableRange)

def writeSlow (lr : Option (BitVec 32)) (state : MemoryState) (address : BitVec 32)
    (width value : ℕ) : List WriteEvent × WriteResult :=
  let bytes := ByteImage.toBytes width value
  if isGpuFifoAddress address then ([.gatherPipe bytes], .done)
  else if isMmioAddress address then ([], .violation ⟨address, width, .mmioWriteBlocked⟩)
  else
    let handled : WriteEvent := .handleExecutableWrite address.toNat width
    match handleExecutableWrite state.executables lr address.toNat width with
    | .forbidden range => ([handled], .stopped range)
    | _ =>
        match state.getPointer address width with
        | none => ([handled], .violation ⟨address, width, .noMappedRegion⟩)
        | some pointer => ([handled, .put pointer bytes], .done)

def write (lr : Option (BitVec 32)) (state : MemoryState) (address : BitVec 32)
    (width value : ℕ) : List WriteEvent × WriteResult :=
  match state.tables.tryWriteGuestScalar state.executables address width with
  | some pointer => ([.put pointer (ByteImage.toBytes width value)], .done)
  | none => writeSlow lr state address width value

def faultReads (state : MemoryState) (guestAddress : ℕ) : List DeferredRead :=
  match state.deferred.flat.deferredRanges.find? (·.spans guestAddress) with
  | none => []
  | some range =>
      let spanFirst := PageSpans.roundDown hostPageSize range.start
      let spanLast := PageSpans.roundUp hostPageSize range.stop
      state.deferred.reads.filter (DeferredState.meets spanFirst (spanLast - spanFirst))

def isGuardFault (state : MemoryState) (guestAddress : ℕ) : Bool :=
  (state.deferred.flat.deferredRanges.find? (·.spans guestAddress)).isNone &&
    state.deferred.flat.executableProtectedPages (guestAddress / hostPageSize)

end MemoryState

structure HostSystem where
  platform : Platform
  /-- The host pages of the regions. -/
  mapped : ℕ → Bool
  renderer : Renderer

namespace MemoryState

/-- The fault handler of the view, with what it does to the tables and to the memory; the
state is none when the access does not run again. -/
def handleAccessViolation (system : HostSystem) (lr : Option (BitVec 32))
    (state : MemoryState) (guestAddress : ℕ) (isWrite : Bool) :
    List WriteEvent × Option MemoryState :=
  let permitted :=
    match handleExecutableWrite state.executables lr guestAddress 1 with
    | .forbidden _ => false
    | _ => true
  let events : List WriteEvent :=
    if state.isGuardFault guestAddress then [.handleExecutableWrite guestAddress 1] else []
  let taken := state.faultReads guestAddress
  match GuestFlat.handleAccessViolation system.platform system.mapped permitted
    system.renderer.materializes state.deferred guestAddress isWrite with
  | .resumed deferred =>
      (events,
        some
          { state with
            deferred := deferred
            tables := refreshDeferredReadPages
              (fun page => taken.any (coversPage · page)) deferred.reads state.tables
            host := taken.foldl (fun host read => system.renderer.fill read host) state.host })
  | _ => (events, none)

/-! ## Runs -/

inductive Step (system : HostSystem) : MemoryState → MemoryState → Prop where
  | init {state state' : MemoryState} (layout : List Region) (cleared : HostMemory)
      (h : state.init layout cleared = some state') : Step system state state'
  | reset (state : MemoryState) : Step system state state.reset
  | registerExecutableRange (state : MemoryState) (start stop : BitVec 32) (name : String) :
      Step system state (state.registerExecutableRange start.toNat stop.toNat name)
  | registerDeferredRead (state : MemoryState) (address : BitVec 32) (length : ℕ)
      (hasCallback : Bool) :
      Step system state (state.registerDeferredRead address.toNat length hasCallback).2
  | clearDeferredReads (state : MemoryState) : Step system state state.clearDeferredReads
  | resolveDeferredReads (state : MemoryState) (address : BitVec 32) (length : ℕ) :
      Step system state
        (state.resolveDeferredReads system.renderer address.toNat length).1
  | read (state : MemoryState) (address : BitVec 32) (width : ℕ) :
      Step system state (state.read system.renderer address width).2
  | fault {state state' : MemoryState} {lr : Option (BitVec 32)} {guestAddress : ℕ}
      {isWrite : Bool} {events : List WriteEvent}
      (h : state.handleAccessViolation system lr guestAddress isWrite = (events, some state')) :
      Step system state state'
  | put (state : MemoryState) (host : HostMemory) : Step system state { state with host := host }

/-- A state of a run that starts before memory is mapped. -/
inductive Reachable (system : HostSystem) : MemoryState → Prop where
  | initial (host : HostMemory) : Reachable system (MemoryState.initial host)
  | step {state state' : MemoryState} (h : Reachable system state)
      (hstep : Step system state state') : Reachable system state'

end MemoryState

end Wiicompiled.Runtime.MemoryInline
