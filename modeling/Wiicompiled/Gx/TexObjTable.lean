import Mathlib.Data.Prod.Lex
import Wiicompiled.Support.IntervalIndex

/-!
# Texture objects and their address index

The table of the guest's texture objects, the decoding of a texture object from guest memory,
and the index by which flushed ranges find the textures to upload again.  The index is patched
from a queue of changed slots before a query, or rebuilt.

A slot pointer is the guest address that the table has the slot under.  The order of the slots
in the table is not observable, since the index is sorted.
-/

namespace Wiicompiled.Gx

/-! ## Guest memory -/

abbrev GuestBytes :=
  ℕ → Option ℕ

/-- A big-endian word of so many bytes; addresses wrap around. -/
def GuestBytes.read (memory : GuestBytes) (addr : ℕ) : ℕ → Option ℕ
  | 0 => some 0
  | n + 1 => do
      let high ← memory.read addr n
      let byte ← memory ((addr + n) % 2 ^ 32)
      some (high * 2 ^ 8 + byte)

/-- One address for each cached, uncached or physical alias of main memory. -/
def canonicalizeGxMainRamAddress (addr : ℕ) : ℕ :=
  if addr < 0x01800000 then addr
  else if 0x10000000 ≤ addr ∧ addr < 0x18000000 then addr
  else if 0x80000000 ≤ addr ∧ addr < 0x81800000 then addr - 0x80000000
  else if 0x90000000 ≤ addr ∧ addr < 0x98000000 then addr - 0x80000000
  else if 0xC0000000 ≤ addr ∧ addr < 0xC1800000 then addr - 0xC0000000
  else if 0xD0000000 ≤ addr ∧ addr < 0xD8000000 then addr - 0xC0000000
  else addr

/-! ## Texture formats -/

namespace TexFmt

def i4 : ℕ := 0x00
def i8 : ℕ := 0x01
def ia4 : ℕ := 0x02
def ia8 : ℕ := 0x03
def rgb565 : ℕ := 0x04
def rgb5a3 : ℕ := 0x05
def rgba8 : ℕ := 0x06
def c4 : ℕ := 0x08
def c8 : ℕ := 0x09
def c14x2 : ℕ := 0x0A
def cmpr : ℕ := 0x0E
def z8 : ℕ := 0x11
def z16 : ℕ := 0x13
def z24x8 : ℕ := 0x16
def ctfR4 : ℕ := 0x20
def ctfRa4 : ℕ := 0x22
def ctfRa8 : ℕ := 0x23
def ctfYuva8 : ℕ := 0x26
def ctfA8 : ℕ := 0x27
def ctfR8 : ℕ := 0x28
def ctfG8 : ℕ := 0x29
def ctfB8 : ℕ := 0x2A
def ctfRg8 : ℕ := 0x2B
def ctfGb8 : ℕ := 0x2C
def ctfZ4 : ℕ := 0x30
def ctfZ8m : ℕ := 0x39
def ctfZ8l : ℕ := 0x3A
def ctfZ16l : ℕ := 0x3C

end TexFmt

open TexFmt in
def isKnownTexFormat (fmt : ℕ) : Bool :=
  [i4, i8, ia4, ia8, rgb565, rgb5a3, rgba8, cmpr, c4, c8, c14x2, z8, z16, z24x8, ctfR4, ctfRa4,
    ctfRa8, ctfYuva8, ctfA8, ctfR8, ctfG8, ctfB8, ctfRg8, ctfGb8, ctfZ4, ctfZ8m, ctfZ8l,
    ctfZ16l].contains fmt

open TexFmt in
/-- The exponents of the width and the height of a tile. -/
def tileShifts (fmt : ℕ) : ℕ × ℕ :=
  if [i4, c4, cmpr, ctfR4, ctfZ4].contains fmt then (3, 3)
  else if [i8, ia4, c8, z8, ctfRa4, ctfA8, ctfR8, ctfG8, ctfB8, ctfZ8m, ctfZ8l].contains fmt then
    (3, 2)
  else if [ia8, rgb565, rgb5a3, rgba8, c14x2, z16, z24x8, ctfRa8, ctfRg8, ctfGb8,
    ctfZ16l].contains fmt then (2, 2)
  else (0, 0)

/-- The bytes of one level: so many for a tile, in 32 bits. -/
def levelSize (fmt width height : ℕ) : ℕ :=
  let tileX := (width + 2 ^ (tileShifts fmt).1 - 1) >>> (tileShifts fmt).1
  let tileY := (height + 2 ^ (tileShifts fmt).2 - 1) >>> (tileShifts fmt).2
  (if fmt = TexFmt.rgba8 ∨ fmt = TexFmt.z24x8 then 64 else 32) * tileX * tileY % 2 ^ 32

/-- The bytes of so many levels, each half as wide and as high as the one before. -/
def mipsSize (fmt : ℕ) : ℕ → ℕ → ℕ → ℕ → ℕ
  | 0, _, _, bufLen => bufLen
  | levels + 1, width, height, bufLen =>
      let bufLen := (bufLen + levelSize fmt width height) % 2 ^ 32
      if width = 1 ∧ height = 1 then bufLen
      else
        mipsSize fmt levels (if width < 2 then 1 else width / 2)
          (if height < 2 then 1 else height / 2) bufLen

/-- The linear formats of the host never pass `isKnownTexFormat` and have no case here. -/
def gxGetTexBufferSize (width height fmt : ℕ) (mips : Bool) (maxLod : ℕ) : ℕ :=
  if mips then mipsSize fmt (maxLod + 1) width height 0 else levelSize fmt width height

/-! ## Metadata -/

structure SamplerState where
  dataAddr : ℕ := 0
  width : ℕ := 0
  height : ℕ := 0
  format : ℕ := 0
  wrapS : ℕ := 0
  wrapT : ℕ := 0
  tlut : ℕ := 0
  minFilter : ℕ := 0
  magFilter : ℕ := 0
  minLod : Float32 := 0
  maxLod : Float32 := 0
  lodBias : Float32 := 0
  maxAniso : ℕ := 0
  biasClamp : Bool := false
  edgeLod : Bool := false
  mipmap : Bool := false

structure TexObjMeta extends SamplerState where
  userData : ℕ := 0
  needsUpload : Bool := true

def isUsableTexObjMeta (m : TexObjMeta) : Bool :=
  m.dataAddr != 0 && m.width != 0 && m.height != 0 && isKnownTexFormat m.format

def texObjBackingDiffers (lhs rhs : TexObjMeta) : Bool :=
  canonicalizeGxMainRamAddress lhs.dataAddr != canonicalizeGxMainRamAddress rhs.dataAddr ||
    lhs.width != rhs.width || lhs.height != rhs.height || lhs.format != rhs.format ||
    lhs.mipmap != rhs.mipmap || lhs.maxLod != rhs.maxLod

def texObjMetaDiffers (lhs rhs : TexObjMeta) : Bool :=
  canonicalizeGxMainRamAddress lhs.dataAddr != canonicalizeGxMainRamAddress rhs.dataAddr ||
    lhs.width != rhs.width || lhs.height != rhs.height || lhs.format != rhs.format ||
    lhs.wrapS != rhs.wrapS || lhs.wrapT != rhs.wrapT || lhs.mipmap != rhs.mipmap ||
    lhs.minFilter != rhs.minFilter || lhs.magFilter != rhs.magFilter ||
    lhs.minLod != rhs.minLod || lhs.maxLod != rhs.maxLod || lhs.lodBias != rhs.lodBias ||
    lhs.biasClamp != rhs.biasClamp || lhs.edgeLod != rhs.edgeLod ||
    lhs.maxAniso != rhs.maxAniso || lhs.tlut != rhs.tlut || lhs.userData != rhs.userData

def mergeGuestTexObjMeta (cached guest : TexObjMeta) : TexObjMeta :=
  { guest with
    needsUpload := if texObjBackingDiffers cached guest then true else cached.needsUpload }

/-- A byte as a two's complement number. -/
def signedByte (byte : ℕ) : ℤ :=
  if byte < 128 then byte else byte - 256

/-- The filters of the hardware's encoding. -/
def filterLut (hw : ℕ) : ℕ :=
  [0, 2, 4, 0, 1, 3, 5, 0].getD hw 0

/-- The metadata in the words of a texture object and its last byte. -/
def decodeTexObjMeta (word0 word1 word2 word3 word4 word5 word6 flags : ℕ) : TexObjMeta :=
  let formatFromWord2 := (word2 >>> 20) &&& 0xF
  let decoded : TexObjMeta :=
    { wrapS := word0 &&& 0x3
      wrapT := (word0 >>> 2) &&& 0x3
      width := (word2 &&& 0x3FF) + 1
      height := ((word2 >>> 10) &&& 0x3FF) + 1
      dataAddr := canonicalizeGxMainRamAddress ((word3 &&& 0xFFFFFF) <<< 5)
      userData := word4
      mipmap := flags &&& 1 != 0
      format :=
        if !isKnownTexFormat word5 && isKnownTexFormat formatFromWord2 then formatFromWord2
        else word5
      tlut := word6
      minLod := Float32.ofNat (word1 &&& 0xFF) / 16
      maxLod := Float32.ofNat ((word1 >>> 8) &&& 0xFF) / 16
      lodBias := Float32.ofInt (signedByte ((word0 >>> 9) &&& 0xFF)) / 32
      biasClamp := (word0 >>> 21) &&& 1 != 0
      edgeLod := (word0 >>> 8) &&& 1 == 0
      maxAniso := (word0 >>> 19) &&& 0x3
      minFilter := filterLut ((word0 >>> 5) &&& 7)
      magFilter := (word0 >>> 4) &&& 1 }
  if flags &&& 2 != 0 || (isKnownTexFormat decoded.format && decoded.dataAddr != 0) then decoded
  else {}

/-- Unreadable texture objects have the empty metadata. -/
def extractTexObjMetaFromGuest (memory : GuestBytes) (addr : ℕ) : TexObjMeta :=
  let decoded := do
    let word0 ← memory.read addr 4
    let word1 ← memory.read (addr + 4) 4
    let word2 ← memory.read (addr + 8) 4
    let word3 ← memory.read (addr + 0xC) 4
    let word4 ← memory.read (addr + 0x10) 4
    let word5 ← memory.read (addr + 0x14) 4
    let word6 ← memory.read (addr + 0x18) 4
    let flags ← memory.read (addr + 0x1F) 1
    some (decodeTexObjMeta word0 word1 word2 word3 word4 word5 word6 flags)
  decoded.getD {}

/-- The bytes that cached metadata was decoded from, as four double words. -/
def readTexObjShadow (memory : GuestBytes) (addr : ℕ) : Option (ℕ × ℕ × ℕ × ℕ) := do
  let word0 ← memory.read addr 8
  let word1 ← memory.read (addr + 8) 8
  let word2 ← memory.read (addr + 0x10) 8
  let word3 ← memory.read (addr + 0x18) 8
  some (word0, word1, word2, word3)

/-! ## Slots and entries -/

/-- A slot of the table with what it last put into the index; `guestShadow` is `none` for a
slot that has no shadow. -/
structure TexObjSlot extends TexObjMeta where
  objAddr : ℕ
  guestShadow : Option (ℕ × ℕ × ℕ × ℕ) := none
  indexedDataAddr : ℕ := 0
  indexedSize : ℕ := 0
  inIntervalIndex : Bool := false
  pendingIntervalUpdate : Bool := false

structure TexObjIntervalEntry where
  dataAddr : ℕ
  size : ℕ
  objAddr : ℕ
  deriving DecidableEq

def texObjIntervalLess (lhs rhs : TexObjIntervalEntry) : Bool :=
  if lhs.dataAddr ≠ rhs.dataAddr then lhs.dataAddr < rhs.dataAddr else lhs.objAddr < rhs.objAddr

/-- The order of the index as a key. -/
def TexObjIntervalEntry.key (entry : TexObjIntervalEntry) : ℕ ×ₗ ℕ :=
  toLex (entry.dataAddr, entry.objAddr)

/-- The largest level as an integer, with `std::min` and the truncation of the cast. -/
def maxLodByte (maxLod : Float32) : ℕ :=
  if maxLod > 0 then (if (255 : Float32) < maxLod then (255 : Float32) else maxLod).toUInt8.toNat
  else 0

def texBufferSize (m : TexObjMeta) : ℕ :=
  gxGetTexBufferSize m.width m.height m.format m.mipmap (maxLodByte m.maxLod)

def tryBuildTexObjIntervalEntry (slot : TexObjSlot) : Option TexObjIntervalEntry :=
  if !isUsableTexObjMeta slot.toTexObjMeta then none
  else
    let texSize := texBufferSize slot.toTexObjMeta
    if texSize = 0 then none
    else some ⟨canonicalizeGxMainRamAddress slot.dataAddr, texSize, slot.objAddr⟩

/-! ## The index -/

/-- The entries, sorted, and a bound for their sizes. -/
structure TexObjIndex where
  entries : List TexObjIntervalEntry := []
  maxSize : ℕ := 0

def TexObjIndex.takeOut (index : TexObjIndex) (slot : TexObjSlot) : TexObjIndex × Bool :=
  if slot.inIntervalIndex then
    match IntervalIndex.eraseKey TexObjIntervalEntry.key
      (toLex (slot.indexedDataAddr, slot.objAddr)) index.entries with
    | some entries => ({ index with entries := entries }, true)
    | none => (index, false)
  else (index, false)

/-- Takes out what a slot last put in and puts in its new entry. -/
def TexObjIndex.relocate (index : TexObjIndex) (slot : TexObjSlot) :
    Option TexObjIntervalEntry → TexObjSlot × TexObjIndex × Bool
  | none =>
      ({ slot with inIntervalIndex := false, indexedDataAddr := 0, indexedSize := 0 },
        index.takeOut slot)
  | some fresh =>
      let index := (index.takeOut slot).1
      ({ slot with
          indexedDataAddr := fresh.dataAddr
          indexedSize := fresh.size
          inIntervalIndex := true },
        { entries := IntervalIndex.insertEntry TexObjIntervalEntry.key fresh index.entries
          maxSize := max index.maxSize fresh.size }, true)

/-- Brings the entry of a slot up to date; tells whether entries had to move. -/
def TexObjIndex.patchTexObjIntervalEntryLocked (index : TexObjIndex) (slot : TexObjSlot) :
    TexObjSlot × TexObjIndex × Bool :=
  match tryBuildTexObjIntervalEntry slot with
  | none => index.relocate slot none
  | some fresh =>
      if slot.inIntervalIndex ∧ slot.indexedDataAddr = fresh.dataAddr then
        if slot.indexedSize = fresh.size then (slot, index, false)
        else
          match IntervalIndex.modifyKey TexObjIntervalEntry.key fresh.key
            (fun entry => { entry with size := fresh.size }) index.entries with
          | some entries =>
              ({ slot with indexedSize := fresh.size },
                { entries := entries, maxSize := max index.maxSize fresh.size }, false)
          -- The index and the slot disagree.
          | none => index.relocate { slot with inIntervalIndex := false } (some fresh)
      else index.relocate slot (some fresh)

/-! ## The table -/

structure TexObjTable where
  slots : List TexObjSlot := []
  index : TexObjIndex := {}
  rebuildAll : Bool := true
  pending : List ℕ := []

namespace TexObjTable

def findTexObjSlot (t : TexObjTable) (addr : ℕ) : Option TexObjSlot :=
  t.slots.find? fun slot => slot.objAddr = addr

def modifySlot (t : TexObjTable) (addr : ℕ) (change : TexObjSlot → TexObjSlot) : TexObjTable :=
  { t with slots := t.slots.map fun slot => if slot.objAddr = addr then change slot else slot }

def findOrCreateTexObjSlot (t : TexObjTable) (addr : ℕ) : TexObjTable :=
  match t.findTexObjSlot addr with
  | some _ => t
  | none => { t with slots := t.slots ++ [{ objAddr := addr }] }

def rebuildSlot (slot : TexObjSlot) : TexObjSlot :=
  match tryBuildTexObjIntervalEntry slot with
  | some interval =>
      { slot with
        pendingIntervalUpdate := false
        indexedDataAddr := interval.dataAddr
        indexedSize := interval.size
        inIntervalIndex := true }
  | none =>
      { slot with
        pendingIntervalUpdate := false
        indexedDataAddr := 0
        indexedSize := 0
        inIntervalIndex := false }

def rebuildTexObjIntervalsLocked (t : TexObjTable) : TexObjTable :=
  let intervals := t.slots.filterMap tryBuildTexObjIntervalEntry
  { slots := t.slots.map rebuildSlot
    index :=
      { entries := intervals.mergeSort fun lhs rhs => !texObjIntervalLess rhs lhs
        maxSize := intervals.foldl (fun size interval => max size interval.size) 0 }
    rebuildAll := false
    pending := [] }

def queueTexObjIntervalUpdate (t : TexObjTable) (addr : ℕ) : TexObjTable :=
  match t.findTexObjSlot addr with
  | none => t
  | some slot =>
      if t.rebuildAll || slot.pendingIntervalUpdate then t
      else
        { t.modifySlot addr fun slot => { slot with pendingIntervalUpdate := true } with
          pending := t.pending ++ [addr] }

def patchSlot (t : TexObjTable) (addr : ℕ) : TexObjTable × Bool :=
  match t.findTexObjSlot addr with
  | none => (t, false)
  | some slot =>
      let (patched, index, moved) :=
        t.index.patchTexObjIntervalEntryLocked { slot with pendingIntervalUpdate := false }
      ({ t.modifySlot addr fun _ => patched with index := index }, moved)

def kMaxTexObjIntervalPatchMoves : ℕ := 64

/-- Patches the slots of the queue; many moves with many slots left make a rebuild. -/
def patchPending (moves : ℕ) : List ℕ → TexObjTable → TexObjTable
  | [], t => { t with pending := [] }
  | addr :: rest, t =>
      let (t, moved) := t.patchSlot addr
      let moves := if moved then moves + 1 else moves
      if kMaxTexObjIntervalPatchMoves ≤ moves ∧ kMaxTexObjIntervalPatchMoves < rest.length then
        t.rebuildTexObjIntervalsLocked
      else patchPending moves rest t

def ensureTexObjIntervalsLocked (t : TexObjTable) : TexObjTable :=
  if t.rebuildAll then t.rebuildTexObjIntervalsLocked
  else if t.pending.isEmpty then t
  else patchPending 0 t.pending t

def markTexObjSyncedLocked (t : TexObjTable) (memory : GuestBytes) (addr : ℕ) : TexObjTable :=
  t.modifySlot addr fun slot => { slot with guestShadow := readTexObjShadow memory slot.objAddr }

def setMeta (t : TexObjTable) (addr : ℕ) (change : TexObjMeta → TexObjMeta) : TexObjTable :=
  t.modifySlot addr fun slot => { slot with toTexObjMeta := change slot.toTexObjMeta }

/-- The metadata of a texture object, and whether there is any to use. -/
def tryGetOrExtractTexObjMeta (t : TexObjTable) (memory : GuestBytes) (addr : ℕ) :
    TexObjTable × Bool × TexObjMeta :=
  let extracted := extractTexObjMetaFromGuest memory addr
  match t.findTexObjSlot addr with
  | some slot =>
      if isUsableTexObjMeta slot.toTexObjMeta then
        let shadow := readTexObjShadow memory addr
        if shadow.isSome ∧ slot.guestShadow = shadow then (t, true, slot.toTexObjMeta)
        else if isUsableTexObjMeta extracted && texObjMetaDiffers slot.toTexObjMeta extracted then
          (t, true, mergeGuestTexObjMeta slot.toTexObjMeta extracted)
        else (t.markTexObjSyncedLocked memory addr, true, slot.toTexObjMeta)
      else if isUsableTexObjMeta extracted then
        ((((t.queueTexObjIntervalUpdate addr).setMeta addr fun _ => extracted)
            |>.markTexObjSyncedLocked memory addr), true, extracted)
      else (t, true, slot.toTexObjMeta)
  | none => (t, 0 < extracted.width && 0 < extracted.height, extracted)

/-- The caller changes the metadata through the reference it gets. -/
def getTexObjMeta (t : TexObjTable) (memory : GuestBytes) (addr : ℕ)
    (change : TexObjMeta → TexObjMeta) : TexObjTable :=
  (((t.findOrCreateTexObjSlot addr).queueTexObjIntervalUpdate addr).markTexObjSyncedLocked
    memory addr).setMeta addr change

def setNeedsUpload (t : TexObjTable) (addr : ℕ) : TexObjTable :=
  t.setMeta addr fun m => { m with needsUpload := true }

def markTexObjsDirtyForRange (t : TexObjTable) (addr size : ℕ) : TexObjTable :=
  if size = 0 then t
  else
    let dirtyStart := canonicalizeGxMainRamAddress addr
    let dirtyEnd := dirtyStart + size
    let t := t.ensureTexObjIntervalsLocked
    (IntervalIndex.walk TexObjIntervalEntry.dataAddr TexObjIntervalEntry.size t.index.maxSize
      dirtyStart dirtyEnd t.index.entries).foldl (fun t entry => t.setNeedsUpload entry.objAddr) t

end TexObjTable

/-! ## Runs -/

/-- What happens to the table; the memory is the guest's at that moment. -/
inductive TexObjOp where
  | getTexObjMeta (memory : GuestBytes) (addr : ℕ) (change : TexObjMeta → TexObjMeta)
  | tryGetOrExtractTexObjMeta (memory : GuestBytes) (addr : ℕ)
  | createHostTexObj (addr : ℕ)
  | markTexObjsDirtyForRange (addr size : ℕ)

namespace TexObjTable

def step (t : TexObjTable) : TexObjOp → TexObjTable
  | .getTexObjMeta memory addr change => t.getTexObjMeta memory addr change
  | .tryGetOrExtractTexObjMeta memory addr => (t.tryGetOrExtractTexObjMeta memory addr).1
  | .createHostTexObj addr => t.findOrCreateTexObjSlot addr
  | .markTexObjsDirtyForRange addr size => t.markTexObjsDirtyForRange addr size

def run (ops : List TexObjOp) : TexObjTable :=
  ops.foldl step {}

end TexObjTable

end Wiicompiled.Gx
