import Wiicompiled.Support.FlatMemory

/-!
# Recording of display lists

`GX__BeginDisplayList` redirects the FIFO writes of the guest into a buffer, and
`GX__EndDisplayList` gives back how many bytes were recorded, or 0 if the wrap flag of the
list's FIFO object is set.  The cursor and the count are kept on the host while a list is
open; the FIFO objects, the saved context and the flag lie in guest memory.

Writes outside of a recording go to the command processor, which is left open: it is any
change of its own state and of guest memory.
-/

namespace Wiicompiled.Gx

open ByteImage FlatMemory

/-! ## Guest memory -/

abbrev Memory := BitVec 32 → UInt8

def read8 (mem : Memory) (address : BitVec 32) : UInt8 := mem address

def read32 (mem : Memory) (address : BitVec 32) : BitVec 32 :=
  BitVec.ofNat 32 (fromBytes (load mem address 4))

def write8 (mem : Memory) (address : BitVec 32) (value : BitVec 8) : Memory :=
  store mem address (toBytes 1 value.toNat)

def write16 (mem : Memory) (address : BitVec 32) (value : BitVec 16) : Memory :=
  store mem address (toBytes 2 value.toNat)

def write32 (mem : Memory) (address value : BitVec 32) : Memory :=
  store mem address (toBytes 4 value.toNat)

def memcpy (mem : Memory) (dst src : BitVec 32) (size : ℕ) : Memory :=
  store mem dst (load mem src size)

def kGXDataPtrAddr : BitVec 32 := 0x803886C8

def kGXDataAddr : BitVec 32 := 0x803437C0

def kDlFifoAddr : BitVec 32 := 0x80344090

def kDlWritePtrAddr : BitVec 32 := 0x803440A4

def kDlCountAddr : BitVec 32 := 0x803440AC

def kDlWrapFlagOffset : BitVec 32 := 0x20

/-- `sizeof(GXFifoObj)`. -/
def fifoObjSize : ℕ := 0x80

/-! ## The state -/

structure GxDisplayListState where
  base : BitVec 32
  size : BitVec 32
  writePtr : BitVec 32
  count : BitVec 32
  active : Bool

/-- The open list, the FIFO object of the CPU and the command processor.  The addresses of
the bytes that the recording has stored are kept beside them. -/
structure GxState (π : Type*) where
  dl : GxDisplayListState
  cpuFifo : BitVec 32
  processor : π
  mem : Memory
  listBytes : List (BitVec 32)

section

variable {π : Type*}

def GxState.storeList (st : GxState π) (address : BitVec 32) (size : ℕ) (mem : Memory) :
    GxState π :=
  { st with
    mem
    listBytes := st.listBytes ++ (List.range size).map fun i => address + BitVec.ofNat 32 i }

/-! ## Begin and end -/

def beginDisplayListRecording (listAddr sizeBytes : BitVec 32) : GxDisplayListState where
  base := listAddr
  size := sizeBytes
  writePtr := listAddr
  count := 0
  active := listAddr != 0 && sizeBytes != 0

def endDisplayListRecording (st : GxState π) : GxState π :=
  if st.dl.active then
    { st with
      dl := { st.dl with active := false }
      mem := write32 (write32 st.mem kDlWritePtrAddr st.dl.writePtr) kDlCountAddr st.dl.count }
  else st

/-- Copy the FIFO object of the CPU. -/
def getCPUFifo (fifo : BitVec 32) (st : GxState π) : GxState π :=
  { st with mem := memcpy st.mem fifo st.cpuFifo fifoObjSize }

def setCPUFifo (fifo : BitVec 32) (st : GxState π) : GxState π :=
  { st with cpuFifo := fifo }

def setDirtyState (mem : Memory) : Memory :=
  let gd := read32 mem kGXDataPtrAddr
  if gd = 0 then mem else write32 mem (gd + 0x5FC) 0

def saveContext (gd : BitVec 32) (mem : Memory) : Memory :=
  let mem := if read32 mem (gd + 0x5FC) = 0 then mem else setDirtyState mem
  if read8 mem (gd + 0x5F9) = 0 then mem else memcpy mem 0x80344110 gd 0x600

def initFifoObject (la s : BitVec 32) (mem : Memory) : Memory :=
  let mem := write32 mem 0x80344094 (la + s - 4)
  let mem := write32 mem 0x803440AC 0
  let mem := write32 mem 0x80344090 la
  let mem := write32 mem 0x80344098 s
  let mem := write32 mem 0x803440A4 la
  write32 mem 0x803440A8 la

def beginDisplayList (la s : BitVec 32) (st : GxState π) : GxState π :=
  let gd := read32 st.mem kGXDataPtrAddr
  if gd = 0 then st
  else
    let mem := write8 (initFifoObject la s (saveContext gd st.mem)) (gd + 0x5F8) 1
    setCPUFifo 0x80344090
      (getCPUFifo 0x80344710
        { st with dl := beginDisplayListRecording la s, mem, listBytes := [] })

def restoreContext (gd : BitVec 32) (mem : Memory) : Memory :=
  let mem :=
    if read8 mem (gd + 0x5F9) = 0 then mem
    else
      let savedWord8 := read32 mem (gd + 0x08)
      write32 (memcpy mem gd 0x80344110 0x600) (gd + 0x08) savedWord8
  write8 mem (gd + 0x5F8) 0

def endDisplayList (st : GxState π) : BitVec 32 × GxState π :=
  let st := getCPUFifo 0x80344090 st
  let wrapped := read8 st.mem (kDlFifoAddr + kDlWrapFlagOffset)
  let st := setCPUFifo 0x80344710 st
  let gd := read32 st.mem kGXDataPtrAddr
  let st := endDisplayListRecording
    { st with mem := if gd = 0 then st.mem else restoreContext gd st.mem }
  (if wrapped = 0 then read32 st.mem kDlCountAddr else 0, st)

/-! ## Writes -/

/-- One store at the cursor.  The end of the list is tested only behind it. -/
def writeDisplayListData (val : BitVec 32) (sizeBytes : ℕ) (st : GxState π) : GxState π :=
  let dl := st.dl
  if !dl.active || dl.base == 0 || dl.size == 0 || dl.writePtr == 0 then st
  else
    let (mem, sizeBytes) :=
      match sizeBytes with
      | 1 => (write8 st.mem dl.writePtr (val.setWidth 8), 1)
      | 2 => (write16 st.mem dl.writePtr (val.setWidth 16), 2)
      | _ => (write32 st.mem dl.writePtr val, 4)
    let st := st.storeList dl.writePtr sizeBytes mem
    let nextPtr := dl.writePtr + BitVec.ofNat 32 sizeBytes
    let stop := dl.base + dl.size
    let count := dl.count + BitVec.ofNat 32 sizeBytes
    if stop < nextPtr then
      { st with
        dl := { dl with writePtr := dl.base + (nextPtr - stop), count }
        mem := write8 st.mem (kDlFifoAddr + kDlWrapFlagOffset) 1 }
    else { st with dl := { dl with writePtr := nextPtr, count } }

/-- The pieces of a burst: words, then a half word and a byte. -/
def burstPieces : List UInt8 → List (List UInt8)
  | a :: b :: c :: d :: data => [a, b, c, d] :: burstPieces data
  | a :: b :: data => [a, b] :: (data.map fun c => [c])
  | data => data.map fun a => [a]

def burstStore (st : GxState π) (piece : List UInt8) : GxState π :=
  let st' := st.storeList st.dl.writePtr piece.length
    (store st.mem st.dl.writePtr (toBytes piece.length (fromBytes piece)))
  { st' with
    dl := { st.dl with
      writePtr := st.dl.writePtr + BitVec.ofNat 32 piece.length
      count := st.dl.count + BitVec.ofNat 32 piece.length } }

def writeDisplayListBurst (data : List UInt8) (st : GxState π) : Option (GxState π) :=
  let dl := st.dl
  if !dl.active || dl.base == 0 || dl.size == 0 || dl.writePtr == 0 then none
  else
    let stop := dl.base + dl.size
    if stop < dl.writePtr ∨ stop - dl.writePtr < BitVec.ofNat 32 data.length then none
    else some ((burstPieces data).foldl burstStore st)

/-- What the command processor does with bytes. -/
abbrev Processor (π : Type*) := List UInt8 → π → Memory → π × Memory

def GxState.process (processor : Processor π) (bytes : List UInt8) (st : GxState π) :
    GxState π :=
  let (after, mem) := processor bytes st.processor st.mem
  { st with processor := after, mem }

def hleFifoWrite (processor : Processor π) (val : BitVec 32) (sizeBytes : ℕ) (st : GxState π) :
    GxState π :=
  if st.dl.active then writeDisplayListData val sizeBytes st
  else st.process processor (toBytes sizeBytes val.toNat)

/-- A burst on the open list; outside of a recording the bytes are processed. -/
def fifoWriteBurst (processor : Processor π) (data : List UInt8) (st : GxState π) : GxState π :=
  if data = [] then st
  else if st.dl.active then
    match writeDisplayListBurst data st with
    | some st => st
    | none =>
        (burstPieces data).foldl
          (fun st piece =>
            hleFifoWrite processor (BitVec.ofNat 32 (fromBytes piece)) piece.length st) st
  else st.process processor data

/-! ## Recordings -/

inductive FifoWrite where
  | write8 (val : BitVec 8)
  | write16 (val : BitVec 16)
  | write32 (val : BitVec 32)
  | writeBurst (data : List UInt8)

def FifoWrite.apply (processor : Processor π) (st : GxState π) : FifoWrite → GxState π
  | .write8 val => hleFifoWrite processor (val.setWidth 32) 1 st
  | .write16 val => hleFifoWrite processor (val.setWidth 32) 2 st
  | .write32 val => hleFifoWrite processor val 4 st
  | .writeBurst data => fifoWriteBurst processor data st

def FifoWrite.bytes : FifoWrite → List UInt8
  | .write8 val => toBytes 1 val.toNat
  | .write16 val => toBytes 2 val.toNat
  | .write32 val => toBytes 4 val.toNat
  | .writeBurst data => data

structure Recording where
  listAddr : BitVec 32
  size : BitVec 32
  writes : List FifoWrite

def Recording.bytes (r : Recording) : List UInt8 :=
  r.writes.flatMap FifoWrite.bytes

/-- Begin, write, end: the number that the end gives back and the state behind it. -/
def Recording.run (processor : Processor π) (r : Recording) (st : GxState π) :
    BitVec 32 × GxState π :=
  endDisplayList (r.writes.foldl (FifoWrite.apply processor) (beginDisplayList r.listAddr r.size st))

/-- A sequence of recordings, each with its result and the state behind it. -/
def runRecordings (processor : Processor π) :
    List Recording → GxState π → List (Recording × BitVec 32 × GxState π)
  | [], _ => []
  | r :: rs, st => (r, r.run processor st) :: runRecordings processor rs (r.run processor st).2

end

end Wiicompiled.Gx
