import Wiicompiled.Runtime.GuestMemory

/-!
# Message queues of the guest

A message queue is a header in guest memory and an array of message words.  The
operations of the system run with interrupts off: one pass of the loop of an
operation tests the queue, changes it, and wakes the threads that wait for the
change, or leaves the queue as it is and returns, or puts the thread to sleep until
the next pass.  The wake-up belongs to the scheduler and is a parameter.
-/

namespace Wiicompiled.Runtime.OsMessage

/-! ## The header -/

def msgQueueSendOffset : BitVec 32 := 0x00#32
def msgQueueRecvOffset : BitVec 32 := 0x08#32
def msgQueueArrayOffset : BitVec 32 := 0x10#32
def msgQueueCountOffset : BitVec 32 := 0x14#32
def msgQueueFirstOffset : BitVec 32 := 0x18#32
def msgQueueUsedOffset : BitVec 32 := 0x1C#32

/-- Make an empty queue.  An access violation is reported and leaves the queue as far
as it is made. -/
def initMessageQueue (regions : List Region) (queuePtr msgArrayPtr msgCount : BitVec 32) :
    GuestM Unit := do
  if queuePtr = 0#32 then
    return
  try
    write32 regions (queuePtr + msgQueueSendOffset + 0#32) 0#32
    write32 regions (queuePtr + msgQueueSendOffset + 4#32) 0#32
    write32 regions (queuePtr + msgQueueRecvOffset + 0#32) 0#32
    write32 regions (queuePtr + msgQueueRecvOffset + 4#32) 0#32
    write32 regions (queuePtr + msgQueueArrayOffset) msgArrayPtr
    write32 regions (queuePtr + msgQueueCountOffset) msgCount
    write32 regions (queuePtr + msgQueueFirstOffset) 0#32
    write32 regions (queuePtr + msgQueueUsedOffset) 0#32
  catch _ => pure ()

/-! ## The circular buffer -/

def msgQueueIsFull (regions : List Region) (queuePtr : BitVec 32) : GuestM Bool := do
  let used ← read32 regions (queuePtr + msgQueueUsedOffset)
  let count ← read32 regions (queuePtr + msgQueueCountOffset)
  return count != 0#32 && decide (count ≤ used)

def msgQueueIsEmpty (regions : List Region) (queuePtr : BitVec 32) : GuestM Bool := do
  let used ← read32 regions (queuePtr + msgQueueUsedOffset)
  return used == 0#32

def msgQueueEnqueue (regions : List Region) (queuePtr msg : BitVec 32) : GuestM Unit := do
  let arrayPtr ← read32 regions (queuePtr + msgQueueArrayOffset)
  let count ← read32 regions (queuePtr + msgQueueCountOffset)
  let first ← read32 regions (queuePtr + msgQueueFirstOffset)
  let used ← read32 regions (queuePtr + msgQueueUsedOffset)
  if count = 0#32 then
    return
  let index := (first + used) % count
  write32 regions (arrayPtr + index * 4#32) msg
  write32 regions (queuePtr + msgQueueUsedOffset) (used + 1#32)

def msgQueueJam (regions : List Region) (queuePtr msg : BitVec 32) : GuestM Unit := do
  let arrayPtr ← read32 regions (queuePtr + msgQueueArrayOffset)
  let count ← read32 regions (queuePtr + msgQueueCountOffset)
  let first ← read32 regions (queuePtr + msgQueueFirstOffset)
  let used ← read32 regions (queuePtr + msgQueueUsedOffset)
  if count = 0#32 then
    return
  let first := if first = 0#32 then count - 1#32 else first - 1#32
  write32 regions (arrayPtr + first * 4#32) msg
  write32 regions (queuePtr + msgQueueFirstOffset) first
  write32 regions (queuePtr + msgQueueUsedOffset) (used + 1#32)

def msgQueueDequeue (regions : List Region) (queuePtr : BitVec 32) :
    GuestM (BitVec 32) := do
  let arrayPtr ← read32 regions (queuePtr + msgQueueArrayOffset)
  let count ← read32 regions (queuePtr + msgQueueCountOffset)
  let first ← read32 regions (queuePtr + msgQueueFirstOffset)
  let used ← read32 regions (queuePtr + msgQueueUsedOffset)
  if count = 0#32 ∨ used = 0#32 then
    return 0#32
  let msg ← read32 regions (arrayPtr + first * 4#32)
  let first := (first + 1#32) % count
  write32 regions (queuePtr + msgQueueFirstOffset) first
  write32 regions (queuePtr + msgQueueUsedOffset) (used - 1#32)
  return msg

/-! ## The operations -/

/-- How a pass of an operation ends: it returns, or the thread sleeps in a wait queue
and tries again. -/
inductive Outcome where
  | done
  | refused
  | violated (violation : AccessViolation)
  | asleep (waitQueue : BitVec 32)
deriving DecidableEq, Repr

/-- What the operation returns to the guest. -/
def Outcome.result : Outcome → Option (BitVec 32)
  | .done => some 1#32
  | .refused | .violated _ => some 0#32
  | .asleep _ => none

section Operations

variable (regions : List Region) (wakeupThread : BitVec 32 → GuestM Unit)

/-- One pass of the loop that the operations share. -/
def msgQueueOp (queuePtr : BitVec 32) (block : Bool) (ready : BitVec 32 → GuestM Bool)
    (apply : BitVec 32 → GuestM Unit) (wakeOffset blockOffset : BitVec 32)
    (host : HostMemory) : Outcome × HostMemory :=
  let attempt : GuestM Bool := do
    if ← ready queuePtr then
      apply queuePtr
      wakeupThread (queuePtr + wakeOffset)
      return true
    return false
  match attempt host with
  | .ok true host => (.done, host)
  | .error violation host => (.violated violation, host)
  | .ok false host =>
      if !block then (.refused, host) else (.asleep (queuePtr + blockOffset), host)

/-- Append, then wake the receivers; a full queue parks the thread with the senders. -/
def sendMessage (queuePtr msg flags : BitVec 32) (host : HostMemory) :
    Outcome × HostMemory :=
  if queuePtr = 0#32 then (.refused, host)
  else
    msgQueueOp wakeupThread queuePtr (flags &&& 1#32 != 0#32)
      (fun queue => do return !(← msgQueueIsFull regions queue))
      (fun queue => msgQueueEnqueue regions queue msg)
      msgQueueRecvOffset msgQueueSendOffset host

/-- Take the first message, then wake the senders; an empty queue parks the thread
with the receivers. -/
def receiveMessage (queuePtr outMsgPtr flags : BitVec 32) (host : HostMemory) :
    Outcome × HostMemory :=
  if queuePtr = 0#32 then (.refused, host)
  else
    msgQueueOp wakeupThread queuePtr (flags &&& 1#32 != 0#32)
      (fun queue => do return !(← msgQueueIsEmpty regions queue))
      (fun queue => do
        let msg ← msgQueueDequeue regions queue
        if outMsgPtr ≠ 0#32 then
          write32 regions outMsgPtr msg)
      msgQueueSendOffset msgQueueRecvOffset host

/-- Prepend instead of append. -/
def jamMessage (queuePtr msg flags : BitVec 32) (host : HostMemory) :
    Outcome × HostMemory :=
  if queuePtr = 0#32 then (.refused, host)
  else
    msgQueueOp wakeupThread queuePtr (flags &&& 1#32 != 0#32)
      (fun queue => do return !(← msgQueueIsFull regions queue))
      (fun queue => msgQueueJam regions queue msg)
      msgQueueRecvOffset msgQueueSendOffset host

end Operations

end Wiicompiled.Runtime.OsMessage
