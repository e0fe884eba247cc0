import Wiicompiled.Support.SentinelList
import Mathlib.Data.BitVec

/-!
# The alarm queue

The guest keeps its alarms in a doubly linked list ordered by fire time.  `OSSetAlarm`
inserts an alarm, the queue is processed at safe points of the runtime, and handlers may
set and cancel alarms while it is.  `OSCancelAlarm` and the insertion of periodic alarms
are guest code.
-/

namespace Wiicompiled.Runtime.AlarmQueue

abbrev Address := BitVec 32

/-- The fields of an alarm in guest memory. -/
structure Alarm where
  handler : Address
  fireTime : BitVec 64
  prev : Address
  next : Address
  period : BitVec 64
deriving DecidableEq, Repr

/-- The alarms in guest memory and the two words of the queue. -/
structure AlarmMemory where
  alarms : Address → Alarm
  head : Address
  tail : Address

namespace AlarmMemory

def write (m : AlarmMemory) (alarm : Address) (a : Alarm) : AlarmMemory :=
  { m with alarms := Function.update m.alarms alarm a }

def setNext (m : AlarmMemory) (alarm next : Address) : AlarmMemory :=
  m.write alarm { m.alarms alarm with next := next }

def setPrev (m : AlarmMemory) (alarm prev : Address) : AlarmMemory :=
  m.write alarm { m.alarms alarm with prev := prev }

end AlarmMemory

/-- The self-referential node of some builds stands for an empty list. -/
def sanitizeAlarmQueue (m : AlarmMemory) : AlarmMemory :=
  if m.head = 0#32 then m
  else
    let head := m.head
    let prev := (m.alarms head).prev
    let next := (m.alarms head).next
    if next = head ∧ prev = head ∧ head = m.tail then
      (({ m with head := 0#32, tail := 0#32 } : AlarmMemory).setPrev head 0#32).setNext
        head 0#32
    else m

/-! ## OSSetAlarm -/

/-- The registers that `OSSetAlarm` reads. -/
structure SetAlarmRegisters where
  gpr3 : BitVec 32
  gpr4 : BitVec 32
  gpr5 : BitVec 32
  gpr6 : BitVec 32
  gpr7 : BitVec 32
deriving DecidableEq, Repr

/-- The ticks and the handler.  Some callers leave out the alignment of the 64-bit
argument, and the handler is in the register before. -/
def SetAlarmRegisters.arguments (isLikelyCodeAddress : Address → Bool)
    (r : SetAlarmRegisters) : BitVec 64 × Address :=
  if !isLikelyCodeAddress r.gpr7 && isLikelyCodeAddress r.gpr6 then
    (r.gpr4 ++ r.gpr5, r.gpr6)
  else (r.gpr5 ++ r.gpr6, r.gpr7)

/-- There are no more alarms than addresses. -/
def searchFuel : ℕ := 2 ^ 32

def findPosition (m : AlarmMemory) (fireTime : BitVec 64) :
    ℕ → Address → Address → Address × Address
  | 0, prev, cur => (prev, cur)
  | fuel + 1, prev, cur =>
      if cur = 0#32 then (prev, cur)
      else if fireTime.slt (m.alarms cur).fireTime then (prev, cur)
      else findPosition m fireTime fuel cur (m.alarms cur).next

/-- Link an alarm whose links are null into the queue. -/
def insertByFireTime (m : AlarmMemory) (alarm : Address) (fireTime : BitVec 64) :
    AlarmMemory :=
  let head := m.head
  if head = 0#32 then { m with head := alarm, tail := alarm }
  else
    let (prev, cur) := findPosition m fireTime searchFuel 0#32 head
    if prev = 0#32 then
      { (m.setNext alarm head).setPrev head alarm with head := alarm }
    else
      let m := ((m.setPrev alarm prev).setNext alarm cur).setNext prev alarm
      if cur = 0#32 then { m with tail := alarm } else m.setPrev cur alarm

/-- `OSSetAlarm` at time `now`. -/
def osSetAlarm (isLikelyCodeAddress : Address → Bool) (now : BitVec 64)
    (r : SetAlarmRegisters) (m : AlarmMemory) : AlarmMemory :=
  let alarm := r.gpr3
  let (ticks, handler) := r.arguments isLikelyCodeAddress
  if alarm = 0#32 then m
  else
    let m := sanitizeAlarmQueue m
    let fireTime := now + ticks
    insertByFireTime
      (m.write alarm
        { handler, fireTime, prev := 0#32, next := 0#32, period := 0#64 })
      alarm fireTime

/-! ## ProcessAlarmQueue -/

/-- Take the head out of the queue; its handler is kept by the caller. -/
def popAlarm (m : AlarmMemory) : AlarmMemory :=
  let alarm := m.head
  let next := (m.alarms alarm).next
  let m := { m with head := next }
  let m := if next = 0#32 then { m with tail := 0#32 } else m.setPrev next 0#32
  let m := (m.setNext alarm 0#32).setPrev alarm 0#32
  m.write alarm { m.alarms alarm with handler := 0#32 }

/-- What is code of the guest, and what looks like a code address. -/
structure GuestCode where
  isLikelyCodeAddress : Address → Bool
  osCancelAlarm : Address → AlarmMemory → AlarmMemory
  insertAlarm : Address → Address → AlarmMemory → AlarmMemory

/-- The queue, the clock and the iterations that a running `ProcessAlarmQueue` has left.
The last four fields are the history that statements speak about: the fire times of all
sets, the latest set of each alarm, the sets whose handler ran and when, and the sets that
were cancelled. -/
structure State where
  memory : AlarmMemory
  now : BitVec 64
  draining : Option ℕ
  sets : List Int
  setting : Address → ℕ
  fired : List (ℕ × BitVec 64)
  cancelled : List ℕ

namespace State

def due (s : State) (alarm : Address) : Int :=
  s.sets.getD (s.setting alarm) 0

/-- The ticks of a set, as the signed number that `OSTime` is. -/
def fireTimeOf (guest : GuestCode) (s : State) (r : SetAlarmRegisters) : Int :=
  s.now.toNat + (r.arguments guest.isLikelyCodeAddress).1.toInt

def set (guest : GuestCode) (r : SetAlarmRegisters) (s : State) : State :=
  if r.gpr3 = 0#32 then s
  else
    { s with
      memory := osSetAlarm guest.isLikelyCodeAddress s.now r s.memory
      sets := s.sets ++ [s.fireTimeOf guest r]
      setting := Function.update s.setting r.gpr3 s.sets.length }

/-- A set whose alarm has a handler to run is cancelled. -/
def cancel (guest : GuestCode) (alarm : Address) (s : State) : State :=
  { s with
    memory := guest.osCancelAlarm alarm s.memory
    cancelled :=
      if (s.memory.alarms alarm).handler = 0#32 then s.cancelled
      else s.cancelled ++ [s.setting alarm] }

/-- One iteration of the loop for a due head.  The handler runs when there is one. -/
def dispatch (guest : GuestCode) (s : State) (left : ℕ) : State :=
  let alarm := s.memory.head
  let handler := (s.memory.alarms alarm).handler
  let period := (s.memory.alarms alarm).period
  let m := popAlarm s.memory
  { s with
    memory := if period ≠ 0#64 then guest.insertAlarm alarm handler m else m
    draining := some left
    fired := if handler ≠ 0#32 then s.fired ++ [(s.setting alarm, s.now)] else s.fired }

/-- The due test of the loop. -/
def HeadIsDue (s : State) : Prop :=
  s.memory.head ≠ 0#32 ∧ ¬s.now < (s.memory.alarms s.memory.head).fireTime

end State

end Wiicompiled.Runtime.AlarmQueue
