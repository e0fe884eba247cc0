import Mathlib.Data.List.Basic

/-!
# The audio ring buffer

One thread pushes and one thread pops.  The loads and stores of the two indices and the copies
of the elements are steps of their own, in any order of the two threads.  A load sees the latest
index that the other thread has stored or an older one, but none older than it has seen before,
as it is with one atomic variable.
-/

namespace Wiicompiled.Voice.SpscRingBuffer

variable {T : Type*}

/-! ## Index arithmetic -/

def freeSpace (Capacity write read : ℕ) : ℕ :=
  if write ≥ read then Capacity - (write - read) - 1 else read - write - 1

def available (Capacity read write : ℕ) : ℕ :=
  if write ≥ read then write - read else Capacity - (read - write)

/-! ## The threads -/

/-- Where the producer is in `push`. -/
inductive Producer (T : Type*)
  | idle
  | called (values : List T)
  | loaded (values : List T) (write : ℕ)
  | copying (values : List T) (write count i : ℕ)

/-- Where the consumer is in `pop`, with the elements that it has copied. -/
inductive Consumer (T : Type*)
  | idle
  | called (size : ℕ)
  | loaded (size read : ℕ)
  | copying (read count : ℕ) (values : List T)

/-- The slots, and all indices that have been stored, the latest one last.  The place of the
index that a thread has last seen of the other is kept with it.  The elements that have been
pushed and popped by finished calls, and their numbers at each store, are on record. -/
structure Ring (T : Type*) where
  data_ : ℕ → T
  write_ : List ℕ
  read_ : List ℕ
  producer : Producer T
  consumer : Consumer T
  readSeen : ℕ
  writeSeen : ℕ
  pushed : List T
  popped : List T
  writeTotals : List ℕ
  readTotals : List ℕ

def Ring.initial [Inhabited T] : Ring T where
  data_ _ := default
  write_ := [0]
  read_ := [0]
  producer := .idle
  consumer := .idle
  readSeen := 0
  writeSeen := 0
  pushed := []
  popped := []
  writeTotals := [0]
  readTotals := [0]

/-- What a thread does next. -/
inductive Action (T : Type*)
  | push (values : List T)
  | loadOwnWrite
  | loadRead (place : ℕ)
  | copyIn
  | storeWrite
  | pop (size : ℕ)
  | loadOwnRead
  | loadWrite (place : ℕ)
  | copyOut
  | storeRead

def Ring.slotToWrite (Capacity : ℕ) (s : Ring T) : Option ℕ :=
  match s.producer with
  | .copying _ write count i => if i < count then some ((write + i) % Capacity) else none
  | .idle | .called _ | .loaded _ _ => none

/-- The steps of `push`. -/
def stepProducer (Capacity : ℕ) (s : Ring T) : Action T → Option (Ring T)
  | .push values =>
    match s.producer with
    | .idle => some { s with producer := .called values }
    | _ => none
  | .loadOwnWrite =>
    match s.producer, s.write_.getLast? with
    | .called values, some write => some { s with producer := .loaded values write }
    | _, _ => none
  | .loadRead place =>
    match s.producer, s.read_[place]? with
    | .loaded values write, some read =>
        if s.readSeen ≤ place then
          let count := min values.length (freeSpace Capacity write read)
          some { s with producer := .copying values write count 0, readSeen := place }
        else none
    | _, _ => none
  | .copyIn =>
    match s.producer with
    | .copying values write count i =>
        if i < count then
          values[i]?.map fun value =>
            { s with
              data_ := Function.update s.data_ ((write + i) % Capacity) value
              producer := .copying values write count (i + 1) }
        else none
    | _ => none
  | .storeWrite =>
    match s.producer with
    | .copying values write count i =>
        if i = count then
          some
            { s with
              write_ := s.write_ ++ [(write + count) % Capacity]
              producer := .idle
              pushed := s.pushed ++ values.take count
              writeTotals := s.writeTotals ++ [s.pushed.length + count] }
        else none
    | _ => none
  | _ => none

/-- The steps of `pop`. -/
def stepConsumer (Capacity : ℕ) (s : Ring T) : Action T → Option (Ring T)
  | .pop size =>
    match s.consumer with
    | .idle => some { s with consumer := .called size }
    | _ => none
  | .loadOwnRead =>
    match s.consumer, s.read_.getLast? with
    | .called size, some read => some { s with consumer := .loaded size read }
    | _, _ => none
  | .loadWrite place =>
    match s.consumer, s.write_[place]? with
    | .loaded size read, some write =>
        if s.writeSeen ≤ place then
          let count := min size (available Capacity read write)
          some { s with consumer := .copying read count [], writeSeen := place }
        else none
    | _, _ => none
  | .copyOut =>
    match s.consumer with
    | .copying read count values =>
        if values.length < count then
          some
            { s with
              consumer := .copying read count
                (values ++ [s.data_ ((read + values.length) % Capacity)]) }
        else none
    | _ => none
  | .storeRead =>
    match s.consumer with
    | .copying read count values =>
        if values.length = count then
          some
            { s with
              read_ := s.read_ ++ [(read + count) % Capacity]
              consumer := .idle
              popped := s.popped ++ values
              readTotals := s.readTotals ++ [s.popped.length + count] }
        else none
    | _ => none
  | _ => none

def step (Capacity : ℕ) (s : Ring T) (action : Action T) : Option (Ring T) :=
  (stepProducer Capacity s action).or (stepConsumer Capacity s action)

/-- A run of the two threads. -/
def run (Capacity : ℕ) (s : Ring T) : List (Action T) → Option (Ring T)
  | [] => some s
  | action :: actions => (step Capacity s action).bind fun s' => run Capacity s' actions

end Wiicompiled.Voice.SpscRingBuffer
