import Wiicompiled.Support.PendingStores
import Wiicompiled.Audio.AxMixer

/-!
# The synchronous and the deferred mix

The synchronous mix runs on the guest thread and accesses guest memory as it goes.  The
deferred mix runs on the worker.  It reads aux input from its own output or from the
snapshot of the mail, holds aux output back until the next join, and skips what lies
outside of main memory.  The guest goes on while the worker mixes.
-/

namespace Wiicompiled.Audio.AxDsp

open FlatMemory

/-! ## Accesses of the guest thread -/

def GuestMemory.read (map : MixMap) (memory : GuestMemory) (addr : UInt32) (bytes : ℕ) :
    List UInt8 :=
  match MixResolveRange map addr bytes with
  | some physical => load memory.main physical bytes
  | none => (List.range bytes).map fun i => memory.outside (addr + UInt32.ofNat i)

def GuestMemory.write (map : MixMap) (memory : GuestMemory) (addr : UInt32)
    (data : List UInt8) : GuestMemory :=
  match MixResolveRange map addr data.length with
  | some physical => { memory with main := store memory.main physical data }
  | none =>
      { memory with
        outside := fun other =>
          (data[(other - addr).toNat]?).getD (memory.outside other) }

def GuestMemory.readBlock (map : MixMap) (memory : GuestMemory) (addr : UInt32) : AuxBlock :=
  loadBigEndian32 (memory.read map addr auxBytes)

def GuestMemory.writeBlock (map : MixMap) (memory : GuestMemory) (addr : UInt32)
    (block : AuxBlock) : GuestMemory :=
  if addr = 0 then memory
  else memory.write map addr (storeBigEndian32 block kAxSamplesPerFrame)

def Mix.runSync {α : Type} (map : MixMap) : Mix α → GuestMemory → α × GuestMemory
  | .done value, memory => (value, memory)
  | .read addr bytes next, memory => (next (memory.read map addr bytes)).runSync map memory
  | .write addr data next, memory => next.runSync map (memory.write map addr data)
  | .contains addr bytes next, memory =>
      (next ((MixResolveRange map addr bytes).isSome || map.contains addr bytes)).runSync
        map memory
  | .readAuxIn addr next, memory => (next (memory.readBlock map addr)).runSync map memory
  | .writeAuxOut addr block next, memory =>
      next.runSync map (memory.writeBlock map addr block)

/-! ## Accesses of the worker -/

/-- Guest memory with the shadowed blocks and those of the snapshot. -/
structure WorkerState where
  memory : GuestMemory
  auxOut : List (UInt32 × AuxBlock)
  auxIn : List (UInt32 × AuxBlock)

def WorkerState.read (map : MixMap) (s : WorkerState) (addr : UInt32) (bytes : ℕ) :
    List UInt8 :=
  match MixResolveRange map addr bytes with
  | some physical => load s.memory.main physical bytes
  | none => List.replicate bytes 0

def WorkerState.write (map : MixMap) (s : WorkerState) (addr : UInt32) (data : List UInt8) :
    WorkerState :=
  match MixResolveRange map addr data.length with
  | some physical =>
      { s with memory := { s.memory with main := store s.memory.main physical data } }
  | none => s

/-- The latest shadowed block, the block of the snapshot, or guest memory. -/
def WorkerState.readAuxIn (map : MixMap) (s : WorkerState) (addr : UInt32) : AuxBlock :=
  match s.auxOut.reverse.find? fun block => block.1 = addr with
  | some block => block.2
  | none =>
      match s.auxIn.find? fun block => block.1 = addr with
      | some block => block.2
      | none => loadBigEndian32 (s.read map addr auxBytes)

/-- A copy of the samples of a frame. -/
def copyBlock (block : AuxBlock) : AuxBlock :=
  fun i => if i < kAxSamplesPerFrame then block i else 0

def WorkerState.writeAuxOut (s : WorkerState) (addr : UInt32) (block : AuxBlock) :
    WorkerState :=
  if addr = 0 then s
  else if auxBlocks ≤ s.auxOut.length then s
  else { s with auxOut := s.auxOut ++ [(addr, copyBlock block)] }

/-- A byte of main memory that the guest writes while the worker mixes. -/
abbrev GuestWrite := BitVec 32 × UInt8

def applyGuestWrites (memory : BitVec 32 → UInt8) (writes : List GuestWrite) :
    BitVec 32 → UInt8 :=
  writes.foldl (fun memory write => Function.update memory write.1 write.2) memory

def WorkerState.guestWrites (s : WorkerState) (writes : List GuestWrite) : WorkerState :=
  { s with memory := { s.memory with main := applyGuestWrites s.memory.main writes } }

/-- The deferred mix.  Before each of its accesses the guest makes the writes of the next
turn. -/
def Mix.runDeferred {α : Type} (map : MixMap) :
    Mix α → List (List GuestWrite) → WorkerState → α × List (List GuestWrite) × WorkerState
  | .done value, turns, s => (value, turns, s)
  | .read addr bytes next, turns, s =>
      let s := s.guestWrites (turns.headD [])
      (next (s.read map addr bytes)).runDeferred map turns.tail s
  | .write addr data next, turns, s =>
      let s := s.guestWrites (turns.headD [])
      next.runDeferred map turns.tail (s.write map addr data)
  | .contains addr bytes next, turns, s =>
      let s := s.guestWrites (turns.headD [])
      (next (MixResolveRange map addr bytes).isSome).runDeferred map turns.tail s
  | .readAuxIn addr next, turns, s =>
      let s := s.guestWrites (turns.headD [])
      (next (s.readAuxIn map addr)).runDeferred map turns.tail s
  | .writeAuxOut addr block next, turns, s =>
      let s := s.guestWrites (turns.headD [])
      next.runDeferred map turns.tail (s.writeAuxOut addr block)

/-- The blocks are written to guest memory by the guest thread, and are shadowed no more. -/
def PublishAuxOutputs (map : MixMap) (s : WorkerState) : GuestMemory :=
  s.auxOut.foldl (fun memory block => memory.writeBlock map block.1 block.2) s.memory

/-- The snapshot that is taken when the mail arrives. -/
def snapshotAuxIn (map : MixMap) (memory : GuestMemory) (addrs : List UInt32) :
    List (UInt32 × AuxBlock) :=
  addrs.map fun addr => (addr, memory.readBlock map addr)

/-- Mix on the worker while the guest takes its turns, wait for the end of the turns, and
publish the shadowed blocks. -/
def deferAndJoin {α : Type} (map : MixMap) (program : Mix α) (auxInAddrs : List UInt32)
    (turns : List (List GuestWrite)) (memory : GuestMemory) : α × GuestMemory :=
  let (value, rest, s) := program.runDeferred map turns
    ⟨memory, [], snapshotAuxIn map memory auxInAddrs⟩
  (value, PublishAuxOutputs map (s.guestWrites rest.flatten))

/-! ## The buffers of a mix -/

/-- What a synchronous mix accesses: ranges of main memory, blocks of aux input and output
by their addresses with the ranges there, and whatever lies outside. -/
inductive Access where
  | read (physical : BitVec 32) (bytes : ℕ)
  | write (physical : BitVec 32) (bytes : ℕ)
  | readAuxIn (addr : UInt32) (physical : BitVec 32)
  | writeAuxOut (addr : UInt32) (physical : BitVec 32)
  | outside
deriving DecidableEq, Repr

def accessOf (map : MixMap) (addr : UInt32) (bytes : ℕ) (access : BitVec 32 → Access) : Access :=
  match MixResolveRange map addr bytes with
  | some physical => access physical
  | none => .outside

def Mix.accesses {α : Type} (map : MixMap) : Mix α → GuestMemory → List Access
  | .done _, _ => []
  | .read addr bytes next, memory =>
      accessOf map addr bytes (.read · bytes) ::
        (next (memory.read map addr bytes)).accesses map memory
  | .write addr data next, memory =>
      accessOf map addr data.length (.write · data.length) ::
        next.accesses map (memory.write map addr data)
  | .contains addr bytes next, memory =>
      -- An address that nobody can access is found by neither thread.
      (if (MixResolveRange map addr bytes).isSome || !map.contains addr bytes then []
        else [.outside]) ++
        (next ((MixResolveRange map addr bytes).isSome || map.contains addr bytes)).accesses
          map memory
  | .readAuxIn addr next, memory =>
      accessOf map addr auxBytes (.readAuxIn addr) ::
        (next (memory.readBlock map addr)).accesses map memory
  | .writeAuxOut addr block next, memory =>
      -- A block at the null address is written by neither.
      (if addr = 0 then [] else [accessOf map addr auxBytes (.writeAuxOut addr)]) ++
        next.accesses map (memory.writeBlock map addr block)

end Wiicompiled.Audio.AxDsp
