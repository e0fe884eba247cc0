import Wiicompiled.Audio.AxCommandList

/-!
# DSP mails

The guest announces a command list by its size, and then gives its address.  The list is
copied and scanned when the address arrives.  It is mixed at once, or by a worker before
the next entry point that joins it.

Next to the fields of the source a state keeps what has happened: each list with the words
that were read for it, the sync mails that were pushed and the operations of its mix, and
the blocks of aux output that joins have published.
-/

namespace Wiicompiled.Audio.AxDsp

def kMailCmdList : UInt32 := 0xBABE0000

def kMailCmdListMask : UInt32 := 0xFFFF0000

def kTaskMailToCpu : UInt32 := 0xDCD10000

def kTaskMailToDsp : UInt32 := 0xCDD10000

def kDspInit : UInt32 := kTaskMailToCpu ||| 0x0000

def kDspResume : UInt32 := kTaskMailToCpu ||| 0x0001

def kDspYield : UInt32 := kTaskMailToCpu ||| 0x0002

def kDspDone : UInt32 := kTaskMailToCpu ||| 0x0003

def kDspSync : UInt32 := kTaskMailToCpu ||| 0x0004

def kMailResume : UInt32 := kTaskMailToDsp ||| 0x0000

def kMailReset : UInt32 := kTaskMailToDsp ||| 0x0002

def UCodeUsesOldAxWiiCommands (crc : UInt32) : Bool :=
  crc = 0xfa450138 ∨ crc = 0x7699af32

def UCodeUsesNewFilter (crc : UInt32) : Bool :=
  crc = 0x347112ba ∨ crc = 0x4cc52064

def CommandLayoutForUCode (crc : UInt32) : AXCommandLayout :=
  if UCodeUsesOldAxWiiCommands crc then .old
  else if crc = 0xd9c4bf34 then .newNoOutputVolume
  else .new

/-! ## Aux blocks -/

inductive AuxAccess where
  | write (addr : UInt32)
  | read (addr : UInt32)
deriving DecidableEq, Repr

def blockAddr (addr : UInt32) (block : ℕ) : UInt32 :=
  addr + UInt32.ofNat (block * kAxSamplesPerFrame * 4)

/-- The blocks of aux output and input that an operation writes and reads, in order. -/
def Operation.auxAccesses : Operation → List AuxAccess
  | .mixAUXSamples _ writeAddr readAddr _ =>
      (if writeAddr ≠ 0 then (List.range 3).map fun block => .write (blockAddr writeAddr block)
        else []) ++
      (List.range 3).map fun block => .read (blockAddr readAddr block)
  | .uploadAUXMixLRSC _ addresses _ =>
      [.write (addresses.getD 0 0), .write (blockAddr (addresses.getD 0 0) 1),
        .write (blockAddr (addresses.getD 0 0) 2), .write (addresses.getD 1 0)] ++
      (List.range 4).map fun slot => .read (addresses.getD (2 + slot) 0)
  | _ => []

/-- Where a deferred mix finds a block of aux input. -/
inductive AuxSource where
  | shadow
  | snapshot
  | guestMemory
deriving DecidableEq, Repr

/-- The addresses of the shadowed blocks, after one more. -/
def WriteAuxOutBuffer (auxOut : List UInt32) (addr : UInt32) : List UInt32 :=
  if addr = 0 then auxOut
  else if auxBlocks ≤ auxOut.length then auxOut
  else auxOut ++ [addr]

def ReadAuxInBuffer (auxOut auxIn : List UInt32) (addr : UInt32) : AuxSource :=
  if addr ∈ auxOut then .shadow
  else if addr ∈ auxIn then .snapshot
  else .guestMemory

def shadowAddrs (auxOut : List UInt32) (accesses : List AuxAccess) : List UInt32 :=
  accesses.foldl (fun auxOut access =>
    match access with
    | .write addr => WriteAuxOutBuffer auxOut addr
    | .read _ => auxOut) auxOut

/-- Where the reads of a deferred mix find their blocks. -/
def auxSources (auxIn : List UInt32) : List UInt32 → List AuxAccess → List AuxSource
  | _, [] => []
  | auxOut, .write addr :: accesses =>
      auxSources auxIn (WriteAuxOutBuffer auxOut addr) accesses
  | auxOut, .read addr :: accesses =>
      ReadAuxInBuffer auxOut auxIn addr :: auxSources auxIn auxOut accesses

/-! ## The state -/

inductive MailState where
  | waitingForCmdListSize
  | waitingForCmdListAddress
  | waitingForNextTask
deriving DecidableEq, Repr

/-- A list as it was dispatched: the words of `cmdList` after its copy with the setting and
the choice of its layout, what the scans read, the mails that were pushed for its outputs,
and for a deferred mix the blocks of the snapshot. -/
structure Dispatch where
  cmdListSize : ℕ
  cmdList : ℕ → UInt16
  setting : AXCommandLayout
  layout : AXCommandLayout
  scanReads : List ℕ
  mails : List UInt32
  deferred : Bool
  auxIn : List UInt32

structure MixedList where
  dispatch : Dispatch
  execution : Execution

/-- A shadowed block: the number of its list, its place in the shadow, and its address. -/
structure ShadowedBlock where
  list : ℕ
  place : ℕ
  addr : UInt32
deriving DecidableEq, Repr

def shadowedBlocks (list : ℕ) (operations : List Operation) : List ShadowedBlock :=
  (shadowAddrs [] (operations.flatMap Operation.auxAccesses)).zipIdx.map fun block =>
    ⟨list, block.2, block.1⟩

structure AXWii where
  mailState : MailState
  cmdListSize : ℕ
  cmdList : ℕ → UInt16
  cpuMails : List UInt32
  deferredResumeCallbacks : ℕ
  ucodeCrc : UInt32
  commandLayout : AXCommandLayout
  mixWorkerEnabled : Bool
  mixThread : Bool
  mixPending : Option Dispatch
  mixLayout : AXCommandLayout
  mixCmdListSize : ℕ
  deferredAux : Bool
  auxOut : List ShadowedBlock
  lists : List MixedList
  published : List ShadowedBlock

def initialAXWii (cmdList : ℕ → UInt16) : AXWii where
  mailState := .waitingForCmdListSize
  cmdListSize := 0
  cmdList := cmdList
  cpuMails := []
  deferredResumeCallbacks := 0
  ucodeCrc := 0
  commandLayout := .auto
  mixWorkerEnabled := false
  mixThread := false
  mixPending := none
  mixLayout := .new
  mixCmdListSize := 0
  deferredAux := false
  auxOut := []
  lists := []
  published := []

namespace AXWii

def PushMail (s : AXWii) (mail : UInt32) : AXWii :=
  { s with cpuMails := s.cpuMails ++ [mail] }

def runMix (s : AXWii) (dispatch : Dispatch) : AXWii :=
  let newFilter := if s.ucodeCrc ≠ 0 then UCodeUsesNewFilter s.ucodeCrc
    else s.mixLayout ≠ .old
  let execution := ExecuteCommandList s.mixLayout newFilter s.mixCmdListSize s.cmdList
  { s with
    mixPending := none
    -- The shadow is emptied before the mix, whatever it held.
    auxOut := if s.deferredAux then shadowedBlocks s.lists.length execution.operations else []
    lists := s.lists ++ [⟨dispatch, execution⟩] }

def workerMixes (s : AXWii) : AXWii :=
  match s.mixPending with
  | none => s
  | some dispatch => s.runMix dispatch

def PublishAuxOutputs (s : AXWii) : AXWii :=
  { s with auxOut := [], published := s.published ++ s.auxOut }

/-- Wait for the mix of the worker, and publish what it shadowed. -/
def JoinMix (s : AXWii) : AXWii :=
  s.workerMixes.PublishAuxOutputs

/-- What a host answers while a list is dispatched: the memory of the guest, the words
that lie behind the array, and whether the worker starts. -/
structure Host where
  memory : UInt32 → UInt16
  behind : ℕ → UInt16
  workerStarts : Bool

def CopyCmdList (s : AXWii) (host : Host) (addr : UInt32) (sizeWords : ℕ) : AXWii :=
  let sizeWords := if cmdListWords < sizeWords then cmdListWords else sizeWords
  { s with
    cmdList := fun i =>
      if i < sizeWords then host.memory (addr + UInt32.ofNat (i * 2))
      else if i < cmdListWords then s.cmdList i
      else host.behind i }

/-- The layout of a list: the one that is set, or the first that the list is valid in. -/
def chooseLayout (s : AXWii) : AXCommandLayout :=
  if s.commandLayout = .auto then
    let validNew := (ScanCommandList .new s.cmdListSize s.cmdList).valid
    let validNewNoOutputVolume :=
      (ScanCommandList .newNoOutputVolume s.cmdListSize s.cmdList).valid
    let validOld := (ScanCommandList .old s.cmdListSize s.cmdList).valid
    if validNew then .new
    else if validNewNoOutputVolume then .newNoOutputVolume
    else if validOld then .old
    else .new
  else s.commandLayout

/-- The words that are read to choose a layout. -/
def probeReads (s : AXWii) : List ℕ :=
  if s.commandLayout = .auto then
    (ScanCommandList .new s.cmdListSize s.cmdList).reads ++
      (ScanCommandList .newNoOutputVolume s.cmdListSize s.cmdList).reads ++
      (ScanCommandList .old s.cmdListSize s.cmdList).reads
  else []

def dispatch (s : AXWii) (host : Host) : Dispatch :=
  let layout := s.chooseLayout
  let scan := ScanCommandList layout s.cmdListSize s.cmdList
  let deferred := s.mixWorkerEnabled && (s.mixThread || host.workerStarts)
  { cmdListSize := s.cmdListSize
    cmdList := s.cmdList
    setting := s.commandLayout
    layout := layout
    scanReads := s.probeReads ++ scan.reads
    mails := List.replicate scan.scan.outputCommands kDspSync
    deferred := deferred
    auxIn := if deferred then scan.scan.auxInputAddrs.take auxBlocks else [] }

def DispatchCommandList (s : AXWii) (host : Host) : AXWii :=
  let dispatch := s.dispatch host
  let s :=
    { s with
      cpuMails := s.cpuMails ++ dispatch.mails
      mixThread := s.mixThread || dispatch.deferred
      deferredAux := dispatch.deferred
      mixLayout := dispatch.layout
      mixCmdListSize := s.cmdListSize }
  if dispatch.deferred then { s with mixPending := some dispatch } else s.runMix dispatch

def HandleTaskMail (s : AXWii) (mail : UInt32) : AXWii :=
  let s :=
    if mail = kMailResume then s.PushMail kDspResume
    else if mail = kMailReset then s.PushMail kDspDone
    else s
  { s with mailState := .waitingForCmdListSize }

def announceList (s : AXWii) (mail : UInt32) : AXWii :=
  { s with
    cmdListSize := (mail &&& 0xffff).toNat
    mailState := .waitingForCmdListAddress }

def HandleMail (s : AXWii) (host : Host) (mail : UInt32) : AXWii :=
  match s.mailState with
  | .waitingForCmdListSize =>
      if mail &&& kMailCmdListMask = kMailCmdList then s.announceList mail
      else if mail &&& 0xffff0000 = kTaskMailToDsp then s.HandleTaskMail mail
      else s
  | .waitingForCmdListAddress =>
      let s := (s.JoinMix.CopyCmdList host mail s.cmdListSize).DispatchCommandList host
      let s := { s with cmdListSize := 0 }.PushMail kDspYield
      { s with
        deferredResumeCallbacks := s.deferredResumeCallbacks + 1
        mailState := .waitingForNextTask }
  | .waitingForNextTask =>
      if mail &&& kMailCmdListMask = kMailCmdList then s.announceList mail
      else s.HandleTaskMail mail

/-! ## The entry points -/

def Stop (s : AXWii) : AXWii :=
  { s.JoinMix with
    mailState := .waitingForCmdListSize
    cmdListSize := 0
    cpuMails := []
    deferredResumeCallbacks := 0
    ucodeCrc := 0 }

/-- The worker may be disabled by the settings. -/
def Initialize (s : AXWii) (workerEnabled : Bool) : AXWii :=
  { s.Stop with
    mixWorkerEnabled := workerEnabled
    commandLayout := .auto
    auxOut := []
    deferredAux := false }.PushMail kDspInit

/-- A task whose code has no checksum changes nothing. -/
def ConfigureFromTask (s : AXWii) (crc : UInt32) : AXWii :=
  let s := s.JoinMix
  if crc = 0 then s
  else { s with ucodeCrc := crc, commandLayout := CommandLayoutForUCode crc }

def ShutdownMixWorker (s : AXWii) : AXWii :=
  { s.workerMixes with mixThread := false }

/-- The calls of the guest and of the runtime, and the turn of the worker. -/
inductive Call where
  | init (workerEnabled : Bool)
  | stop
  | configureFromTask (crc : UInt32)
  | setMixWorkerEnabled (enabled : Bool)
  | sendMail (host : Host) (mail : UInt32)
  | readMailFromDSP
  | queueResumeCallback
  | serviceDeferredCallbacks
  | joinMix
  | shutdownMixWorker
  | workerMixes

def call (s : AXWii) : Call → AXWii
  | .init workerEnabled => s.Initialize workerEnabled
  | .stop => s.Stop
  | .configureFromTask crc => s.ConfigureFromTask crc
  | .setMixWorkerEnabled enabled => { s with mixWorkerEnabled := enabled }
  | .sendMail host mail => s.HandleMail host mail
  | .readMailFromDSP => { s with cpuMails := s.cpuMails.tail }
  | .queueResumeCallback =>
      { s with deferredResumeCallbacks := s.deferredResumeCallbacks + 1 }
  | .serviceDeferredCallbacks => { s with deferredResumeCallbacks := 0 }
  | .joinMix => s.JoinMix
  | .shutdownMixWorker => s.ShutdownMixWorker
  | .workerMixes => s.workerMixes

end AXWii

end Wiicompiled.Audio.AxDsp
