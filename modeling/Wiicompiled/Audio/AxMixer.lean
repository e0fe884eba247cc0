import Wiicompiled.Support.FlatMemory
import Wiicompiled.Audio.AxMail

/-!
# The mixer

The operations of a command list mix samples on buses, and read and write buffers in guest
memory.  An operation is a program of accesses: the synchronous mix makes them as they
come, and the deferred mix makes them on the worker, with the blocks of aux input and
output kept off guest memory.

The voices of a parameter block list and the floating-point volume ramps are left open.
They are given as any program of accesses and any function.
-/

namespace Wiicompiled.Audio.AxDsp

/-! ## Main memory -/

def kMem1Size : ℕ := 24 * 1024 * 1024

def kMem2Size : ℕ := 128 * 1024 * 1024

def kMem1CachedBase : UInt32 := 0x80000000

def kMem1UncachedBase : UInt32 := 0xC0000000

def kMem2PhysicalBase : UInt32 := 0x10000000

def kMem2CachedBase : UInt32 := 0x90000000

def kMem2UncachedBase : UInt32 := 0xD0000000

/-- Which of the regions the mix can resolve, and what else the guest can access. -/
structure MixMap where
  mem1 : Bool
  mem2 : Bool
  contains : UInt32 → ℕ → Bool

/-- The physical address of a range that lies inside of a region of main memory, by any of
its aliases. -/
def MixResolveRange (map : MixMap) (addr : UInt32) (bytes : ℕ) : Option (BitVec 32) :=
  if bytes = 0 ∨ kMem2Size < bytes then none
  else if 0xFFFFFFFF - (bytes - 1) < addr.toNat then none
  else
    let mem1Offset :=
      if addr.toNat < kMem1Size then some addr
      else if (addr - kMem1CachedBase).toNat < kMem1Size then some (addr - kMem1CachedBase)
      else if (addr - kMem1UncachedBase).toNat < kMem1Size then
        some (addr - kMem1UncachedBase)
      else none
    match mem1Offset with
    | some offset =>
        if kMem1Size - offset.toNat < bytes then none
        else if map.mem1 then some offset.toBitVec
        else none
    | none =>
        let mem2Offset :=
          if (addr - kMem2PhysicalBase).toNat < kMem2Size then some (addr - kMem2PhysicalBase)
          else if (addr - kMem2CachedBase).toNat < kMem2Size then some (addr - kMem2CachedBase)
          else if (addr - kMem2UncachedBase).toNat < kMem2Size then
            some (addr - kMem2UncachedBase)
          else none
        match mem2Offset with
        | some offset =>
            if kMem2Size - offset.toNat < bytes then none
            else if map.mem2 then some (kMem2PhysicalBase + offset).toBitVec
            else none
        | none => none

/-- Main memory by physical addresses, and the bytes behind all other addresses. -/
structure GuestMemory where
  main : BitVec 32 → UInt8
  outside : UInt32 → UInt8

/-! ## Programs of accesses -/

abbrev AuxBlock := ℕ → Int32

def auxBytes : ℕ := kAxSamplesPerFrame * 4

/-- A program that accesses guest memory and ends with a value. -/
inductive Mix (α : Type) where
  | done (value : α)
  | read (addr : UInt32) (bytes : ℕ) (next : List UInt8 → Mix α)
  | write (addr : UInt32) (data : List UInt8) (next : Mix α)
  | contains (addr : UInt32) (bytes : ℕ) (next : Bool → Mix α)
  | readAuxIn (addr : UInt32) (next : AuxBlock → Mix α)
  | writeAuxOut (addr : UInt32) (block : AuxBlock) (next : Mix α)

namespace Mix

def bind {α β : Type} : Mix α → (α → Mix β) → Mix β
  | .done value, f => f value
  | .read addr bytes next, f => .read addr bytes fun data => (next data).bind f
  | .write addr data next, f => .write addr data (next.bind f)
  | .contains addr bytes next, f => .contains addr bytes fun found => (next found).bind f
  | .readAuxIn addr next, f => .readAuxIn addr fun block => (next block).bind f
  | .writeAuxOut addr block next, f => .writeAuxOut addr block (next.bind f)

instance : Monad Mix where
  pure := .done
  bind := bind

end Mix

/-- The byte of a sample, most significant first. -/
def sampleByte (sample : Int32) (index : ℕ) : UInt8 :=
  UInt8.ofNat (sample.toUInt32.toNat / 256 ^ (3 - index))

/-- The bytes of the samples of a block. -/
def storeBigEndian32 (block : AuxBlock) (count : ℕ) : List UInt8 :=
  (List.range (count * 4)).map fun i => sampleByte (block (i / 4)) (i % 4)

/-- The samples in the bytes of a block. -/
def loadBigEndian32 (data : List UInt8) : AuxBlock :=
  fun i => (UInt32.ofNat (ByteImage.fromBytes ((data.drop (i * 4)).take 4))).toInt32

def MixRead16 (addr : UInt32) : Mix UInt16 :=
  .read addr 2 fun data => .done (UInt16.ofNat (ByteImage.fromBytes data))

def MixRead32 (addr : UInt32) : Mix UInt32 :=
  .read addr 4 fun data => .done (UInt32.ofNat (ByteImage.fromBytes data))

def MixWrite16 (addr : UInt32) (value : UInt16) : Mix Unit :=
  .write addr [UInt8.ofNat (value.toNat / 256), UInt8.ofNat value.toNat] (.done ())

def ReadAuxIn (addr : UInt32) : Mix AuxBlock :=
  .readAuxIn addr .done

def WriteAuxOut (addr : UInt32) (block : AuxBlock) : Mix Unit :=
  .writeAuxOut addr block (.done ())

def WriteGuestS32Buffer (addr : UInt32) (block : AuxBlock) : Mix Unit :=
  if addr = 0 then .done ()
  else .write addr (storeBigEndian32 block kAxSamplesPerFrame) (.done ())

/-! ## The operations -/

inductive PBLayout where
  | unknown
  | skipBiquadGapOnly
  | skipUpdatesAndBiquadGap
  | skipUpdatesOnly
deriving DecidableEq, Repr

/-- The buses by their number, the volumes of the last frame, the place in the compressor
table and the layout of parameter blocks. -/
structure Mixer where
  bus : ℕ → AuxBlock
  lastMainVolume : UInt16
  lastAuxVolumes : ℕ → UInt16
  compressorPos : UInt32
  pbLayout : PBLayout

def kBusMainL : ℕ := 0

def kBusMainR : ℕ := 1

def kBusMainS : ℕ := 2

def kBusAuxAL : ℕ := 3

def kBusAuxBL : ℕ := 6

def kBusAuxCL : ℕ := 9

def kBusAuxCR : ℕ := 10

def kBusAuxCS : ℕ := 11

def kBusWm0Main : ℕ := 12

/-- The buses of the Wii remotes follow the others. -/
def kAxRegularBusCount : ℕ := kBusWm0Main

def kAxBusCount : ℕ := 20

def kAxWiimoteSamplesPerFrame : ℕ := 18

/-- What the mix takes from elsewhere: the volume ramps from one volume to another, and
the voices of a list of parameter blocks. -/
structure MixEnv where
  map : MixMap
  volumeRamp : UInt16 → UInt16 → ℕ → UInt16
  processPBList : UInt32 → Bool → Bool → Mixer → Mix Mixer

def Mixer.setBus (mixer : Mixer) (bus : ℕ) (samples : AuxBlock) : Mixer :=
  { mixer with bus := Function.update mixer.bus bus samples }

def Mixer.addSample (mixer : Mixer) (bus i : ℕ) (value : Int32) : Mixer :=
  mixer.setBus bus (Function.update (mixer.bus bus) i (mixer.bus bus i + value))

def ClampS16 (sample : ℤ) : Int16 :=
  Int16.ofInt (max (-0x8000) (min sample 0x7fff))

/-- The product with a volume of 15 fractional bits. -/
def scaleSample (sample : Int32) (volume : UInt16) : ℤ :=
  sample.toInt * volume.toNat / 2 ^ 15

def SetupProcessing (initAddr : UInt32) (mixer : Mixer) : Mix Mixer :=
  (List.range kAxBusCount).foldlM (fun mixer bus => do
    let hi ← MixRead16 (initAddr + UInt32.ofNat (bus * 6))
    let lo ← MixRead16 (initAddr + UInt32.ofNat (bus * 6 + 2))
    let delta ← MixRead16 (initAddr + UInt32.ofNat (bus * 6 + 4))
    let value := Hilo hi lo
    let count := if bus < kAxRegularBusCount then 32 * 3 else 6 * 3
    pure (mixer.setBus bus fun j =>
      if count ≤ j then mixer.bus bus j
      else if value = 0 then 0
      else value.toInt32 + Int32.ofNat j * delta.toInt16.toInt32)) mixer

def AddToLR (addr : UInt32) (neg : Bool) (mixer : Mixer) : Mix Mixer :=
  (List.range kAxSamplesPerFrame).foldlM (fun mixer i => do
    let word ← MixRead32 (addr + UInt32.ofNat (i * 4))
    let value := if neg then -word.toInt32 else word.toInt32
    pure ((mixer.addSample kBusMainL i value).addSample kBusMainR i value)) mixer

def AddSubToLR (addr : UInt32) (mixer : Mixer) : Mix Mixer := do
  let mixer ← (List.range kAxSamplesPerFrame).foldlM (fun mixer i => do
    let word ← MixRead32 (addr + UInt32.ofNat (i * 4))
    pure (Mixer.addSample mixer kBusMainL i word.toInt32)) mixer
  (List.range kAxSamplesPerFrame).foldlM (fun mixer i => do
    let word ← MixRead32 (addr + UInt32.ofNat ((kAxSamplesPerFrame + i) * 4))
    pure (Mixer.addSample mixer kBusMainR i (-word.toInt32))) mixer

def MixAccumRamp32 (dst src : AuxBlock) (ramp : ℕ → UInt16) : AuxBlock :=
  fun i => dst i + Int32.ofInt (scaleSample (src i) (ramp i))

/-- Write the aux buses, and mix what the guest made of the last ones. -/
def MixAUXSamples (env : MixEnv) (auxId : ℕ) (writeAddr readAddr : UInt32)
    (volume : UInt16) (mixer : Mixer) : Mix Mixer := do
  let ramp := env.volumeRamp (mixer.lastAuxVolumes auxId) volume
  let mixer :=
    { mixer with lastAuxVolumes := Function.update mixer.lastAuxVolumes auxId volume }
  if writeAddr ≠ 0 then
    (List.range 3).forM fun k =>
      WriteAuxOut (blockAddr writeAddr k) (mixer.bus (kBusAuxAL + 3 * auxId + k))
  (List.range 3).foldlM (fun mixer k => do
    let aux ← ReadAuxIn (blockAddr readAddr k)
    pure (Mixer.setBus mixer (kBusMainL + k)
      (MixAccumRamp32 (mixer.bus (kBusMainL + k)) aux ramp))) mixer

def UploadAUXMixLRSC (env : MixEnv) (auxId : ℕ) (addresses : List UInt32)
    (volume : UInt16) (mixer : Mixer) : Mix Mixer := do
  let auxLeft := if auxId = 0 then kBusAuxAL else kBusAuxBL
  let auxCBuffer := if auxId = 0 then kBusAuxCR else kBusAuxCS
  WriteAuxOut (addresses.getD 0 0) (mixer.bus auxLeft)
  WriteAuxOut (blockAddr (addresses.getD 0 0) 1) (mixer.bus (auxLeft + 1))
  WriteAuxOut (blockAddr (addresses.getD 0 0) 2) (mixer.bus (auxLeft + 2))
  WriteAuxOut (addresses.getD 1 0) (mixer.bus auxCBuffer)
  let ramp := env.volumeRamp (mixer.lastAuxVolumes auxId) volume
  let mixer :=
    { mixer with lastAuxVolumes := Function.update mixer.lastAuxVolumes auxId volume }
  let mixDest := [kBusMainL, kBusMainR, kBusMainS, kBusAuxCL]
  (List.range 4).foldlM (fun mixer i => do
    let temp ← ReadAuxIn (addresses.getD (2 + i) 0)
    let bus := mixDest.getD i 0
    pure (Mixer.setBus mixer bus (MixAccumRamp32 (mixer.bus bus) temp ramp))) mixer

def RunCompressor (threshold releaseFrames : UInt16) (tableAddr : UInt32)
    (mixer : Mixer) : Mix Mixer :=
  let exceeds := fun sample : Int32 => decide ((threshold.toNat : ℤ) < |sample.toInt|)
  let triggered := (List.range kAxSamplesPerFrame).any fun i =>
    exceeds (mixer.bus kBusMainL i) || exceeds (mixer.bus kBusMainR i)
  let apply := fun (tableOffset : UInt32) (mixer : Mixer) =>
    (List.range kAxSamplesPerFrame).foldlM (fun mixer i => do
      let coef ← MixRead16 (tableAddr + tableOffset + UInt32.ofNat (i * 2))
      let scaled := fun (mixer : Mixer) (bus : ℕ) =>
        mixer.setBus bus (Function.update (mixer.bus bus) i
          (Int32.ofInt (scaleSample (mixer.bus bus i) coef)))
      pure (scaled (scaled mixer kBusMainL) kBusMainR)) mixer
  let frameByteSize := UInt32.ofNat (kAxSamplesPerFrame * 2)
  if triggered then
    apply (mixer.compressorPos * frameByteSize)
      { mixer with compressorPos := releaseFrames.toUInt32 }
  else if mixer.compressorPos ≠ 0 then
    let compressorPos := mixer.compressorPos - 1
    apply ((11 + compressorPos) * frameByteSize) { mixer with compressorPos := compressorPos }
  else pure mixer

def OutputSamples (env : MixEnv) (lrAddr surroundAddr : UInt32) (volume : UInt16)
    (uploadAuxC : Bool) (mixer : Mixer) : Mix Mixer := do
  let ramp := env.volumeRamp mixer.lastMainVolume volume
  let mixer := { mixer with lastMainVolume := volume }
  WriteGuestS32Buffer surroundAddr (mixer.bus kBusMainS)
  if uploadAuxC then
    WriteGuestS32Buffer (blockAddr surroundAddr 1) (mixer.bus kBusAuxCL)
  let left := fun i => ClampS16 (scaleSample (mixer.bus kBusMainL i) (ramp i))
  let right := fun i => ClampS16 (scaleSample (mixer.bus kBusMainR i) (ramp i))
  -- The main buses are left holding the output.
  let keep := fun (samples : AuxBlock) (output : ℕ → Int16) i =>
    if i < kAxSamplesPerFrame then (output i).toInt32 else samples i
  let mixer := (mixer.setBus kBusMainL (keep (mixer.bus kBusMainL) left)).setBus kBusMainR
    (keep (mixer.bus kBusMainR) right)
  let pcm := fun i => if i % 2 = 0 then right (i / 2) else left (i / 2)
  if (MixResolveRange env.map lrAddr (kAxSamplesPerFrame * 4)).isSome then
    .write lrAddr ((List.range (kAxSamplesPerFrame * 2)).flatMap fun i =>
      [UInt8.ofNat ((pcm i).toUInt16.toNat / 256), UInt8.ofNat (pcm i).toUInt16.toNat])
      (.done ())
  else
    (List.range (kAxSamplesPerFrame * 2)).forM fun i =>
      MixWrite16 (lrAddr + UInt32.ofNat (i * 2)) (pcm i).toUInt16
  pure mixer

def OutputWMSamples (addresses : List UInt32) (mixer : Mixer) : Mix Mixer := do
  (List.range 4).forM fun i =>
    (List.range kAxWiimoteSamplesPerFrame).forM fun j =>
      MixWrite16 (addresses.getD i 0 + UInt32.ofNat (j * 2))
        (ClampS16 (mixer.bus (kBusWm0Main + 2 * i) j).toInt).toUInt16
  pure mixer

def Operation.mix (env : MixEnv) : Operation → Mixer → Mix Mixer
  | .setupProcessing initAddr => SetupProcessing initAddr
  | .addToLR addr neg => AddToLR addr neg
  | .addSubToLR addr => AddSubToLR addr
  | .processPBList pbAddr newFilter oldAxLayout =>
      env.processPBList pbAddr newFilter oldAxLayout
  | .mixAUXSamples auxId writeAddr readAddr volume =>
      MixAUXSamples env auxId writeAddr readAddr volume
  | .uploadAUXMixLRSC auxId addresses volume => UploadAUXMixLRSC env auxId addresses volume
  | .runCompressor threshold releaseFrames tableAddr =>
      RunCompressor threshold releaseFrames tableAddr
  | .outputSamples lrAddr surroundAddr volume uploadAuxC =>
      OutputSamples env lrAddr surroundAddr volume uploadAuxC
  | .outputWMSamples addresses => OutputWMSamples addresses

def mixOperations (env : MixEnv) (operations : List Operation) (mixer : Mixer) : Mix Mixer :=
  operations.foldlM (fun mixer operation => operation.mix env mixer) mixer

end Wiicompiled.Audio.AxDsp
