import Wiicompiled.Support.FlatMemory

/-!
# Guest memory

The checked accesses of the runtime.  A region maps a range of guest addresses to
host memory; an access is served by the first region that holds all of its bytes,
and one that no region holds, or that reaches a device without a handler, is an
access violation.
-/

namespace Wiicompiled.Runtime

open FlatMemory

/-! ## Regions -/

/-- The bytes of the host, where the storage of the regions is. -/
abbrev HostMemory := BitVec 64 → UInt8

/-- A mapped range of guest addresses and its storage. -/
structure Region where
  baseAddress : BitVec 32
  storageSize : ℕ
  storagePtr : BitVec 64
deriving DecidableEq, Repr

/-- Every byte of an access is in the region. -/
def Region.Holds (region : Region) (address : BitVec 32) (length : ℕ) : Prop :=
  region.baseAddress.toNat ≤ address.toNat ∧
    address.toNat + length ≤ region.baseAddress.toNat + region.storageSize

instance (region : Region) (address : BitVec 32) (length : ℕ) :
    Decidable (region.Holds address length) :=
  inferInstanceAs (Decidable (_ ∧ _))

def Region.hostPointer (region : Region) (address : BitVec 32) : BitVec 64 :=
  region.storagePtr + (address - region.baseAddress).setWidth 64

/-- The first region that holds an access. -/
def tryResolveRegion (regions : List Region) (address : BitVec 32) (length : ℕ) :
    Option Region :=
  regions.find? fun region => region.Holds address length

/-! ## Access violations -/

/-- What an access violation reports. -/
inductive ViolationReason where
  | noMappedRegion
  | mmioReadBlocked
  | mmioWriteBlocked
  | deferredReadMaterializationFailed
deriving DecidableEq, Repr

/-- An access that the runtime refuses. -/
structure AccessViolation where
  address : BitVec 32
  length : ℕ
  reason : ViolationReason
deriving DecidableEq, Repr

/-- The window of device registers. -/
def isMmioAddress (address : BitVec 32) : Bool :=
  0xCC000000#32 ≤ address && address < 0xCE000000#32

/-- The gather pipe of the graphics processor, which takes writes only. -/
def isGpuFifoAddress (address : BitVec 32) : Bool :=
  0xCC008000#32 ≤ address && address < 0xCC008100#32

theorem isMmioAddress_of_isGpuFifoAddress {address : BitVec 32}
    (h : isGpuFifoAddress address = true) : isMmioAddress address = true := by
  simp only [isGpuFifoAddress, isMmioAddress, Bool.and_eq_true, decide_eq_true_eq] at h ⊢
  constructor <;> bv_omega

/-- The host address of an access, when a region holds it. -/
def getPointer (regions : List Region) (address : BitVec 32) (length : ℕ) :
    Option (BitVec 64) :=
  (tryResolveRegion regions address length).map fun region => region.hostPointer address

/-! ## Words -/

/-- The big-endian word at a host address. -/
def loadWord (host : HostMemory) (pointer : BitVec 64) : BitVec 32 :=
  BitVec.ofNat 32 (ByteImage.fromBytes (load host pointer 4))

/-- Put a big-endian word at a host address. -/
def storeWord (host : HostMemory) (pointer : BitVec 64) (value : BitVec 32) : HostMemory :=
  store host pointer (ByteImage.toBytes 4 value.toNat)

/-- A computation over guest memory.  What it wrote before an access violation stays
written. -/
abbrev GuestM := EStateM AccessViolation HostMemory

def read32 (regions : List Region) (address : BitVec 32) : GuestM (BitVec 32) := fun host =>
  if isMmioAddress address then .error ⟨address, 4, .mmioReadBlocked⟩ host
  else
    match getPointer regions address 4 with
    | none => .error ⟨address, 4, .noMappedRegion⟩ host
    | some pointer => .ok (loadWord host pointer) host

/-- Write a word.  A word for the gather pipe goes to the graphics processor and not
to memory. -/
def write32 (regions : List Region) (address value : BitVec 32) : GuestM Unit := fun host =>
  if isGpuFifoAddress address then .ok () host
  else if isMmioAddress address then .error ⟨address, 4, .mmioWriteBlocked⟩ host
  else
    match getPointer regions address 4 with
    | none => .error ⟨address, 4, .noMappedRegion⟩ host
    | some pointer => .ok () (storeWord host pointer value)

/-- The host address of a word of memory: one of no device, in a region. -/
def ramPointer (regions : List Region) (address : BitVec 32) : Option (BitVec 64) :=
  if isMmioAddress address then none else getPointer regions address 4

section Words

variable {regions : List Region} {address value : BitVec 32} {host host' : HostMemory}
  {pointer pointer' : BitVec 64}

@[simp]
theorem loadWord_storeWord : loadWord (storeWord host pointer value) pointer = value := by
  have hload : load (storeWord host pointer value) pointer 4 =
      ByteImage.toBytes 4 value.toNat := by
    have hlen := ByteImage.length_toBytes 4 value.toNat
    have hself : load (storeWord host pointer value) pointer
        (ByteImage.toBytes 4 value.toNat).length = ByteImage.toBytes 4 value.toNat :=
      load_store_self (by rw [hlen]; omega)
    rwa [hlen] at hself
  have hlt : value.toNat < 256 ^ 4 := value.isLt
  rw [loadWord, hload, ByteImage.fromBytes_toBytes, Nat.mod_eq_of_lt hlt,
    BitVec.ofNat_toNat, BitVec.setWidth_eq]

theorem loadWord_congr (h : ∀ x ∈ range pointer 4, host' x = host x) :
    loadWord host' pointer = loadWord host pointer := by
  rw [loadWord, loadWord, load_congr (by omega) h]

theorem storeWord_of_notMem {x : BitVec 64} (h : x ∉ range pointer 4) :
    storeWord host pointer value x = host x := by
  apply store_of_notMem
  rwa [ByteImage.length_toBytes]

/-- Words at two places share no byte. -/
def Apart (pointer pointer' : BitVec 64) : Prop :=
  ∀ x ∈ range pointer 4, x ∉ range pointer' 4

theorem Apart.symm (h : Apart pointer pointer') : Apart pointer' pointer :=
  fun x hx hx' => h x hx' hx

theorem apart_of_le (h : pointer.toNat + 4 ≤ pointer'.toNat)
    (hend : pointer'.toNat + 4 ≤ 2 ^ 64) : Apart pointer pointer' := by
  intro x hx hx'
  rw [mem_range_iff] at hx hx'
  bv_omega

theorem loadWord_storeWord_of_apart (h : Apart pointer' pointer) :
    loadWord (storeWord host pointer value) pointer' = loadWord host pointer' :=
  loadWord_congr fun x hx => storeWord_of_notMem (h x hx)

theorem read32_of_ramPointer (h : ramPointer regions address = some pointer) :
    read32 regions address host = .ok (loadWord host pointer) host := by
  rw [ramPointer, Option.ite_none_left_eq_some] at h
  obtain ⟨hmmio, hpointer⟩ := h
  simp [read32, hmmio, hpointer]

theorem write32_of_ramPointer (h : ramPointer regions address = some pointer) :
    write32 regions address value host = .ok () (storeWord host pointer value) := by
  rw [ramPointer, Option.ite_none_left_eq_some] at h
  obtain ⟨hmmio, hpointer⟩ := h
  have hfifo : isGpuFifoAddress address ≠ true :=
    fun hfifo => hmmio (isMmioAddress_of_isGpuFifoAddress hfifo)
  simp [write32, hmmio, hfifo, hpointer]

/-- A word that is neither of memory nor for the gather pipe cannot be written. -/
theorem write32_of_ramPointer_none (hfifo : isGpuFifoAddress address = false)
    (h : ramPointer regions address = none) :
    ∃ violation, write32 regions address value host = .error violation host := by
  by_cases hmmio : isMmioAddress address = true
  · exact ⟨_, by simp [write32, hfifo, hmmio]; rfl⟩
  · have hpointer : getPointer regions address 4 = none := by
      simpa [ramPointer, hmmio] using h
    exact ⟨_, by simp [write32, hfifo, hmmio, hpointer]; rfl⟩

theorem write32_of_isGpuFifoAddress (hfifo : isGpuFifoAddress address = true) :
    write32 regions address value host = .ok () host := by
  simp [write32, hfifo]

theorem ramPointer_of_isGpuFifoAddress (hfifo : isGpuFifoAddress address = true) :
    ramPointer regions address = none := by
  rw [ramPointer, if_pos (isMmioAddress_of_isGpuFifoAddress hfifo)]

end Words

/-! ## Sequences -/

section Sequences

variable {α β : Type} {first : GuestM α} {next : α → GuestM β} {host host' : HostMemory}
  {a : α} {violation : AccessViolation}

theorem bind_of_ok (h : first host = .ok a host') : (first >>= next) host = next a host' := by
  simp only [bind, EStateM.bind, h]

theorem bind_of_error (h : first host = .error violation host') :
    (first >>= next) host = .error violation host' := by
  simp only [bind, EStateM.bind, h]

theorem tryCatch_of_ok {body : GuestM α} {handler : AccessViolation → GuestM α}
    (h : body host = .ok a host') :
    (tryCatch body handler) host = .ok a host' := by
  simp only [tryCatch, tryCatchThe, MonadExceptOf.tryCatch, EStateM.tryCatch, h]

end Sequences

end Wiicompiled.Runtime
