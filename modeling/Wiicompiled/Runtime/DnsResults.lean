import Wiicompiled.Runtime.DeferredNetwork
import Wiicompiled.Support.PendingStores

/-!
# Results of the resolver

A worker resolves a name on the host and keeps the addresses as plain values.  The
completion pump writes them to the output buffer of the guest: one address, a host entry
with its table of addresses, or a chain of address records.  Stores are listed in the
order of the program.
-/

namespace Wiicompiled.Runtime.DnsResults

open PendingStores ByteImage
open Wiicompiled.Runtime.DeferredNetwork (Address DnsKind soEInval soErrorHostNotFound)

def kWiiAfInet : BitVec 32 := 2#32

def kWiiSockAddrHeaderBytes : ℕ := 2

def kWiiSockAddrPayloadBytes : ℕ := 14

def kWiiIpv4SockAddrBytes : ℕ := kWiiSockAddrHeaderBytes + kWiiSockAddrPayloadBytes

/-! ## The host -/

/-- Numbers that the headers of the host choose, and those it may lack. -/
structure HostSockets where
  afUnspec : Int
  afInet : Int
  afInet6 : Option Int
  stream : Int
  dgram : Int
  raw : Option Int
  rdm : Option Int
  seqPacket : Option Int
deriving DecidableEq, Repr

def mapNativeAfToWii (host : HostSockets) (af : Int) : Int :=
  if af = host.afInet then 2
  else if some af = host.afInet6 then 23
  else -1

/-- An unfamiliar type of the host goes through. -/
def mapNativeSocketTypeToWii (host : HostSockets) (type : Int) : BitVec 32 :=
  if type = 0 then 0#32
  else if type = host.stream then 1#32
  else if type = host.dgram then 2#32
  else if some type = host.raw then 3#32
  else if some type = host.rdm then 4#32
  else if some type = host.seqPacket then 5#32
  else BitVec.ofInt 32 type

abbrev SocketData := {data : List UInt8 // data.length = kWiiSockAddrPayloadBytes}

/-- An entry of the list that the host's resolver answers. -/
structure NativeAddress where
  flags : BitVec 32
  family : Int
  sockType : Int
  protocol : BitVec 32
  addrlen : ℕ
  addr : Option SocketData
deriving DecidableEq

structure Hints where
  flags : Int
  family : Int
  sockType : Int
  protocol : Int
deriving DecidableEq, Repr

/-! ## Resolution -/

structure DnsAddress where
  flags : BitVec 32
  family : BitVec 32
  sockType : Int
  protocol : BitVec 32
  addressLength : BitVec 32
  ipv4Address : BitVec 32
  socketData : SocketData
deriving DecidableEq

/-- A complete IPv4 address. -/
structure DnsAddress.Normalized (address : DnsAddress) : Prop where
  family : address.family = kWiiAfInet
  addressLength : address.addressLength = BitVec.ofNat 32 kWiiIpv4SockAddrBytes

def canCopyIpv4SockAddr (nativeFamily : Int) (nativeLength : ℕ) (nativeIpv4Family : Int) :
    Bool :=
  nativeFamily = nativeIpv4Family && kWiiIpv4SockAddrBytes ≤ nativeLength

def normalizeDeferredDnsAddress (host : HostSockets) (native : NativeAddress) :
    Option DnsAddress :=
  match native.addr with
  | none => none
  | some socketData =>
      if !canCopyIpv4SockAddr native.family native.addrlen host.afInet then none
      else
        let wiiFamily := mapNativeAfToWii host native.family
        if wiiFamily ≠ 2 then none
        else
          some
            { flags := native.flags
              family := BitVec.ofInt 32 wiiFamily
              sockType := native.sockType
              protocol := native.protocol
              addressLength := BitVec.ofNat 32 kWiiIpv4SockAddrBytes
              -- the port comes before the address
              ipv4Address := BitVec.ofNat 32 (fromBytes ((socketData.val.drop 2).take 4))
              socketData }

theorem normalized_of_normalizeDeferredDnsAddress
    {host : HostSockets} {native : NativeAddress} {address : DnsAddress}
    (h : normalizeDeferredDnsAddress host native = some address) :
    address.Normalized := by
  rw [normalizeDeferredDnsAddress] at h
  split at h
  · cases h
  · split at h
    · cases h
    · by_cases hfamily : mapNativeAfToWii host native.family = 2
      · simp only [hfamily, ne_eq, not_true_eq_false, if_false, Option.some.injEq] at h
        subst h
        exact ⟨by rfl, rfl⟩
      · simp only [ne_eq, hfamily, not_false_eq_true, if_true] at h
        cases h

structure DnsWork where
  kind : DnsKind
  node : List UInt8
  service : List UInt8
  hints : Option Hints
  outAddress : Address
  outSize : BitVec 32
deriving DecidableEq, Repr

/-- The result of a resolution, which keeps complete IPv4 addresses only. -/
structure DnsCompletion where
  work : DnsWork
  result : Int
  addresses : List DnsAddress
  normalized : ∀ address ∈ addresses, address.Normalized

def deferredDnsFailureResult : DnsKind → Int
  | .getHostByName => -1
  | .getAddrInfo => soErrorHostNotFound
  | .inetAton => 0

def maxAddresses : DnsKind → ℕ
  | .getHostByName => 71
  | .inetAton => 1
  | .getAddrInfo => 256

/-- The hints for the host's resolver; a query for IPv6 addresses has none. -/
def resolverHints (host : HostSockets) (work : DnsWork) : Option Hints :=
  match work.kind, work.hints with
  | .getAddrInfo, some hints =>
      if some hints.family = host.afInet6 then none
      else
        some { hints with
          family := if hints.family = host.afUnspec then host.afInet else hints.family }
  | _, _ => some { flags := 0, family := host.afInet, sockType := 0, protocol := 0 }

/-- Resolve on the host.  `getaddrinfo` answers nothing when it fails. -/
def resolveDeferredDns
    (host : HostSockets)
    (getaddrinfo : List UInt8 → List UInt8 → Hints → Option (List NativeAddress))
    (work : DnsWork) : DnsCompletion :=
  let failure : DnsCompletion :=
    ⟨work, deferredDnsFailureResult work.kind, [], by simp⟩
  match (resolverHints host work).bind (getaddrinfo work.node work.service) with
  | none => failure
  | some natives =>
      let addresses :=
        (natives.filterMap (normalizeDeferredDnsAddress host)).take (maxAddresses work.kind)
      { work
        result := if addresses.isEmpty then deferredDnsFailureResult work.kind else 0
        addresses
        normalized := by
          intro address haddress
          obtain ⟨native, -, h⟩ := List.mem_filterMap.mp (List.mem_of_mem_take haddress)
          exact normalized_of_normalizeDeferredDnsAddress h }

/-! ## Guest memory -/

structure RegionConfig where
  baseAddress : Address
  sizeBytes : ℕ
deriving DecidableEq, Repr

def kMem1Size : ℕ := 24 * 1024 * 1024

def kMem2Size : ℕ := 128 * 1024 * 1024

/-- The views of the two memories, the module overlay and the locked cache. -/
def wiiDefaults : List RegionConfig :=
  [⟨0x00000000#32, kMem1Size⟩, ⟨0x80000000#32, kMem1Size⟩, ⟨0xC0000000#32, kMem1Size⟩,
    ⟨0x10000000#32, kMem2Size⟩, ⟨0x90000000#32, kMem2Size⟩, ⟨0xD0000000#32, kMem2Size⟩,
    ⟨0x81800000#32, 0x200000⟩, ⟨0xE0000000#32, 0x100000 + 4096⟩]

/-- One region has all bytes. -/
def Contains (address : Address) (length : ℕ) : Prop :=
  ∃ region ∈ wiiDefaults, region.baseAddress.toNat ≤ address.toNat ∧
    address.toNat + length ≤ region.baseAddress.toNat + region.sizeBytes

instance (address : Address) (length : ℕ) : Decidable (Contains address length) :=
  inferInstanceAs (Decidable (∃ region ∈ wiiDefaults, _))

theorem Contains.stop_le
    {address : Address} {length : ℕ} (h : Contains address length) :
    address.toNat + length ≤ 0xE0101000 := by
  obtain ⟨region, hregion, -, hstop⟩ := h
  have hall : ∀ region ∈ wiiDefaults,
      region.baseAddress.toNat + region.sizeBytes ≤ 0xE0101000 := by decide
  exact hstop.trans (hall region hregion)

theorem Contains.sub
    {address : Address} {length offset width : ℕ} (h : Contains address length)
    (hwidth : offset + width ≤ length) :
    Contains (address + BitVec.ofNat 32 offset) width := by
  have hstop := h.stop_le
  obtain ⟨region, hregion, hbase, hend⟩ := h
  have hadd : (address + BitVec.ofNat 32 offset).toNat = address.toNat + offset := by
    rw [BitVec.toNat_add, BitVec.toNat_ofNat]
    omega
  refine ⟨region, hregion, ?_, ?_⟩ <;> rw [hadd] <;> omega

abbrev Store := Pending 32 UInt8

def write8 (address : Address) (value : UInt8) : Store :=
  ⟨address, [value]⟩

def write16 (address : Address) (value : BitVec 16) : Store :=
  ⟨address, toBytes 2 value.toNat⟩

def write32 (address : Address) (value : BitVec 32) : Store :=
  ⟨address, toBytes 4 value.toNat⟩

def zeroMemoryRange (address : Address) (size : BitVec 32) : List Store :=
  if address = 0#32 ∨ size = 0#32 then []
  else (List.range size.toNat).map fun i => write8 (address + BitVec.ofNat 32 i) 0

def copyToGuest (address : Address) (data : List UInt8) : List Store :=
  if address = 0#32 ∨ data = [] ∨ ¬Contains address data.length then []
  else [⟨address, data⟩]

/-! ## The output buffer -/

/-- What the preparation of an operation accepts as its output buffer: the size that is
kept for the completion. -/
def prepareOutput (kind : DnsKind) (outBuf : Address) (outLen : BitVec 32) :
    Option (BitVec 32) :=
  match kind with
  | .getHostByName =>
      if outBuf = 0#32 ∨ outLen < 0x460#32 ∨ ¬Contains outBuf outLen.toNat then none
      else some outLen
  | .inetAton =>
      if outBuf = 0#32 ∨ outLen < 4#32 ∨ ¬Contains outBuf 4 then none else some 4#32
  | .getAddrInfo =>
      if outBuf = 0#32 ∨ outLen = 0#32 ∨ ¬Contains outBuf outLen.toNat then none
      else some outLen

def kStructSize : BitVec 32 := 0x10#32

def kIpListOffset : BitVec 32 := 0x110#32

def kIpPtrListOffset : BitVec 32 := 0x340#32

/-- The name as the guest sees it. -/
def canonicalName (node : List UInt8) : List UInt8 :=
  if node.length < 240 then node else node.take 239

def hostEntryStores (outAddress : Address) (node : List UInt8)
    (addresses : List DnsAddress) : List Store :=
  let canonical := canonicalName node
  let count := BitVec.ofNat 32 (min addresses.length 71)
  ((List.range (canonical.length + 1)).map fun i =>
      write8 (outAddress + kStructSize + BitVec.ofNat 32 i) (canonical.getD i 0)) ++
    [write32 outAddress (outAddress + kStructSize),
      write16 (outAddress + 8#32) (kWiiAfInet.setWidth 16),
      write16 (outAddress + 10#32) 4#16,
      write32 (outAddress + 12#32) (outAddress + kIpPtrListOffset)] ++
    ((addresses.take 71).zipIdx.flatMap fun (address, i) =>
      [write32 (outAddress + kIpListOffset + BitVec.ofNat 32 i * 4#32) address.ipv4Address,
        write32 (outAddress + kIpPtrListOffset + BitVec.ofNat 32 i * 4#32)
          (outAddress + kIpListOffset + BitVec.ofNat 32 i * 4#32)]) ++
    [write32 (outAddress + kIpPtrListOffset + count * 4#32) 0#32,
      -- the empty list of aliases is the terminator of the list of addresses
      write32 (outAddress + 4#32) (outAddress + kIpPtrListOffset + count * 4#32)]

def kInfoSize : BitVec 32 := 0x20#32

def kSockAddrOffset : BitVec 32 := 0x460#32

def kSockAddrStride : BitVec 32 := 0x1C#32

/-- How many of `n` records fit. -/
def countInfos (infoEnd stop : ℕ) : ℕ → Address → Address → ℕ
  | 0, _, _ => 0
  | n + 1, infoAddress, socketAddress =>
      if infoAddress.toNat + kInfoSize.toNat ≤ infoEnd ∧
          socketAddress.toNat + kSockAddrStride.toNat ≤ stop then
        countInfos infoEnd stop n (infoAddress + kInfoSize)
          (socketAddress + kSockAddrStride) + 1
      else 0

def infoRecord (host : HostSockets) (infoAddress socketAddress : Address)
    (address : DnsAddress) (next : Address) : List Store :=
  [write32 infoAddress address.flags,
    write32 (infoAddress + 0x04#32) address.family,
    write32 (infoAddress + 0x08#32) (mapNativeSocketTypeToWii host address.sockType),
    write32 (infoAddress + 0x0C#32) address.protocol,
    write32 (infoAddress + 0x10#32) address.addressLength,
    write32 (infoAddress + 0x14#32) 0#32,
    write32 (infoAddress + 0x18#32) socketAddress,
    write8 socketAddress (UInt8.ofNat (address.addressLength &&& 0xFF#32).toNat),
    write8 (socketAddress + 1#32) (UInt8.ofNat (address.family &&& 0xFF#32).toNat)] ++
    copyToGuest (socketAddress + 2#32) address.socketData.val ++
    [write32 (infoAddress + 0x1C#32) next]

def advertisedSockAddrFits (advertisedLength : BitVec 32) : Bool :=
  advertisedLength.toNat ≤ kWiiIpv4SockAddrBytes

/-- The loop over the records; an address that is not a complete IPv4 address ends it. -/
def infoStores (host : HostSockets) : List DnsAddress → Address → Address → Int × List Store
  | [], _, _ => (0, [])
  | address :: rest, infoAddress, socketAddress =>
      if address.family ≠ kWiiAfInet ∨
          address.addressLength ≠ BitVec.ofNat 32 kWiiIpv4SockAddrBytes ∨
          !advertisedSockAddrFits address.addressLength then
        (-soEInval, [])
      else
        let next := if rest.isEmpty then 0#32 else infoAddress + kInfoSize
        let (result, stores) :=
          infoStores host rest (infoAddress + kInfoSize) (socketAddress + kSockAddrStride)
        (result, infoRecord host infoAddress socketAddress address next ++ stores)

/-- The result of an operation and its stores to guest memory. -/
def applyDeferredDnsCompletion (host : HostSockets) (completion : DnsCompletion) :
    Int × List Store :=
  if completion.result ≠ 0 then (completion.result, [])
  else
    let outAddress := completion.work.outAddress
    let outSize := completion.work.outSize
    if outAddress = 0#32 ∨ outSize = 0#32 ∨ ¬Contains outAddress outSize.toNat then
      (-soEInval, [])
    else
      match completion.work.kind with
      | .inetAton =>
          match completion.addresses with
          | [] => (0, [])
          | address :: _ => (1, [write32 outAddress address.ipv4Address])
      | .getHostByName =>
          (0, zeroMemoryRange outAddress outSize ++
            hostEntryStores outAddress completion.work.node completion.addresses)
      | .getAddrInfo =>
          let stop := outAddress.toNat + outSize.toNat
          let infoEnd := min stop (outAddress.toNat + kSockAddrOffset.toNat)
          let socketAddress := outAddress + kSockAddrOffset
          let writeCount :=
            countInfos infoEnd stop completion.addresses.length outAddress socketAddress
          let (result, stores) :=
            infoStores host (completion.addresses.take writeCount) outAddress socketAddress
          (result, zeroMemoryRange outAddress outSize ++ stores)

end Wiicompiled.Runtime.DnsResults
