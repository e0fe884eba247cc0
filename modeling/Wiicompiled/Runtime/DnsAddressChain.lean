import Wiicompiled.Runtime.DnsResultsEncoded

/-!
# The chain of address records

The records of an address query and their socket addresses are two tables of the output
buffer.  The loops over them are described by fields, and the chain through the records is
read back from the fields.
-/

namespace Wiicompiled.Runtime.DnsResults

open PendingStores PlacedFields ByteImage FlatMemory
open Wiicompiled.Runtime.DeferredNetwork (Address DnsKind)

/-! ## How many records there are -/

theorem countInfos_eq
    {out : Address} {size n i : ℕ} (hfit : out.toNat + size ≤ 0xE0101000)
    (hi : i ≤ min 35 ((size - 0x460) / 0x1C)) :
    countInfos (min (out.toNat + size) (out.toNat + kSockAddrOffset.toNat))
        (out.toNat + size) n (out + BitVec.ofNat 32 (0x20 * i))
        (out + BitVec.ofNat 32 (0x460 + 0x1C * i)) =
      min n (min 35 ((size - 0x460) / 0x1C) - i) := by
  induction n generalizing i with
  | zero => rw [countInfos, Nat.zero_min]
  | succ n ih =>
      have hinfo : (out + BitVec.ofNat 32 (0x20 * i)).toNat = out.toNat + 0x20 * i := by
        rw [BitVec.toNat_add, BitVec.toNat_ofNat]
        omega
      have hsocket : (out + BitVec.ofNat 32 (0x460 + 0x1C * i)).toNat =
          out.toNat + (0x460 + 0x1C * i) := by
        rw [BitVec.toNat_add, BitVec.toNat_ofNat]
        omega
      have hnextInfo : out + BitVec.ofNat 32 (0x20 * i) + kInfoSize =
          out + BitVec.ofNat 32 (0x20 * (i + 1)) := by
        rw [add_assoc, kInfoSize, ← BitVec.ofNat_add]
        rfl
      have hnextSocket : out + BitVec.ofNat 32 (0x460 + 0x1C * i) + kSockAddrStride =
          out + BitVec.ofNat 32 (0x460 + 0x1C * (i + 1)) := by
        rw [add_assoc, kSockAddrStride, ← BitVec.ofNat_add]
        rfl
      have hsize : kInfoSize.toNat = 0x20 := rfl
      have hstride : kSockAddrStride.toNat = 0x1C := rfl
      have hoffset : kSockAddrOffset.toNat = 0x460 := rfl
      rw [countInfos, hinfo, hsocket, hsize, hstride]
      split
      · rename_i hroom
        rw [hnextInfo, hnextSocket, ih (by omega)]
        omega
      · rename_i hfull
        omega

/-! ## The fields of the records -/

/-- The fields of record `i` of the buffer at `out`. -/
def infoFields (host : HostSockets) (out : Address) (i : ℕ) (address : DnsAddress)
    (next : Address) : List (PlacedField UInt8) :=
  [wordField (0x20 * i) address.flags,
    wordField (0x20 * i + 0x04) 2#32,
    wordField (0x20 * i + 0x08) (mapNativeSocketTypeToWii host address.sockType),
    wordField (0x20 * i + 0x0C) address.protocol,
    wordField (0x20 * i + 0x10) 16#32,
    wordField (0x20 * i + 0x14) 0#32,
    wordField (0x20 * i + 0x18) (out + BitVec.ofNat 32 (0x460 + 0x1C * i)),
    ⟨0x460 + 0x1C * i, [16]⟩,
    ⟨0x460 + 0x1C * i + 1, [2]⟩,
    ⟨0x460 + 0x1C * i + 2, address.socketData.val⟩,
    wordField (0x20 * i + 0x1C) next]

/-- The fields of the records from `i` on; the last one has no next record. -/
def chainFields (host : HostSockets) (out : Address) :
    ℕ → List DnsAddress → List (PlacedField UInt8)
  | _, [] => []
  | i, address :: rest =>
      infoFields host out i address
          (if rest.isEmpty then 0#32 else out + BitVec.ofNat 32 (0x20 * (i + 1))) ++
        chainFields host out (i + 1) rest

variable {host : HostSockets} {memory : Memory} {base next : Address} {i : ℕ}
  {address : DnsAddress} {addresses : List DnsAddress} {f : PlacedField UInt8}

theorem mem_infoFields (h : f ∈ infoFields host base i address next) :
    0x20 * i ≤ f.offset ∧ f.offset < f.stop ∧ f.stop ≤ 0x20 * (i + 1) ∨
      0x460 + 0x1C * i ≤ f.offset ∧ f.offset < f.stop ∧
        f.stop ≤ 0x460 + 0x1C * (i + 1) := by
  have hdata : address.socketData.val.length = 14 := address.socketData.property
  simp only [infoFields, List.mem_cons, List.not_mem_nil, or_false] at h
  rcases h with rfl | rfl | rfl | rfl | rfl | rfl | rfl | rfl | rfl | rfl | rfl <;>
    simp only [PlacedField.stop, wordField, length_toBytes, List.length_singleton, hdata] <;>
    omega

theorem pairwise_infoFields (hi : i < 35) :
    (infoFields host base i address next).Pairwise PlacedField.Apart := by
  have hdata : address.socketData.val.length = 14 := address.socketData.property
  simp only [infoFields, List.pairwise_cons, List.forall_mem_cons, PlacedField.Apart,
    PlacedField.stop, wordField, length_toBytes, List.length_singleton, hdata]
  simp
  omega

theorem mem_chainFields (h : f ∈ chainFields host base i addresses) :
    0x20 * i ≤ f.offset ∧ f.offset < f.stop ∧ f.stop ≤ 0x20 * (i + addresses.length) ∨
      0x460 + 0x1C * i ≤ f.offset ∧ f.offset < f.stop ∧
        f.stop ≤ 0x460 + 0x1C * (i + addresses.length) := by
  induction addresses generalizing i with
  | nil => cases h
  | cons address rest ih =>
      rw [List.length_cons]
      rcases List.mem_append.mp h with h | h
      · have := mem_infoFields h
        omega
      · have := ih h
        omega

theorem pairwise_chainFields (hlen : i + addresses.length ≤ 35) :
    (chainFields host base i addresses).Pairwise PlacedField.Apart := by
  induction addresses generalizing i with
  | nil => exact List.Pairwise.nil
  | cons address rest ih =>
      rw [List.length_cons] at hlen
      refine List.pairwise_append.mpr ⟨pairwise_infoFields (by omega), ih (by omega), ?_⟩
      intro f hf g hg
      have hfirst := mem_infoFields hf
      have hlater := mem_chainFields hg
      simp only [PlacedField.Apart]
      omega

/-! ## The loop over the records -/

variable {size : ℕ}

theorem infoRecord_eq
    (haddress : address.Normalized) (hpos : base ≠ 0#32) (hout : Contains base size)
    (hroom : 0x460 + 0x1C * (i + 1) ≤ size) :
    infoRecord host (base + BitVec.ofNat 32 (0x20 * i))
        (base + BitVec.ofNat 32 (0x460 + 0x1C * i)) address next =
      (infoFields host base i address next).map (PlacedField.place base) := by
  have hlen : address.socketData.val.length = 14 := address.socketData.property
  have hstop := hout.stop_le
  have hadd : ∀ m n : ℕ, base + BitVec.ofNat 32 m + BitVec.ofNat 32 n =
      base + BitVec.ofNat 32 (m + n) := by
    intro m n
    rw [add_assoc, ← BitVec.ofNat_add]
  have hguard : ¬(base + BitVec.ofNat 32 (0x460 + 0x1C * i + 2) = 0#32 ∨
      address.socketData.val = [] ∨
      ¬Contains (base + BitVec.ofNat 32 (0x460 + 0x1C * i + 2))
        address.socketData.val.length) := by
    rw [hlen]
    rintro (h | h | h)
    · exact add_ofNat_ne_zero hpos (by omega) h
    · rw [h] at hlen
      cases hlen
    · exact h (hout.sub (by omega))
  have hcopy : copyToGuest (base + BitVec.ofNat 32 (0x460 + 0x1C * i) + 2#32)
      address.socketData.val =
      [⟨base + BitVec.ofNat 32 (0x460 + 0x1C * i + 2), address.socketData.val⟩] := by
    rw [hadd, copyToGuest, if_neg hguard]
  rw [infoRecord, hcopy, haddress.family, haddress.addressLength]
  simp only [hadd]
  rfl

theorem infoStores_eq
    (hnormalized : ∀ address ∈ addresses, address.Normalized) (hpos : base ≠ 0#32)
    (hout : Contains base size) (hroom : addresses = [] ∨
      0x460 + 0x1C * (i + addresses.length) ≤ size) :
    infoStores host addresses (base + BitVec.ofNat 32 (0x20 * i))
        (base + BitVec.ofNat 32 (0x460 + 0x1C * i)) =
      (0, (chainFields host base i addresses).map (PlacedField.place base)) := by
  induction addresses generalizing i with
  | nil => rfl
  | cons address rest ih =>
      obtain ⟨haddress, hrest⟩ := List.forall_mem_cons.mp hnormalized
      have hroom : 0x460 + 0x1C * (i + (rest.length + 1)) ≤ size := by
        simpa using hroom
      have hinfo : base + BitVec.ofNat 32 (0x20 * i) + kInfoSize =
          base + BitVec.ofNat 32 (0x20 * (i + 1)) := by
        rw [add_assoc, kInfoSize, ← BitVec.ofNat_add]
        rfl
      have hsocket : base + BitVec.ofNat 32 (0x460 + 0x1C * i) + kSockAddrStride =
          base + BitVec.ofNat 32 (0x460 + 0x1C * (i + 1)) := by
        rw [add_assoc, kSockAddrStride, ← BitVec.ofNat_add]
        rfl
      have hguard : ¬(address.family ≠ kWiiAfInet ∨
          address.addressLength ≠ BitVec.ofNat 32 kWiiIpv4SockAddrBytes ∨
          (!advertisedSockAddrFits address.addressLength) = true) := by
        rw [haddress.family, haddress.addressLength]
        decide
      rw [infoStores, if_neg hguard, hinfo, hsocket,
        ih hrest (Or.inr (by omega)), chainFields, List.map_append,
        ← infoRecord_eq haddress hpos hout (by omega)]

/-! ## The chain -/

theorem readInfo_of_hasField
    (hfields : ∀ f ∈ infoFields host base i address next, HasField memory base f) :
    readInfo memory (base + BitVec.ofNat 32 (0x20 * i)) = address.info host ∧
      readWord memory (base + BitVec.ofNat 32 (0x20 * i) + 0x1C#32) = next := by
  have hlen : address.socketData.val.length = 14 := address.socketData.property
  have hadd : ∀ m n : ℕ, base + BitVec.ofNat 32 m + BitVec.ofNat 32 n =
      base + BitVec.ofNat 32 (m + n) := by
    intro m n
    rw [add_assoc, ← BitVec.ofNat_add]
  simp only [infoFields, List.forall_mem_cons] at hfields
  obtain ⟨hflags, hfamily, htype, hprotocol, hlength, hname, hpointer, hlenByte,
    hfamilyByte, hdata, hnext, -⟩ := hfields
  have hsocket : load memory (base + BitVec.ofNat 32 (0x460 + 0x1C * i)) 16 =
      [16, 2] ++ address.socketData.val := by
    have hheader : HasField memory base ⟨0x460 + 0x1C * i, [16] ++ [2]⟩ :=
      HasField.append hlenByte hfamilyByte
    have hall : HasField memory base
        ⟨0x460 + 0x1C * i, [16] ++ [2] ++ address.socketData.val⟩ :=
      HasField.append hheader hdata
    simpa [HasField, hlen] using hall
  refine ⟨?_, ?_⟩
  · simp only [readInfo, DnsAddress.info, hadd, readWord_of_hasField hflags,
      readWord_of_hasField hfamily, readWord_of_hasField htype,
      readWord_of_hasField hprotocol, readWord_of_hasField hlength,
      readWord_of_hasField hname, readWord_of_hasField hpointer]
    rw [show (16#32).toNat = 16 from rfl, hsocket]
  · rw [hadd]
    exact readWord_of_hasField hnext

/-- From record `i` on the chain leads to the addresses and then ends. -/
theorem infoChain_of_hasField
    (hpos : base ≠ 0#32) (hfit : base.toNat + 0x460 < 2 ^ 32)
    (hlen : i + addresses.length ≤ 35)
    (hfields : ∀ f ∈ chainFields host base i addresses, HasField memory base f) :
    InfoChain memory
      (if addresses.isEmpty then 0#32 else base + BitVec.ofNat 32 (0x20 * i))
      (addresses.map (DnsAddress.info host)) := by
  induction addresses generalizing i with
  | nil => exact InfoChain.nil
  | cons address rest ih =>
      rw [List.length_cons] at hlen
      rw [chainFields, List.forall_mem_append] at hfields
      obtain ⟨hinfo, hnext⟩ := readInfo_of_hasField hfields.1
      have hrest := ih (by omega) hfields.2
      rw [← hnext] at hrest
      have hchain := InfoChain.cons (add_ofNat_ne_zero hpos (by omega)) hrest
      rwa [hinfo] at hchain

/-! ## The output buffer -/

theorem prepareOutput_spec
    {kind : DnsKind} {out : Address} {outLen outSize : BitVec 32}
    (h : prepareOutput kind out outLen = some outSize) :
    out ≠ 0#32 ∧ outSize ≠ 0#32 ∧ Contains out outSize.toNat ∧
      (kind = .getHostByName → 0x460 ≤ outSize.toNat) ∧
      (kind = .inetAton → outSize = 4#32) := by
  cases kind with
  | getHostByName =>
      simp only [prepareOutput] at h
      split at h
      · cases h
      · rename_i hguard
        push Not at hguard
        obtain ⟨hpos, hlen, hcontains⟩ := hguard
        obtain rfl := Option.some.inj h
        have hle : 0x460 ≤ outLen.toNat := by
          simpa [BitVec.le_def] using hlen
        refine ⟨hpos, ?_, hcontains, fun _ => hle, by simp⟩
        rintro rfl
        simp at hle
  | getAddrInfo =>
      simp only [prepareOutput] at h
      split at h
      · cases h
      · rename_i hguard
        push Not at hguard
        obtain ⟨hpos, hlen, hcontains⟩ := hguard
        obtain rfl := Option.some.inj h
        exact ⟨hpos, hlen, hcontains, by simp, by simp⟩
  | inetAton =>
      simp only [prepareOutput] at h
      split at h
      · cases h
      · rename_i hguard
        push Not at hguard
        obtain ⟨hpos, -, hcontains⟩ := hguard
        obtain rfl := Option.some.inj h
        exact ⟨hpos, by decide, hcontains, by simp, fun _ => rfl⟩

theorem zeroMemoryRange_eq
    {out : Address} {outSize : BitVec 32} (hpos : out ≠ 0#32) (hsize : outSize ≠ 0#32) :
    zeroMemoryRange out outSize =
      ((List.range outSize.toNat).map fun i => (⟨i, [0]⟩ : PlacedField UInt8)).map
        (PlacedField.place out) := by
  rw [zeroMemoryRange, if_neg (by tauto), List.map_map]
  rfl

/-- Stores of fields that end inside of a buffer are inside of it. -/
def Within (out : Address) (size : ℕ) (stores : List Store) : Prop :=
  ∀ store ∈ stores, range store.address store.bytes.length ⊆ range out size

theorem within_append {out : Address} {first second : List Store}
    (h : Within out size first) (h' : Within out size second) :
    Within out size (first ++ second) := by
  intro store hstore
  rcases List.mem_append.mp hstore with hstore | hstore
  · exact h store hstore
  · exact h' store hstore

theorem within_map_place {out : Address} {fields : List (PlacedField UInt8)}
    (hstop : ∀ f ∈ fields, f.stop ≤ size) (hsize : size < 2 ^ 32) :
    Within out size (fields.map (PlacedField.place out)) := by
  intro store hstore
  obtain ⟨f, hf, rfl⟩ := List.mem_map.mp hstore
  exact f.range_place_subset out (hstop f hf) hsize

theorem within_zeroMemoryRange {out : Address} {outSize : BitVec 32} (hpos : out ≠ 0#32)
    (hsize : outSize ≠ 0#32) : Within out outSize.toNat (zeroMemoryRange out outSize) := by
  rw [zeroMemoryRange_eq hpos hsize]
  refine within_map_place ?_ outSize.isLt
  intro f hf
  obtain ⟨i, hi, rfl⟩ := List.mem_map.mp hf
  exact List.mem_range.mp hi

theorem load_publish_zeroMemoryRange
    (memory : Memory) {out : Address} {outSize : BitVec 32} (hpos : out ≠ 0#32)
    (hsize : outSize ≠ 0#32) :
    load (publish memory (zeroMemoryRange out outSize)) out outSize.toNat =
      List.replicate outSize.toNat 0 := by
  rw [zeroMemoryRange_eq hpos hsize]
  have hread : ∀ f ∈ (List.range outSize.toNat).map fun i => (⟨i, [0]⟩ : PlacedField UInt8),
      HasField (publish memory
        (((List.range outSize.toNat).map fun i => (⟨i, [0]⟩ : PlacedField UInt8)).map
          (PlacedField.place out))) out f := by
    refine hasField_publish ?_ ?_
    · rw [List.pairwise_map]
      refine List.pairwise_lt_range.imp ?_
      intro i j hij
      simp only [PlacedField.Apart, PlacedField.stop, List.length_singleton]
      omega
    · intro f hf
      obtain ⟨i, hi, rfl⟩ := List.mem_map.mp hf
      have := List.mem_range.mp hi
      have := outSize.isLt
      simp only [PlacedField.stop, List.length_singleton]
      omega
  · refine List.eq_replicate_iff.mpr ⟨length_load, ?_⟩
    intro byte hbyte
    obtain ⟨i, hi, rfl⟩ := List.mem_map.mp hbyte
    have hfield := hread ⟨i, [0]⟩ (List.mem_map.mpr ⟨i, hi, rfl⟩)
    simpa [HasField, load] using hfield

/-! ## Completions -/

theorem encodes_getHostByName
    (host : HostSockets) (memory : Memory) {work : DnsWork} (addresses : List DnsAddress)
    (hkind : work.kind = .getHostByName) (hpos : work.outAddress ≠ 0#32)
    (hsize : work.outSize ≠ 0#32) (hout : Contains work.outAddress work.outSize.toNat)
    (hroom : 0x460 ≤ work.outSize.toNat) :
    Within work.outAddress work.outSize.toNat
        (zeroMemoryRange work.outAddress work.outSize ++
          hostEntryStores work.outAddress work.node addresses) ∧
      Encodes host memory
        (publish memory (zeroMemoryRange work.outAddress work.outSize ++
          hostEntryStores work.outAddress work.node addresses)) work addresses 0 := by
  have hname : (canonicalName work.node).length ≤ 239 := by
    rw [canonicalName]
    split
    · omega
    · rw [List.length_take]
      omega
  have hlen : ((addresses.take 71).map DnsAddress.ipv4Address).length ≤ 71 := by
    rw [List.length_map, List.length_take]
    omega
  have hstop : ∀ f ∈ hostEntryFields work.outAddress (canonicalName work.node)
      ((addresses.take 71).map DnsAddress.ipv4Address), f.stop ≤ 0x460 :=
    stop_hostEntryFields hname hlen
  have hend := hout.stop_le
  rw [hostEntryStores_eq]
  refine ⟨within_append (within_zeroMemoryRange hpos hsize)
    (within_map_place (fun f hf => (hstop f hf).trans hroom) work.outSize.isLt), ?_⟩
  rw [publish_append]
  simp only [Encodes, hkind, capacity]
  refine ⟨trivial, hostEntry_of_hasField hpos (by omega) hlen ?_⟩
  exact hasField_publish (pairwise_hostEntryFields hname hlen)
    fun f hf => lt_of_le_of_lt (hstop f hf) (by omega)

theorem encodes_getAddrInfo
    (host : HostSockets) (memory : Memory) {work : DnsWork} {addresses : List DnsAddress}
    (hnormalized : ∀ address ∈ addresses, address.Normalized)
    (hkind : work.kind = .getAddrInfo) (hpos : work.outAddress ≠ 0#32)
    (hsize : work.outSize ≠ 0#32) (hout : Contains work.outAddress work.outSize.toNat) :
    ∃ stores,
      infoStores host
          (addresses.take (countInfos
            (min (work.outAddress.toNat + work.outSize.toNat)
              (work.outAddress.toNat + kSockAddrOffset.toNat))
            (work.outAddress.toNat + work.outSize.toNat) addresses.length work.outAddress
            (work.outAddress + kSockAddrOffset)))
          work.outAddress (work.outAddress + kSockAddrOffset) = (0, stores) ∧
        Within work.outAddress work.outSize.toNat
          (zeroMemoryRange work.outAddress work.outSize ++ stores) ∧
        Encodes host memory
          (publish memory (zeroMemoryRange work.outAddress work.outSize ++ stores)) work
          addresses 0 := by
  obtain ⟨shown, hshown⟩ : ∃ shown, shown = addresses.take
      (min 35 ((work.outSize.toNat - 0x460) / 0x1C)) := ⟨_, rfl⟩
  have hend := hout.stop_le
  have hlen : shown.length ≤ min 35 ((work.outSize.toNat - 0x460) / 0x1C) := by
    rw [hshown, List.length_take]
    omega
  have htake : addresses.take (countInfos
      (min (work.outAddress.toNat + work.outSize.toNat)
        (work.outAddress.toNat + kSockAddrOffset.toNat))
      (work.outAddress.toNat + work.outSize.toNat) addresses.length work.outAddress
      (work.outAddress + kSockAddrOffset)) = shown := by
    have hcount := countInfos_eq (n := addresses.length) (i := 0) hend (Nat.zero_le _)
    rw [Nat.mul_zero, BitVec.add_zero, Nat.sub_zero] at hcount
    rw [hshown, List.take_eq_take_iff]
    refine (congrArg (min · addresses.length) hcount).trans ?_
    omega
  have hroom : shown = [] ∨ 0x460 + 0x1C * (0 + shown.length) ≤ work.outSize.toNat := by
    rcases Nat.eq_zero_or_pos shown.length with hzero | hlt
    · exact Or.inl (List.length_eq_zero_iff.mp hzero)
    · right
      omega
  have hshownNormalized : ∀ address ∈ shown, address.Normalized := by
    intro address haddress
    rw [hshown] at haddress
    exact hnormalized address (List.mem_of_mem_take haddress)
  have hstores : infoStores host shown (work.outAddress + BitVec.ofNat 32 (0x20 * 0))
      (work.outAddress + kSockAddrOffset) = (0, (chainFields host work.outAddress 0 shown).map
        (PlacedField.place work.outAddress)) :=
    infoStores_eq hshownNormalized hpos hout hroom
  rw [Nat.mul_zero, BitVec.add_zero] at hstores
  have hstop : ∀ f ∈ chainFields host work.outAddress 0 shown,
      f.stop ≤ work.outSize.toNat := by
    intro f hf
    have hzones := mem_chainFields hf
    rcases hroom with hnil | hroom
    · rw [hnil] at hf
      cases hf
    · omega
  rw [htake]
  refine ⟨(chainFields host work.outAddress 0 shown).map (PlacedField.place work.outAddress),
    hstores, within_append (within_zeroMemoryRange hpos hsize)
      (within_map_place hstop work.outSize.isLt), ?_⟩
  have hfields : ∀ f ∈ chainFields host work.outAddress 0 shown,
      HasField (publish (publish memory (zeroMemoryRange work.outAddress work.outSize))
        ((chainFields host work.outAddress 0 shown).map (PlacedField.place work.outAddress)))
        work.outAddress f :=
    hasField_publish (pairwise_chainFields (by omega))
      fun f hf => lt_of_le_of_lt (hstop f hf) work.outSize.isLt
  have hchain := infoChain_of_hasField (i := 0) hpos (by omega) (by omega) hfields
  rw [Nat.mul_zero, BitVec.add_zero] at hchain
  simp only [Encodes, hkind, capacity, ← hshown]
  refine ⟨trivial, ?_⟩
  by_cases hnil : shown = []
  · rw [if_pos hnil, hnil, chainFields, List.map_nil, List.append_nil]
    exact load_publish_zeroMemoryRange memory hpos hsize
  · rw [if_neg hnil, publish_append]
    rwa [if_neg (by simpa using hnil)] at hchain

theorem encodes_inetAton
    (host : HostSockets) (memory : Memory) {work : DnsWork} (addresses : List DnsAddress)
    (hkind : work.kind = .inetAton) (hsize : work.outSize = 4#32) :
    Within work.outAddress work.outSize.toNat
        (match addresses with
          | [] => []
          | address :: _ => [write32 work.outAddress address.ipv4Address]) ∧
      Encodes host memory
        (publish memory (match addresses with
          | [] => []
          | address :: _ => [write32 work.outAddress address.ipv4Address])) work addresses
        (if addresses.isEmpty then 0 else 1) := by
  have hfour : work.outSize.toNat = 4 := by rw [hsize]; rfl
  rcases addresses with - | ⟨address, rest⟩
  · simp [Within, Encodes, hkind, publish]
  · have hplace : [write32 work.outAddress address.ipv4Address] =
        [wordField 0 address.ipv4Address].map (PlacedField.place work.outAddress) := by
      rw [List.map_singleton, place_wordField, BitVec.add_zero]
    have hstop : ∀ f ∈ [wordField 0 address.ipv4Address],
        f.stop ≤ work.outSize.toNat := by
      simp [hfour]
    have hfields : ∀ f ∈ [wordField 0 address.ipv4Address],
        HasField (publish memory ([wordField 0 address.ipv4Address].map
          (PlacedField.place work.outAddress))) work.outAddress f :=
      hasField_publish (List.pairwise_singleton _ _)
        fun f hf => lt_of_le_of_lt (hstop f hf) work.outSize.isLt
    have hword := readWord_of_hasField (hfields _ List.mem_cons_self)
    rw [← hplace, BitVec.add_zero] at hword
    refine ⟨?_, by simp [Encodes, hkind, capacity, hword]⟩
    change Within _ _ [write32 work.outAddress address.ipv4Address]
    rw [hplace]
    exact within_map_place hstop work.outSize.isLt

/-- Completions stay inside of an output buffer that the preparation of their operation
accepts, and the guest finds there the first resolved addresses in order, as many as it
has room for. -/
theorem applyDeferredDnsCompletion_encodes
    (host : HostSockets) (memory : Memory) (completion : DnsCompletion)
    (outLen : BitVec 32)
    (h : prepareOutput completion.work.kind completion.work.outAddress outLen =
      some completion.work.outSize) :
    ∃ result stores, applyDeferredDnsCompletion host completion = (result, stores) ∧
      Within completion.work.outAddress completion.work.outSize.toNat stores ∧
      (completion.result ≠ 0 → result = completion.result ∧ stores = []) ∧
      (completion.result = 0 →
        Encodes host memory (publish memory stores) completion.work completion.addresses
          result) := by
  obtain ⟨work, outcome, addresses, hnormalized⟩ := completion
  obtain ⟨hpos, hsize, hout, hhost, haton⟩ := prepareOutput_spec h
  by_cases houtcome : outcome ≠ 0
  · refine ⟨outcome, [], ?_, by simp [Within], fun _ => ⟨rfl, rfl⟩,
      fun hzero => absurd hzero houtcome⟩
    rw [applyDeferredDnsCompletion, if_pos houtcome]
  · have hguard : ¬(work.outAddress = 0#32 ∨ work.outSize = 0#32 ∨
        ¬Contains work.outAddress work.outSize.toNat) := by
      tauto
    cases hkind : work.kind with
    | getHostByName =>
        obtain ⟨hwithin, hencodes⟩ :=
          encodes_getHostByName host memory addresses hkind hpos hsize hout (hhost hkind)
        refine ⟨_, _, ?_, hwithin, fun hne => absurd hne houtcome, fun _ => hencodes⟩
        simp only [applyDeferredDnsCompletion, if_neg houtcome, if_neg hguard, hkind]
    | getAddrInfo =>
        obtain ⟨stores, hstores, hwithin, hencodes⟩ :=
          encodes_getAddrInfo host memory hnormalized hkind hpos hsize hout
        refine ⟨_, _, ?_, hwithin, fun hne => absurd hne houtcome, fun _ => hencodes⟩
        simp only [applyDeferredDnsCompletion, if_neg houtcome, if_neg hguard, hkind, hstores]
    | inetAton =>
        obtain ⟨hwithin, hencodes⟩ :=
          encodes_inetAton host memory addresses hkind (haton hkind)
        refine ⟨_, _, ?_, hwithin, fun hne => absurd hne houtcome, fun _ => hencodes⟩
        rcases addresses with - | ⟨address, rest⟩ <;>
          simp [applyDeferredDnsCompletion, houtcome, hguard, hkind]

def posixSockets : HostSockets where
  afUnspec := 0
  afInet := 2
  afInet6 := some 10
  stream := 1
  dgram := 2
  raw := some 3
  rdm := some 4
  seqPacket := some 5

/-- 127.0.0.1, port 80. -/
def localAddress : DnsAddress where
  flags := 0#32
  family := 2#32
  sockType := 1
  protocol := 6#32
  addressLength := 16#32
  ipv4Address := 0x7F000001#32
  socketData := ⟨[0, 80, 127, 0, 0, 1, 0, 0, 0, 0, 0, 0, 0, 0], rfl⟩

/-- A query that found one address, for an output buffer of any size. -/
def localCompletion (kind : DnsKind) (outSize : BitVec 32) : DnsCompletion where
  work := ⟨kind, [108, 111, 99, 97, 108], [], none, 0x80001000#32, outSize⟩
  result := 0
  addresses := [localAddress]
  normalized := by
    intro address haddress
    obtain rfl := List.mem_singleton.mp haddress
    exact ⟨rfl, rfl⟩

/-- A query for address records with room for five of them. -/
theorem applyDeferredDnsCompletion_encodes_local :
    prepareOutput .getAddrInfo 0x80001000#32 0x500#32 = some 0x500#32 ∧
      ∃ result stores,
        applyDeferredDnsCompletion posixSockets (localCompletion .getAddrInfo 0x500#32) =
            (result, stores) ∧
          Within 0x80001000#32 0x500 stores ∧
          ((0 : Int) ≠ 0 → result = 0 ∧ stores = []) ∧
          ((0 : Int) = 0 →
            Encodes posixSockets (fun _ => 0xAA) (publish (fun _ => 0xAA) stores)
              (localCompletion .getAddrInfo 0x500#32).work [localAddress] result) :=
  ⟨by decide,
    applyDeferredDnsCompletion_encodes posixSockets (fun _ => 0xAA)
      (localCompletion .getAddrInfo 0x500#32) 0x500#32 (by decide)⟩

/-- The completion itself does not check the size: a host entry does not stay in a buffer
of four bytes. -/
theorem hostEntry_leaves_shortBuffer :
    ¬∀ (host : HostSockets) (completion : DnsCompletion),
      Within completion.work.outAddress completion.work.outSize.toNat
        (applyDeferredDnsCompletion host completion).2 := by
  intro hall
  have hwithin := hall posixSockets (localCompletion .getHostByName 4#32)
  have hresult : (localCompletion .getHostByName 4#32).result = 0 := rfl
  have hguard : ¬((localCompletion .getHostByName 4#32).work.outAddress = 0#32 ∨
      (localCompletion .getHostByName 4#32).work.outSize = 0#32 ∨
      ¬Contains (localCompletion .getHostByName 4#32).work.outAddress
        (localCompletion .getHostByName 4#32).work.outSize.toNat) := by
    decide
  have hkind : (localCompletion .getHostByName 4#32).work.kind = .getHostByName := rfl
  -- the pointer to the aliases is behind the buffer
  have haliases : (0x80001004#32 : Address) ∈ range 0x80001004#32 4 := by
    rw [mem_range_iff, sub_self]
    decide
  have hout := hwithin (write32 0x80001004#32 0x80001344#32) (by
    simp only [applyDeferredDnsCompletion, hresult, ne_eq, not_true_eq_false, if_false,
      if_neg hguard, hkind]
    refine List.mem_append_right _ (List.mem_append_right _ ?_)
    exact List.mem_cons_of_mem _ (List.mem_singleton.mpr rfl)) haliases
  revert hout
  rw [mem_range_iff]
  decide

end Wiicompiled.Runtime.DnsResults
