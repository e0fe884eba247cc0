import Wiicompiled.Runtime.DnsResults
import Wiicompiled.Support.PlacedFields

/-!
# The encoding of resolver results

What the guest reads in its output buffer: a host entry leads to a table of pointers with
a terminator, and an address record to the next one.  A buffer that the preparation of the
operation accepts is never left, and following the pointers gives the resolved addresses in
order, as many as the buffer has room for.
-/

namespace Wiicompiled.Runtime.DnsResults

open PendingStores PlacedFields ByteImage FlatMemory
open Wiicompiled.Runtime.DeferredNetwork (Address DnsKind)

/-! ## What the guest reads -/

abbrev Memory := BitVec 32 → UInt8

def readWord (memory : Memory) (address : Address) : BitVec 32 :=
  BitVec.ofNat 32 (fromBytes (load memory address 4))

def readHalf (memory : Memory) (address : Address) : BitVec 16 :=
  BitVec.ofNat 16 (fromBytes (load memory address 2))

/-- A table of pointers to addresses, with a null pointer at its end. -/
inductive AddressTable (memory : Memory) : Address → List (BitVec 32) → Prop
  | nil {table : Address} :
      readWord memory table = 0#32 → AddressTable memory table []
  | cons {table : Address} {addresses : List (BitVec 32)} :
      readWord memory table ≠ 0#32 → AddressTable memory (table + 4#32) addresses →
      AddressTable memory table (readWord memory (readWord memory table) :: addresses)

structure HostEntry
    (memory : Memory) (entry : Address) (name : List UInt8)
    (addresses : List (BitVec 32)) : Prop where
  name : load memory (readWord memory entry) (name.length + 1) = name ++ [0]
  aliases : readWord memory (readWord memory (entry + 4#32)) = 0#32
  addrType : readHalf memory (entry + 8#32) = 2#16
  length : readHalf memory (entry + 10#32) = 4#16
  addresses : AddressTable memory (readWord memory (entry + 12#32)) addresses

/-- An address record and the socket address it points to. -/
structure AddressInfo where
  flags : BitVec 32
  family : BitVec 32
  sockType : BitVec 32
  protocol : BitVec 32
  canonicalName : BitVec 32
  socketAddress : List UInt8
deriving DecidableEq, Repr

def readInfo (memory : Memory) (info : Address) : AddressInfo where
  flags := readWord memory info
  family := readWord memory (info + 0x04#32)
  sockType := readWord memory (info + 0x08#32)
  protocol := readWord memory (info + 0x0C#32)
  canonicalName := readWord memory (info + 0x14#32)
  socketAddress :=
    load memory (readWord memory (info + 0x18#32)) (readWord memory (info + 0x10#32)).toNat

/-- A chain of address records, with a null pointer at its end. -/
inductive InfoChain (memory : Memory) : Address → List AddressInfo → Prop
  | nil : InfoChain memory 0#32 []
  | cons {info : Address} {infos : List AddressInfo} :
      info ≠ 0#32 → InfoChain memory (readWord memory (info + 0x1C#32)) infos →
      InfoChain memory info (readInfo memory info :: infos)

/-- The record of a resolved address. -/
def DnsAddress.info (host : HostSockets) (address : DnsAddress) : AddressInfo where
  flags := address.flags
  family := 2#32
  sockType := mapNativeSocketTypeToWii host address.sockType
  protocol := address.protocol
  canonicalName := 0#32
  socketAddress := [16, 2] ++ address.socketData.val

/-- How many addresses the output buffer has room for. -/
def capacity (kind : DnsKind) (outSize : BitVec 32) : ℕ :=
  match kind with
  | .inetAton => 1
  | .getHostByName => 71
  | .getAddrInfo => min 35 ((outSize.toNat - 0x460) / 0x1C)

/-- The guest finds the first addresses of a list, as many as there is room for.  An
output buffer with no room for a record, like one for no addresses, is zero throughout. -/
def Encodes (host : HostSockets) (memory memory' : Memory) (work : DnsWork)
    (addresses : List DnsAddress) (result : Int) : Prop :=
  let shown := addresses.take (capacity work.kind work.outSize)
  match work.kind with
  | .inetAton =>
      if shown = [] then result = 0 ∧ memory' = memory
      else result = 1 ∧
        shown.map DnsAddress.ipv4Address = [readWord memory' work.outAddress]
  | .getHostByName =>
      result = 0 ∧ HostEntry memory' work.outAddress (canonicalName work.node)
        (shown.map DnsAddress.ipv4Address)
  | .getAddrInfo =>
      result = 0 ∧
        if shown = [] then
          load memory' work.outAddress work.outSize.toNat =
            List.replicate work.outSize.toNat 0
        else InfoChain memory' work.outAddress (shown.map (DnsAddress.info host))

/-! ## Words and fields -/

def wordField (offset : ℕ) (value : BitVec 32) : PlacedField UInt8 :=
  ⟨offset, toBytes 4 value.toNat⟩

@[simp]
theorem stop_wordField (offset : ℕ) (value : BitVec 32) :
    (wordField offset value).stop = offset + 4 := by
  simp [wordField, PlacedField.stop]

@[simp]
theorem offset_wordField (offset : ℕ) (value : BitVec 32) :
    (wordField offset value).offset = offset := rfl

theorem place_wordField (base : Address) (offset : ℕ) (value : BitVec 32) :
    (wordField offset value).place base = write32 (base + BitVec.ofNat 32 offset) value := rfl

variable {memory : Memory} {base : Address}

theorem readWord_of_hasField
    {offset : ℕ} {value : BitVec 32} (h : HasField memory base (wordField offset value)) :
    readWord memory (base + BitVec.ofNat 32 offset) = value := by
  have hload : load memory (base + BitVec.ofNat 32 offset) 4 = toBytes 4 value.toNat := by
    simpa [HasField, wordField] using h
  have hlt := value.isLt
  rw [readWord, hload, fromBytes_toBytes, Nat.mod_eq_of_lt (by omega), BitVec.ofNat_toNat,
    BitVec.setWidth_eq]

theorem readHalf_of_hasField
    {offset : ℕ} {value : BitVec 16}
    (h : HasField memory base ⟨offset, toBytes 2 value.toNat⟩) :
    readHalf memory (base + BitVec.ofNat 32 offset) = value := by
  have hload : load memory (base + BitVec.ofNat 32 offset) 2 = toBytes 2 value.toNat := by
    simpa [HasField] using h
  have hlt := value.isLt
  rw [readHalf, hload, fromBytes_toBytes, Nat.mod_eq_of_lt (by omega), BitVec.ofNat_toNat,
    BitVec.setWidth_eq]

theorem add_ofNat_ne_zero {offset : ℕ} (hpos : base ≠ 0#32)
    (h : base.toNat + offset < 2 ^ 32) : base + BitVec.ofNat 32 offset ≠ 0#32 := by
  bv_omega

/-! ## The host entry -/

/-- The two tables of a host entry, from their entry `i` on. -/
def tableFields (out : Address) : ℕ → List (BitVec 32) → List (PlacedField UInt8)
  | _, [] => []
  | i, address :: rest =>
      wordField (0x110 + 4 * i) address ::
        wordField (0x340 + 4 * i) (out + BitVec.ofNat 32 (0x110 + 4 * i)) ::
          tableFields out (i + 1) rest

def nameFields (name : List UInt8) : List (PlacedField UInt8) :=
  (List.range (name.length + 1)).map fun i => ⟨0x10 + i, [name.getD i 0]⟩

def hostEntryFields (out : Address) (name : List UInt8) (addresses : List (BitVec 32)) :
    List (PlacedField UInt8) :=
  nameFields name ++
    [wordField 0 (out + 0x10#32), ⟨8, toBytes 2 (2#16).toNat⟩, ⟨10, toBytes 2 (4#16).toNat⟩,
      wordField 12 (out + 0x340#32)] ++
    tableFields out 0 addresses ++
    [wordField (0x340 + 4 * addresses.length) 0#32,
      wordField 4 (out + BitVec.ofNat 32 (0x340 + 4 * addresses.length))]

theorem mem_tableFields
    {f : PlacedField UInt8} {i : ℕ} {addresses : List (BitVec 32)}
    (h : f ∈ tableFields base i addresses) :
    0x110 + 4 * i ≤ f.offset ∧ f.offset < f.stop ∧
        f.stop ≤ 0x110 + 4 * (i + addresses.length) ∨
      0x340 + 4 * i ≤ f.offset ∧ f.offset < f.stop ∧
        f.stop ≤ 0x340 + 4 * (i + addresses.length) := by
  induction addresses generalizing i with
  | nil => cases h
  | cons address rest ih =>
      rw [tableFields, List.mem_cons, List.mem_cons] at h
      rw [List.length_cons]
      rcases h with rfl | rfl | h
      · left
        simp only [offset_wordField, stop_wordField]
        omega
      · right
        simp only [offset_wordField, stop_wordField]
        omega
      · have := ih h
        omega

theorem pairwise_tableFields
    {i : ℕ} {addresses : List (BitVec 32)} (h : i + addresses.length ≤ 71) :
    (tableFields base i addresses).Pairwise PlacedField.Apart := by
  induction addresses generalizing i with
  | nil => exact List.Pairwise.nil
  | cons address rest ih =>
      rw [List.length_cons] at h
      rw [tableFields, List.pairwise_cons, List.pairwise_cons]
      refine ⟨?_, ?_, ih (by omega)⟩
      · intro f hf
        rw [List.mem_cons] at hf
        simp only [PlacedField.Apart, offset_wordField, stop_wordField]
        rcases hf with rfl | hf
        · simp only [offset_wordField, stop_wordField]
          omega
        · have := mem_tableFields hf
          omega
      · intro f hf
        simp only [PlacedField.Apart, offset_wordField, stop_wordField]
        have := mem_tableFields hf
        omega

theorem mem_nameFields
    {f : PlacedField UInt8} {name : List UInt8} (h : f ∈ nameFields name) :
    0x10 ≤ f.offset ∧ f.offset < f.stop ∧ f.stop ≤ 0x10 + (name.length + 1) := by
  obtain ⟨i, hi, rfl⟩ := List.mem_map.mp h
  rw [List.mem_range] at hi
  simp only [PlacedField.stop, List.length_singleton]
  omega

theorem pairwise_nameFields (name : List UInt8) :
    (nameFields name).Pairwise PlacedField.Apart := by
  rw [nameFields, List.pairwise_map]
  refine List.pairwise_lt_range.imp ?_
  intro i j hij
  simp only [PlacedField.Apart, PlacedField.stop, List.length_singleton]
  omega

theorem pairwise_hostEntryFields
    {name : List UInt8} {addresses : List (BitVec 32)} (hname : name.length ≤ 239)
    (haddresses : addresses.length ≤ 71) :
    (hostEntryFields base name addresses).Pairwise PlacedField.Apart := by
  have hheader : ∀ f ∈ [wordField 0 (base + 0x10#32), ⟨8, toBytes 2 (2#16).toNat⟩,
      ⟨10, toBytes 2 (4#16).toNat⟩, wordField 12 (base + 0x340#32)],
      f.offset < f.stop ∧ f.stop ≤ 0x10 ∧ (f.stop ≤ 4 ∨ 8 ≤ f.offset) := by
    simp [wordField, PlacedField.stop]
  have htable : ∀ f ∈ tableFields base 0 addresses, f.offset < f.stop ∧ 0x110 ≤ f.offset ∧
      f.stop ≤ 0x340 + 4 * addresses.length := by
    intro f hf
    have := mem_tableFields hf
    omega
  rw [hostEntryFields]
  refine List.pairwise_append.mpr ⟨List.pairwise_append.mpr
    ⟨List.pairwise_append.mpr ⟨pairwise_nameFields name, ?_, ?_⟩,
      pairwise_tableFields (by omega), ?_⟩, ?_, ?_⟩
  · simp [wordField, PlacedField.Apart, PlacedField.stop]
  · intro f hf g hg
    have := mem_nameFields hf
    have := hheader g hg
    simp only [PlacedField.Apart]
    omega
  · intro f hf g hg
    have := htable g hg
    simp only [PlacedField.Apart]
    rcases List.mem_append.mp hf with hf | hf
    · have := mem_nameFields hf
      omega
    · have := hheader f hf
      omega
  · rw [List.pairwise_pair]
    right
    simp only [offset_wordField, stop_wordField]
    omega
  · intro f hf g hg
    simp only [List.mem_cons, List.not_mem_nil, or_false] at hg
    simp only [PlacedField.Apart]
    rcases List.mem_append.mp hf with hf | hf
    · rcases List.mem_append.mp hf with hf | hf
      · have := mem_nameFields hf
        rcases hg with rfl | rfl <;> simp only [offset_wordField, stop_wordField] <;> omega
      · have := hheader f hf
        rcases hg with rfl | rfl <;> simp only [offset_wordField, stop_wordField] <;> omega
    · have := htable f hf
      rcases hg with rfl | rfl <;> simp only [offset_wordField, stop_wordField] <;> omega

theorem stop_hostEntryFields
    {name : List UInt8} {addresses : List (BitVec 32)} (hname : name.length ≤ 239)
    (haddresses : addresses.length ≤ 71) :
    ∀ f ∈ hostEntryFields base name addresses, f.stop ≤ 0x460 := by
  intro f hf
  simp only [hostEntryFields, List.mem_append, List.mem_cons, List.not_mem_nil,
    or_false] at hf
  rcases hf with ((hf | hf) | hf) | hf
  · have := mem_nameFields hf
    omega
  · rcases hf with rfl | rfl | rfl | rfl <;> simp [wordField, PlacedField.stop]
  · have := mem_tableFields hf
    omega
  · rcases hf with rfl | rfl <;> rw [stop_wordField] <;> omega

theorem hostEntryStores_eq (out : Address) (node : List UInt8) (addresses : List DnsAddress) :
    hostEntryStores out node addresses =
      (hostEntryFields out (canonicalName node)
        ((addresses.take 71).map DnsAddress.ipv4Address)).map (PlacedField.place out) := by
  have htables : ∀ (i : ℕ) (addresses : List DnsAddress),
      ((addresses.zipIdx i).flatMap fun p =>
        [write32 (out + kIpListOffset + BitVec.ofNat 32 p.2 * 4#32) p.1.ipv4Address,
          write32 (out + kIpPtrListOffset + BitVec.ofNat 32 p.2 * 4#32)
            (out + kIpListOffset + BitVec.ofNat 32 p.2 * 4#32)]) =
      (tableFields out i (addresses.map DnsAddress.ipv4Address)).map
        (PlacedField.place out) := by
    intro i addresses
    induction addresses generalizing i with
    | nil => rfl
    | cons address rest ih =>
        have hlist : out + kIpListOffset + BitVec.ofNat 32 i * 4#32 =
            out + BitVec.ofNat 32 (0x110 + 4 * i) := by
          rw [BitVec.ofNat_add, BitVec.ofNat_mul, kIpListOffset]
          ring
        have htable : out + kIpPtrListOffset + BitVec.ofNat 32 i * 4#32 =
            out + BitVec.ofNat 32 (0x340 + 4 * i) := by
          rw [BitVec.ofNat_add, BitVec.ofNat_mul, kIpPtrListOffset]
          ring
        simp only [List.zipIdx_cons, List.flatMap_cons, ih, hlist, htable]
        rfl
  have hend : out + kIpPtrListOffset +
      BitVec.ofNat 32 (min addresses.length 71) * 4#32 =
      out + BitVec.ofNat 32
        (0x340 + 4 * ((addresses.take 71).map DnsAddress.ipv4Address).length) := by
    rw [List.length_map, List.length_take, Nat.min_comm, BitVec.ofNat_add, BitVec.ofNat_mul,
      kIpPtrListOffset]
    ring
  have hname : (List.range ((canonicalName node).length + 1)).map (fun i =>
      write8 (out + kStructSize + BitVec.ofNat 32 i) ((canonicalName node).getD i 0)) =
      (nameFields (canonicalName node)).map (PlacedField.place out) := by
    rw [nameFields, List.map_map]
    refine List.map_congr_left ?_
    intro i _
    rw [Function.comp_apply, PlacedField.place, write8, BitVec.ofNat_add, kStructSize, add_assoc]
  have hheader : [write32 out (out + kStructSize),
      write16 (out + 8#32) (kWiiAfInet.setWidth 16), write16 (out + 10#32) 4#16,
      write32 (out + 12#32) (out + kIpPtrListOffset)] =
      [wordField 0 (out + 0x10#32), ⟨8, toBytes 2 (2#16).toNat⟩,
        ⟨10, toBytes 2 (4#16).toNat⟩, wordField 12 (out + 0x340#32)].map
        (PlacedField.place out) := by
    rw [List.map_cons, place_wordField, BitVec.add_zero]
    rfl
  simp only [hostEntryStores, hname, hend, hheader, hostEntryFields, List.map_append]
  rw [← htables]
  rfl

/-- The tables lead from entry `i` to the addresses and then end. -/
theorem addressTable_of_hasField
    {i : ℕ} {addresses : List (BitVec 32)} (hpos : base ≠ 0#32)
    (hfit : base.toNat + 0x460 < 2 ^ 32) (hlen : i + addresses.length ≤ 71)
    (hfields : ∀ f ∈ tableFields base i addresses, HasField memory base f)
    (hend : HasField memory base (wordField (0x340 + 4 * (i + addresses.length)) 0#32)) :
    AddressTable memory (base + BitVec.ofNat 32 (0x340 + 4 * i)) addresses := by
  induction addresses generalizing i with
  | nil => exact AddressTable.nil (readWord_of_hasField hend)
  | cons address rest ih =>
      rw [List.length_cons] at hlen hend
      have haddress := readWord_of_hasField (hfields _ List.mem_cons_self)
      have hpointer := readWord_of_hasField
        (hfields _ (List.mem_cons_of_mem _ List.mem_cons_self))
      have hne : readWord memory (base + BitVec.ofNat 32 (0x340 + 4 * i)) ≠ 0#32 := by
        rw [hpointer]
        exact add_ofNat_ne_zero hpos (by omega)
      have hrest := ih (i := i + 1) (by omega)
        (fun f hf => hfields f (List.mem_cons_of_mem _ (List.mem_cons_of_mem _ hf)))
        (by rwa [show i + 1 + rest.length = i + (rest.length + 1) by omega])
      have hnext : base + BitVec.ofNat 32 (0x340 + 4 * (i + 1)) =
          base + BitVec.ofNat 32 (0x340 + 4 * i) + 4#32 := by
        rw [add_assoc, ← BitVec.ofNat_add]
        rfl
      rw [hnext] at hrest
      have htable := AddressTable.cons hne hrest
      rwa [hpointer, haddress] at htable

theorem hostEntry_of_hasField
    {name : List UInt8} {addresses : List (BitVec 32)} (hpos : base ≠ 0#32)
    (hfit : base.toNat + 0x460 < 2 ^ 32) (hlen : addresses.length ≤ 71)
    (hfields : ∀ f ∈ hostEntryFields base name addresses, HasField memory base f) :
    HostEntry memory base name addresses := by
  simp only [hostEntryFields, List.forall_mem_append, List.forall_mem_cons] at hfields
  obtain ⟨⟨⟨hname, hentry, htype, hlength, htable, -⟩, htables⟩, hnull, haliases, -⟩ := hfields
  have hentry := readWord_of_hasField hentry
  have htable := readWord_of_hasField htable
  have haliases := readWord_of_hasField haliases
  have hend := readWord_of_hasField hnull
  rw [BitVec.add_zero] at hentry
  refine ⟨?_, ?_, readHalf_of_hasField htype, readHalf_of_hasField hlength, ?_⟩
  · rw [hentry]
    apply List.ext_getElem?
    intro i
    by_cases hi : i < name.length + 1
    · have hfield := hname _ (List.mem_map.mpr ⟨i, List.mem_range.mpr hi, rfl⟩)
      have hbyte : memory (base + 0x10#32 + BitVec.ofNat 32 i) = name.getD i 0 := by
        simpa [HasField, load, BitVec.ofNat_add, add_assoc] using hfield
      rw [getElem?_load hi, hbyte, List.getD_eq_getElem?_getD]
      rcases Nat.lt_or_ge i name.length with hlt | hge
      · rw [List.getElem?_append_left hlt, List.getElem?_eq_getElem hlt, Option.getD_some]
      · obtain rfl : i = name.length := by omega
        simp
    · rw [List.getElem?_eq_none (by rw [length_load]; omega),
        List.getElem?_eq_none (by simp; omega)]
  · rw [show base + 4#32 = base + BitVec.ofNat 32 4 from rfl, haliases]
    exact hend
  · rw [show base + 12#32 = base + BitVec.ofNat 32 12 from rfl, htable]
    refine addressTable_of_hasField (i := 0) hpos hfit (by omega) htables ?_
    rwa [Nat.zero_add]

end Wiicompiled.Runtime.DnsResults
