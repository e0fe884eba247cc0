import Wiicompiled.Support.PartialMaps
import Wiicompiled.Translation.CanonicalIrStore

/-!
# The canonical IR codec is lossless and strict

Every field writer round-trips with its reader, and every reader is stable
under further input.  Together these give that decoding inverts encoding on
front-end functions, and that truncated and extended payloads are refused.
-/

namespace Wiicompiled.CanonicalIrBinaryCodec

open BinaryCodec Ir

/-! ## Varints -/

/-- The shift amounts of `n` successive groups, the first being `s`. -/
def shiftsFrom : ℕ → UInt32 → List UInt32
  | 0, _ => []
  | n + 1, s => s :: shiftsFrom n (s + 7)

theorem low_seven_toUInt32 (v : UInt32) :
    (v.toUInt8 &&& 0x7F).toUInt32 = v &&& 0x7F := by
  have hbyte : (v.toUInt8 &&& 0x7F).toNat = v.toNat % 256 % 128 := by
    rw [UInt8.toNat_and, UInt32.toNat_toUInt8]
    exact Nat.and_two_pow_sub_one_eq_mod _ 7
  have hword : (v &&& 0x7F).toNat = v.toNat % 128 := by
    rw [UInt32.toNat_and]
    exact Nat.and_two_pow_sub_one_eq_mod _ 7
  apply UInt32.toNat_inj.mp
  rw [UInt8.toNat_toUInt32, hbyte, hword]
  omega

theorem continued_low_seven (b : UInt8) :
    (b ||| 0x80) &&& 0x7F = b &&& 0x7F := by
  apply UInt8.toBitVec_inj.mp
  simp [BitVec.and_or_distrib_right]

theorem continued_high_ne_zero (b : UInt8) :
    (b ||| 0x80) &&& 0x80 ≠ 0 := by
  have hself : (b ||| 0x80) &&& 0x80 = 0x80 := by
    apply UInt8.toBitVec_inj.mp
    ext i hi
    simpa using fun h => Or.inr h
  rw [hself]
  decide

theorem last_high_eq_zero {v : UInt32} (hv : v.toNat < 128) :
    v.toUInt8 &&& 0x80 = 0 := by
  apply UInt8.toNat_inj.mp
  rw [UInt8.toNat_and, UInt32.toNat_toUInt8, Nat.mod_eq_of_lt (by omega)]
  change v.toNat &&& 2 ^ 7 = 0
  apply Nat.eq_of_testBit_eq
  intro i
  rw [Nat.testBit_and, Nat.testBit_two_pow]
  by_cases hi : 7 = i
  · subst hi
    simp [Nat.testBit_lt_two_pow (show v.toNat < 2 ^ 7 from hv)]
  · simp [hi]

theorem last_low_seven {v : UInt32} (hv : v.toNat < 128) :
    v &&& 0x7F = v := by
  apply UInt32.toNat_inj.mp
  rw [UInt32.toNat_and]
  exact (Nat.and_two_pow_sub_one_eq_mod _ 7).trans (Nat.mod_eq_of_lt hv)

theorem toBitVec_shiftLeft_of_lt (x s : UInt32) (hs : s.toNat < 32) :
    (x <<< s).toBitVec = x.toBitVec <<< s.toNat := by
  have hmod : (s.toBitVec % 32).toNat = s.toNat := by
    simp
    omega
  rw [UInt32.toBitVec_shiftLeft, ← hmod]
  rfl

theorem toNat_add_seven {s : UInt32} (hs : s.toNat + 7 < 2 ^ 32) :
    (s + 7).toNat = s.toNat + 7 := by
  rw [UInt32.toNat_add]
  exact Nat.mod_eq_of_lt hs

theorem seven_or_high (v s : UInt32) (hs : s.toNat + 7 < 32) :
    ((v &&& 0x7F) <<< s) ||| ((v >>> 7) <<< (s + 7)) = v <<< s := by
  have hnext := toNat_add_seven (s := s) (by omega)
  apply UInt32.toBitVec_inj.mp
  rw [UInt32.toBitVec_or, toBitVec_shiftLeft_of_lt _ s (by omega),
    toBitVec_shiftLeft_of_lt _ (s + 7) (by omega),
    toBitVec_shiftLeft_of_lt v s (by omega), hnext]
  exact shiftLeft_seven_or v.toBitVec s.toNat

theorem roundTrips_varUInt_last
    {v : UInt32} (hv : v.toNat < 128) (acc s : UInt32) (shifts : List UInt32) :
    RoundTrips (writeVarUInt v) (readVarUIntFrom acc (s :: shifts))
      (acc ||| (v <<< s)) := by
  have hsmall : ¬v ≥ 0x80 := by
    intro h
    have hle := UInt32.le_iff_toNat_le.mp h
    have h128 : (0x80 : UInt32).toNat = 128 := rfl
    omega
  rw [writeVarUInt, if_neg hsmall]
  refine (RoundTrips.readByte _ _).bind_pure ?_
  rw [if_pos (last_high_eq_zero hv), low_seven_toUInt32, last_low_seven hv]

/-- A continued group hands the rest of the value to the next iteration. -/
theorem roundTrips_varUInt_continued
    {v : UInt32} (hv : 128 ≤ v.toNat) {acc s r : UInt32}
    {shifts : List UInt32}
    (hrest : RoundTrips (writeVarUInt (v >>> 7))
      (readVarUIntFrom (acc ||| ((v &&& 0x7F) <<< s)) shifts) r) :
    RoundTrips (writeVarUInt v) (readVarUIntFrom acc (s :: shifts)) r := by
  have hlarge : v ≥ 0x80 := UInt32.le_iff_toNat_le.mpr hv
  rw [writeVarUInt, if_pos hlarge]
  refine (RoundTrips.readByte _ _).bind ?_
  rw [if_neg (continued_high_ne_zero _), continued_low_seven,
    low_seven_toUInt32]
  exact hrest

/-- The reading loop with `n + 1` groups left takes back every value that fits
in them. -/
theorem roundTrips_varUIntFrom (n : ℕ) :
    ∀ acc s v : UInt32, s.toNat + 7 * (n + 1) ≤ 35 →
      v.toNat < 2 ^ (7 * (n + 1)) →
      RoundTrips (writeVarUInt v) (readVarUIntFrom acc (shiftsFrom (n + 1) s))
        (acc ||| (v <<< s)) := by
  induction n with
  | zero =>
      intro acc s v _ hv
      exact roundTrips_varUInt_last hv acc s []
  | succ n ih =>
      intro acc s v hs hv
      by_cases hsmall : v.toNat < 128
      · exact roundTrips_varUInt_last hsmall acc s _
      · have hnext := toNat_add_seven (s := s) (by omega)
        have hdiv : (v >>> 7).toNat = v.toNat / 128 := by
          simp [Nat.shiftRight_eq_div_pow]
        have hfits : (v >>> 7).toNat < 2 ^ (7 * (n + 1)) := by
          rw [hdiv]
          have hpow : 2 ^ (7 * (n + 1 + 1)) = 128 * 2 ^ (7 * (n + 1)) := by
            rw [show 7 * (n + 1 + 1) = 7 + 7 * (n + 1) by ring, pow_add]
            norm_num
          rw [hpow] at hv
          exact Nat.div_lt_of_lt_mul hv
        have hrest := ih (acc ||| ((v &&& 0x7F) <<< s)) (s + 7) (v >>> 7)
          (by omega) hfits
        rw [UInt32.or_assoc, seven_or_high v s (by omega)] at hrest
        exact roundTrips_varUInt_continued (by omega) hrest

theorem roundTrips_varUInt (v : UInt32) :
    RoundTrips (writeVarUInt v) readVarUInt v := by
  have h := roundTrips_varUIntFrom 4 0 0 v (by decide) (by
    have := v.toNat_lt
    omega)
  have hzero : (0 : UInt32) ||| (v <<< 0) = v := by
    simp
  rw [hzero] at h
  exact h

theorem roundTrips_varInt (value : Int32) :
    RoundTrips (writeVarInt value) readVarInt value := by
  have hcode :
      ((value <<< 1) ^^^ (value >>> 31)).toUInt32.toBitVec =
        zigzag value.toBitVec := by
    have hsign : (value >>> 31).toBitVec = value.toBitVec.sshiftRight 31 := by
      rw [Int32.toBitVec_shiftRight]
      rfl
    change ((value <<< 1) ^^^ (value >>> 31)).toBitVec = _
    rw [Int32.toBitVec_xor, hsign]
    rfl
  refine (roundTrips_varUInt _).bind_pure ?_
  congr 1
  apply Int32.toBitVec_inj.mp
  have hback := unzigzag_zigzag value.toBitVec
  rw [← hcode] at hback
  exact hback

theorem roundTrips_count {n : ℕ} (hn : n ≤ maxCount) :
    RoundTrips (writeCount n) readCount n := by
  have hval : (UInt32.ofNat n).toNat = n := by
    rw [UInt32.toNat_ofNat']
    simp only [maxCount] at hn
    omega
  refine (roundTrips_varUInt (UInt32.ofNat n)).bind_pure ?_
  rw [hval, if_pos hn]

/-! ## Fixed-width fields and strings -/

theorem roundTrips_fixed (n v : ℕ) (hv : v < 256 ^ n) :
    RoundTrips (write (leBytes n v) : ByteWriter CodecError Unit) (readFixed n) v := by
  have h : RoundTrips (write (leBytes n v) : ByteWriter CodecError Unit)
      (readAtMost (leBytes n v).length : ByteReader CodecError (List UInt8))
      (leBytes n v) := RoundTrips.readAtMost _
  rw [leBytes_length] at h
  refine h.bind_pure ?_
  rw [leBytes_length, ofLeBytes_leBytes n v hv]
  simp

theorem roundTrips_uint32 (value : UInt32) :
    RoundTrips (writeUInt32 value) readUInt32 value := by
  refine (roundTrips_fixed 4 value.toNat value.toNat_lt).bind_pure ?_
  rw [UInt32.ofNat_toNat]

theorem roundTrips_int64 (value : Int64) :
    RoundTrips (writeInt64 value) readInt64 value := by
  refine (roundTrips_fixed 8 value.toUInt64.toNat
    value.toUInt64.toNat_lt).bind_pure ?_
  rw [UInt64.ofNat_toNat, Int64.toInt64_toUInt64]

theorem roundTrips_bool (value : Bool) :
    RoundTrips (writeBool value) readBool value := by
  refine (RoundTrips.readByte _ _).bind_pure ?_
  cases value <;> rfl

theorem getString_getBytes (value : String) :
    getString (getBytes value) = value := by
  have hbytes : (⟨(getBytes value).toArray⟩ : ByteArray) = value.toByteArray := by
    simp [getBytes]
  have hvalid : String.fromUTF8? value.toByteArray = some value := by
    simp [String.fromUTF8?, value.isValidUTF8, String.fromUTF8]
  rw [getString, hbytes, hvalid]

theorem roundTrips_string {value : String}
    (hvalue : (getBytes value).length ≤ maxCount) :
    RoundTrips (writeString value) readString value := by
  refine (roundTrips_count hvalue).bind ?_
  refine (RoundTrips.readAtMost (getBytes value)).bind_pure ?_
  simp [getString_getBytes]

theorem roundTrips_optional {α : Type}
    {f : α → ByteWriter CodecError Unit} {p : ByteReader CodecError α}
    (value : Option α) (h : ∀ a ∈ value, RoundTrips (f a) p a) :
    RoundTrips (writeOptional f value) (readOptional p) value := by
  cases value with
  | none => exact (roundTrips_bool false).bind_pure rfl
  | some a => exact (roundTrips_bool true).bind ((h a rfl).map some)

/-! ## Front-end functions -/

/-- What the two factories build, and values of any further kind. -/
def EncodableValue (value : IrValue) : Prop :=
  (∃ name, value = IrValue.register name) ∨
    (∃ constant, value = IrValue.imm constant) ∨
    (value.kind ≠ "register" ∧ value.kind ≠ "const")

/-- The instruction kinds of the front end, with lists within `maxCount`. -/
def FrontEndInstruction : IrInstruction → Prop
  | .assign _ value => EncodableValue value
  | .binary _ left right _ => EncodableValue left ∧ EncodableValue right
  | .store _ source _ => EncodableValue source
  | .call _ _ arguments =>
      arguments.length ≤ maxCount ∧ ∀ v ∈ arguments, EncodableValue v
  | .indirectCall _ target arguments =>
      EncodableValue target ∧
        arguments.length ≤ maxCount ∧ ∀ v ∈ arguments, EncodableValue v
  | .setCrField _ left right _ => EncodableValue left ∧ EncodableValue right
  | .phi _ sources => sources.entries.length ≤ maxCount
  | .indirectJump target => EncodableValue target
  | .jumpTable _ cases => cases.length ≤ maxCount
  | .ret value => ∀ v ∈ value, EncodableValue v
  | .load .. | .branch .. | .jump .. | .comment .. | .tracePpc ..
  | .undefined .. => True
  | .resolveGuestMemoryRange .. | .resolvedLoad .. | .resolvedStore ..
  | .resolvedPsqLoad .. | .resolvedPsqStore .. | .resolvedLoadPair ..
  | .resolvedStorePair .. => False

/-- A function that the front end can produce.  It disassembles at most 8192
machine instructions of one function, far below the counts allowed here. -/
structure FrontEndFunction (function : IrFunction) : Prop where
  blocks_le : function.blocks.length ≤ maxCount
  instructions_le :
    ∀ block ∈ function.blocks, block.instructions.length ≤ maxCount
  instructions_ok :
    ∀ block ∈ function.blocks, ∀ i ∈ block.instructions, FrontEndInstruction i
  strings_le :
    ∀ strings, buildStringTable function = .ok strings →
      strings.length ≤ maxCount ∧
        ∀ s ∈ strings, (getBytes s).length ≤ maxCount

/-! ## The string table -/

theorem mem_addString_iff (table : List String) (value s : String) :
    s ∈ addString table value ↔ s ∈ table ∨ s = value := by
  rw [addString]
  split
  · constructor
    · exact Or.inl
    · rintro (hs | rfl)
      · exact hs
      · assumption
  · simp

theorem mem_foldl_addString_iff (values table : List String) (s : String) :
    s ∈ values.foldl addString table ↔ s ∈ table ∨ s ∈ values := by
  induction values generalizing table with
  | nil => simp
  | cons value values ih =>
      rw [List.foldl_cons, ih, mem_addString_iff, List.mem_cons, or_assoc]

theorem roundTrips_id
    {strings : List String} {value : String}
    (hlen : strings.length ≤ maxCount) (hmem : value ∈ strings) :
    RoundTrips (writeId strings value) (readId strings) value := by
  obtain ⟨index, hindex⟩ : ∃ index, strings.idxOf? value = some index := by
    cases hfind : strings.idxOf? value with
    | none => exact absurd hmem (List.idxOf?_eq_none_iff.mp hfind)
    | some index => exact ⟨index, rfl⟩
  obtain ⟨hlt, hget, -⟩ := List.idxOf?_eq_some_iff.mp hindex
  have hval : (UInt32.ofNat index).toNat = index := by
    rw [UInt32.toNat_ofNat']
    simp only [maxCount] at hlen
    omega
  rw [writeId, hindex]
  refine (roundTrips_varUInt (UInt32.ofNat index)).bind_pure ?_
  rw [hval, List.getElem?_eq_getElem hlt, hget]

/-! ## Values, addresses and lists -/

section Table

variable {strings : List String} (hlen : strings.length ≤ maxCount)
include hlen

theorem roundTrips_value
    {value : IrValue} (hvalue : EncodableValue value)
    (hmem : ∀ s ∈ valueStrings value, s ∈ strings) :
    RoundTrips (writeValue strings value) (readValue strings) value := by
  rcases hvalue with ⟨name, rfl⟩ | ⟨constant, rfl⟩ | ⟨hregister, hconst⟩
  · have hname : name ∈ strings := hmem name (by simp [valueStrings, IrValue.register])
    exact (RoundTrips.readByte 0 _).bind ((roundTrips_id hlen hname).map _)
  · exact (RoundTrips.readByte 1 _).bind ((roundTrips_int64 constant).map _)
  · obtain ⟨kind, registerName, constant⟩ := value
    have hkind : kind ∈ strings :=
      hmem kind (by simp_all [valueStrings])
    have hname : ∀ s ∈ registerName, s ∈ strings := fun s hs =>
      hmem s (by simp_all [valueStrings])
    rw [writeValue, if_neg hregister, if_neg hconst]
    refine (RoundTrips.readByte 2 _).bind ?_
    refine (roundTrips_id hlen hkind).bind ?_
    refine (roundTrips_optional registerName fun s hs =>
      roundTrips_id hlen (hname s hs)).bind ?_
    exact (roundTrips_optional constant fun c _ => roundTrips_int64 c).map _

theorem roundTrips_values
    {values : List IrValue} (hcount : values.length ≤ maxCount)
    (hvalues : ∀ v ∈ values, EncodableValue v)
    (hmem : ∀ s ∈ values.flatMap valueStrings, s ∈ strings) :
    RoundTrips (writeValues strings values) (readValues strings) values := by
  have hlist := RoundTrips.readMany (g := id) values fun v hv =>
    roundTrips_value hlen (hvalues v hv) fun s hs =>
      hmem s (List.mem_flatMap_of_mem hv hs)
  rw [List.map_id] at hlist
  exact (roundTrips_count hcount).bind hlist

theorem roundTrips_address
    {address : IrAddress} (hmem : address.base ∈ strings) :
    RoundTrips (writeAddress strings address) (readAddress strings) address :=
  (roundTrips_id hlen hmem).bind ((roundTrips_varInt address.offset).map _)

theorem roundTrips_case
    {item : IrJumpTableCase} (hmem : item.targetLabel ∈ strings) :
    RoundTrips (writeCase strings item) (readCase strings) item :=
  (roundTrips_uint32 item.targetAddress).bind ((roundTrips_id hlen hmem).map _)

end Table

/-! ## The order of phi sources -/

theorem toNat_char_cases (c : Char) :
    c.toNat < 0xD800 ∨ (0xDFFF < c.toNat ∧ c.toNat < 0x110000) :=
  c.valid

theorem utf16Units_append_inj
    {c d : Char} {xs ys : List ℕ}
    (h : utf16Units c ++ xs = utf16Units d ++ ys) : c = d ∧ xs = ys := by
  have hc := toNat_char_cases c
  have hd := toNat_char_cases d
  have hchar : ∀ e f : Char, e.toNat = f.toNat → e = f := fun e f hef =>
    Char.toNat_inj.mp hef
  by_cases hcsmall : c.toNat < 0x10000
  · by_cases hdsmall : d.toNat < 0x10000
    · simp only [utf16Units, if_pos hcsmall, if_pos hdsmall,
        List.singleton_append, List.cons.injEq] at h
      exact ⟨hchar c d h.1, h.2⟩
    · -- A surrogate is no character of the basic plane.
      simp only [utf16Units, if_pos hcsmall, if_neg hdsmall,
        List.cons_append, List.nil_append, List.cons.injEq] at h
      omega
  · by_cases hdsmall : d.toNat < 0x10000
    · simp only [utf16Units, if_neg hcsmall, if_pos hdsmall,
        List.cons_append, List.nil_append, List.cons.injEq] at h
      omega
    · simp only [utf16Units, if_neg hcsmall, if_neg hdsmall,
        List.cons_append, List.nil_append, List.cons.injEq] at h
      exact ⟨hchar c d (by omega), h.2.2⟩

theorem utf16Units_ne_nil (c : Char) : utf16Units c ≠ [] := by
  rw [utf16Units]
  split <;> simp

theorem ordinalKey_injective : Function.Injective ordinalKey := by
  have hlist : ∀ xs ys : List Char,
      xs.flatMap utf16Units = ys.flatMap utf16Units → xs = ys := by
    intro xs
    induction xs with
    | nil =>
        intro ys h
        cases ys with
        | nil => rfl
        | cons d ys =>
            have hnil := List.append_eq_nil_iff.mp h.symm
            exact absurd hnil.1 (utf16Units_ne_nil d)
    | cons c xs ih =>
        intro ys h
        cases ys with
        | nil =>
            have hnil := List.append_eq_nil_iff.mp h
            exact absurd hnil.1 (utf16Units_ne_nil c)
        | cons d ys =>
            obtain ⟨hcd, hrest⟩ := utf16Units_append_inj h
            rw [hcd, ih ys hrest]
  intro a b h
  exact String.toList_inj.mp (hlist a.toList b.toList h)

instance : Std.Total sourceLe :=
  ⟨fun a b => le_total (ordinalKey a.1) (ordinalKey b.1)⟩

instance : IsTrans (String × String) sourceLe :=
  ⟨fun _ _ _ hab hbc => le_trans hab hbc⟩

theorem orderedSources_perm (sources : PhiSources) :
    (orderedSources sources).Perm sources.entries :=
  List.perm_insertionSort sourceLe sources.entries

theorem orderedSources_eq_of_perm
    {s t : PhiSources} (h : s.entries.Perm t.entries) :
    orderedSources s = orderedSources t := by
  have hperm : (orderedSources s).Perm (orderedSources t) :=
    (orderedSources_perm s).trans (h.trans (orderedSources_perm t).symm)
  refine List.Perm.eq_of_pairwise ?_
    (List.pairwise_insertionSort sourceLe s.entries)
    (List.pairwise_insertionSort sourceLe t.entries) hperm
  intro a b ha hb hab hba
  have hkey : a.1 = b.1 := ordinalKey_injective (le_antisymm hab hba)
  have hat : a ∈ t.entries :=
    h.subset ((orderedSources_perm s).subset ha)
  have hbt : b ∈ t.entries := (orderedSources_perm t).subset hb
  exact List.inj_on_of_nodup_map t.nodup_keys hat hbt hkey

def writtenSources (sources : PhiSources) : PhiSources where
  entries := orderedSources sources
  nodup_keys :=
    ((orderedSources_perm sources).map Prod.fst).nodup_iff.mpr sources.nodup_keys

/-- Equality up to the insertion order of phi sources. -/
inductive SameInstruction : IrInstruction → IrInstruction → Prop
  | refl (i : IrInstruction) : SameInstruction i i
  | phi (destination : String) {s t : PhiSources}
      (h : s.entries.Perm t.entries) :
      SameInstruction (.phi destination s) (.phi destination t)

def SameBlock (b c : IrBasicBlock) : Prop :=
  b.label = c.label ∧ List.Forall₂ SameInstruction b.instructions c.instructions

def SameFunction (f g : IrFunction) : Prop :=
  f.name = g.name ∧ f.entryLabel = g.entryLabel ∧
    List.Forall₂ SameBlock f.blocks g.blocks

def writtenInstruction : IrInstruction → IrInstruction
  | .phi destination sources => .phi destination (writtenSources sources)
  | i => i

def writtenBlock (block : IrBasicBlock) : IrBasicBlock :=
  ⟨block.label, block.instructions.map writtenInstruction⟩

def writtenFunction (function : IrFunction) : IrFunction :=
  ⟨function.name, function.entryLabel, function.blocks.map writtenBlock⟩

theorem writtenInstruction_same (i : IrInstruction) :
    SameInstruction (writtenInstruction i) i := by
  cases i
  case phi destination sources =>
    exact .phi destination (orderedSources_perm sources)
  all_goals exact .refl _

theorem writtenFunction_same (function : IrFunction) :
    SameFunction (writtenFunction function) function := by
  refine ⟨rfl, rfl, ?_⟩
  rw [writtenFunction, List.forall₂_map_left_iff, List.forall₂_same]
  intro block _
  refine ⟨rfl, ?_⟩
  rw [writtenBlock, List.forall₂_map_left_iff, List.forall₂_same]
  exact fun i _ => writtenInstruction_same i

/-! ## Instructions -/

/-- Reading `pairs` into a dictionary that holds none of their keys. -/
theorem roundTrips_sources
    {strings : List String} (hlen : strings.length ≤ maxCount)
    (pairs : List (String × String)) :
    ∀ start result : PhiSources, result.entries = start.entries ++ pairs →
      (∀ pair ∈ pairs, pair.1 ∈ strings ∧ pair.2 ∈ strings) →
      RoundTrips (pairs.forM (writeSource strings))
        (readSources strings pairs.length start) result := by
  induction pairs with
  | nil =>
      intro start result hresult _
      have heq : result = start := by
        obtain ⟨entries, hnodup⟩ := result
        simp only [List.append_nil] at hresult
        subst hresult
        rfl
      rw [heq]
      exact RoundTrips.pure start
  | cons pair pairs ih =>
      intro start result hresult hmem
      obtain ⟨hkey, hvalue⟩ := hmem pair List.mem_cons_self
      have hfresh : pair.1 ∉ start.entries.map Prod.fst := by
        have hnodup := result.nodup_keys
        rw [hresult, List.map_append, List.nodup_append] at hnodup
        intro hin
        exact hnodup.2.2 _ hin _ (by simp) rfl
      change RoundTrips (writeSource strings pair >>= fun _ =>
        pairs.forM (writeSource strings)) _ result
      rw [writeSource, bind_assoc]
      refine (roundTrips_id hlen hkey).bind ?_
      refine (roundTrips_id hlen hvalue).bind ?_
      rw [addSource, dif_neg hfresh]
      refine ih _ result ?_ fun q hq => hmem q (List.mem_cons_of_mem pair hq)
      simpa using hresult

theorem roundTrips_op (op : Op) : RoundTrips (writeOp op) readOp op := by
  refine (RoundTrips.readByte op.toByte _).bind_pure ?_
  cases op <;> rfl

theorem roundTrips_instruction
    {strings : List String} (hlen : strings.length ≤ maxCount)
    {i : IrInstruction} (hi : FrontEndInstruction i) {own : List String}
    (hown : instructionStrings i = .ok own) (hmem : ∀ s ∈ own, s ∈ strings) :
    RoundTrips (writeInstruction strings i) (readInstruction strings)
      (writtenInstruction i) := by
  have hid := fun {s : String} (hs : s ∈ strings) => roundTrips_id hlen hs
  cases i with
  | assign destination value =>
      cases hown
      refine (roundTrips_op .assign).bind ?_
      refine (hid (hmem _ (by simp))).bind ?_
      exact (roundTrips_value hlen hi fun s hs => hmem s (by simp [hs])).map _
  | binary destination left right op =>
      cases hown
      refine (roundTrips_op .binary).bind ?_
      refine (hid (hmem _ (by simp))).bind ?_
      refine (roundTrips_value hlen hi.1 fun s hs => hmem s (by simp [hs])).bind ?_
      refine (roundTrips_value hlen hi.2 fun s hs => hmem s (by simp [hs])).bind ?_
      exact (hid (hmem _ (by simp))).map _
  | load destination address sizeBytes =>
      cases hown
      refine (roundTrips_op .load).bind ?_
      refine (hid (hmem _ (by simp))).bind ?_
      refine (roundTrips_address hlen (hmem _ (by simp))).bind ?_
      exact (roundTrips_varInt sizeBytes).map _
  | store address source sizeBytes =>
      cases hown
      refine (roundTrips_op .store).bind ?_
      refine (roundTrips_address hlen (hmem _ (by simp))).bind ?_
      refine (roundTrips_value hlen hi fun s hs => hmem s (by simp [hs])).bind ?_
      exact (roundTrips_varInt sizeBytes).map _
  | call destination target arguments =>
      cases hown
      refine (roundTrips_op .call).bind ?_
      refine (hid (hmem _ (by simp))).bind ?_
      refine (hid (hmem _ (by simp))).bind ?_
      exact (roundTrips_values hlen hi.1 hi.2 fun s hs =>
        hmem s (List.mem_cons_of_mem _ (List.mem_cons_of_mem _ hs))).map _
  | indirectCall destination target arguments =>
      cases hown
      refine (roundTrips_op .indirectCall).bind ?_
      refine (hid (hmem _ (by simp))).bind ?_
      refine (roundTrips_value hlen hi.1 fun s hs => hmem s (by simp [hs])).bind ?_
      exact (roundTrips_values hlen hi.2.1 hi.2.2 fun s hs =>
        hmem s (List.mem_append_right _ hs)).map _
  | setCrField fieldIndex left right isUnsigned =>
      cases hown
      refine (roundTrips_op .setCrField).bind ?_
      refine (roundTrips_varInt fieldIndex).bind ?_
      refine (roundTrips_value hlen hi.1 fun s hs => hmem s (by simp [hs])).bind ?_
      refine (roundTrips_value hlen hi.2 fun s hs => hmem s (by simp [hs])).bind ?_
      exact (roundTrips_bool isUnsigned).map _
  | phi destination sources =>
      cases hown
      have hcount : (orderedSources sources).length ≤ maxCount := by
        rw [(orderedSources_perm sources).length_eq]
        exact hi
      have hpairs : ∀ pair ∈ orderedSources sources,
          pair.1 ∈ strings ∧ pair.2 ∈ strings := fun pair hpair =>
        ⟨hmem _ (List.mem_cons_of_mem _ (List.mem_flatMap_of_mem hpair (by simp))),
          hmem _ (List.mem_cons_of_mem _ (List.mem_flatMap_of_mem hpair (by simp)))⟩
      refine (roundTrips_op .phi).bind ?_
      refine (hid (hmem _ (by simp))).bind ?_
      refine (roundTrips_count hcount).bind ?_
      exact (roundTrips_sources hlen _ _ (writtenSources sources) rfl hpairs).map _
  | branch condition trueLabel falseLabel conditionRegister =>
      cases hown
      refine (roundTrips_op .branch).bind ?_
      refine (hid (hmem _ (by simp))).bind ?_
      refine (hid (hmem _ (by simp))).bind ?_
      refine (hid (hmem _ (by simp))).bind ?_
      exact (hid (hmem _ (by simp))).map _
  | jump targetLabel =>
      cases hown
      exact (roundTrips_op .jump).bind ((hid (hmem _ (by simp))).map _)
  | indirectJump target =>
      cases hown
      exact (roundTrips_op .indirectJump).bind
        ((roundTrips_value hlen hi hmem).map _)
  | jumpTable selector cases' =>
      cases hown
      have hcases := RoundTrips.readMany (g := id) cases' fun item hitem =>
        roundTrips_case hlen (hmem item.targetLabel
          (List.mem_cons_of_mem _ (List.mem_map_of_mem hitem)))
      rw [List.map_id] at hcases
      refine (roundTrips_op .jumpTable).bind ?_
      refine (hid (hmem _ (by simp))).bind ?_
      exact (roundTrips_count hi).bind (hcases.map _)
  | ret value =>
      cases hown
      refine (roundTrips_op .ret).bind ?_
      exact (roundTrips_optional value fun v hv =>
        roundTrips_value hlen (hi v hv) fun s hs =>
          hmem s (List.mem_flatMap_of_mem (Option.mem_toList.mpr hv) hs)).map _
  | comment text =>
      cases hown
      exact (roundTrips_op .comment).bind ((hid (hmem _ (by simp))).map _)
  | tracePpc address disassembly rawHex =>
      cases hown
      refine (roundTrips_op .tracePpc).bind ?_
      refine (roundTrips_uint32 address).bind ?_
      refine (hid (hmem _ (by simp))).bind ?_
      exact (hid (hmem _ (by simp))).map _
  | undefined address rawInstruction disassembly reason =>
      cases hown
      refine (roundTrips_op .undefined).bind ?_
      refine (roundTrips_uint32 address).bind ?_
      refine (roundTrips_uint32 rawInstruction).bind ?_
      refine (hid (hmem _ (by simp))).bind ?_
      exact (roundTrips_optional reason fun s hs =>
        hid (hmem s (List.mem_cons_of_mem _ (Option.mem_toList.mpr hs)))).map _
  | resolveGuestMemoryRange | resolvedLoad | resolvedStore | resolvedPsqLoad
  | resolvedPsqStore | resolvedLoadPair | resolvedStorePair => cases hown

/-! ## Functions -/

theorem instructionStrings_ok
    {i : IrInstruction} (hi : FrontEndInstruction i) :
    ∃ own, instructionStrings i = .ok own := by
  cases i
  case resolveGuestMemoryRange | resolvedLoad | resolvedStore | resolvedPsqLoad
    | resolvedPsqStore | resolvedLoadPair | resolvedStorePair => exact hi.elim
  all_goals exact ⟨_, rfl⟩

theorem blockStrings_ok
    {block : IrBasicBlock}
    (h : ∀ i ∈ block.instructions, FrontEndInstruction i) :
    ∃ own, blockStrings block = .ok own := by
  obtain ⟨strings, hstrings⟩ :=
    PartialMaps.mapM_ok_of_forall fun i hi => instructionStrings_ok (h i hi)
  refine ⟨block.label :: strings.flatten, ?_⟩
  rw [blockStrings, hstrings]
  rfl

theorem buildStringTable_ok
    {function : IrFunction} (h : FrontEndFunction function) :
    ∃ strings, buildStringTable function = .ok strings ∧
      function.name ∈ strings ∧ function.entryLabel ∈ strings ∧
      ∀ block ∈ function.blocks, ∃ own, blockStrings block = .ok own ∧
        ∀ s ∈ own, s ∈ strings := by
  obtain ⟨parts, hparts⟩ :=
    PartialMaps.mapM_ok_of_forall fun block hblock => blockStrings_ok (h.instructions_ok block hblock)
  refine ⟨(function.name :: function.entryLabel :: parts.flatten).foldl
    addString [], ?_, ?_, ?_, ?_⟩
  · rw [buildStringTable, hparts]
    rfl
  · rw [mem_foldl_addString_iff]
    simp
  · rw [mem_foldl_addString_iff]
    simp
  · intro block hblock
    obtain ⟨own, hown, heq⟩ := PartialMaps.exists_of_mapM_ok hparts hblock
    refine ⟨own, heq, fun s hs => ?_⟩
    rw [mem_foldl_addString_iff]
    exact Or.inr (List.mem_cons_of_mem _ (List.mem_cons_of_mem _
      (List.mem_flatten.mpr ⟨own, hown, hs⟩)))

theorem roundTrips_block
    {strings : List String} (hlen : strings.length ≤ maxCount)
    {block : IrBasicBlock} (hcount : block.instructions.length ≤ maxCount)
    (hblock : ∀ i ∈ block.instructions, FrontEndInstruction i)
    {own : List String} (hown : blockStrings block = .ok own)
    (hmem : ∀ s ∈ own, s ∈ strings) :
    RoundTrips (writeBlock strings block) (readBlock strings)
      (writtenBlock block) := by
  obtain ⟨parts, hparts⟩ :=
    PartialMaps.mapM_ok_of_forall fun i hi => instructionStrings_ok (hblock i hi)
  rw [blockStrings, hparts] at hown
  cases hown
  have hinstructions := RoundTrips.readMany block.instructions fun i hi => by
    obtain ⟨part, hpart, heq⟩ := PartialMaps.exists_of_mapM_ok hparts hi
    exact roundTrips_instruction hlen (hblock i hi) heq fun s hs =>
      hmem s (List.mem_cons_of_mem _ (List.mem_flatten.mpr ⟨part, hpart, hs⟩))
  refine (roundTrips_id hlen (hmem _ List.mem_cons_self)).bind ?_
  exact (roundTrips_count hcount).bind (hinstructions.map _)

theorem roundTrips_header :
    RoundTrips (do write magic; writeVarUInt formatVersion) readHeader () := by
  refine (RoundTrips.readAtMost magic).bind ?_
  exact (roundTrips_varUInt formatVersion).bind_pure rfl

theorem roundTrips_function
    {function : IrFunction} (h : FrontEndFunction function)
    {strings : List String} (hstrings : buildStringTable function = .ok strings) :
    RoundTrips (writeFunction strings function) readFunction
      (writtenFunction function) := by
  obtain ⟨table, htable, hname, hentry, hblocks⟩ := buildStringTable_ok h
  rw [hstrings] at htable
  cases htable
  obtain ⟨hlen, hbytes⟩ := h.strings_le strings hstrings
  have htexts := RoundTrips.readMany (g := id) strings fun s hs =>
    roundTrips_string (hbytes s hs)
  rw [List.map_id] at htexts
  have hbodies := RoundTrips.readMany function.blocks fun block hblock => by
    obtain ⟨own, hown, hmem⟩ := hblocks block hblock
    exact roundTrips_block hlen (h.instructions_le block hblock)
      (h.instructions_ok block hblock) hown hmem
  rw [writeFunction, ← bind_assoc]
  refine roundTrips_header.bind ?_
  refine (roundTrips_count hlen).bind ?_
  refine htexts.bind ?_
  refine (roundTrips_id hlen hname).bind ?_
  refine (roundTrips_id hlen hentry).bind ?_
  refine (roundTrips_count h.blocks_le).bind ?_
  exact hbodies.map _

/-! ## Stability of the readers -/

theorem stable_varUIntFrom (shifts : List UInt32) :
    ∀ value, Stable (readVarUIntFrom value shifts) := by
  induction shifts with
  | nil => exact fun _ => Stable.throw _
  | cons shift shifts ih =>
      intro value
      refine (Stable.readByte _).bind fun next => ?_
      dsimp only
      split
      · exact Stable.pure _
      · exact ih _

theorem stable_varUInt : Stable readVarUInt :=
  stable_varUIntFrom _ 0

theorem stable_varInt : Stable readVarInt :=
  stable_varUInt.bind fun _ => Stable.pure _

theorem stable_count : Stable readCount := by
  refine stable_varUInt.bind fun value => ?_
  split
  · exact Stable.pure _
  · exact Stable.throw _

theorem stable_readAtMost_checked
    {α : Type} (n : ℕ) (e : CodecError) (k : List UInt8 → ByteReader CodecError α)
    (hk : ∀ bytes, Stable (k bytes)) :
    Stable (readAtMost n >>= fun bytes =>
      if bytes.length ≠ n then throw e else k bytes) := by
  refine Stable.readAtMost_bind (fun bytes => ?_) ?_
  · split
    · exact Stable.throw e
    · exact hk bytes
  · intro bytes input r hne h
    rw [if_pos hne] at h
    cases h

theorem stable_fixed (n : ℕ) : Stable (readFixed n) :=
  stable_readAtMost_checked n _ _ fun _ => Stable.pure _

theorem stable_uint32 : Stable readUInt32 :=
  (stable_fixed 4).bind fun _ => Stable.pure _

theorem stable_int64 : Stable readInt64 :=
  (stable_fixed 8).bind fun _ => Stable.pure _

theorem stable_bool : Stable readBool :=
  (Stable.readByte _).bind fun _ => Stable.pure _

theorem stable_string : Stable readString :=
  stable_count.bind fun n =>
    stable_readAtMost_checked n _ _ fun _ => Stable.pure _

theorem stable_id (strings : List String) : Stable (readId strings) := by
  refine stable_varUInt.bind fun index => ?_
  split
  · exact Stable.pure _
  · exact Stable.throw _

theorem stable_optional
    {α : Type} {p : ByteReader CodecError α} (hp : Stable p) :
    Stable (readOptional p) := by
  refine stable_bool.bind fun present => ?_
  split
  · exact hp.bind fun _ => Stable.pure _
  · exact Stable.pure _

theorem stable_value (strings : List String) : Stable (readValue strings) := by
  refine (Stable.readByte _).bind fun kind => ?_
  split
  · exact (stable_id strings).bind fun _ => Stable.pure _
  split
  · exact stable_int64.bind fun _ => Stable.pure _
  split
  · exact (stable_id strings).bind fun _ =>
      (stable_optional (stable_id strings)).bind fun _ =>
        (stable_optional stable_int64).bind fun _ => Stable.pure _
  · exact Stable.throw _

theorem stable_values (strings : List String) : Stable (readValues strings) :=
  stable_count.bind fun n => (stable_value strings).readMany n

theorem stable_address (strings : List String) : Stable (readAddress strings) :=
  (stable_id strings).bind fun _ => stable_varInt.bind fun _ => Stable.pure _

theorem stable_case (strings : List String) : Stable (readCase strings) :=
  stable_uint32.bind fun _ => (stable_id strings).bind fun _ => Stable.pure _

theorem stable_addSource (sources : PhiSources) (key value : String) :
    Stable (liftM (addSource sources key value) : ByteReader CodecError PhiSources) := by
  cases addSource sources key value with
  | error e => exact Stable.throw e
  | ok result => exact Stable.pure result

theorem stable_sources (strings : List String) (count : ℕ) :
    ∀ sources, Stable (readSources strings count sources) := by
  induction count with
  | zero => exact fun sources => Stable.pure sources
  | succ count ih =>
      intro sources
      exact (stable_id strings).bind fun key =>
        (stable_id strings).bind fun value =>
          (stable_addSource sources key value).bind fun result => ih result

theorem stable_op : Stable readOp := by
  refine (Stable.readByte _).bind fun b => ?_
  split
  · exact Stable.pure _
  · exact Stable.throw _

theorem stable_fields (strings : List String) (op : Op) :
    Stable (readFields strings op) := by
  have hid := stable_id strings
  have hvalue := stable_value strings
  cases op with
  | assign => exact hid.bind fun _ => hvalue.bind fun _ => Stable.pure _
  | binary =>
      exact hid.bind fun _ => hvalue.bind fun _ => hvalue.bind fun _ =>
        hid.bind fun _ => Stable.pure _
  | load =>
      exact hid.bind fun _ => (stable_address strings).bind fun _ =>
        stable_varInt.bind fun _ => Stable.pure _
  | store =>
      exact (stable_address strings).bind fun _ => hvalue.bind fun _ =>
        stable_varInt.bind fun _ => Stable.pure _
  | call =>
      exact hid.bind fun _ => hid.bind fun _ =>
        (stable_values strings).bind fun _ => Stable.pure _
  | indirectCall =>
      exact hid.bind fun _ => hvalue.bind fun _ =>
        (stable_values strings).bind fun _ => Stable.pure _
  | setCrField =>
      exact stable_varInt.bind fun _ => hvalue.bind fun _ => hvalue.bind fun _ =>
        stable_bool.bind fun _ => Stable.pure _
  | phi =>
      exact hid.bind fun _ => stable_count.bind fun n =>
        (stable_sources strings n _).bind fun _ => Stable.pure _
  | branch =>
      exact hid.bind fun _ => hid.bind fun _ => hid.bind fun _ =>
        hid.bind fun _ => Stable.pure _
  | jump | comment => exact hid.bind fun _ => Stable.pure _
  | indirectJump => exact hvalue.bind fun _ => Stable.pure _
  | jumpTable =>
      exact hid.bind fun _ => stable_count.bind fun n =>
        ((stable_case strings).readMany n).bind fun _ => Stable.pure _
  | ret => exact (stable_optional hvalue).bind fun _ => Stable.pure _
  | tracePpc =>
      exact stable_uint32.bind fun _ => hid.bind fun _ => hid.bind fun _ =>
        Stable.pure _
  | undefined =>
      exact stable_uint32.bind fun _ => stable_uint32.bind fun _ =>
        hid.bind fun _ => (stable_optional hid).bind fun _ => Stable.pure _

theorem stable_instruction (strings : List String) :
    Stable (readInstruction strings) :=
  stable_op.bind fun op => stable_fields strings op

theorem stable_block (strings : List String) : Stable (readBlock strings) :=
  (stable_id strings).bind fun _ => stable_count.bind fun n =>
    ((stable_instruction strings).readMany n).bind fun _ => Stable.pure _

theorem stable_header : Stable readHeader := by
  refine Stable.readAtMost_bind (fun bytes => ?_) ?_
  · split
    · exact Stable.throw _
    · refine stable_varUInt.bind fun version => ?_
      split
      · exact Stable.throw _
      · exact Stable.pure _
  · intro bytes input r hne h
    have hmagic : bytes ≠ magic := fun heq => hne (by rw [heq])
    simp only [if_pos hmagic] at h
    cases h

theorem stable_function : Stable readFunction :=
  stable_header.bind fun _ => stable_count.bind fun n =>
    (stable_string.readMany n).bind fun strings =>
      (stable_id strings).bind fun _ => (stable_id strings).bind fun _ =>
        stable_count.bind fun m =>
          ((stable_block strings).readMany m).bind fun _ => Stable.pure _

/-! ## Insertion order -/

theorem SameInstruction.strings_eq
    {i j : IrInstruction} (h : SameInstruction i j) :
    instructionStrings i = instructionStrings j := by
  cases h with
  | refl => rfl
  | phi destination h =>
      rw [instructionStrings, instructionStrings, orderedSources_eq_of_perm h]

theorem SameInstruction.write_eq
    {i j : IrInstruction} (h : SameInstruction i j) (strings : List String) :
    writeInstruction strings i = writeInstruction strings j := by
  cases h with
  | refl => rfl
  | phi destination h =>
      rw [writeInstruction, writeInstruction, orderedSources_eq_of_perm h]

theorem mapM_eq_of_forall₂
    {α β : Type} {m : Type → Type} [Monad m] [LawfulMonad m]
    {R : α → α → Prop} {f : α → m β}
    (hf : ∀ x y, R x y → f x = f y) {xs ys : List α}
    (h : List.Forall₂ R xs ys) : xs.mapM f = ys.mapM f := by
  induction h with
  | nil => rfl
  | cons hxy _ ih => rw [List.mapM_cons, List.mapM_cons, hf _ _ hxy, ih]

theorem forM_eq_of_forall₂
    {α : Type} {m : Type → Type} [Monad m]
    {R : α → α → Prop} {f : α → m PUnit}
    (hf : ∀ x y, R x y → f x = f y) {xs ys : List α}
    (h : List.Forall₂ R xs ys) : xs.forM f = ys.forM f := by
  induction h with
  | nil => rfl
  | @cons x y xs ys hxy _ ih =>
      change (f x >>= fun _ => xs.forM f) = (f y >>= fun _ => ys.forM f)
      rw [hf _ _ hxy, ih]

theorem SameBlock.strings_eq
    {b c : IrBasicBlock} (h : SameBlock b c) : blockStrings b = blockStrings c := by
  rw [blockStrings, blockStrings, h.1,
    mapM_eq_of_forall₂ (fun _ _ hij => hij.strings_eq) h.2]

theorem SameBlock.write_eq
    {b c : IrBasicBlock} (h : SameBlock b c) (strings : List String) :
    writeBlock strings b = writeBlock strings c := by
  rw [writeBlock, writeBlock, h.1, h.2.length_eq,
    forM_eq_of_forall₂ (fun _ _ hij => hij.write_eq strings) h.2]

theorem SameFunction.strings_eq
    {f g : IrFunction} (h : SameFunction f g) :
    buildStringTable f = buildStringTable g := by
  rw [buildStringTable, buildStringTable, h.1, h.2.1,
    mapM_eq_of_forall₂ (fun _ _ hbc => hbc.strings_eq) h.2.2]

theorem SameFunction.write_eq
    {f g : IrFunction} (h : SameFunction f g) (strings : List String) :
    writeFunction strings f = writeFunction strings g := by
  rw [writeFunction, writeFunction, h.1, h.2.1, h.2.2.length_eq,
    forM_eq_of_forall₂ (fun _ _ hbc => hbc.write_eq strings) h.2.2]

/-- Functions that differ only in the insertion order of phi sources have the
same encoding. -/
theorem encode_eq_of_same {f g : IrFunction} (h : SameFunction f g) :
    encode f = encode g := by
  rw [encode, encode, h.strings_eq]
  congr 1
  funext strings
  rw [h.write_eq]

theorem encode_reads
    {function : IrFunction} (h : FrontEndFunction function) :
    ∃ bytes, encode function = .ok bytes ∧
      Reads readFunction bytes (writtenFunction function) := by
  obtain ⟨strings, hstrings, -⟩ := buildStringTable_ok h
  obtain ⟨bytes, hwrites, hreads⟩ := roundTrips_function h hstrings
  refine ⟨bytes, ?_, hreads⟩
  rw [encode, hstrings]
  change (writeFunction strings function [] >>= _) = _
  rw [hwrites []]
  rfl

/-- The codec is lossless, insensitive to the insertion order of phi sources,
and rejects truncated and extended payloads. -/
theorem canonical_codec_lossless_strict
    (function : IrFunction) (h : FrontEndFunction function) :
    ∃ bytes, encode function = .ok bytes ∧
      (∃ decoded, decode bytes = .ok decoded ∧ SameFunction decoded function) ∧
      (∀ other, SameFunction function other → encode other = .ok bytes) ∧
      (∀ front back, bytes = front ++ back → back ≠ [] →
        ∃ e, decode front = .error e) ∧
      (∀ extra, extra ≠ [] → ∃ e, decode (bytes ++ extra) = .error e) := by
  obtain ⟨bytes, hencode, hreads⟩ := encode_reads h
  refine ⟨bytes, hencode, ?_, ?_, ?_, ?_⟩
  · exact ⟨writtenFunction function, readAll_of_reads hreads _,
      writtenFunction_same function⟩
  · intro other hsame
    rw [← encode_eq_of_same hsame, hencode]
  · intro front back hsplit hback
    rw [hsplit] at hreads
    exact readAll_prefix_of_reads stable_function hreads _ hback
  · intro extra hextra
    exact ⟨_, readAll_append_of_reads hreads _ hextra⟩

/-- A loop head with a phi, a call and a jump table. -/
def loopFunction : IrFunction where
  name := "func_80003100"
  entryLabel := "loc_80003100"
  blocks :=
    [{ label := "loc_80003100"
       instructions :=
        [.phi "r3_2" ⟨[("loc_80003104", "r3_1"), ("entry", "r3_0")], by decide⟩,
          .assign "r4_1" (.imm (-1)),
          .call "r3_3" "func_80004000" [.register "r3_2", .register "r4_1"],
          .jumpTable "ctr_1" [⟨0x80003100, "loc_80003100"⟩]] }]

theorem loopFunction_lossless :
    ∃ bytes, encode loopFunction = .ok bytes ∧
      ∃ decoded, decode bytes = .ok decoded ∧
        SameFunction decoded loopFunction := by
  have htable : buildStringTable loopFunction = .ok
      ["func_80003100", "loc_80003100", "r3_2", "entry", "r3_0",
        "loc_80003104", "r3_1", "r4_1", "r3_3", "func_80004000", "ctr_1"] := by
    decide
  have hfront : FrontEndFunction loopFunction := by
    refine ⟨by decide, by decide, ?_, ?_⟩
    · intro block hblock i hi
      simp only [loopFunction, List.mem_singleton] at hblock
      subst hblock
      simp only [List.mem_cons, List.not_mem_nil, or_false] at hi
      rcases hi with rfl | rfl | rfl | rfl
      · change _ ≤ maxCount
        decide
      · exact Or.inr (Or.inl ⟨_, rfl⟩)
      · refine ⟨by decide, ?_⟩
        intro v hv
        simp only [List.mem_cons, List.not_mem_nil, or_false] at hv
        rcases hv with rfl | rfl <;> exact Or.inl ⟨_, rfl⟩
      · change _ ≤ maxCount
        decide
    · intro strings hstrings
      rw [htable] at hstrings
      cases hstrings
      decide
  obtain ⟨bytes, hencode, hdecode, -⟩ :=
    canonical_codec_lossless_strict loopFunction hfront
  exact ⟨bytes, hencode, hdecode⟩

end Wiicompiled.CanonicalIrBinaryCodec
