import Wiicompiled.Parsing.RelFile

/-!
# Relocation follows the stream

What a stream of relocation records says about an image, stated without the
loader, and the exact condition under which the loader's image is that image: its
branches are encoded without a check of their reach.
-/

namespace Wiicompiled.Parsing.RelFile

open ByteImage

/-! ## The stream -/

/-- The records from `cursor` on, up to the stop record, each with its place. -/
inductive Stream (file : RelFile) (baseAddress dolBaseAddress moduleId : BitVec 32) :
    ℕ → UInt8 → BitVec 32 → List Placed → Prop
  | stop {cursor current offset r} :
      readRelocation file.raw cursor = some r → r.type = .rvlStop →
      Stream file baseAddress dolBaseAddress moduleId cursor current offset []
  | sect {cursor current offset r ps} :
      readRelocation file.raw cursor = some r → r.type = .rvlSect →
      Stream file baseAddress dolBaseAddress moduleId (cursor + 8) r.symbolSection 0 ps →
      Stream file baseAddress dolBaseAddress moduleId cursor current offset ps
  | record {cursor current offset r next p ps} :
      readRelocation file.raw cursor = some r →
      r.type ≠ .rvlStop → r.type ≠ .rvlSect →
      place file baseAddress dolBaseAddress moduleId current offset r = some (next, p) →
      Stream file baseAddress dolBaseAddress moduleId (cursor + 8) current next ps →
      Stream file baseAddress dolBaseAddress moduleId cursor current offset (p :: ps)

/-- The records of all imports, in stream order. -/
def Records (file : RelFile) (baseAddress dolBaseAddress : BitVec 32)
    (ps : List Placed) : Prop :=
  ∃ streams, ps = List.flatten streams ∧
    List.Forall₂
      (fun entry stream =>
        Stream file baseAddress dolBaseAddress entry.moduleId
          entry.relocationOffset.toNat 0 0 stream)
      file.imports streams

/-! ## What a record says about the image -/

/-- The displacement field of a branch, with its sign. -/
def displacement (word : BitVec 32) : BitVec 32 :=
  ((word &&& 0x03FFFFFC).truncate 26).signExtend 32

/-- The address to which the branch `word` at `address` goes. -/
def branchTarget (word address : BitVec 32) : BitVec 32 :=
  if word.getLsbD 1 then displacement word else address + displacement word

/-- The bytes that a record of this type patches. -/
def RelocationType.width : RelocationType → ℕ
  | .addr32 => 4
  | .addr16Lo => 2
  | .addr16Ha => 2
  | .rel24 => 4
  | _ => 0

/-- The field of a patched record: the target address, its low half, the high half
that a following `addi` of the low half completes, or the displacement of a branch
that goes to the target. -/
def FieldHolds (baseAddress : BitVec 32) (p : Placed) (before after : List UInt8) :
    Prop :=
  let offset := (p.dst - baseAddress).toNat
  match p.type with
  | .rvlNone => True
  | .addr32 => readUInt32 after offset = some p.target
  | .addr16Lo => readUInt16 after offset = some (p.target.truncate 16)
  | .addr16Ha =>
      ∃ high, readUInt16 after offset = some high ∧
        (high.zeroExtend 32) <<< 16 + (p.target.truncate 16).signExtend 32 = p.target
  | .rel24 =>
      ∃ old new, readUInt32 before offset = some old ∧
        readUInt32 after offset = some new ∧
        new &&& 0xFC000003 = old &&& 0xFC000003 ∧
        new &&& 0x03FFFFFC = (p.target - p.dst) &&& 0x03FFFFFC ∧
        branchTarget new p.dst = p.target
  | _ => False

/-- One record changes its field, as it says, and nothing else. -/
structure Relocates (baseAddress : BitVec 32) (p : Placed)
    (before after : List UInt8) : Prop where
  writes : Writes before (p.dst - baseAddress).toNat p.type.width after
  field : FieldHolds baseAddress p before after

/-- Records one after the other. -/
inductive Relocated (baseAddress : BitVec 32) :
    List Placed → List UInt8 → List UInt8 → Prop
  | nil {image} : Relocated baseAddress [] image image
  | cons {p ps before image after} :
      Relocates baseAddress p before image →
      Relocated baseAddress ps image after →
      Relocated baseAddress (p :: ps) before after

/-- The image is the file followed by zeros, changed exactly by the records of all
imports in stream order. -/
def FollowsStream (file : RelFile) (baseAddress dolBaseAddress : BitVec 32)
    (image : List UInt8) : Prop :=
  ∃ ps, Records file baseAddress dolBaseAddress ps ∧
    Relocated baseAddress ps (initialImage file) image

/-! ## The reach of branches -/

/-- A word-aligned distance of less than 32 MiB. -/
def InReach (distance : BitVec 32) : Prop :=
  -2 ^ 25 ≤ distance.toInt ∧ distance.toInt < 2 ^ 25 ∧ (4 : ℤ) ∣ distance.toInt

instance (distance : BitVec 32) : Decidable (InReach distance) :=
  inferInstanceAs (Decidable (_ ∧ _ ∧ _))

/-- Whether the branch `word` at `dst` can be made to go to `target`: a relative
branch when the distance is in reach, an absolute one when the target is and has
the low bits of the distance. -/
def Reaches (word dst target : BitVec 32) : Prop :=
  if word.getLsbD 1 then
    InReach target ∧ (target - dst) &&& 0x03FFFFFC = target &&& 0x03FFFFFC
  else InReach (target - dst)

/-- Every branch record, at its turn, finds a branch that reaches its target. -/
def BranchesReach (baseAddress : BitVec 32) : List Placed → List UInt8 → Prop
  | [], _ => True
  | p :: ps, image =>
      (p.type = .rel24 → ∀ word,
        readUInt32 image (p.dst - baseAddress).toNat = some word →
          Reaches word p.dst p.target) ∧
      ∀ image', patch baseAddress p image = some image' →
        BranchesReach baseAddress ps image'

def BranchesInReach (file : RelFile) (baseAddress dolBaseAddress : BitVec 32) : Prop :=
  ∀ ps, Records file baseAddress dolBaseAddress ps →
    BranchesReach baseAddress ps (initialImage file)

/-! ## Encodings -/

theorem low_half_mask (word : BitVec 32) (h : word.toNat < 2 ^ 16) :
    word &&& (0xFFFF : BitVec 32) = word := by
  have hmask : (0xFFFF : BitVec 32).toNat = 2 ^ 16 - 1 := by decide
  apply BitVec.eq_of_toNat_eq
  rw [BitVec.toNat_and, hmask, Nat.and_two_pow_sub_one_eq_mod, Nat.mod_eq_of_lt h]

theorem low_half_truncate (word : BitVec 32) :
    (word &&& 0xFFFF).truncate 16 = word.truncate 16 := by
  have hmask : (0xFFFF : BitVec 32).toNat = 2 ^ 16 - 1 := by decide
  apply BitVec.eq_of_toNat_eq
  rw [BitVec.truncate_eq_setWidth, BitVec.truncate_eq_setWidth, BitVec.toNat_setWidth,
    BitVec.toNat_setWidth, BitVec.toNat_and, hmask, Nat.and_two_pow_sub_one_eq_mod,
    Nat.mod_mod]

theorem high_add_low (target : BitVec 32) :
    ((((target + 0x8000) >>> 16 &&& 0xFFFF).truncate 16).zeroExtend 32) <<< 16 +
      (target.truncate 16).signExtend 32 = target := by
  have hlt := target.isLt
  have hhigh : ((target + 0x8000) >>> 16).toNat < 2 ^ 16 := by
    rw [BitVec.toNat_ushiftRight, Nat.shiftRight_eq_div_pow]
    have := (target + 0x8000).isLt
    omega
  rw [low_half_mask _ hhigh]
  apply BitVec.eq_of_toNat_eq
  simp only [BitVec.toNat_add, BitVec.toNat_shiftLeft, BitVec.toNat_setWidth,
    BitVec.truncate_eq_setWidth, BitVec.toNat_ushiftRight, Nat.shiftRight_eq_div_pow,
    Nat.shiftLeft_eq, BitVec.toNat_signExtend, BitVec.msb_eq_decide]
  -- the low half is negative exactly when adding 0x8000 carries into the high half
  split <;> rename_i hm
  · simp only [decide_eq_true_eq] at hm
    simp
    omega
  · simp only [decide_eq_true_eq] at hm
    simp
    omega

/-- The high half of an address is the only one that its low half completes. -/
theorem high_half_inj {a b : BitVec 16} {low target : BitVec 32}
    (ha : (a.zeroExtend 32) <<< 16 + low = target)
    (hb : (b.zeroExtend 32) <<< 16 + low = target) : a = b := by
  have hshift : (a.zeroExtend 32) <<< 16 = (b.zeroExtend 32) <<< 16 :=
    (BitVec.add_left_inj _).mp (ha.trans hb.symm)
  have hnat := congrArg BitVec.toNat hshift
  simp only [BitVec.toNat_shiftLeft, BitVec.truncate_eq_setWidth, BitVec.toNat_setWidth,
    Nat.shiftLeft_eq] at hnat
  have := a.isLt
  have := b.isLt
  apply BitVec.eq_of_toNat_eq
  omega

theorem and_displacement_mask_toNat (d : BitVec 32) :
    (d &&& 0x03FFFFFC).toNat = d.toNat % 2 ^ 26 - d.toNat % 4 := by
  have hmask : (0x03FFFFFC : BitVec 32).toNat = (2 ^ 24 - 1) <<< 2 := by decide
  have hbits : d.toNat &&& ((2 ^ 24 - 1) <<< 2) =
      ((d.toNat >>> 2) &&& (2 ^ 24 - 1)) <<< 2 := by
    apply Nat.eq_of_testBit_eq
    intro i
    simp only [Nat.testBit_and, Nat.testBit_shiftLeft, Nat.testBit_shiftRight]
    by_cases h : 2 ≤ i
    · have hadd : 2 + (i - 2) = i := by omega
      simp [h, hadd]
    · simp [h]
  rw [BitVec.toNat_and, hmask, hbits, Nat.and_two_pow_sub_one_eq_mod, Nat.shiftLeft_eq,
    Nat.shiftRight_eq_div_pow]
  omega

theorem displacement_toInt (d : BitVec 32) :
    (displacement d).toInt =
      Int.bmod ((d.toNat % 2 ^ 26 - d.toNat % 4 : ℕ) : ℤ) (2 ^ 26) := by
  rw [displacement, BitVec.toInt_signExtend_of_le (by omega),
    BitVec.truncate_eq_setWidth, BitVec.toInt_setWidth, and_displacement_mask_toNat]

/-- A distance survives its encoding exactly when it is in reach. -/
theorem displacement_eq_iff (distance : BitVec 32) :
    displacement distance = distance ↔ InReach distance := by
  have hlt := distance.isLt
  rw [← BitVec.toInt_inj, displacement_toInt, InReach, BitVec.toInt_eq_toNat_bmod]
  simp only [Int.bmod_def]
  constructor
  · intro h
    split at h <;> split at h <;> split <;> omega
  · rintro ⟨hlow, hhigh, hdvd⟩
    split at hlow <;> split at hhigh <;> split <;> omega

/-- Only the displacement field of a word matters for its displacement. -/
theorem displacement_congr {a b : BitVec 32}
    (h : a &&& 0x03FFFFFC = b &&& 0x03FFFFFC) : displacement a = displacement b := by
  rw [displacement, displacement, h]

theorem displacement_field (d : BitVec 32) :
    displacement d &&& 0x03FFFFFC = d &&& 0x03FFFFFC := by
  have hlt := (displacement d).isLt
  have hint := displacement_toInt d
  rw [BitVec.toInt_eq_toNat_bmod] at hint
  simp only [Int.bmod_def] at hint
  apply BitVec.eq_of_toNat_eq
  rw [and_displacement_mask_toNat, and_displacement_mask_toNat]
  split at hint <;> split at hint <;> omega

section Branch

variable (word distance : BitVec 32)

theorem opcode_field :
    (word &&& 0xFC000003 ||| distance &&& 0x03FFFFFC) &&& 0xFC000003 =
      word &&& 0xFC000003 := by
  have hmask : (0x03FFFFFC : BitVec 32) &&& 0xFC000003 = 0#32 := by decide
  rw [BitVec.and_or_distrib_right, BitVec.and_assoc, BitVec.and_assoc, hmask,
    BitVec.and_self, BitVec.and_zero, BitVec.or_zero]

theorem displacement_field_or :
    (word &&& 0xFC000003 ||| distance &&& 0x03FFFFFC) &&& 0x03FFFFFC =
      distance &&& 0x03FFFFFC := by
  have hmask : (0xFC000003 : BitVec 32) &&& 0x03FFFFFC = 0#32 := by decide
  rw [BitVec.and_or_distrib_right, BitVec.and_assoc, BitVec.and_assoc, hmask,
    BitVec.and_self, BitVec.and_zero, BitVec.zero_or]

theorem absolute_or :
    (word &&& 0xFC000003 ||| distance &&& 0x03FFFFFC).getLsbD 1 = word.getLsbD 1 := by
  have hkept : (0xFC000003 : BitVec 32).getLsbD 1 = true := by decide
  have hfield : (0x03FFFFFC : BitVec 32).getLsbD 1 = false := by decide
  rw [BitVec.getLsbD_or, BitVec.getLsbD_and, BitVec.getLsbD_and, hkept, hfield,
    Bool.and_true, Bool.and_false, Bool.or_false]

theorem eq_of_fields {a b : BitVec 32}
    (hopcode : a &&& 0xFC000003 = b &&& 0xFC000003)
    (hfield : a &&& 0x03FFFFFC = b &&& 0x03FFFFFC) : a = b := by
  have hall : (0xFC000003 : BitVec 32) ||| 0x03FFFFFC = BitVec.allOnes 32 := by decide
  have hsplit : ∀ w : BitVec 32, w = w &&& 0xFC000003 ||| w &&& 0x03FFFFFC := by
    intro w
    rw [← BitVec.and_or_distrib_left, hall, BitVec.and_allOnes]
  rw [hsplit a, hsplit b, hopcode, hfield]

/-- The encoded branch goes to its target exactly when the target is in reach. -/
theorem branchTarget_eq_iff (dst target : BitVec 32) :
    branchTarget (word &&& 0xFC000003 ||| (target - dst) &&& 0x03FFFFFC) dst = target ↔
      Reaches word dst target := by
  have hdisp := displacement_congr (displacement_field_or word (target - dst))
  rw [branchTarget, absolute_or, hdisp, Reaches]
  by_cases habs : word.getLsbD 1
  · rw [if_pos habs, if_pos habs]
    constructor
    · intro h
      have hfield : (target - dst) &&& 0x03FFFFFC = target &&& 0x03FFFFFC := by
        rw [← displacement_field (target - dst), h]
      exact ⟨(displacement_eq_iff target).mp ((displacement_congr hfield).symm.trans h),
        hfield⟩
    · rintro ⟨hreach, hfield⟩
      rw [displacement_congr hfield]
      exact (displacement_eq_iff target).mpr hreach
  · rw [if_neg habs, if_neg habs, ← displacement_eq_iff]
    constructor
    · exact eq_sub_of_add_eq'
    · intro h
      rw [h]
      ring

end Branch

/-! ## One record -/

section Record

variable {baseAddress : BitVec 32} {p : Placed} {memory memory' : List UInt8}

theorem patch_cases (h : patch baseAddress p memory = some memory') :
    ∃ orig, readUInt32 memory (p.dst - baseAddress).toNat = some orig ∧
      ((p.type = .rvlNone ∧ memory' = memory) ∨
        (p.type = .addr32 ∧
          writeUInt32 memory (p.dst - baseAddress).toNat p.target = some memory') ∨
        (p.type = .addr16Lo ∧
          writeUInt16 memory (p.dst - baseAddress).toNat
            ((p.target &&& 0xFFFF).truncate 16) = some memory') ∨
        (p.type = .addr16Ha ∧
          writeUInt16 memory (p.dst - baseAddress).toNat
            (((p.target + 0x8000) >>> 16 &&& 0xFFFF).truncate 16) = some memory') ∨
        (p.type = .rel24 ∧
          writeUInt32 memory (p.dst - baseAddress).toNat
            (orig &&& 0xFC000003 ||| (p.target - p.dst) &&& 0x03FFFFFC) =
              some memory')) := by
  simp only [patch, checkedInt, Option.bind_eq_bind, Option.bind_eq_some_iff,
    Option.ite_none_right_eq_some, Option.some.injEq] at h
  obtain ⟨memIndex, ⟨-, rfl⟩, orig, horig, h⟩ := h
  refine ⟨orig, horig, ?_⟩
  cases htype : p.type <;> simp only [htype] at h <;> simp_all

/-- A record leaves what the stream says, if its branch reaches its target. -/
theorem relocates_of_patch (h : patch baseAddress p memory = some memory')
    (hreach : p.type = .rel24 → ∀ word,
      readUInt32 memory (p.dst - baseAddress).toNat = some word →
        Reaches word p.dst p.target) :
    Relocates baseAddress p memory memory' := by
  obtain ⟨orig, horig, ⟨htype, rfl⟩ | ⟨htype, hwrite⟩ | ⟨htype, hwrite⟩ |
    ⟨htype, hwrite⟩ | ⟨htype, hwrite⟩⟩ := patch_cases h
  · refine ⟨⟨rfl, fun _ _ => rfl⟩, ?_⟩
    simp only [FieldHolds, htype]
  · refine ⟨htype ▸ writes_of_write hwrite, ?_⟩
    simpa only [FieldHolds, htype] using readUInt32_writeUInt32 hwrite
  · refine ⟨htype ▸ writes_of_write hwrite, ?_⟩
    rw [low_half_truncate] at hwrite
    simpa only [FieldHolds, htype] using readUInt16_writeUInt16 hwrite
  · refine ⟨htype ▸ writes_of_write hwrite, ?_⟩
    simp only [FieldHolds, htype]
    exact ⟨_, readUInt16_writeUInt16 hwrite, high_add_low p.target⟩
  · refine ⟨htype ▸ writes_of_write hwrite, ?_⟩
    simp only [FieldHolds, htype]
    exact ⟨orig, _, horig, readUInt32_writeUInt32 hwrite, opcode_field _ _,
      displacement_field_or _ _,
      (branchTarget_eq_iff orig p.dst p.target).mpr (hreach htype orig horig)⟩

/-- A branch record that leaves what the stream says reaches its target. -/
theorem reaches_of_relocates (h : Relocates baseAddress p memory memory')
    (htype : p.type = .rel24) {word : BitVec 32}
    (hword : readUInt32 memory (p.dst - baseAddress).toNat = some word) :
    Reaches word p.dst p.target := by
  have hfield := h.field
  simp only [FieldHolds, htype] at hfield
  obtain ⟨old, new, hold, -, hopcode, hdisp, htarget⟩ := hfield
  obtain rfl : old = word := Option.some.inj (hold.symm.trans hword)
  have hnew : new = old &&& 0xFC000003 ||| (p.target - p.dst) &&& 0x03FFFFFC :=
    eq_of_fields (by rw [hopcode, opcode_field]) (by rw [hdisp, displacement_field_or])
  rw [hnew] at htarget
  exact (branchTarget_eq_iff old p.dst p.target).mp htarget

theorem eq_of_relocates {after : List UInt8}
    (h : patch baseAddress p memory = some memory')
    (hr : Relocates baseAddress p memory after) : after = memory' := by
  have hout : ∀ width, p.type.width = width →
      Writes memory (p.dst - baseAddress).toNat width memory' →
      ∀ i, i < (p.dst - baseAddress).toNat ∨
        (p.dst - baseAddress).toNat + width ≤ i → after[i]? = memory'[i]? := by
    rintro width rfl hw i hi
    rw [hr.writes.others i hi, hw.others i hi]
  have hfield := hr.field
  obtain ⟨orig, horig, ⟨htype, rfl⟩ | ⟨htype, hwrite⟩ | ⟨htype, hwrite⟩ |
    ⟨htype, hwrite⟩ | ⟨htype, hwrite⟩⟩ := patch_cases h <;>
    simp only [FieldHolds, htype] at hfield
  · have hw : Writes memory' (p.dst - baseAddress).toNat 0 memory' :=
      ⟨rfl, fun _ _ => rfl⟩
    apply eq_of_window_eq (hout 0 (by rw [htype]; rfl) hw)
    simp [window]
  · apply eq_of_window_eq (hout 4 (by rw [htype]; rfl) (writes_of_write hwrite))
    exact window_eq_of_read (readUInt32_eq_some_iff.mp hfield)
      (readUInt32_eq_some_iff.mp (readUInt32_writeUInt32 hwrite))
  · rw [low_half_truncate] at hwrite
    apply eq_of_window_eq (hout 2 (by rw [htype]; rfl) (writes_of_write hwrite))
    exact window_eq_of_read (readUInt16_eq_some_iff.mp hfield)
      (readUInt16_eq_some_iff.mp (readUInt16_writeUInt16 hwrite))
  · obtain ⟨high, hhigh, hsum⟩ := hfield
    obtain rfl := high_half_inj hsum (high_add_low p.target)
    apply eq_of_window_eq (hout 2 (by rw [htype]; rfl) (writes_of_write hwrite))
    exact window_eq_of_read (readUInt16_eq_some_iff.mp hhigh)
      (readUInt16_eq_some_iff.mp (readUInt16_writeUInt16 hwrite))
  · obtain ⟨old, new, hold, hnew, hopcode, hdisp, -⟩ := hfield
    obtain rfl : old = orig := Option.some.inj (hold.symm.trans horig)
    obtain rfl : new = old &&& 0xFC000003 ||| (p.target - p.dst) &&& 0x03FFFFFC :=
      eq_of_fields (by rw [hopcode, opcode_field]) (by rw [hdisp, displacement_field_or])
    apply eq_of_window_eq (hout 4 (by rw [htype]; rfl) (writes_of_write hwrite))
    exact window_eq_of_read (readUInt32_eq_some_iff.mp hnew)
      (readUInt32_eq_some_iff.mp (readUInt32_writeUInt32 hwrite))

end Record

/-! ## The whole stream -/

section Whole

variable {file : RelFile} {baseAddress dolBaseAddress : BitVec 32}

/-- The records one after the other, as the loader applies them. -/
def patchAll (baseAddress : BitVec 32) (ps : List Placed) (memory : List UInt8) :
    Option (List UInt8) :=
  ps.foldlM (fun memory p => patch baseAddress p memory) memory

@[simp]
theorem patchAll_nil (memory : List UInt8) :
    patchAll baseAddress [] memory = some memory :=
  rfl

@[simp]
theorem patchAll_cons (p : Placed) (ps : List Placed) (memory : List UInt8) :
    patchAll baseAddress (p :: ps) memory =
      (patch baseAddress p memory).bind fun memory' => patchAll baseAddress ps memory' :=
  rfl

/-- Records that are applied follow the stream exactly when every branch among them
finds its target in reach. -/
theorem relocated_iff {ps : List Placed} {before after : List UInt8}
    (h : patchAll baseAddress ps before = some after) :
    Relocated baseAddress ps before after ↔ BranchesReach baseAddress ps before := by
  induction ps generalizing before with
  | nil =>
      obtain rfl : before = after := Option.some.inj h
      exact ⟨fun _ => trivial, fun _ => .nil⟩
  | cons p ps ih =>
      rw [patchAll_cons, Option.bind_eq_some_iff] at h
      obtain ⟨image, hpatch, hrest⟩ := h
      constructor
      · rintro (_ | ⟨hhead, htail⟩)
        obtain rfl := eq_of_relocates hpatch hhead
        constructor
        · intro htype word hword
          exact reaches_of_relocates hhead htype hword
        · intro image' himage'
          obtain rfl := Option.some.inj (hpatch.symm.trans himage')
          exact (ih hrest).mp htail
      · rintro ⟨hreach, htail⟩
        exact .cons (relocates_of_patch hpatch hreach) ((ih hrest).mpr (htail _ hpatch))

theorem Stream.unique {moduleId : BitVec 32} {cursor : ℕ} {current : UInt8}
    {offset : BitVec 32} {ps qs : List Placed}
    (hp : Stream file baseAddress dolBaseAddress moduleId cursor current offset ps)
    (hq : Stream file baseAddress dolBaseAddress moduleId cursor current offset qs) :
    ps = qs := by
  induction hp generalizing qs with
  | stop hread htype =>
      rcases hq with ⟨hread', htype'⟩ | ⟨hread', htype', -⟩ | ⟨hread', hstop, -, -, -⟩ <;>
        obtain rfl := Option.some.inj (hread.symm.trans hread')
      · rfl
      · exact absurd (htype.symm.trans htype') (by simp)
      · exact absurd htype hstop
  | sect hread htype _ ih =>
      rcases hq with ⟨hread', htype'⟩ | ⟨hread', htype', hrest⟩ |
        ⟨hread', -, hsect, -, -⟩ <;>
        obtain rfl := Option.some.inj (hread.symm.trans hread')
      · exact absurd (htype.symm.trans htype') (by simp)
      · exact ih hrest
      · exact absurd htype hsect
  | record hread hstop hsect hplace _ ih =>
      rcases hq with ⟨hread', htype'⟩ | ⟨hread', htype', -⟩ |
        ⟨hread', -, -, hplace', hrest⟩ <;>
        obtain rfl := Option.some.inj (hread.symm.trans hread')
      · exact absurd htype' hstop
      · exact absurd htype' hsect
      · obtain ⟨rfl, rfl⟩ := Prod.mk.inj (Option.some.inj (hplace.symm.trans hplace'))
        rw [ih hrest]

theorem Records.unique {ps qs : List Placed}
    (hp : Records file baseAddress dolBaseAddress ps)
    (hq : Records file baseAddress dolBaseAddress qs) : ps = qs := by
  obtain ⟨streams, rfl, hstreams⟩ := hp
  obtain ⟨streams', rfl, hstreams'⟩ := hq
  suffices h : streams = streams' by rw [h]
  generalize file.imports = entries at hstreams hstreams'
  induction hstreams generalizing streams' with
  | nil =>
      cases hstreams'
      rfl
  | cons hhead _ ih =>
      cases hstreams' with
      | cons hhead' htail' => rw [hhead.unique hhead', ih _ htail']

/-- A record that is neither a section change nor the stop is placed and applied. -/
theorem applyImport_record {moduleId : BitVec 32} {fuel cursor : ℕ} {current : UInt8}
    {offset : BitVec 32} {memory : List UInt8} {r : Relocation}
    (hread : readRelocation file.raw cursor = some r) (hstop : r.type ≠ .rvlStop)
    (hsect : r.type ≠ .rvlSect) :
    applyImport file baseAddress dolBaseAddress moduleId (fuel + 1) cursor current offset
        memory =
      (place file baseAddress dolBaseAddress moduleId current offset r).bind fun placed =>
        (patch baseAddress placed.2 memory).bind fun memory' =>
          applyImport file baseAddress dolBaseAddress moduleId fuel (cursor + 8) current
            placed.1 memory' := by
  rw [applyImport, hread]
  obtain ⟨delta, type, symbol, addend⟩ := r
  cases type <;> first | rfl | contradiction

/-- An import that the loader applies has a stream, and applies its records. -/
theorem stream_of_applyImport {moduleId : BitVec 32} {fuel cursor : ℕ}
    {current : UInt8} {offset : BitVec 32} {before after : List UInt8}
    (h : applyImport file baseAddress dolBaseAddress moduleId fuel cursor current offset
      before = some after) :
    ∃ ps, Stream file baseAddress dolBaseAddress moduleId cursor current offset ps ∧
      patchAll baseAddress ps before = some after := by
  induction fuel generalizing cursor current offset before with
  | zero => exact absurd h (by simp [applyImport])
  | succ fuel ih =>
      have hall := h
      simp only [applyImport, Option.bind_eq_bind, Option.bind_eq_some_iff] at h
      obtain ⟨r, hread, h⟩ := h
      by_cases hstop : r.type = .rvlStop
      · simp only [hstop, Option.some.injEq] at h
        exact ⟨[], .stop hread hstop, by rw [patchAll_nil, h]⟩
      · by_cases hsect : r.type = .rvlSect
        · simp only [hsect] at h
          obtain ⟨ps, hstream, hall⟩ := ih h
          exact ⟨ps, .sect hread hsect hstream, hall⟩
        · rw [applyImport_record hread hstop hsect] at hall
          simp only [Option.bind_eq_some_iff, Prod.exists] at hall
          obtain ⟨next, p, hplace, image, hpatch, hrest⟩ := hall
          obtain ⟨ps, hstream, hall⟩ := ih hrest
          refine ⟨p :: ps, .record hread hstop hsect hplace hstream, ?_⟩
          rw [patchAll_cons, hpatch, Option.bind_some, hall]

theorem records_of_applyRelocations {before after : List UInt8}
    (h : applyRelocations file baseAddress dolBaseAddress before = some after) :
    ∃ ps, Records file baseAddress dolBaseAddress ps ∧
      patchAll baseAddress ps before = some after := by
  suffices hstreams : ∃ streams,
      List.Forall₂
        (fun entry stream =>
          Stream file baseAddress dolBaseAddress entry.moduleId
            entry.relocationOffset.toNat 0 0 stream)
        file.imports streams ∧
      patchAll baseAddress streams.flatten before = some after by
    obtain ⟨streams, hforall, hall⟩ := hstreams
    exact ⟨_, ⟨streams, rfl, hforall⟩, hall⟩
  unfold applyRelocations at h
  generalize file.imports = entries at h
  induction entries generalizing before with
  | nil => exact ⟨[], .nil, h⟩
  | cons entry entries ih =>
      rw [List.foldlM_cons, Option.bind_eq_bind, Option.bind_eq_some_iff] at h
      obtain ⟨image, hentry, hrest⟩ := h
      obtain ⟨ps, hstream, hall⟩ := stream_of_applyImport hentry
      obtain ⟨streams, hforall, htail⟩ := ih hrest
      refine ⟨ps :: streams, .cons hstream hforall, ?_⟩
      rw [List.flatten_cons, patchAll, List.foldlM_append]
      change (patchAll baseAddress ps before).bind _ = _
      rw [hall]
      exact htail

theorem followsStream_iff {image : List UInt8}
    (h : buildImage file baseAddress dolBaseAddress true = some image) :
    FollowsStream file baseAddress dolBaseAddress image ↔
      BranchesInReach file baseAddress dolBaseAddress := by
  simp only [buildImage, if_true, Option.bind_eq_bind, Option.bind_eq_some_iff,
    Option.some.injEq] at h
  obtain ⟨-, -, -, -, buffer, happly, -, -, rfl⟩ := h
  obtain ⟨ps, hrecords, hall⟩ := records_of_applyRelocations happly
  constructor
  · rintro ⟨qs, hqs, hfollows⟩ rs hrs
    obtain rfl := hrecords.unique hqs
    obtain rfl := hrecords.unique hrs
    exact (relocated_iff hall).mp hfollows
  · intro hreach
    exact ⟨ps, hrecords, (relocated_iff hall).mpr (hreach ps hrecords)⟩

/-- When the loader accepts a file and its image is built, the image is the file
followed by zeros, changed exactly as the records of all imports say, if and only if
every branch record finds its target in reach. -/
theorem buildImage_follows_stream_iff {raw : List UInt8} {image : List UInt8}
    (_hload : load raw = some file)
    (h : buildImage file baseAddress dolBaseAddress true = some image) :
    FollowsStream file baseAddress dolBaseAddress image ↔
      BranchesInReach file baseAddress dolBaseAddress :=
  followsStream_iff h

end Whole

/-! ## A branch to the main executable -/

/-- A module whose section 1 is the one instruction `bl`, which its import 0 relocates
to the address 0x80004000 of the main executable. -/
def oneCall : List UInt8 :=
  List.replicate 0x0C 0 ++ toBytes 4 2 ++ toBytes 4 0x48 ++ List.replicate 0x14 0 ++
    toBytes 4 0x58 ++ toBytes 4 8 ++ List.replicate 0x18 0 ++
    -- the section table
    List.replicate 8 0 ++ toBytes 4 0x61 ++ toBytes 4 4 ++
    -- the import table
    toBytes 4 0 ++ toBytes 4 0x64 ++
    -- the section
    toBytes 4 0x48000001 ++
    -- the records: section 1, the branch, stop
    toBytes 4 0x0000CA01 ++ toBytes 4 0 ++
    toBytes 4 0x00000A00 ++ toBytes 4 0x80004000 ++
    toBytes 4 0x0000CB00 ++ toBytes 4 0

def oneCallFile : RelFile where
  raw := oneCall
  sections := [⟨0, 0xA0, 0, false⟩, ⟨1, 0x60, 4, true⟩]
  imports := [⟨0, 0x64⟩]
  totalSize := 0xA0

/-- The image of the module, with the given word in place of its instruction. -/
def oneCallImage (word : ℕ) : List UInt8 :=
  splice (initialImage oneCallFile) 0x60 (toBytes 4 word)

theorem oneCall_load : load oneCall = some oneCallFile := by
  decide +kernel

def oneCallBranch (baseAddress : BitVec 32) : Placed :=
  ⟨.rel24, baseAddress + 0x60 + 0, 0x80004000⟩

theorem oneCall_records (baseAddress : BitVec 32) :
    Records oneCallFile baseAddress dolBaseAddress [oneCallBranch baseAddress] := by
  refine ⟨[[oneCallBranch baseAddress]], rfl, .cons ?_ .nil⟩
  have hsect : readRelocation oneCall 0x64 = some ⟨0, .rvlSect, 1, 0⟩ := by
    decide +kernel
  have hbranch : readRelocation oneCall 0x6C = some ⟨0, .rel24, 0, 0x80004000⟩ := by
    decide +kernel
  have hstop : readRelocation oneCall 0x74 = some ⟨0, .rvlStop, 0, 0⟩ := by
    decide +kernel
  exact .sect hsect rfl
    (.record hbranch (by decide) (by decide) rfl (.stop hstop rfl))

theorem oneCall_inReach_iff (baseAddress : BitVec 32) :
    BranchesInReach oneCallFile baseAddress dolBaseAddress ↔
      InReach (0x80004000 - (baseAddress + 0x60 + 0)) := by
  have hword : readUInt32 (initialImage oneCallFile) 0x60 = some 0x48000001 := by
    decide +kernel
  have hoffset : (oneCallBranch baseAddress).dst - baseAddress = 0x60 := by
    simp only [oneCallBranch]
    ring
  have hrelative : ¬(0x48000001 : BitVec 32).getLsbD 1 = true := by decide
  constructor
  · intro h
    have hreach := (h _ (oneCall_records baseAddress)).1 rfl 0x48000001
      (by rw [hoffset]; exact hword)
    rwa [Reaches, if_neg hrelative] at hreach
  · intro hreach ps hps
    obtain rfl := hps.unique (oneCall_records baseAddress)
    refine ⟨?_, fun _ _ => trivial⟩
    rintro - word hread
    rw [hoffset] at hread
    obtain rfl := Option.some.inj (hword.symm.trans hread)
    rwa [Reaches, if_neg hrelative]

/-- Loaded more than 32 MiB from its target, the branch is encoded all the same, and
goes somewhere else. -/
theorem oneCall_far_not_follows :
    ∃ file image, load oneCall = some file ∧
      buildImage file 0x90000000 dolBaseAddress true = some image ∧
      ¬FollowsStream file 0x90000000 dolBaseAddress image := by
  have hbuild : buildImage oneCallFile 0x90000000 dolBaseAddress true =
      some (oneCallImage 0x48003FA1) := by
    decide +kernel
  refine ⟨oneCallFile, _, oneCall_load, hbuild, ?_⟩
  rw [followsStream_iff hbuild, oneCall_inReach_iff]
  decide

/-- In reach of its target, the image of the module follows the stream. -/
theorem oneCall_near_follows :
    ∃ file image, load oneCall = some file ∧
      buildImage file 0x80500000 dolBaseAddress true = some image ∧
      FollowsStream file 0x80500000 dolBaseAddress image := by
  have hbuild : buildImage oneCallFile 0x80500000 dolBaseAddress true =
      some (oneCallImage 0x4BB03FA1) := by
    decide +kernel
  refine ⟨oneCallFile, _, oneCall_load, hbuild, ?_⟩
  apply (buildImage_follows_stream_iff oneCall_load hbuild).mpr
  rw [oneCall_inReach_iff]
  decide

end Wiicompiled.Parsing.RelFile
