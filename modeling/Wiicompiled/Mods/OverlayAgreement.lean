import Wiicompiled.Mods.ModDataPatchWriter

/-!
# Overlays and patched memory

The overlay of a base function and the part of guest memory that the generated
start-up code patches: the two applications of a command agree exactly when the
command lies in its function and its operands have the width of its write.
-/

namespace Wiicompiled.Mods.OverlayAgreement

open ByteImage FlatMemory Reordering OverlayFunctionBuilder ModDataPatchWriter

/-! ## A statement on an image -/

/-- The effect of a statement on an image in which its address has this offset. -/
def applyStatement (s : Statement) (image : List UInt8) (offset : ℕ) :
    Option (List UInt8 × Bool) :=
  match s with
  | .write width _ value => applyWrite image offset width value.toNat
  | .conditional width _ expected value =>
      applyConditionalWrite image offset width expected.toNat value.toNat
  | .rel24 address target => do
      let original ← readUInt32 image offset
      let delta := target - address
      ensure (inBranchRange delta)
      applyWrite image offset 4 (original &&& 0xFC000003 ||| delta &&& 0x03FFFFFC).toNat
  | .branch address target link => do
      let patched ← encodeBranch address target link
      applyWrite image offset 4 patched.toNat

/-- The operands of a narrow write are numbers of its width. -/
def operandsFit (id : KamekCommandId) (argument : ℕ → BitVec 32) : Bool :=
  match id with
  | .write16 => (argument 0).toNat < 256 ^ 2
  | .write8 => (argument 0).toNat < 256 ^ 1
  | .condWrite16 => (argument 1).toNat < 256 ^ 2 && (argument 0).toNat < 256 ^ 2
  | .condWrite8 => (argument 1).toNat < 256 ^ 1 && (argument 0).toNat < 256 ^ 1
  | _ => true

theorem and_half_toNat {value : BitVec 32} (h : value.toNat < 256 ^ 2) :
    (value &&& 0xFFFF).toNat = value.toNat := by
  have hmask : (0xFFFF : BitVec 32).toNat = 2 ^ 16 - 1 := by decide
  have hlt : value.toNat < 2 ^ 16 := h
  rw [BitVec.toNat_and, hmask, Nat.and_two_pow_sub_one_eq_mod, Nat.mod_eq_of_lt hlt]

theorem and_byte_toNat {value : BitVec 32} (h : value.toNat < 256 ^ 1) :
    (value &&& 0xFF).toNat = value.toNat := by
  have hmask : (0xFF : BitVec 32).toNat = 2 ^ 8 - 1 := by decide
  have hlt : value.toNat < 2 ^ 8 := h
  rw [BitVec.toNat_and, hmask, Nat.and_two_pow_sub_one_eq_mod, Nat.mod_eq_of_lt hlt]

theorem bind_checkedNarrow {width : ℕ} {value : BitVec 32} (k : ℕ → Option α) :
    (checkedNarrow width value).bind k =
      if value.toNat < 256 ^ width then k value.toNat else none := by
  unfold checkedNarrow
  split <;> rfl

/-- The overlay builder applies to an image the statement that the writer emits for
memory, if the operands have the width of the write. -/
theorem applyPatch_eq (image : List UInt8) (start base : BitVec 32)
    (p : KamekPatchClassification) :
    applyPatch image start p.commandAddress p.commandId p.argument base =
      (checkedInt (p.commandAddress - start)).bind fun offset =>
        if operandsFit p.commandId p.argument then
          (emitBaseExecutablePatch base p).bind fun s => applyStatement s image offset
        else none := by
  unfold applyPatch
  congr 1
  funext offset
  cases hid : p.commandId <;>
    simp only [emitBaseExecutablePatch, hid, operandsFit, Option.bind_eq_bind,
      Option.bind_map, Function.comp_def, applyStatement, if_true, Option.bind_some,
      Bool.and_eq_true, decide_eq_true_eq]
  case write16 =>
    rw [bind_checkedNarrow]
    split
    · next h => rw [and_half_toNat h]
    · rfl
  case write8 =>
    rw [bind_checkedNarrow]
    split
    · next h => rw [and_byte_toNat h]
    · rfl
  case condWritePointer => rfl
  case condWrite32 => rfl
  case condWrite16 =>
    rw [bind_checkedNarrow]
    by_cases hexpected : (p.argument 1).toNat < 256 ^ 2
    · rw [if_pos hexpected, bind_checkedNarrow]
      by_cases hvalue : (p.argument 0).toNat < 256 ^ 2
      · rw [if_pos hvalue, if_pos ⟨hexpected, hvalue⟩, and_half_toNat hexpected,
          and_half_toNat hvalue]
        rfl
      · rw [if_neg hvalue, if_neg fun h => hvalue h.2]
    · rw [if_neg hexpected, if_neg fun h => hexpected h.1]
  case condWrite8 =>
    rw [bind_checkedNarrow]
    by_cases hexpected : (p.argument 1).toNat < 256 ^ 1
    · rw [if_pos hexpected, bind_checkedNarrow]
      by_cases hvalue : (p.argument 0).toNat < 256 ^ 1
      · rw [if_pos hvalue, if_pos ⟨hexpected, hvalue⟩, and_byte_toNat hexpected,
          and_byte_toNat hvalue]
        rfl
      · rw [if_neg hvalue, if_neg fun h => hvalue h.2]
    · rw [if_neg hexpected, if_neg fun h => hexpected h.1]
  case branch => rfl
  case branchLink => rfl

/-! ## A statement on an image of memory -/

/-- The address and the width of the write of a statement. -/
def Statement.place : Statement → BitVec 32 × ℕ
  | .write width address _ => (address, width)
  | .conditional width address _ _ => (address, width)
  | .rel24 address _ => (address, 4)
  | .branch address _ _ => (address, 4)

theorem place_emit {base : BitVec 32} {p : KamekPatchClassification} {s : Statement}
    (h : emitBaseExecutablePatch base p = some s) :
    Statement.place s = (p.commandAddress, commandWidth p.commandId) := by
  cases hid : p.commandId <;>
    simp only [emitBaseExecutablePatch, hid, Option.map_eq_some_iff,
      Option.some.injEq] at h
  all_goals
    obtain ⟨target, -, rfl⟩ := h
    rfl

section Image

variable {memory memory' : Memory} {start address : BitVec 32} {size offset width : ℕ}

theorem read_load (h : offset + width ≤ size) :
    ByteImage.read (load memory start size) offset width =
      some (readMemory memory (start + BitVec.ofNat 32 offset) width) := by
  rw [read_eq_some_iff, length_load, window_load h]
  exact ⟨h, rfl⟩

theorem applyWrite_load (hsize : size ≤ 2 ^ 32) (h : offset + width ≤ size)
    (value : ℕ) :
    applyWrite (load memory start size) offset width value =
      some (load (writeMemory memory (start + BitVec.ofNat 32 offset) width value) start
        size, true) := by
  have hlen : offset + (toBytes width value).length ≤ size := by simpa using h
  rw [applyWrite, ByteImage.write, length_load, if_pos h, Option.map_some, writeMemory,
    load_store hsize hlen]

/-- A statement whose write lies in the image does there what it does in memory, and
is skipped there only if it is skipped in memory. -/
theorem applyStatement_load {s : Statement} (hsize : size ≤ 2 ^ 32)
    (haddress : (Statement.place s).1 = start + BitVec.ofNat 32 offset)
    (h : offset + (Statement.place s).2 ≤ size) (hrun : s.run memory = some memory') :
    ∃ applied, applyStatement s (load memory start size) offset =
      some (load memory' start size, applied) ∧ (applied = false → memory' = memory) := by
  cases s with
  | write width address value =>
      obtain rfl : address = start + BitVec.ofNat 32 offset := haddress
      obtain rfl := Option.some.inj hrun
      exact ⟨true, applyWrite_load hsize h _, by simp⟩
  | conditional width address expected value =>
      obtain rfl : address = start + BitVec.ofNat 32 offset := haddress
      simp only [Statement.place] at h
      rw [Statement.run] at hrun
      rw [applyStatement, applyConditionalWrite, read_load h, Option.bind_some]
      split at hrun
      · next heq =>
          obtain rfl := Option.some.inj hrun
          rw [if_neg (not_not.mpr heq), applyWrite_load hsize h]
          exact ⟨true, rfl, by simp⟩
      · next hne =>
          obtain rfl := Option.some.inj hrun
          rw [if_pos hne]
          exact ⟨false, rfl, fun _ => rfl⟩
  | rel24 address target =>
      obtain rfl : address = start + BitVec.ofNat 32 offset := haddress
      simp only [Statement.place] at h
      simp only [Statement.run, Option.ite_none_right_eq_some, Option.some.injEq] at hrun
      obtain ⟨hrange, rfl⟩ := hrun
      refine ⟨true, ?_, by simp⟩
      simp only [applyStatement, readUInt32, read_load h, Option.map_some,
        Option.bind_eq_bind, Option.bind_some, ensure, hrange, if_true,
        applyWrite_load hsize h]
  | branch address target link =>
      obtain rfl : address = start + BitVec.ofNat 32 offset := haddress
      simp only [Statement.place] at h
      simp only [Statement.run, Option.map_eq_some_iff] at hrun
      obtain ⟨instruction, hencode, rfl⟩ := hrun
      refine ⟨true, ?_, by simp⟩
      simp only [applyStatement, hencode, Option.bind_eq_bind, Option.bind_some,
        applyWrite_load hsize h]

theorem applyStatement_outside {s : Statement} {image : List UInt8}
    (h : image.length < offset + (Statement.place s).2) :
    applyStatement s image offset = none := by
  have hwrite : ∀ value, applyWrite image offset (Statement.place s).2 value = none := by
    intro value
    rw [applyWrite, ByteImage.write, if_neg (by omega), Option.map_none]
  cases s with
  | write width address value => exact hwrite _
  | conditional width address expected value =>
      rw [applyStatement, applyConditionalWrite, ByteImage.read,
        if_neg (by simp only [Statement.place] at h; omega), Option.bind_none]
  | rel24 address target =>
      rw [applyStatement, readUInt32, ByteImage.read,
        if_neg (by simp only [Statement.place] at h; omega)]
      rfl
  | branch address target link =>
      rw [applyStatement]
      cases encodeBranch address target link with
      | none => rfl
      | some patched => exact hwrite _

theorem run_frame {s : Statement} (h : s.run memory = some memory') {x : BitVec 32}
    (hx : x ∉ range (Statement.place s).1 (Statement.place s).2) :
    memory' x = memory x := by
  have hwrite : ∀ value,
      writeMemory memory (Statement.place s).1 (Statement.place s).2 value x = memory x := by
    intro value
    exact store_of_notMem (by rwa [length_toBytes])
  cases s with
  | write width address value =>
      obtain rfl := Option.some.inj h
      exact hwrite _
  | conditional width address expected value =>
      rw [Statement.run] at h
      split at h <;> obtain rfl := Option.some.inj h
      · exact hwrite _
      · rfl
  | rel24 address target =>
      simp only [Statement.run, Option.ite_none_right_eq_some, Option.some.injEq] at h
      obtain ⟨-, rfl⟩ := h
      exact hwrite _
  | branch address target link =>
      simp only [Statement.run, Option.map_eq_some_iff] at h
      obtain ⟨instruction, -, rfl⟩ := h
      exact hwrite _

def Holds (memory : Memory) (address : BitVec 32) (width value : ℕ) : Prop :=
  load memory address width = toBytes width value

/-- The value that a statement writes is in memory already, or its test fails. -/
def Idle (s : Statement) (memory : Memory) : Prop :=
  match s with
  | .write width address value => Holds memory address width value.toNat
  | .conditional width address expected value =>
      readMemory memory address width = expected.toNat →
        Holds memory address width value.toNat
  | .rel24 address target =>
      Holds memory address 4 (BitVec.ofNat 32 (readMemory memory address 4) &&&
        0xFC000003 ||| (target - address) &&& 0x03FFFFFC).toNat
  | .branch address target link =>
      ∀ instruction, encodeBranch address target link = some instruction →
        Holds memory address 4 instruction.toNat

theorem writeMemory_eq_self_iff {value : ℕ} (hwidth : width ≤ 2 ^ 32) :
    writeMemory memory address width value = memory ↔
      Holds memory address width value := by
  rw [writeMemory, store_eq_self_iff (by rwa [length_toBytes]), length_toBytes, Holds]

theorem run_eq_self_iff {s : Statement} (hwidth : (Statement.place s).2 ≤ 2 ^ 32)
    (h : s.run memory = some memory') : memory' = memory ↔ Idle s memory := by
  cases s with
  | write width address value =>
      obtain rfl := Option.some.inj h
      exact writeMemory_eq_self_iff hwidth
  | conditional width address expected value =>
      rw [Statement.run] at h
      split at h <;> obtain rfl := Option.some.inj h
      case isTrue htest =>
        apply (writeMemory_eq_self_iff hwidth).trans
        exact ⟨fun hheld _ => hheld, fun hidle => hidle htest⟩
      case isFalse htest =>
        exact iff_of_true rfl fun heq => absurd heq htest
  | rel24 address target =>
      simp only [Statement.run, Option.ite_none_right_eq_some, Option.some.injEq] at h
      obtain ⟨-, rfl⟩ := h
      exact writeMemory_eq_self_iff hwidth
  | branch address target link =>
      simp only [Statement.run, Option.map_eq_some_iff] at h
      obtain ⟨instruction, hinstruction, rfl⟩ := h
      apply (writeMemory_eq_self_iff hwidth).trans
      constructor
      · intro hheld other hother
        rwa [← Option.some.inj (hinstruction.symm.trans hother)]
      · intro hidle
        exact hidle instruction hinstruction

end Image

/-! ## A patch on both sides -/

def patchEffect (base : BitVec 32) (c : KamekPatchClassification) (memory : Memory) :
    Option Memory :=
  (emitBaseExecutablePatch base c).bind fun s => s.run memory

theorem patchEffect_eq_self_iff {base : BitVec 32} {c : KamekPatchClassification}
    {s : Statement} {memory memory' : Memory}
    (hs : emitBaseExecutablePatch base c = some s)
    (h : patchEffect base c memory = some memory') : memory' = memory ↔ Idle s memory := by
  rw [patchEffect, hs, Option.bind_some] at h
  exact run_eq_self_iff (by rw [place_emit hs]; exact commandWidth_le _) h

/-- The number of bytes of a function. -/
def functionSize (f : BaseFunctionRange) : ℕ :=
  (f.stop - f.start).toNat

/-- The patch writes inside of its function, and its operands have the width of the
write. -/
def Fits (f : BaseFunctionRange) (c : KamekPatchClassification) : Prop :=
  (c.commandAddress - f.start).toNat + commandWidth c.commandId ≤ functionSize f ∧
    operandsFit c.commandId c.argument = true

/-- The executable patches, in the order in which both sides apply them. -/
def executablePatches (plan : List KamekPatchClassification) :
    List KamekPatchClassification :=
  orderByAddress (ofKind plan .baseExecutablePatch)

/-- Whether a patch belongs to the overlay of `f`. -/
def inGroup (f : BaseFunctionRange) (c : KamekPatchClassification) : Bool :=
  (c.containingFunction.map BaseFunctionRange.start) = some f.start

/-- The overlay of `f` after some of the patches. -/
def overlayAfter (chunk : KamekChunk) (base : BitVec 32) (f : BaseFunctionRange)
    (bytes : List UInt8) (patches : List KamekPatchClassification) :
    Option (List UInt8 × List PatchApplicationRecord) :=
  (patches.filter (inGroup f)).foldlM (overlayStep chunk f base) (bytes, [])

theorem applyWrite_length {image image' : List UInt8} {offset width value : ℕ}
    {applied : Bool} (h : applyWrite image offset width value = some (image', applied)) :
    image'.length = image.length := by
  obtain ⟨image'', hwrite, hpair⟩ := Option.map_eq_some_iff.mp h
  obtain ⟨rfl, -⟩ := Prod.mk.inj hpair
  exact (writes_of_write hwrite).length

theorem applyPatch_length {image image' : List UInt8} {start base : BitVec 32}
    {c : KamekPatchClassification} {applied : Bool}
    (h : applyPatch image start c.commandAddress c.commandId c.argument base =
      some (image', applied)) : image'.length = image.length := by
  rw [applyPatch_eq] at h
  obtain ⟨offset, -, h⟩ := Option.bind_eq_some_iff.mp h
  rw [Option.ite_none_right_eq_some] at h
  obtain ⟨-, h⟩ := h
  obtain ⟨s, -, h⟩ := Option.bind_eq_some_iff.mp h
  cases s with
  | write width address value => exact applyWrite_length h
  | conditional width address expected value =>
      rw [applyStatement, applyConditionalWrite] at h
      obtain ⟨actual, -, h⟩ := Option.bind_eq_some_iff.mp h
      split at h
      · rw [← (Prod.mk.inj (Option.some.inj h)).1]
      · exact applyWrite_length h
  | rel24 address target =>
      simp only [applyStatement, Option.bind_eq_bind, Option.bind_eq_some_iff] at h
      obtain ⟨_, -, _, -, hwrite⟩ := h
      exact applyWrite_length hwrite
  | branch address target link =>
      simp only [applyStatement, Option.bind_eq_bind, Option.bind_eq_some_iff] at h
      obtain ⟨_, -, hwrite⟩ := h
      exact applyWrite_length hwrite

theorem applyPatch_skipped {image image' : List UInt8} {start base : BitVec 32}
    {c : KamekPatchClassification}
    (h : applyPatch image start c.commandAddress c.commandId c.argument base =
      some (image', false)) : image' = image := by
  rw [applyPatch_eq] at h
  obtain ⟨offset, -, h⟩ := Option.bind_eq_some_iff.mp h
  rw [Option.ite_none_right_eq_some] at h
  obtain ⟨-, h⟩ := h
  obtain ⟨s, -, h⟩ := Option.bind_eq_some_iff.mp h
  have happlied : ∀ {width value}, applyWrite image offset width value ≠
      some (image', false) := by
    intro width value hw
    obtain ⟨image'', -, hpair⟩ := Option.map_eq_some_iff.mp hw
    exact absurd (Prod.mk.inj hpair).2 (by simp)
  cases s with
  | write width address value => exact absurd h happlied
  | conditional width address expected value =>
      rw [applyStatement, applyConditionalWrite] at h
      obtain ⟨actual, -, h⟩ := Option.bind_eq_some_iff.mp h
      split at h
      · exact (Prod.mk.inj (Option.some.inj h)).1.symm
      · exact absurd h happlied
  | rel24 address target =>
      simp only [applyStatement, Option.bind_eq_bind, Option.bind_eq_some_iff] at h
      obtain ⟨_, -, _, -, hwrite⟩ := h
      exact absurd hwrite happlied
  | branch address target link =>
      simp only [applyStatement, Option.bind_eq_bind, Option.bind_eq_some_iff] at h
      obtain ⟨_, -, hwrite⟩ := h
      exact absurd hwrite happlied

/-- What one step of an overlay does: the image of the patch when it did not throw,
and a record that says so. -/
theorem overlayStep_cases {chunk : KamekChunk} {base : BitVec 32} {f : BaseFunctionRange}
    {c : KamekPatchClassification}
    {state state' : List UInt8 × List PatchApplicationRecord}
    (h : overlayStep chunk f base state c = some state') :
    ∃ record, state'.2 = state.2 ++ [record] ∧
      ((∃ applied, applyPatch state.1 f.start c.commandAddress c.commandId c.argument base =
          some (state'.1, applied) ∧ (record.status = .applied ↔ applied = true)) ∨
        (applyPatch state.1 f.start c.commandAddress c.commandId c.argument base = none ∧
          state'.1 = state.1 ∧ record.status = .failed)) := by
  simp only [overlayStep, Option.bind_eq_bind, Option.bind_eq_some_iff] at h
  obtain ⟨command, hfind, ⟨bytes, record⟩, hpatch, hstate⟩ := h
  obtain rfl := Option.some.inj hstate
  have hfound := List.find?_some hfind
  simp only [Bool.and_eq_true, decide_eq_true_eq] at hfound
  obtain ⟨⟨⟨hid, -⟩, -⟩, harguments⟩ := hfound
  obtain ⟨target, -, hpair⟩ := Option.map_eq_some_iff.mp hpatch
  have hargument : (fun i => command.arguments.getD i 0) = c.argument := by
    funext i
    rw [harguments]
    rfl
  rw [hid, hargument] at hpair
  refine ⟨record, rfl, ?_⟩
  split at hpair <;> next heq =>
    obtain ⟨rfl, rfl⟩ := Prod.mk.inj hpair
    first
      | exact .inl ⟨true, heq, by simp⟩
      | exact .inl ⟨false, heq, by simp⟩
      | exact .inr ⟨heq, rfl, rfl⟩

theorem overlayAfter_length {chunk : KamekChunk} {base : BitVec 32}
    {f : BaseFunctionRange} {bytes : List UInt8} {patches : List KamekPatchClassification}
    {state : List UInt8 × List PatchApplicationRecord}
    (h : overlayAfter chunk base f bytes patches = some state) :
    state.1.length = bytes.length := by
  unfold overlayAfter at h
  generalize patches.filter (inGroup f) = own at h
  induction own using List.reverseRecOn generalizing state with
  | nil =>
      obtain rfl := Option.some.inj h
      rfl
  | append_singleton own c ih =>
      rw [List.foldlM_append, Option.bind_eq_bind, Option.bind_eq_some_iff] at h
      obtain ⟨state₁, hown, hlast⟩ := h
      rw [List.foldlM_cons, Option.bind_eq_bind, Option.bind_eq_some_iff] at hlast
      obtain ⟨state₂, hstep, hdone⟩ := hlast
      obtain rfl := Option.some.inj hdone
      obtain ⟨record, -, ⟨applied, happly, -⟩ | ⟨-, hsame, -⟩⟩ := overlayStep_cases hstep
      · rw [applyPatch_length happly, ih hown]
      · rw [hsame, ih hown]

theorem overlayStep_silent {chunk : KamekChunk} {base : BitVec 32} {f : BaseFunctionRange}
    {c : KamekPatchClassification}
    {state state' : List UInt8 × List PatchApplicationRecord}
    {record : PatchApplicationRecord} (h : overlayStep chunk f base state c = some state')
    (hrecord : state'.2 = state.2 ++ [record]) (hstatus : record.status ≠ .applied) :
    state'.1 = state.1 := by
  obtain ⟨record', hrecord', ⟨applied, happly, hiff⟩ | ⟨-, hsame, -⟩⟩ :=
    overlayStep_cases h
  · obtain rfl : record = record' := by
      simpa using List.append_cancel_left (hrecord.symm.trans hrecord')
    cases applied with
    | true => exact absurd (hiff.mpr rfl) hstatus
    | false => exact applyPatch_skipped happly
  · exact hsame

/-! ## One patch and one function -/

section Function

variable {chunk : KamekChunk} {base : BitVec 32} {f g : BaseFunctionRange}
  {c : KamekPatchClassification} {memory memory' : Memory}
  {state state' : List UInt8 × List PatchApplicationRecord}

theorem mem_function_range_iff (h : f.start < f.stop) {x : BitVec 32} :
    x ∈ range f.start (functionSize f) ↔ f.start ≤ x ∧ x < f.stop := by
  rw [mem_range_iff, functionSize]
  constructor
  · intro hx
    constructor <;> bv_omega
  · rintro ⟨hstart, hstop⟩
    bv_omega

theorem range_subset_of_fits (hstart : g.start ≤ c.commandAddress)
    (hstop : c.commandAddress < g.stop) (hfits : Fits g c) {x : BitVec 32}
    (hx : x ∈ range c.commandAddress (commandWidth c.commandId)) :
    g.start ≤ x ∧ x < g.stop := by
  have hbound := hfits.1
  rw [functionSize] at hbound
  rw [mem_range_iff] at hx
  constructor <;> bv_omega

theorem applyPatch_of_not_fits {image : List UInt8} (hlen : image.length = functionSize f)
    (hfits : ¬Fits f c) :
    applyPatch image f.start c.commandAddress c.commandId c.argument base = none := by
  rw [applyPatch_eq, Option.bind_eq_none_iff]
  intro offset hoffset
  simp only [checkedInt, Option.ite_none_right_eq_some, Option.some.injEq] at hoffset
  obtain ⟨-, rfl⟩ := hoffset
  by_cases hoperands : operandsFit c.commandId c.argument
  · rw [if_pos hoperands, Option.bind_eq_none_iff]
    intro s hs
    apply applyStatement_outside
    rw [hlen, place_emit hs]
    by_contra hle
    exact hfits ⟨not_lt.mp hle, hoperands⟩
  · rw [if_neg hoperands]

theorem applyPatch_of_fits (hsize : functionSize f < 2 ^ 31) (hfits : Fits f c)
    (heffect : patchEffect base c memory = some memory') :
    ∃ applied, applyPatch (load memory f.start (functionSize f)) f.start c.commandAddress
      c.commandId c.argument base =
        some (load memory' f.start (functionSize f), applied) ∧
      (applied = false → memory' = memory) := by
  obtain ⟨s, hs, hrun⟩ := Option.bind_eq_some_iff.mp heffect
  obtain ⟨hbound, hoperands⟩ := hfits
  have hoffset : checkedInt (c.commandAddress - f.start) =
      some (c.commandAddress - f.start).toNat := by
    rw [checkedInt, if_pos (by omega)]
  rw [applyPatch_eq, hoffset, Option.bind_some, if_pos hoperands, hs, Option.bind_some]
  apply applyStatement_load (by omega) _ _ hrun
  · rw [place_emit hs, BitVec.ofNat_toNat, BitVec.setWidth_eq, add_sub_cancel]
  · rw [place_emit hs]
    exact hbound

/-- A patch of `f` keeps the overlay of `f` the image of memory. -/
theorem overlayStep_own (hsize : functionSize f < 2 ^ 31)
    (hstep : overlayStep chunk f base state c = some state')
    (heffect : patchEffect base c memory = some memory')
    (hfits : Fits f c ∨ memory' = memory)
    (himage : state.1 = load memory f.start (functionSize f)) :
    state'.1 = load memory' f.start (functionSize f) := by
  obtain ⟨record, -, hcases⟩ := overlayStep_cases hstep
  by_cases hfit : Fits f c
  · obtain ⟨applied, happly, -⟩ := applyPatch_of_fits hsize hfit heffect
    rw [← himage] at happly
    rcases hcases with ⟨applied', happly', -⟩ | ⟨hnone, -, -⟩
    · exact (Prod.mk.inj (Option.some.inj (happly'.symm.trans happly))).1
    · exact absurd (happly.symm.trans hnone) (by simp)
  · obtain rfl := hfits.resolve_left hfit
    have hnone : applyPatch state.1 f.start c.commandAddress c.commandId c.argument base =
        none := applyPatch_of_not_fits (by rw [himage, length_load]) hfit
    rcases hcases with ⟨applied', happly', -⟩ | ⟨-, hsame, -⟩
    · exact absurd (happly'.symm.trans hnone) (by simp)
    · rw [hsame, himage]

theorem load_other (hf : f.start < f.stop)
    (hdisjoint : ∀ x, f.start ≤ x → x < f.stop → g.start ≤ x → x < g.stop → f = g)
    (hne : f ≠ g) (hstart : g.start ≤ c.commandAddress) (hstop : c.commandAddress < g.stop)
    (heffect : patchEffect base c memory = some memory')
    (hfits : Fits g c ∨ memory' = memory) :
    load memory' f.start (functionSize f) = load memory f.start (functionSize f) := by
  rcases hfits with hfits | rfl
  · obtain ⟨s, hs, hrun⟩ := Option.bind_eq_some_iff.mp heffect
    apply load_congr (by rw [functionSize]; exact (BitVec.isLt _).le)
    intro x hx
    apply run_frame hrun
    rw [place_emit hs]
    intro hx'
    obtain ⟨hfstart, hfstop⟩ := (mem_function_range_iff hf).mp hx
    obtain ⟨hgstart, hgstop⟩ := range_subset_of_fits hstart hstop hfits hx'
    exact hne (hdisjoint x hfstart hfstop hgstart hgstop)
  · rfl

end Function

/-! ## All patches -/

def BaseImage (manifest : BaseManifest) (images : String → Option (List UInt8))
    (memory : Memory) : Prop :=
  ∀ f ∈ manifest.functions, ∀ bytes, sourceBytes manifest images f = some bytes →
    bytes = load memory f.start (functionSize f)

/-- The overlays hold what start-up leaves in memory, and a patch that is not reported
as applied changes no byte on either side. -/
structure OverlaysAgree (chunk : KamekChunk) (manifest : BaseManifest)
    (images : String → Option (List UInt8)) (base : BitVec 32)
    (overlays : List OverlayFunctionImage) (memory memory' : Memory) : Prop where
  bytes : ∀ o ∈ overlays, o.bytes = load memory' o.start (o.stop - o.start).toNat
  silent : ∀ before c after f source state state' record m m',
    executablePatches (build chunk manifest base) = before ++ c :: after →
    c.containingFunction = some f →
    sourceBytes manifest images f = some source →
    overlayAfter chunk base f source before = some state →
    overlayStep chunk f base state c = some state' →
    state'.2 = state.2 ++ [record] → record.status ≠ .applied →
    runAll (patchEffect base) before memory = some m →
    patchEffect base c m = some m' →
    state'.1 = state.1 ∧ m' = m

/-- Every executable patch lies in its function and has operands of the width of its
write, or else its statement is idle when its turn comes. -/
def PatchesFit (chunk : KamekChunk) (manifest : BaseManifest) (base : BitVec 32)
    (memory : Memory) : Prop :=
  ∀ before c after f m s,
    executablePatches (build chunk manifest base) = before ++ c :: after →
    c.containingFunction = some f →
    runAll (patchEffect base) before memory = some m →
    emitBaseExecutablePatch base c = some s →
    Fits f c ∨ Idle s m

section Whole

variable {chunk : KamekChunk} {manifest : BaseManifest}
  {images : String → Option (List UInt8)} {base : BitVec 32}
  {memory memory' : Memory} {f : BaseFunctionRange}

theorem PatchesFit.fits_or_unchanged (hfit : PatchesFit chunk manifest base memory)
    {before after : List KamekPatchClassification} {c : KamekPatchClassification}
    {m m' : Memory}
    (hsplit : executablePatches (build chunk manifest base) = before ++ c :: after)
    (hcontaining : c.containingFunction = some f)
    (hbefore : runAll (patchEffect base) before memory = some m)
    (heffect : patchEffect base c m = some m') : Fits f c ∨ m' = m := by
  obtain ⟨s, hs, -⟩ := Option.bind_eq_some_iff.mp heffect
  apply (hfit before c after f m s hsplit hcontaining hbefore hs).imp_right
  exact (patchEffect_eq_self_iff hs heffect).mpr

theorem mem_executablePatches {c : KamekPatchClassification}
    (h : c ∈ executablePatches (build chunk manifest base)) :
    ∃ g ∈ manifest.functions, c.containingFunction = some g ∧
      g.start ≤ c.commandAddress ∧ c.commandAddress < g.stop := by
  have hmem := (List.mem_insertionSort _).mp h
  obtain ⟨hmem, hkind⟩ := List.mem_filter.mp hmem
  obtain ⟨command, -, rfl⟩ := List.mem_map.mp hmem
  obtain ⟨g, hg, hstart, hstop, hclass⟩ := classify_executable (of_decide_eq_true hkind)
  rw [hclass]
  exact ⟨g, hg, rfl, hstart, hstop⟩

theorem inGroup_iff {c : KamekPatchClassification} {g : BaseFunctionRange}
    (hf : f ∈ manifest.functions) (hne : f.start < f.stop) (hg : g ∈ manifest.functions)
    (hcontaining : c.containingFunction = some g) (hgne : g.start < g.stop) :
    inGroup f c = true ↔ f = g := by
  rw [inGroup, hcontaining, Option.map_some, decide_eq_true_eq, Option.some.injEq]
  constructor
  · intro hstart
    exact manifest.disjoint f hf g hg f.start (BitVec.le_refl _) hne
      (by rw [hstart]; exact BitVec.le_refl _) (by rwa [← hstart])
  · rintro rfl
    rfl

/-- The overlay of a function is the image of memory after any number of patches. -/
theorem overlayAfter_image (hfit : PatchesFit chunk manifest base memory)
    (hf : f ∈ manifest.functions) (hne : f.start < f.stop)
    (hsize : functionSize f < 2 ^ 31) {before after : List KamekPatchClassification}
    (hsplit : executablePatches (build chunk manifest base) = before ++ after)
    {state : List UInt8 × List PatchApplicationRecord} {m : Memory}
    (hstate : overlayAfter chunk base f (load memory f.start (functionSize f)) before =
      some state)
    (hrun : runAll (patchEffect base) before memory = some m) :
    state.1 = load m f.start (functionSize f) := by
  induction before using List.reverseRecOn generalizing after state m with
  | nil =>
      obtain rfl := Option.some.inj hstate
      obtain rfl := Option.some.inj hrun
      rfl
  | append_singleton before c ih =>
      rw [List.append_assoc, List.singleton_append] at hsplit
      rw [runAll_append, Option.bind_eq_some_iff] at hrun
      obtain ⟨m₁, hbefore, heffect⟩ := hrun
      rw [runAll_cons, Option.bind_eq_some_iff] at heffect
      obtain ⟨m₂, heffect, hnil⟩ := heffect
      obtain rfl := Option.some.inj hnil
      have hmem : c ∈ executablePatches (build chunk manifest base) := by
        rw [hsplit]
        exact List.mem_append_right _ List.mem_cons_self
      obtain ⟨g, hg, hcontaining, hstart, hstop⟩ := mem_executablePatches hmem
      have hgne : g.start < g.stop := by bv_omega
      have hcfit := hfit.fits_or_unchanged hsplit hcontaining hbefore heffect
      have hgroup := inGroup_iff hf hne hg hcontaining hgne
      rw [overlayAfter, List.filter_append, List.foldlM_append,
        Option.bind_eq_bind, Option.bind_eq_some_iff] at hstate
      obtain ⟨state₁, hstate₁, hlast⟩ := hstate
      have himage := ih hsplit hstate₁ hbefore
      by_cases hown : f = g
      · -- the patch is the overlay's own
        obtain rfl := hown
        rw [List.filter_cons_of_pos (hgroup.mpr rfl), List.filter_nil, List.foldlM_cons,
          Option.bind_eq_bind, Option.bind_eq_some_iff] at hlast
        obtain ⟨state₂, hstep, hdone⟩ := hlast
        obtain rfl := Option.some.inj hdone
        exact overlayStep_own hsize hstep heffect hcfit himage
      · rw [List.filter_cons_of_neg (mt hgroup.mp hown), List.filter_nil] at hlast
        obtain rfl := Option.some.inj hlast
        rw [himage]
        exact (load_other hne (fun x h₁ h₂ h₃ h₄ =>
          manifest.disjoint f hf g hg x h₁ h₂ h₃ h₄) hown hstart hstop heffect hcfit).symm

theorem functionSize_lt {source : List UInt8}
    (h : sourceBytes manifest images f = some source) : functionSize f < 2 ^ 31 := by
  simp only [sourceBytes, Option.bind_eq_bind, Option.bind_eq_some_iff, checkedInt,
    Option.ite_none_right_eq_some] at h
  obtain ⟨_, -, _, -, _, -, _, -, _, -, _, ⟨hsize, -⟩, -⟩ := h
  exact hsize

/-- The overlay of a function that has one is made of its own patches. -/
theorem buildOverlay_cases {start : BitVec 32} {o : OverlayFunctionImage}
    (h : buildOverlay chunk manifest (build chunk manifest base) images base start =
      some o) :
    ∃ f ∈ manifest.functions, f.start ≤ start ∧ start < f.stop ∧
      o.start = f.start ∧ o.stop = f.stop ∧ functionSize f < 2 ^ 31 ∧
      ∃ source, sourceBytes manifest images f = some source ∧
        overlayAfter chunk base f source (executablePatches (build chunk manifest base)) =
          some (o.bytes, o.patches) := by
  simp only [buildOverlay, Option.bind_eq_bind, Option.bind_eq_some_iff] at h
  obtain ⟨f, hfind, source, hsource, ⟨bytes, patches⟩, hfold, ho⟩ := h
  obtain rfl := Option.some.inj ho
  obtain ⟨hmem, hstart, hstop⟩ := mem_of_findContaining hfind
  refine ⟨f, hmem, hstart, hstop, rfl, rfl, ?_, source, hsource, ?_⟩
  · exact functionSize_lt hsource
  · have htrans : IsTrans KamekPatchClassification
        (fun p q => p.commandAddress ≤ q.commandAddress) :=
      ⟨fun _ _ _ => BitVec.le_trans⟩
    have htotal : Std.Total
        (fun p q : KamekPatchClassification => p.commandAddress ≤ q.commandAddress) :=
      ⟨fun p q => BitVec.le_total p.commandAddress q.commandAddress⟩
    rw [overlayAfter, executablePatches, orderByAddress, filter_insertionSort]
    exact hfold

theorem exists_overlay {result : OverlayBuildResult}
    (hbuild : buildAndWrite chunk manifest images base = some result)
    {c : KamekPatchClassification} {f : BaseFunctionRange}
    (hc : c ∈ executablePatches (build chunk manifest base))
    (hcontaining : c.containingFunction = some f) :
    ∃ o ∈ result.overlayFunctions,
      buildOverlay chunk manifest (build chunk manifest base) images base f.start =
        some o := by
  simp only [buildAndWrite, Option.bind_eq_bind, Option.bind_eq_some_iff] at hbuild
  obtain ⟨_, -, _, -, overlays, hoverlays, hresult⟩ := hbuild
  obtain rfl := Option.some.inj hresult
  have hstart : f.start ∈ overlayStarts (build chunk manifest base) := by
    rw [overlayStarts, List.mem_insertionSort, List.mem_dedup, List.mem_filterMap]
    exact ⟨c, (List.mem_insertionSort _).mp hc, by rw [hcontaining]; rfl⟩
  obtain ⟨i, hi, hget⟩ := List.getElem_of_mem hstart
  have hforall := PartialMaps.forall₂_of_mapM hoverlays
  have hi' : i < overlays.length := by rwa [← hforall.length_eq]
  refine ⟨overlays.get ⟨i, hi'⟩, List.get_mem _ _, ?_⟩
  have hpoint := hforall.get hi hi'
  rwa [List.get_eq_getElem, hget] at hpoint

theorem exists_start_of_mem {result : OverlayBuildResult}
    (hbuild : buildAndWrite chunk manifest images base = some result)
    {o : OverlayFunctionImage} (ho : o ∈ result.overlayFunctions) :
    ∃ start, buildOverlay chunk manifest (build chunk manifest base) images base start =
      some o := by
  simp only [buildAndWrite, Option.bind_eq_bind, Option.bind_eq_some_iff] at hbuild
  obtain ⟨_, -, _, -, overlays, hoverlays, hresult⟩ := hbuild
  obtain rfl := Option.some.inj hresult
  obtain ⟨i, hi, hget⟩ := List.getElem_of_mem ho
  have hforall := PartialMaps.forall₂_of_mapM hoverlays
  have hi' : i < (overlayStarts (build chunk manifest base)).length := by
    rwa [hforall.length_eq]
  have hpoint := hforall.get hi' hi
  rw [List.get_eq_getElem, List.get_eq_getElem, hget] at hpoint
  exact ⟨_, hpoint⟩

theorem overlaysAgree_of_patchesFit {result : OverlayBuildResult}
    (hbase : BaseImage manifest images memory)
    (hbuild : buildAndWrite chunk manifest images base = some result)
    (hrun : runAll (patchEffect base) (executablePatches (build chunk manifest base))
      memory = some memory')
    (hfit : PatchesFit chunk manifest base memory) :
    OverlaysAgree chunk manifest images base result.overlayFunctions memory memory' := by
  constructor
  · intro o ho
    obtain ⟨start, hstart⟩ := exists_start_of_mem hbuild ho
    obtain ⟨f, hf, hle, hlt, hostart, hostop, hsize, source, hsource, hafter⟩ :=
      buildOverlay_cases hstart
    have hne : f.start < f.stop := by bv_omega
    obtain rfl := hbase f hf source hsource
    have himage := overlayAfter_image hfit hf hne hsize
      (List.append_nil _).symm hafter hrun
    rw [hostart, hostop]
    exact himage
  · intro before c after f source state state' record m m' hsplit hcontaining hsource
      hstate hstep hrecord hstatus hbefore heffect
    have hsame := overlayStep_silent hstep hrecord hstatus
    refine ⟨hsame, ?_⟩
    obtain ⟨g, hg, hcontaining', hstart, hstop⟩ := mem_executablePatches
      (by rw [hsplit]; exact List.mem_append_right _ List.mem_cons_self)
    obtain rfl := Option.some.inj (hcontaining.symm.trans hcontaining')
    have hsize := functionSize_lt hsource
    obtain rfl := hbase f hg source hsource
    have himage := overlayAfter_image hfit hg (by bv_omega) hsize hsplit hstate hbefore
    rcases hfit.fits_or_unchanged hsplit hcontaining hbefore heffect with hfits | h
    · obtain ⟨applied, happly, hskipped⟩ := applyPatch_of_fits hsize hfits heffect
      obtain ⟨record', hrecord', ⟨applied', happly', hiff⟩ | ⟨hnone, -, -⟩⟩ :=
        overlayStep_cases hstep
      · obtain rfl : record = record' := by
          simpa using List.append_cancel_left (hrecord.symm.trans hrecord')
        rw [himage] at happly'
        obtain ⟨-, rfl⟩ := Prod.mk.inj (Option.some.inj (happly'.symm.trans happly))
        exact hskipped (by simpa using mt hiff.mpr hstatus)
      · rw [himage] at hnone
        exact absurd (happly.symm.trans hnone) (by simp)
    · exact h

/-- If overlays and memory agree, every patch fits or is idle: one that does not fit is
reported as failed. -/
theorem patchesFit_of_overlaysAgree {result : OverlayBuildResult}
    (hbase : BaseImage manifest images memory)
    (hbuild : buildAndWrite chunk manifest images base = some result)
    (hall : runAll (patchEffect base) (executablePatches (build chunk manifest base))
      memory = some memory')
    (hagree : OverlaysAgree chunk manifest images base result.overlayFunctions memory
      memory') :
    PatchesFit chunk manifest base memory := by
  intro before c after f m s hsplit hcontaining hbefore hs
  by_cases hfits : Fits f c
  · exact .inl hfits
  right
  rw [hsplit, runAll_append, hbefore, Option.bind_some, runAll_cons,
    Option.bind_eq_some_iff] at hall
  obtain ⟨m', heffect, -⟩ := hall
  apply (patchEffect_eq_self_iff hs heffect).mp
  have hc : c ∈ executablePatches (build chunk manifest base) := by
    rw [hsplit]
    exact List.mem_append_right _ List.mem_cons_self
  obtain ⟨g, hg, hcontaining', hstart, hstop⟩ := mem_executablePatches hc
  obtain rfl := Option.some.inj (hcontaining.symm.trans hcontaining')
  have hne : f.start < f.stop := by bv_omega
  obtain ⟨o, -, ho⟩ := exists_overlay hbuild hc hcontaining
  obtain ⟨f', hf', hle, hlt, -, -, -, source, hsource, hown⟩ := buildOverlay_cases ho
  obtain rfl : f = f' :=
    manifest.disjoint f hg f' hf' f.start (BitVec.le_refl _) hne hle hlt
  -- the overlay of the function has a step for the patch, which fails
  have hgroup : inGroup f c = true := (inGroup_iff hg hne hg hcontaining hne).mpr rfl
  rw [overlayAfter, hsplit, List.filter_append, List.filter_cons_of_pos hgroup,
    List.foldlM_append, Option.bind_eq_bind, Option.bind_eq_some_iff] at hown
  obtain ⟨state, hstate, hrest⟩ := hown
  rw [List.foldlM_cons, Option.bind_eq_bind, Option.bind_eq_some_iff] at hrest
  obtain ⟨state', hstep, -⟩ := hrest
  have hlen : state.1.length = functionSize f := by
    rw [overlayAfter_length hstate, hbase f hg source hsource, length_load]
  obtain ⟨record, hrecord, ⟨applied, happly, -⟩ | ⟨-, -, hfailed⟩⟩ :=
    overlayStep_cases hstep
  · rw [applyPatch_of_not_fits hlen hfits] at happly
    exact absurd happly (by simp)
  · exact (hagree.silent before c after f source state state' record m m' hsplit
      hcontaining hsource hstate hstep hrecord (by rw [hfailed]; decide) hbefore
      heffect).2

/-- When a mod is built and its start-up code emitted, with the link base equal to the
module base, and start-up is not aborted on the base image, then the overlays agree with
the patched memory if and only if every executable patch fits in its function and its
operands in its write, or else its statement is idle at its turn. -/
theorem overlays_agree_iff {result : OverlayBuildResult} {statements : List Statement}
    (hbase : BaseImage manifest images memory)
    (hbuild : buildAndWrite chunk manifest images base = some result)
    (hemit : applyExecutableBasePatches (build chunk manifest base) base = some statements)
    (hrun : runStatements statements memory = some memory') :
    OverlaysAgree chunk manifest images base result.overlayFunctions memory memory' ↔
      PatchesFit chunk manifest base memory := by
  have hall : runAll (patchEffect base) (executablePatches (build chunk manifest base))
      memory = some memory' := by
    rw [runStatements, runAll_of_mapM hemit] at hrun
    exact hrun
  constructor
  · exact patchesFit_of_overlaysAgree hbase hbuild hall
  · exact overlaysAgree_of_patchesFit hbase hbuild hall

end Whole

/-! ## A sixteen-bit write -/

/-- A chunk whose one command writes sixteen bits at the start of a function. -/
def halfWrite (value : BitVec 32) : KamekChunk where
  bssSize := 0
  codeSize := 0
  codeBlob := []
  commands := [⟨.write16, true, 0x80004000, [value], rfl⟩]
  codeLength := rfl

/-- A base game with one function of eight bytes. -/
def oneFunction : BaseFunctionRange := ⟨0x80004000, 0x80004008, ".text", 0⟩

def oneFunctionManifest : BaseManifest where
  sections := [⟨".text", 0x80004000, 0x80004008, true, some "main_text.bin"⟩]
  functions := [oneFunction]
  disjoint := by
    intro f hf g hg _ _ _ _ _
    rw [List.mem_singleton.mp hf, List.mem_singleton.mp hg]

def zeroImages : String → Option (List UInt8) :=
  fun _ => some (List.replicate 8 0)

def zeroMemory : Memory := fun _ => 0

def halfWritePatch (value : BitVec 32) : KamekPatchClassification :=
  ⟨.baseExecutablePatch, .write16, 0x80004000, true, some oneFunction, [value]⟩

theorem halfWrite_patches (value : BitVec 32) :
    executablePatches (build (halfWrite value) oneFunctionManifest 0x80800000) =
      [halfWritePatch value] := by
  rfl

theorem zeroImages_baseImage : BaseImage oneFunctionManifest zeroImages zeroMemory := by
  intro f hf bytes hbytes
  obtain rfl := List.mem_singleton.mp hf
  have hsource : sourceBytes oneFunctionManifest zeroImages oneFunction =
      some (List.replicate 8 0) := by decide +kernel
  rw [← Option.some.inj (hsource.symm.trans hbytes)]
  decide +kernel

def halfWritten (value : ℕ) : Memory :=
  writeMemory zeroMemory 0x80004000 2 value

/-- The operand 0xFFFFFFFF: the overlay rejects it, start-up writes its low half. -/
theorem halfWrite_wide_disagrees :
    ∃ result statements memory',
      BaseImage oneFunctionManifest zeroImages zeroMemory ∧
      buildAndWrite (halfWrite 0xFFFFFFFF) oneFunctionManifest zeroImages 0x80800000 =
        some result ∧
      applyExecutableBasePatches
        (build (halfWrite 0xFFFFFFFF) oneFunctionManifest 0x80800000) 0x80800000 =
        some statements ∧
      runStatements statements zeroMemory = some memory' ∧
      ¬OverlaysAgree (halfWrite 0xFFFFFFFF) oneFunctionManifest zeroImages 0x80800000
        result.overlayFunctions zeroMemory memory' := by
  have hbuild : buildAndWrite (halfWrite 0xFFFFFFFF) oneFunctionManifest zeroImages
      0x80800000 = some ⟨[], [⟨0x80004000, 0x80004008, List.replicate 8 0,
        [⟨0x80004000, .write16, [0xFFFFFFFF], .failed⟩]⟩]⟩ := by
    decide +kernel
  have hemit : applyExecutableBasePatches
      (build (halfWrite 0xFFFFFFFF) oneFunctionManifest 0x80800000) 0x80800000 =
      some [.write 2 0x80004000 0xFFFF] := by
    decide +kernel
  have hrun : runStatements [.write 2 0x80004000 0xFFFF] zeroMemory =
      some (halfWritten 0xFFFF) := by
    simp [runStatements, runAll, Statement.run, halfWritten]
  refine ⟨_, _, _, zeroImages_baseImage, hbuild, hemit, hrun, ?_⟩
  intro hagree
  have hstatement : emitBaseExecutablePatch 0x80800000 (halfWritePatch 0xFFFFFFFF) =
      some (.write 2 0x80004000 0xFFFF) := by
    decide +kernel
  have heffect : patchEffect 0x80800000 (halfWritePatch 0xFFFFFFFF) zeroMemory =
      some (halfWritten 0xFFFF) := by
    rw [patchEffect, hstatement]
    simp [Statement.run, halfWritten]
  have hall : runAll (patchEffect 0x80800000) (executablePatches
      (build (halfWrite 0xFFFFFFFF) oneFunctionManifest 0x80800000)) zeroMemory =
      some (halfWritten 0xFFFF) := by
    rw [halfWrite_patches, runAll_cons, heffect]
    rfl
  have hfit := patchesFit_of_overlaysAgree zeroImages_baseImage hbuild hall hagree
  rcases hfit [] (halfWritePatch 0xFFFFFFFF) [] oneFunction zeroMemory _
      (halfWrite_patches _) rfl rfl hstatement with hfits | hidle
  · exact absurd hfits.2 (by decide)
  · have hchanged : load zeroMemory 0x80004000 2 ≠ toBytes 2 0xFFFF := by decide +kernel
    exact hchanged hidle

/-- An operand of sixteen bits fits, and both sides hold it. -/
theorem halfWrite_narrow_agrees :
    ∃ result statements memory',
      buildAndWrite (halfWrite 0x4800) oneFunctionManifest zeroImages 0x80800000 =
        some result ∧
      applyExecutableBasePatches
        (build (halfWrite 0x4800) oneFunctionManifest 0x80800000) 0x80800000 =
        some statements ∧
      runStatements statements zeroMemory = some memory' ∧
      OverlaysAgree (halfWrite 0x4800) oneFunctionManifest zeroImages 0x80800000
        result.overlayFunctions zeroMemory memory' := by
  have hbuild : buildAndWrite (halfWrite 0x4800) oneFunctionManifest zeroImages
      0x80800000 = some ⟨[], [⟨0x80004000, 0x80004008, [0x48, 0, 0, 0, 0, 0, 0, 0],
        [⟨0x80004000, .write16, [0x4800], .applied⟩]⟩]⟩ := by
    decide +kernel
  have hemit : applyExecutableBasePatches
      (build (halfWrite 0x4800) oneFunctionManifest 0x80800000) 0x80800000 =
      some [.write 2 0x80004000 0x4800] := by
    decide +kernel
  have hrun : runStatements [.write 2 0x80004000 0x4800] zeroMemory =
      some (halfWritten 0x4800) := by
    simp [runStatements, runAll, Statement.run, halfWritten]
  refine ⟨_, _, _, hbuild, hemit, hrun, ?_⟩
  apply (overlays_agree_iff zeroImages_baseImage hbuild hemit hrun).mpr
  intro before c after f m s hsplit hcontaining _ _
  rw [halfWrite_patches] at hsplit
  obtain rfl : c = halfWritePatch 0x4800 := by
    have hmem : c ∈ [halfWritePatch 0x4800] := by
      rw [hsplit]
      exact List.mem_append_right _ List.mem_cons_self
    exact List.mem_singleton.mp hmem
  obtain rfl := Option.some.inj hcontaining
  exact .inl ⟨by decide, by decide⟩

end Wiicompiled.Mods.OverlayAgreement
