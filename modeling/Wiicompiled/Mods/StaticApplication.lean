import Wiicompiled.Mods.OverlayAgreement

/-!
# Static application and the loader

A loader copies the module and applies the commands of its chunk one after the other.
The generated start-up code has the relative commands in the module image already and
applies the others sorted by their addresses.  Both leave the same memory when the
commands that change their order commute.
-/

namespace Wiicompiled.Mods.StaticApplication

open ByteImage FlatMemory Reordering OverlayFunctionBuilder ModDataPatchWriter
open OverlayAgreement

/-! ## The loader -/

/-- The base for the module offsets in the operands of a command.  Code of the base
game refers to the module where it is linked. -/
def targetBase (guestBase linkBase : BitVec 32) (c : KamekPatchClassification) :
    BitVec 32 :=
  if c.kind = .baseExecutablePatch then linkBase else guestBase

def commandEffect (guestBase linkBase : BitVec 32) (c : KamekPatchClassification)
    (memory : Memory) : Option Memory :=
  patchEffect (targetBase guestBase linkBase c) c memory

/-- The commands that are not dropped, in the order of the stream. -/
def appliedCommands (plan : List KamekPatchClassification) :
    List KamekPatchClassification :=
  plan.filter fun c => c.kind ≠ .droppedReservedRegion

/-- The loader: load the code, clear its BSS and apply the commands in the order of the
stream. -/
def applySequentially (chunk : KamekChunk) (manifest : BaseManifest)
    (guestBase linkBase : BitVec 32) (digest : Option (List UInt8)) (memory : Memory) :
    Option Memory :=
  runAll (commandEffect guestBase linkBase)
    (appliedCommands (build chunk manifest guestBase))
    (initializeModuleImage guestBase chunk.codeBlob chunk.codeSize chunk.bssSize digest
      memory)

/-! ## The static order -/

/-- The group of a command: the module image, the executable patches, the data. -/
def staticRank (c : KamekPatchClassification) : ℕ :=
  match c.kind with
  | .moduleCommand => 0
  | .baseExecutablePatch => 1
  | _ => 2

/-- Whether the static application may have `c` before `d` when the stream has: by
group, and in the two groups of patches by address. -/
def Precedes (c d : KamekPatchClassification) : Prop :=
  staticRank c < staticRank d ∨
    staticRank c = staticRank d ∧
      (staticRank c = 0 ∨ c.commandAddress ≤ d.commandAddress)

instance : DecidableRel Precedes := fun _ _ =>
  inferInstanceAs (Decidable (_ ∨ _ ∧ (_ ∨ _)))

instance : IsTrans KamekPatchClassification Precedes where
  trans := by
    intro a b c hab hbc
    unfold Precedes at *
    rcases hab with hab | ⟨hab, hab'⟩ <;> rcases hbc with hbc | ⟨hbc, hbc'⟩
    · exact .inl (hab.trans hbc)
    · exact .inl (by omega)
    · exact .inl (by omega)
    · refine .inr ⟨hab.trans hbc, ?_⟩
      rcases hab' with h | h <;> rcases hbc' with h' | h'
      · exact .inl h
      · exact .inl h
      · exact .inl (by omega)
      · exact .inr (BitVec.le_trans h h')

instance : Std.Total Precedes where
  total := by
    intro a b
    unfold Precedes
    rcases lt_trichotomy (staticRank a) (staticRank b) with h | h | h
    · exact .inl (.inl h)
    · rcases BitVec.le_total a.commandAddress b.commandAddress with h' | h'
      · exact .inl (.inr ⟨h, .inr h'⟩)
      · exact .inr (.inr ⟨h.symm, .inr h'⟩)
    · exact .inr (.inl h)

section Order

variable {plan : List KamekPatchClassification}

theorem filter_staticOrder {k : ℕ} (kind : KamekPatchClassificationKind)
    (hkind : ∀ c ∈ plan,
      (c.kind ≠ .droppedReservedRegion ∧ staticRank c = k) ↔ c.kind = kind) :
    ((appliedCommands plan).insertionSort Precedes).filter
        (fun c => decide (staticRank c = k)) =
      (ofKind plan kind).insertionSort Precedes := by
  rw [filter_insertionSort, appliedCommands, List.filter_filter, ofKind]
  congr 1
  apply List.filter_congr
  intro c hc
  rw [← Bool.decide_and, decide_eq_decide, and_comm]
  exact hkind c hc

theorem insertionSort_moduleCommands :
    (ofKind plan .moduleCommand).insertionSort Precedes = ofKind plan .moduleCommand := by
  apply List.Pairwise.insertionSort_eq
  apply List.pairwise_of_forall_mem_list
  intro a ha b hb
  have hrank : ∀ c ∈ ofKind plan .moduleCommand, staticRank c = 0 := by
    intro c hc
    rw [staticRank, of_decide_eq_true (List.mem_filter.mp hc).2]
  exact .inr ⟨(hrank a ha).trans (hrank b hb).symm, .inl (hrank a ha)⟩

theorem insertionSort_patches {kind : KamekPatchClassificationKind}
    (hkind : kind ≠ .moduleCommand) :
    (ofKind plan kind).insertionSort Precedes = orderByAddress (ofKind plan kind) := by
  apply insertionSort_congr
  intro a ha b hb
  have hakind : a.kind = kind := of_decide_eq_true (List.mem_filter.mp ha).2
  have hbkind : b.kind = kind := of_decide_eq_true (List.mem_filter.mp hb).2
  have hrank : staticRank a = staticRank b := by
    rw [staticRank, staticRank, hakind, hbkind]
  have hpos : staticRank a ≠ 0 := by
    rw [staticRank, hakind]
    cases kind <;> simp at hkind ⊢
  simp [Precedes, hrank, hrank ▸ hpos]

theorem cut_by_rank {l : List KamekPatchClassification} (h : l.Pairwise Precedes) :
    l = l.filter (fun c => decide (staticRank c = 0)) ++
      (l.filter (fun c => decide (staticRank c = 1)) ++
        l.filter (fun c => decide (staticRank c = 2))) := by
  have hcut : ∀ k (l : List KamekPatchClassification), l.Pairwise Precedes →
      l.filter (fun c => decide (staticRank c ≤ k)) ++
        l.filter (fun c => !decide (staticRank c ≤ k)) = l := by
    intro k l hl
    apply filter_append_filter_not
    apply hl.imp
    intro a b hab
    rw [decide_eq_true_eq, decide_eq_true_eq]
    intro hb
    rcases hab with hab | ⟨hab, -⟩ <;> omega
  have hrank : ∀ c, staticRank c ≤ 2 := by
    intro c
    unfold staticRank
    split <;> omega
  have hrest := hcut 1 (l.filter fun c => !decide (staticRank c ≤ 0))
    (h.sublist List.filter_sublist)
  rw [List.filter_filter, List.filter_filter] at hrest
  conv_lhs => rw [← hcut 0 l h, ← hrest]
  congr 1
  · apply List.filter_congr
    intro c _
    rw [decide_eq_decide]
    omega
  · congr 1 <;>
    · apply List.filter_congr
      intro c _
      have := hrank c
      rw [Bool.eq_iff_iff]
      simp only [Bool.and_eq_true, Bool.not_eq_true', decide_eq_true_eq,
        decide_eq_false_iff_not]
      omega

theorem staticOrder_eq (hsupported : ∀ c ∈ plan, c.kind ≠ .unsupported) :
    (appliedCommands plan).insertionSort Precedes =
      ofKind plan .moduleCommand ++ (executablePatches plan ++
        orderByAddress (ofKind plan .baseDataPatch)) := by
  set order := (appliedCommands plan).insertionSort Precedes with horder
  have hsorted : order.Pairwise Precedes := List.pairwise_insertionSort _ _
  have hmodule : order.filter (fun c => decide (staticRank c = 0)) =
      ofKind plan .moduleCommand := by
    rw [horder, filter_staticOrder .moduleCommand, insertionSort_moduleCommands]
    intro c _
    cases hc : c.kind <;> simp [staticRank, hc]
  have hexecutable : order.filter (fun c => decide (staticRank c = 1)) =
      executablePatches plan := by
    rw [horder, filter_staticOrder .baseExecutablePatch, executablePatches,
      insertionSort_patches (by decide)]
    intro c _
    cases hc : c.kind <;> simp [staticRank, hc]
  have hdata : order.filter (fun c => decide (staticRank c = 2)) =
      orderByAddress (ofKind plan .baseDataPatch) := by
    rw [horder, filter_staticOrder .baseDataPatch,
      insertionSort_patches (by decide)]
    intro c hmem
    have := hsupported c hmem
    cases hc : c.kind <;> simp_all [staticRank]
  -- the order is cut after the module commands and after the executable patches
  calc
    order = order.filter (fun c => decide (staticRank c = 0)) ++
        (order.filter (fun c => decide (staticRank c = 1)) ++
          order.filter (fun c => decide (staticRank c = 2))) := cut_by_rank hsorted
    _ = _ := by rw [hmodule, hexecutable, hdata]

end Order

/-! ## The module image -/

def codeRange (chunk : KamekChunk) (base : BitVec 32) : BaseFunctionRange :=
  ⟨base, base + chunk.codeSize, "", 0⟩

theorem functionSize_codeRange (chunk : KamekChunk) (base : BitVec 32) :
    functionSize (codeRange chunk base) = chunk.codeSize.toNat := by
  rw [functionSize, codeRange, add_sub_cancel_left]

def Reaches : Statement → Prop
  | .rel24 address target => inBranchRange (target - address) = true
  | .branch address target _ => inBranchRange (target - address) = true
  | _ => True

/-- Every relative command lies in the module code, has operands of the width of its
write, and reaches its target. -/
def ModuleCommandsFit (chunk : KamekChunk) (manifest : BaseManifest)
    (base : BitVec 32) : Prop :=
  ∀ c ∈ ofKind (build chunk manifest base) .moduleCommand,
    Fits (codeRange chunk base) c ∧
      ∀ s, emitBaseExecutablePatch base c = some s → Reaches s

/-- The code is an array, its BSS does not go around the address space, and the digest
is not stored in the code. -/
structure ModuleFits (chunk : KamekChunk) (base : BitVec 32)
    (digest : Option (List UInt8)) : Prop where
  code : chunk.codeSize.toNat < 2 ^ 31
  bss : chunk.codeSize.toNat + chunk.bssSize.toNat ≤ 2 ^ 32
  digest : ∀ bytes, digest = some bytes → bytes.length = 20 →
    ∀ x ∈ range base chunk.codeSize.toNat, x ∉ range 0x800017B0 20

section Module

variable {chunk : KamekChunk} {manifest : BaseManifest} {base : BitVec 32}
  {memory memory' : Memory}

theorem run_of_reaches {s : Statement} (h : Reaches s) (memory : Memory) :
    ∃ memory', s.run memory = some memory' := by
  cases s with
  | write width address value => exact ⟨_, rfl⟩
  | conditional width address expected value =>
      rw [Statement.run]
      split <;> exact ⟨_, rfl⟩
  | rel24 address target =>
      have hrange : inBranchRange (target - address) = true := h
      rw [Statement.run, if_pos hrange]
      exact ⟨_, rfl⟩
  | branch address target link =>
      have hrange : inBranchRange (target - address) = true := h
      rw [Statement.run, encodeBranch, if_pos hrange]
      exact ⟨_, rfl⟩

theorem emit_of_formatTarget {c : KamekPatchClassification} {target : List (BitVec 32)}
    (h : formatTarget c.commandId c.arguments base = some target) :
    ∃ s, emitBaseExecutablePatch base c = some s := by
  cases hid : c.commandId <;>
    simp only [formatTarget, hid, Option.map_eq_some_iff] at h <;>
    simp only [emitBaseExecutablePatch, hid, Option.map_eq_some_iff, Option.some.injEq,
      exists_eq']
  all_goals
    obtain ⟨value, hvalue, -⟩ := h
    exact ⟨_, value, hvalue, rfl⟩

theorem mem_moduleCommands {c : KamekCommand} (hc : c ∈ chunk.commands)
    (hrelative : c.addressIsAbsolute = false) :
    classify manifest base c ∈ ofKind (build chunk manifest base) .moduleCommand := by
  apply List.mem_filter.mpr
  refine ⟨List.mem_map_of_mem hc, ?_⟩
  rw [classify, if_pos hrelative]
  exact decide_eq_true rfl

theorem moduleCommand_step {c : KamekCommand} (hsize : chunk.codeSize.toNat < 2 ^ 31)
    (hrelative : c.addressIsAbsolute = false)
    (hfits : Fits (codeRange chunk base) (classify manifest base c))
    (hreaches : ∀ s, emitBaseExecutablePatch base (classify manifest base c) = some s →
      Reaches s)
    {result : List UInt8 × PatchApplicationRecord}
    (h : tryApplyPatch (load memory base chunk.codeSize.toNat) base (base + c.address) c
      base = some result) :
    ∃ memory', patchEffect base (classify manifest base c) memory = some memory' ∧
      result.1 = load memory' base chunk.codeSize.toNat ∧
      ∀ x ∉ range base chunk.codeSize.toNat, memory' x = memory x := by
  have hclass : classify manifest base c = ⟨.moduleCommand, c.id, base + c.address, false,
      none, c.arguments⟩ := by
    rw [classify, if_pos hrelative]
  obtain ⟨target, htarget, hresult⟩ := Option.map_eq_some_iff.mp h
  obtain ⟨s, hs⟩ := emit_of_formatTarget (c := classify manifest base c)
    (by rw [hclass]; exact htarget)
  obtain ⟨memory', hrun⟩ := run_of_reaches (hreaches s hs) memory
  have heffect : patchEffect base (classify manifest base c) memory = some memory' := by
    rw [patchEffect, hs, Option.bind_some, hrun]
  refine ⟨memory', heffect, ?_, ?_⟩
  · obtain ⟨applied, happly, -⟩ := applyPatch_of_fits
      (by rwa [functionSize_codeRange]) hfits heffect
    rw [functionSize_codeRange, hclass] at happly
    have happly' : applyPatch (load memory base chunk.codeSize.toNat) base
        (base + c.address) c.id (fun i => c.arguments.getD i 0) base =
        some (load memory' base chunk.codeSize.toNat, applied) := happly
    rw [← hresult, happly']
    cases applied <;> rfl
  · intro x hx
    apply run_frame hrun
    rw [place_emit hs]
    intro hx'
    apply hx
    have hbound := hfits.1
    rw [functionSize_codeRange] at hbound
    rw [mem_range_iff] at hx' ⊢
    have hstart : (codeRange chunk base).start = base := rfl
    rw [hstart] at hbound
    bv_omega

theorem moduleCommands_run {cs : List KamekCommand}
    (hsize : chunk.codeSize.toNat < 2 ^ 31) (hmem : ∀ c ∈ cs, c ∈ chunk.commands)
    (hrelative : ∀ c ∈ cs, c.addressIsAbsolute = false)
    (hfit : ModuleCommandsFit chunk manifest base) {image : List UInt8}
    (himage : cs.foldlM (fun image command =>
        (tryApplyPatch image base (base + command.address) command base).map Prod.fst)
      (load memory base chunk.codeSize.toNat) = some image) :
    ∃ memory', runAll (patchEffect base) (cs.map (classify manifest base)) memory =
        some memory' ∧
      image = load memory' base chunk.codeSize.toNat ∧
      ∀ x ∉ range base chunk.codeSize.toNat, memory' x = memory x := by
  induction cs generalizing memory with
  | nil => exact ⟨memory, rfl, (Option.some.inj himage).symm, fun _ _ => rfl⟩
  | cons c cs ih =>
      rw [List.foldlM_cons, Option.bind_eq_bind, Option.bind_eq_some_iff] at himage
      obtain ⟨image₁, hstep, hrest⟩ := himage
      obtain ⟨result, hresult, rfl⟩ := Option.map_eq_some_iff.mp hstep
      have hc := hrelative c List.mem_cons_self
      obtain ⟨hfits, hreaches⟩ := hfit (classify manifest base c)
        (mem_moduleCommands (hmem c List.mem_cons_self) hc)
      obtain ⟨m, heffect, hload, hframe⟩ :=
        moduleCommand_step hsize hc hfits hreaches hresult
      rw [hload] at hrest
      obtain ⟨memory', hrun, himage, hframe'⟩ :=
        ih (fun c hc => hmem c (List.mem_cons_of_mem _ hc))
          (fun c hc => hrelative c (List.mem_cons_of_mem _ hc)) hrest
      refine ⟨memory', ?_, himage, ?_⟩
      · rw [List.map_cons, runAll_cons, heffect, Option.bind_some, hrun]
      · intro x hx
        rw [hframe' x hx, hframe x hx]

theorem moduleCommands_eq :
    ofKind (build chunk manifest base) .moduleCommand =
      (chunk.commands.filter fun c => c.addressIsAbsolute = false).map
        (classify manifest base) := by
  rw [ofKind, build, List.filter_map]
  congr 1
  apply List.filter_congr
  intro c _
  rw [Function.comp_apply, decide_eq_decide, classify]
  by_cases h : c.addressIsAbsolute = false
  · rw [if_pos h]
    exact iff_of_true rfl h
  · rw [if_neg h]
    refine iff_of_false ?_ h
    split
    · simp [KamekCommand.classified]
    · split
      · simp [KamekCommand.classified]
      · split
        · split <;> simp [KamekCommand.classified]
        · simp [KamekCommand.classified]

theorem initializeModuleImage_inside {digest : Option (List UInt8)} {image : List UInt8}
    (hfits : ModuleFits chunk base digest) (hlen : image.length = chunk.codeSize.toNat)
    {x : BitVec 32} (hx : x ∈ range base chunk.codeSize.toNat) :
    some (initializeModuleImage base image chunk.codeSize chunk.bssSize digest memory x) =
      image[(x - base).toNat]? := by
  have hcleared : some (store (store memory base image) (base + chunk.codeSize)
      (List.replicate chunk.bssSize.toNat 0) x) = image[(x - base).toNat]? := by
    rw [store_of_notMem, store_of_mem (by rwa [hlen])]
    rw [List.length_replicate, mem_range_iff]
    have hbss := hfits.bss
    rw [mem_range_iff] at hx
    bv_omega
  unfold initializeModuleImage
  cases hdigest : digest with
  | none => exact hcleared
  | some bytes =>
      by_cases hbytes : bytes.length = 20
      · dsimp only
        rw [if_pos hbytes, store_of_notMem, hcleared]
        rw [hbytes]
        exact hfits.digest bytes hdigest hbytes x hx
      · dsimp only
        rw [if_neg hbytes, hcleared]

/-- Outside of the code, the image that is copied makes no difference. -/
theorem initializeModuleImage_outside {digest : Option (List UInt8)}
    {image image' : List UInt8} {offset size x : BitVec 32}
    (hlen : image.length = image'.length) (hx : x ∉ range base image.length) :
    initializeModuleImage base image offset size digest memory x =
      initializeModuleImage base image' offset size digest memory x := by
  have hcopied : store memory base image x = store memory base image' x := by
    rw [store_of_notMem hx, store_of_notMem (by rwa [← hlen])]
  unfold initializeModuleImage
  cases digest with
  | none => exact store_apply_congr hcopied
  | some bytes =>
      dsimp only
      split
      · exact store_apply_congr (store_apply_congr hcopied)
      · exact store_apply_congr hcopied

/-- Copying the finished module image is copying the code and applying the relative
commands. -/
theorem moduleImage_eq_run {digest : Option (List UInt8)} {image : List UInt8}
    (hmodule : ModuleFits chunk base digest)
    (hfit : ModuleCommandsFit chunk manifest base)
    (himage : buildModuleImage chunk base = some image) (memory : Memory) :
    runAll (patchEffect base) (ofKind (build chunk manifest base) .moduleCommand)
        (initializeModuleImage base chunk.codeBlob chunk.codeSize chunk.bssSize digest
          memory) =
      some (initializeModuleImage base image chunk.codeSize chunk.bssSize digest
        memory) := by
  set loaded := initializeModuleImage base chunk.codeBlob chunk.codeSize chunk.bssSize
    digest memory with hloaded
  have hcode : load loaded base chunk.codeSize.toNat = chunk.codeBlob := by
    apply List.ext_getElem?
    intro i
    by_cases hi : i < chunk.codeSize.toNat
    · have hoffset : (base + BitVec.ofNat 32 i - base).toNat = i := by
        rw [add_sub_cancel_left, BitVec.toNat_ofNat, Nat.mod_eq_of_lt (by omega)]
      rw [getElem?_load hi, hloaded, initializeModuleImage_inside hmodule chunk.codeLength,
        hoffset]
      rwa [mem_range_iff, hoffset]
    · rw [List.getElem?_eq_none (by simpa using hi),
        List.getElem?_eq_none (by rw [chunk.codeLength]; omega)]
  rw [buildModuleImage, ← hcode] at himage
  obtain ⟨memory', hrun, rfl, hframe⟩ := moduleCommands_run hmodule.code
    (fun c hc => (List.mem_filter.mp hc).1)
    (fun c hc => of_decide_eq_true (List.mem_filter.mp hc).2) hfit himage
  rw [moduleCommands_eq, hrun]
  congr 1
  funext x
  by_cases hx : x ∈ range base chunk.codeSize.toNat
  · apply Option.some.inj
    rw [initializeModuleImage_inside hmodule (length_load) hx, getElem?_load_of_mem hx]
  · rw [hframe x hx, hloaded]
    apply initializeModuleImage_outside
    · rw [chunk.codeLength, length_load]
    · rwa [chunk.codeLength]

end Module

/-! ## Commands that commute -/

section Commands

variable {guestBase linkBase : BitVec 32}

theorem run_localOn {s : Statement} (hwidth : (Statement.place s).2 ≤ 2 ^ 32) :
    LocalOn (range (Statement.place s).1 (Statement.place s).2) s.run where
  frame := fun h x hx => run_frame h hx
  depends := by
    intro m₁ m₂ hsame m₁' h
    have hread : load m₂ (Statement.place s).1 (Statement.place s).2 =
        load m₁ (Statement.place s).1 (Statement.place s).2 :=
      load_congr hwidth fun x hx => (hsame x hx).symm
    have hwrite : ∀ bytes : List UInt8, ∀ x ∈ range (Statement.place s).1
        (Statement.place s).2, store m₁ (Statement.place s).1 bytes x =
          store m₂ (Statement.place s).1 bytes x :=
      fun bytes x hx => store_apply_congr (hsame x hx)
    cases s with
    | write width address value =>
        obtain rfl := Option.some.inj h
        exact ⟨_, rfl, hwrite _⟩
    | conditional width address expected value =>
        have hread' : readMemory m₂ address width = readMemory m₁ address width :=
          congrArg fromBytes hread
        rw [Statement.run, ← hread'] at h
        rw [Statement.run]
        by_cases htest : readMemory m₂ address width = expected.toNat
        · rw [if_pos htest] at h ⊢
          obtain rfl := Option.some.inj h
          exact ⟨_, rfl, hwrite _⟩
        · rw [if_neg htest] at h ⊢
          obtain rfl := Option.some.inj h
          exact ⟨_, rfl, hsame⟩
    | rel24 address target =>
        have hread' : readMemory m₂ address 4 = readMemory m₁ address 4 :=
          congrArg fromBytes hread
        simp only [Statement.run, ← hread', Option.ite_none_right_eq_some,
          Option.some.injEq] at h
        obtain ⟨hrange, rfl⟩ := h
        exact ⟨_, if_pos hrange, hwrite _⟩
    | branch address target link =>
        simp only [Statement.run, Option.map_eq_some_iff] at h
        obtain ⟨instruction, hinstruction, rfl⟩ := h
        refine ⟨_, ?_, hwrite (toBytes 4 instruction.toNat)⟩
        rw [Statement.run, hinstruction]
        rfl

theorem commandEffect_localOn (c : KamekPatchClassification) :
    LocalOn (range c.commandAddress (commandWidth c.commandId))
      (commandEffect guestBase linkBase c) := by
  have heffect : commandEffect guestBase linkBase c =
      patchEffect (targetBase guestBase linkBase c) c := rfl
  rw [heffect]
  rcases hs : emitBaseExecutablePatch (targetBase guestBase linkBase c) c with _ | s
  · have hnone : patchEffect (targetBase guestBase linkBase c) c = fun _ => none := by
      funext memory
      rw [patchEffect, hs, Option.bind_none]
    rw [hnone]
    exact ⟨fun h => absurd h (by simp), fun _ _ h => absurd h (by simp)⟩
  · have hsome : patchEffect (targetBase guestBase linkBase c) c = s.run := by
      funext memory
      rw [patchEffect, hs, Option.bind_some]
    have hplace := place_emit hs
    have hwidth : (Statement.place s).2 ≤ 2 ^ 32 := by
      rw [hplace]
      exact commandWidth_le _
    have hlocal := run_localOn hwidth
    rw [hplace] at hlocal
    rwa [hsome]

theorem commute_of_disjoint {c d : KamekPatchClassification}
    (h : ∀ x ∈ range c.commandAddress (commandWidth c.commandId),
      x ∉ range d.commandAddress (commandWidth d.commandId)) :
    Commute (commandEffect guestBase linkBase) c d := fun memory =>
  (commandEffect_localOn c).comm (commandEffect_localOn d) h memory

end Commands

/-! ## The whole application -/

section Whole

variable {chunk : KamekChunk} {manifest : BaseManifest} {guestBase linkBase : BitVec 32}

theorem ofKind_kind {plan : List KamekPatchClassification}
    {kind : KamekPatchClassificationKind} {c : KamekPatchClassification}
    (h : c ∈ ofKind plan kind) : c.kind = kind :=
  of_decide_eq_true (List.mem_filter.mp h).2

/-- The statements of the executable patches have the effects of the patches. -/
theorem runStatements_executable {plan : List KamekPatchClassification}
    {statements : List Statement}
    (h : applyExecutableBasePatches plan linkBase = some statements) (memory : Memory) :
    runStatements statements memory =
      runAll (commandEffect guestBase linkBase) (executablePatches plan) memory := by
  rw [runStatements, runAll_of_mapM h]
  apply runAll_congr
  intro c hc
  have hkind := ofKind_kind ((List.mem_insertionSort _).mp hc)
  funext state
  rw [commandEffect, targetBase, if_pos hkind]
  rfl

theorem emitPatch_some {c : KamekPatchClassification} {s : Statement}
    (h : emitPatch guestBase c = some s) : emitBaseExecutablePatch guestBase c = some s := by
  unfold emitPatch at h
  split at h
  · exact absurd h (by simp)
  · exact absurd h (by simp)
  · exact absurd h (by simp)
  · exact h

theorem runStatements_data {plan : List KamekPatchClassification}
    {statements : List Statement} (h : dataPatches plan guestBase = some statements)
    (memory : Memory) :
    runStatements statements memory =
      runAll (commandEffect guestBase linkBase)
        (orderByAddress (ofKind plan .baseDataPatch)) memory := by
  rw [runStatements, runAll_of_mapM (PartialMaps.mapM_of_mapM (fun _ _ => emitPatch_some) h)]
  apply runAll_congr
  intro c hc
  have hkind := ofKind_kind ((List.mem_insertionSort _).mp hc)
  funext state
  rw [commandEffect, targetBase, if_neg (by rw [hkind]; decide)]
  rfl

/-- Two commands that the static application exchanges can be exchanged. -/
def ExchangedCommute (chunk : KamekChunk) (manifest : BaseManifest)
    (guestBase linkBase : BitVec 32) : Prop :=
  (appliedCommands (build chunk manifest guestBase)).Pairwise fun c d =>
    ¬Precedes c d → Commute (commandEffect guestBase linkBase) c d

/-- When no command is unsupported, the relative commands fit in the module code, and
the commands whose order the static application changes commute, then the generated
start-up code and the loader leave the same memory. -/
theorem applyDataPatches_eq_sequential {digest : Option (List UInt8)}
    {image : List UInt8} {start : Memory → Option Memory}
    (hsupported : ∀ c ∈ build chunk manifest guestBase, c.kind ≠ .unsupported)
    (himage : buildModuleImage chunk guestBase = some image)
    (hstart : applyDataPatches chunk manifest guestBase linkBase image digest =
      some start)
    (hmodule : ModuleFits chunk guestBase digest)
    (hfit : ModuleCommandsFit chunk manifest guestBase)
    (hcommute : ExchangedCommute chunk manifest guestBase linkBase) (memory : Memory) :
    start memory =
      applySequentially chunk manifest guestBase linkBase digest memory := by
  simp only [applyDataPatches, Option.bind_eq_bind, Option.bind_eq_some_iff] at hstart
  obtain ⟨executable, hexecutable, data, hdata, hstart⟩ := hstart
  obtain rfl := Option.some.inj hstart
  set loaded := initializeModuleImage guestBase chunk.codeBlob chunk.codeSize
    chunk.bssSize digest memory with hloaded
  have hmoduleRun : runAll (commandEffect guestBase linkBase)
      (ofKind (build chunk manifest guestBase) .moduleCommand) loaded =
      some (initializeModuleImage guestBase image chunk.codeSize chunk.bssSize digest
        memory) := by
    rw [← moduleImage_eq_run hmodule hfit himage memory]
    apply runAll_congr
    intro c hc
    funext state
    rw [commandEffect, targetBase, if_neg (by rw [ofKind_kind hc]; decide)]
  symm
  calc
    applySequentially chunk manifest guestBase linkBase digest memory
      = runAll (commandEffect guestBase linkBase)
          ((appliedCommands (build chunk manifest guestBase)).insertionSort Precedes)
          loaded := (runAll_insertionSort hcommute loaded).symm
    _ = ((runAll (commandEffect guestBase linkBase)
          (ofKind (build chunk manifest guestBase) .moduleCommand) loaded).bind
            (runAll (commandEffect guestBase linkBase)
              (executablePatches (build chunk manifest guestBase)))).bind
            (runAll (commandEffect guestBase linkBase)
              (orderByAddress (ofKind (build chunk manifest guestBase)
                .baseDataPatch))) := by
      rw [staticOrder_eq hsupported, ← List.append_assoc, runAll_append, runAll_append]
    _ = _ := by
      dsimp only
      rw [hmoduleRun, Option.bind_some, runStatements_executable hexecutable]
      congr 1
      funext state
      exact (runStatements_data hdata state).symm

end Whole

/-! ## Two writes of data -/

/-- A chunk with a word of code that a relative command replaces, then a byte, then a
word of data. -/
def twoWrites (byteAddress wordAddress : BitVec 32) : KamekChunk where
  bssSize := 0
  codeSize := 4
  codeBlob := [0, 0, 0, 0]
  commands := [⟨.write32, false, 0, [0x4E800020], rfl⟩,
    ⟨.write8, true, byteAddress, [0xFF], rfl⟩, ⟨.write32, true, wordAddress, [0], rfl⟩]
  codeLength := rfl

def dataManifest : BaseManifest where
  sections := [⟨".data", 0x80300000, 0x80300010, false, none⟩]
  functions := []
  disjoint := by
    intro f hf
    exact absurd hf List.not_mem_nil

theorem twoWrites_start (byteAddress wordAddress : BitVec 32)
    (h : dataPatches (build (twoWrites byteAddress wordAddress) dataManifest 0x80800000)
        0x80800000 =
      some [.write 4 wordAddress 0, .write 1 byteAddress 0xFF])
    (h' : applyExecutableBasePatches
        (build (twoWrites byteAddress wordAddress) dataManifest 0x80800000) 0x80800000 =
      some []) :
    applyDataPatches (twoWrites byteAddress wordAddress) dataManifest 0x80800000
        0x80800000 [0x4E, 0x80, 0x00, 0x20] none =
      some fun memory => runStatements [.write 4 wordAddress 0, .write 1 byteAddress 0xFF]
        (initializeModuleImage 0x80800000 [0x4E, 0x80, 0x00, 0x20] 4 0 none memory) := by
  simp only [applyDataPatches, h, h', Option.bind_eq_bind, Option.bind_some]
  rfl

/-- A word that overwrites a byte: the static order leaves the byte. -/
theorem overlapping_writes_disagree :
    ∃ start,
      (∀ c ∈ build (twoWrites 0x80300001 0x80300000) dataManifest 0x80800000,
        c.kind ≠ .unsupported) ∧
      buildModuleImage (twoWrites 0x80300001 0x80300000) 0x80800000 =
        some [0x4E, 0x80, 0x00, 0x20] ∧
      applyDataPatches (twoWrites 0x80300001 0x80300000) dataManifest 0x80800000
        0x80800000 [0x4E, 0x80, 0x00, 0x20] none = some start ∧
      start zeroMemory ≠ applySequentially (twoWrites 0x80300001 0x80300000) dataManifest
        0x80800000 0x80800000 none zeroMemory := by
  refine ⟨_, by decide +kernel, by decide +kernel,
    twoWrites_start _ _ (by decide +kernel) (by decide +kernel), ?_⟩
  intro hsame
  have hbyte := congrArg (Option.map fun memory : Memory => memory 0x80300001) hsame
  revert hbyte
  decide +kernel

/-- A byte and a word at different places: the order makes no difference. -/
theorem separate_writes_agree :
    ∃ start,
      applyDataPatches (twoWrites 0x80300008 0x80300000) dataManifest 0x80800000
        0x80800000 [0x4E, 0x80, 0x00, 0x20] none = some start ∧
      ∀ memory, start memory = applySequentially (twoWrites 0x80300008 0x80300000)
        dataManifest 0x80800000 0x80800000 none memory := by
  have hstart := twoWrites_start 0x80300008 0x80300000 (by decide +kernel)
    (by decide +kernel)
  refine ⟨_, hstart, ?_⟩
  intro memory
  refine applyDataPatches_eq_sequential (by decide +kernel) (by decide +kernel) hstart
    ⟨by decide, by decide, by simp⟩ ?_ ?_ memory
  · intro c hc
    have hplan : ofKind (build (twoWrites 0x80300008 0x80300000) dataManifest 0x80800000)
        .moduleCommand =
        [⟨.moduleCommand, .write32, 0x80800000, false, none, [0x4E800020]⟩] := by
      decide +kernel
    rw [hplan, List.mem_singleton] at hc
    obtain rfl := hc
    refine ⟨⟨by decide, rfl⟩, ?_⟩
    intro s hs
    obtain rfl := Option.some.inj hs
    trivial
  · have hplan : appliedCommands (build (twoWrites 0x80300008 0x80300000) dataManifest
        0x80800000) =
        [⟨.moduleCommand, .write32, 0x80800000, false, none, [0x4E800020]⟩,
          ⟨.baseDataPatch, .write8, 0x80300008, true, none, [0xFF]⟩,
          ⟨.baseDataPatch, .write32, 0x80300000, true, none, [0]⟩] := by
      decide +kernel
    rw [ExchangedCommute, hplan]
    have hcommute : Commute (commandEffect 0x80800000 0x80800000)
        ⟨.baseDataPatch, .write8, 0x80300008, true, none, [0xFF]⟩
        ⟨.baseDataPatch, .write32, 0x80300000, true, none, [0]⟩ := by
      apply commute_of_disjoint
      intro x hbyte hword
      rw [mem_range_iff] at hbyte hword
      simp only [commandWidth] at hbyte hword
      bv_omega
    refine .cons ?_ (.cons ?_ (.cons (by simp) .nil))
    · intro d hd hprecedes
      exact absurd hprecedes (by
        rw [not_not]
        revert d
        decide)
    · intro d hd _
      rw [List.mem_singleton] at hd
      exact hd ▸ hcommute

end Wiicompiled.Mods.StaticApplication
