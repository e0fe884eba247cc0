import Wiicompiled.CodeGen.GpuFifoBurst
import Wiicompiled.Ir.RegisterDataFlow
import Mathlib.Tactic.Zify

/-!
# A burst pushes what its stores would push

The bytes of a store are put into the buffer when the store is reached, so what is computed
behind it does not matter for them.  Until the burst only registers change, and then the
buffer holds the bytes of all stores of the run in their order.
-/

namespace Wiicompiled.CodeGen.CxxLinearCodeGenerator

open Ir DeferredWrites

/-! ## Bytes -/

structure GpuFifoStoreInfo.Accepted (store : GpuFifoStoreInfo) : Prop where
  float : store.IsFloat = true → store.ByteLength = 4
  width : store.ByteLength = 1 ∨ store.ByteLength = 2 ∨ store.ByteLength = 4

theorem accepted_of_classified
    {instruction : IrInstruction} {knownConstants : KnownConstants} {store : GpuFifoStoreInfo}
    (h : TryClassifyKnownGpuFifoStore instruction knownConstants = some store) :
    store.Accepted := by
  unfold TryClassifyKnownGpuFifoStore at h
  split at h
  · unfold TryGetKnownGpuFifoStore at h
    split at h
    · exact absurd h.symm (Option.some_ne_none _)
    · split_ifs at h <;> cases h <;> exact ⟨by simp, by simp⟩
  · exact absurd h.symm (Option.some_ne_none _)

theorem bigEndianBytes_length (word : BitVec 32) (count : ℕ) :
    (bigEndianBytes word count).length = count := by
  rw [bigEndianBytes, List.length_map, List.length_range]

theorem setWidth_ofInt (value : ℤ) {width wide : ℕ} (h : width ≤ wide) :
    (BitVec.ofInt wide value).setWidth width = BitVec.ofInt width value := by
  apply BitVec.eq_of_toNat_eq
  rw [BitVec.toNat_setWidth, BitVec.toNat_ofInt, BitVec.toNat_ofInt]
  have hdvd : (2 : ℤ) ^ width ∣ 2 ^ wide := pow_dvd_pow 2 h
  have hwide : 0 ≤ value % (2 : ℤ) ^ wide := Int.emod_nonneg _ (pow_ne_zero _ (by decide))
  have hnarrow : 0 ≤ value % (2 : ℤ) ^ width := Int.emod_nonneg _ (pow_ne_zero _ (by decide))
  zify
  rw [Int.toNat_of_nonneg hwide, Int.toNat_of_nonneg hnarrow]
  exact Int.emod_emod_of_dvd value hdvd

/-- A byte of a cast integer is a byte of the integer, below the width of the cast. -/
theorem byteAbove_ofInt
    (value : ℤ) {width shift : ℕ} (hwidth : width ≤ 32) (hshift : shift + 8 ≤ width) :
    byteAbove ((BitVec.ofInt width value).setWidth 32) shift =
      byteAbove (BitVec.ofInt 32 value) shift := by
  unfold byteAbove
  congr 1
  rw [← setWidth_ofInt value hwidth]
  apply BitVec.eq_of_getLsbD_eq
  intro i hi
  have hbit : shift + i < width := by omega
  have hword : shift + i < 32 := by omega
  simp only [BitVec.getLsbD_setWidth, BitVec.getLsbD_ushiftRight, hi, hbit, hword, decide_true,
    Bool.true_and]

section Bytes

variable {ρ ω : Type} (meaning : Meaning ρ ω)

theorem slotBytes_eq
    {store : GpuFifoStoreInfo} (h : store.Accepted) (position : ℕ) (source : IrValue)
    (registers : ρ) :
    slotBytes meaning store position source registers =
      pushedBytes meaning store position source registers := by
  obtain ⟨isFloat, byteLength⟩ := store
  cases isFloat with
  | true =>
      have hlength : byteLength = 4 := h.float rfl
      subst hlength
      rfl
  | false =>
      rcases h.width with hlength | hlength | hlength
      · simp only at hlength
        subst hlength
        change [(⟨BitVec.ofInt 8 _⟩ : UInt8)] = [byteAbove ((BitVec.ofInt 8 _).setWidth 32) 0]
        unfold byteAbove
        rw [BitVec.ushiftRight_zero, BitVec.setWidth_setWidth_of_le _ (by decide),
          BitVec.setWidth_eq]
      · simp only at hlength
        subst hlength
        change bigEndianBytes (BitVec.ofInt 32 _) 2 =
          bigEndianBytes ((BitVec.ofInt 16 _).setWidth 32) 2
        change [byteAbove (BitVec.ofInt 32 _) 8, byteAbove (BitVec.ofInt 32 _) 0] =
          [byteAbove ((BitVec.ofInt 16 _).setWidth 32) 8,
            byteAbove ((BitVec.ofInt 16 _).setWidth 32) 0]
        rw [byteAbove_ofInt _ (by decide) (by decide), byteAbove_ofInt _ (by decide) (by decide)]
      · simp only at hlength
        subst hlength
        change bigEndianBytes (BitVec.ofInt 32 _) 4 =
          bigEndianBytes ((BitVec.ofInt 32 _).setWidth 32) 4
        rw [BitVec.setWidth_eq]

theorem pushedBytes_length
    {store : GpuFifoStoreInfo} (h : store.Accepted) (position : ℕ) (source : IrValue)
    (registers : ρ) :
    (pushedBytes meaning store position source registers).length = store.ByteLength := by
  unfold pushedBytes
  by_cases hfloat : store.IsFloat = true
  · rw [if_pos hfloat, bigEndianBytes_length, h.float hfloat]
  · rw [if_neg hfloat, bigEndianBytes_length]

end Bytes

theorem takeBytes_putBytes (buffer : ℕ → UInt8) (offset : ℕ) (bytes : List UInt8) :
    takeBytes (putBytes buffer offset bytes) (offset + bytes.length) =
      takeBytes buffer offset ++ bytes := by
  unfold takeBytes
  rw [List.range_add, List.map_append, List.map_map]
  congr 1
  · refine List.map_congr_left fun place hplace => ?_
    exact if_neg (Nat.not_le_of_lt (List.mem_range.mp hplace))
  · refine List.ext_getElem (by simp) fun index hleft hright => ?_
    simp [putBytes, List.getElem?_eq_getElem hright]

/-! ## The members of a run -/

section Members

variable {knownConstants : KnownConstants}

/-- The stores among some instructions, with their indices. -/
def membersOf (knownConstants : KnownConstants) : List IrInstruction → ℕ → List Member
  | [], _ => []
  | instruction :: rest, index =>
      match TryClassifyKnownGpuFifoStore instruction knownConstants with
      | some store => (index, store) :: membersOf knownConstants rest (index + 1)
      | none => membersOf knownConstants rest (index + 1)

/-- A store of a run, or computation. -/
def Spannable (knownConstants : KnownConstants) (instruction : IrInstruction) : Prop :=
  (TryClassifyKnownGpuFifoStore instruction knownConstants).isSome ∨
    IsGpuFifoBurstTransparent instruction = true

theorem scanRun_spec (rest : List IrInstruction) (scan : ℕ) :
    (scanRun knownConstants rest scan).1 =
        membersOf knownConstants (rest.take (scanRun knownConstants rest scan).2) scan ∧
      ∀ instruction ∈ rest.take (scanRun knownConstants rest scan).2,
        Spannable knownConstants instruction := by
  induction rest generalizing scan with
  | nil => exact ⟨rfl, fun _ h => absurd h (by simp [scanRun])⟩
  | cons instruction rest ih =>
      obtain ⟨hmembers, hspannable⟩ := ih (scan + 1)
      unfold scanRun
      cases hclassify : TryClassifyKnownGpuFifoStore instruction knownConstants with
      | some store =>
          simp only [List.take_succ_cons, membersOf, hclassify, List.mem_cons]
          refine ⟨by rw [hmembers], ?_⟩
          rintro other (rfl | hother)
          · exact Or.inl (by rw [hclassify]; rfl)
          · exact hspannable other hother
      | none =>
          by_cases htransparent : IsGpuFifoBurstTransparent instruction = true
          · simp only [htransparent, if_true, List.take_succ_cons, membersOf, hclassify,
              List.mem_cons]
            refine ⟨hmembers, ?_⟩
            rintro other (rfl | hother)
            · exact Or.inr htransparent
            · exact hspannable other hother
          · simp only [htransparent, Bool.false_eq_true, if_false, List.take_zero]
            exact ⟨rfl, fun _ h => absurd h List.not_mem_nil⟩

theorem le_of_mem_membersOf
    {instructions : List IrInstruction} {start : ℕ} {member : Member}
    (h : member ∈ membersOf knownConstants instructions start) :
    start ≤ member.1 ∧ member.1 < start + instructions.length := by
  induction instructions generalizing start with
  | nil => exact absurd h List.not_mem_nil
  | cons instruction rest ih =>
      have htail : member ∈ membersOf knownConstants rest (start + 1) →
          start ≤ member.1 ∧ member.1 < start + (instruction :: rest).length := by
        intro hmember
        have hrest := ih hmember
        rw [List.length_cons]
        omega
      unfold membersOf at h
      cases hclassify : TryClassifyKnownGpuFifoStore instruction knownConstants with
      | none =>
          rw [hclassify] at h
          exact htail h
      | some store =>
          rw [hclassify] at h
          rcases List.mem_cons.mp h with rfl | hrest
          · rw [List.length_cons]
            omega
          · exact htail hrest

theorem lookup_runSlots_eq_none
    {run : GpuFifoBurstRun} {offset index : ℕ} {members : List Member}
    (h : ∀ member ∈ members, member.1 ≠ index) :
    (runSlots run offset members).lookup index = none := by
  induction members generalizing offset with
  | nil => rfl
  | cons member members ih =>
      have hne : index ≠ member.1 := (h member List.mem_cons_self).symm
      rw [runSlots, List.lookup_cons, beq_false_of_ne hne]
      exact ih fun other hother => h other (List.mem_cons_of_mem _ hother)

theorem index_of_mem_runSlots
    {run : GpuFifoBurstRun} {offset : ℕ} {members : List Member} {entry : ℕ × GpuFifoBurstSlot}
    (h : entry ∈ runSlots run offset members) : ∃ member ∈ members, entry.1 = member.1 := by
  induction members generalizing offset with
  | nil => exact absurd h List.not_mem_nil
  | cons member members ih =>
      rcases List.mem_cons.mp h with rfl | hrest
      · exact ⟨member, List.mem_cons_self, rfl⟩
      · obtain ⟨other, hother, heq⟩ := ih hrest
        exact ⟨other, List.mem_cons_of_mem _ hother, heq⟩

def runCompletion (run : GpuFifoBurstRun) (members : List Member) (index : ℕ) :
    Option GpuFifoBurstRun :=
  match members.getLast? with
  | some last => if index = last.1 then some run else none
  | none => none

end Members

/-! ## The run of a segment -/

section Segment

variable {ρ ω : Type} (meaning : Meaning ρ ω) {knownConstants : KnownConstants}

/-- What an instruction of a segment does when its store is made directly. -/
def segmentStep (meaning : Meaning ρ ω) (knownConstants : KnownConstants) (position : ℕ)
    (instruction : IrInstruction) : Step ρ UInt8 :=
  match instruction, TryClassifyKnownGpuFifoStore instruction knownConstants with
  | .store _ source _, some store => .write (pushedBytes meaning store position source)
  | _, _ => .compute (meaning.compute position instruction)

def segmentSteps (meaning : Meaning ρ ω) (knownConstants : KnownConstants) :
    List IrInstruction → ℕ → List (Step ρ UInt8)
  | [], _ => []
  | instruction :: rest, position =>
      segmentStep meaning knownConstants position instruction ::
        segmentSteps meaning knownConstants rest (position + 1)

theorem exists_store_of_classified
    {instruction : IrInstruction} {store : GpuFifoStoreInfo}
    (h : TryClassifyKnownGpuFifoStore instruction knownConstants = some store) :
    ∃ address source sizeBytes, instruction = .store address source sizeBytes := by
  unfold TryClassifyKnownGpuFifoStore at h
  split at h
  · exact ⟨_, _, _, rfl⟩
  · exact absurd h.symm (Option.some_ne_none _)

/-- The registers and the outside of two machines are the same. -/
def SameEffect (machine other : Machine ρ ω) : Prop :=
  machine.registers = other.registers ∧ machine.outside = other.outside

theorem runStatements_direct
    {segment : List IrInstruction} (h : ∀ i ∈ segment, Spannable knownConstants i)
    (position : ℕ) (machine : Machine ρ ω) :
    (runStatements meaning
        (emitFrom knownConstants (fun _ => none) (fun _ => none) segment position)
        machine).registers =
        finalState (segmentSteps meaning knownConstants segment position) machine.registers ∧
      (runStatements meaning
        (emitFrom knownConstants (fun _ => none) (fun _ => none) segment position)
        machine).outside =
        pushAll meaning.push
          (gathered (segmentSteps meaning knownConstants segment position) machine.registers)
          machine.outside := by
  induction segment generalizing position machine with
  | nil => exact ⟨rfl, rfl⟩
  | cons instruction rest ih =>
      have hrest := ih (fun i hi => h i (List.mem_cons_of_mem _ hi)) (position + 1)
      cases hclassify : TryClassifyKnownGpuFifoStore instruction knownConstants with
      | some store =>
          obtain ⟨address, source, sizeBytes, rfl⟩ := exists_store_of_classified hclassify
          obtain ⟨hregisters, houtside⟩ := hrest
            { machine with
              outside := pushAll meaning.push
                (pushedBytes meaning store position source machine.registers) machine.outside }
          simp only [emitFrom, emitInstruction, hclassify, segmentSteps, segmentStep, gathered,
            pushAll_append]
          exact ⟨hregisters, houtside⟩
      | none =>
          have htransparent : IsGpuFifoBurstTransparent instruction = true := by
            rcases h instruction List.mem_cons_self with hsome | htransparent
            · rw [hclassify] at hsome
              exact absurd hsome Bool.false_ne_true
            · exact htransparent
          obtain ⟨hregisters, houtside⟩ := hrest
            { machine with
              registers := meaning.compute position instruction machine.registers }
          simp only [emitFrom, emitInstruction, hclassify, segmentSteps, segmentStep, gathered,
            pushAll_append, runStatements, Option.toList_none, List.map_nil, List.nil_append,
            List.foldl_cons, runStatement, htransparent, if_true]
          exact ⟨hregisters, houtside⟩

theorem emitFrom_congr
    {slotAt slotAt' : ℕ → Option GpuFifoBurstSlot}
    {completionAt completionAt' : ℕ → Option GpuFifoBurstRun}
    {segment : List IrInstruction} {position : ℕ}
    (hslots : ∀ i, position ≤ i → i < position + segment.length → slotAt i = slotAt' i)
    (hcompletions : ∀ i, position ≤ i → i < position + segment.length →
      completionAt i = completionAt' i) :
    emitFrom knownConstants slotAt completionAt segment position =
      emitFrom knownConstants slotAt' completionAt' segment position := by
  induction segment generalizing position with
  | nil => rfl
  | cons instruction rest ih =>
      rw [List.length_cons] at hslots hcompletions
      rw [emitFrom, emitFrom, hslots position (by omega) (by omega),
        hcompletions position (by omega) (by omega),
        ih (fun i hle hlt => hslots i (by omega) (by omega))
          (fun i hle hlt => hcompletions i (by omega) (by omega))]

theorem emitFrom_append
    {slotAt : ℕ → Option GpuFifoBurstSlot} {completionAt : ℕ → Option GpuFifoBurstRun}
    (front back : List IrInstruction) (position : ℕ) :
    emitFrom knownConstants slotAt completionAt (front ++ back) position =
      emitFrom knownConstants slotAt completionAt front position ++
        emitFrom knownConstants slotAt completionAt back (position + front.length) := by
  induction front generalizing position with
  | nil => rfl
  | cons instruction front ih =>
      rw [List.cons_append, emitFrom, emitFrom, ih, List.length_cons, List.cons_append,
        List.append_assoc, Nat.add_assoc, Nat.add_comm 1]

theorem runStatements_append (front back : List Statement) (machine : Machine ρ ω) :
    runStatements meaning (front ++ back) machine =
      runStatements meaning back (runStatements meaning front machine) :=
  List.foldl_append

theorem runCompletion_cons_eq_none
    {run : GpuFifoBurstRun} {index : ℕ} {store : GpuFifoStoreInfo} {members : List Member}
    (hne : members ≠ []) (h : ∀ member ∈ members, member.1 ≠ index) :
    runCompletion run ((index, store) :: members) index = none := by
  have hlast := List.getLast?_eq_some_getLast hne
  unfold runCompletion
  rw [List.getLast?_cons, hlast]
  exact if_neg (h _ (List.getLast_mem hne)).symm

theorem runCompletion_cons_of_ne
    {run : GpuFifoBurstRun} {index : ℕ} {store : GpuFifoStoreInfo} {members : List Member}
    {other : ℕ} (hne : other ≠ index) :
    runCompletion run ((index, store) :: members) other = runCompletion run members other := by
  unfold runCompletion
  rw [List.getLast?_cons]
  cases members.getLast? with
  | none => exact if_neg hne
  | some last => rfl

/-- The buffer holds the pending bytes until the burst, and the burst pushes them. -/
theorem runStatements_burst
    (run : GpuFifoBurstRun) (offset : ℕ) (pending : List UInt8) {segment : List IrInstruction}
    (h : ∀ i ∈ segment, Spannable knownConstants i) {slotAt : ℕ → Option GpuFifoBurstSlot}
    {completionAt : ℕ → Option GpuFifoBurstRun} {position : ℕ}
    (hmembers : membersOf knownConstants segment position ≠ [])
    (hslots : ∀ i, position ≤ i → i < position + segment.length →
      slotAt i = (runSlots run offset (membersOf knownConstants segment position)).lookup i)
    (hcompletions : ∀ i, position ≤ i → i < position + segment.length →
      completionAt i = runCompletion run (membersOf knownConstants segment position) i)
    (htotal : run.TotalBytes =
      offset + totalBytes (membersOf knownConstants segment position))
    (machine : Machine ρ ω)
    (hpending : takeBytes (machine.buffers run.BufferName) offset = pending) :
    (runStatements meaning (emitFrom knownConstants slotAt completionAt segment position)
        machine).registers =
        finalState (segmentSteps meaning knownConstants segment position) machine.registers ∧
      (runStatements meaning (emitFrom knownConstants slotAt completionAt segment position)
        machine).outside =
        pushAll meaning.push
          (pending ++
            gathered (segmentSteps meaning knownConstants segment position) machine.registers)
          machine.outside := by
  induction segment generalizing offset position machine pending with
  | nil => exact absurd rfl hmembers
  | cons instruction rest ih =>
      have hspannable : ∀ i ∈ rest, Spannable knownConstants i :=
        fun i hi => h i (List.mem_cons_of_mem _ hi)
      have hlater : ∀ member ∈ membersOf knownConstants rest (position + 1),
          member.1 ≠ position := by
        intro member hmember
        have hle := (le_of_mem_membersOf hmember).1
        omega
      have hslot := hslots position (Nat.le_refl _) (by rw [List.length_cons]; omega)
      have hcompletion := hcompletions position (Nat.le_refl _) (by rw [List.length_cons]; omega)
      rw [List.length_cons] at hslots hcompletions
      cases hclassify : TryClassifyKnownGpuFifoStore instruction knownConstants with
      | none =>
          have htransparent : IsGpuFifoBurstTransparent instruction = true := by
            rcases h instruction List.mem_cons_self with hsome | htransparent
            · rw [hclassify] at hsome
              exact absurd hsome Bool.false_ne_true
            · exact htransparent
          simp only [membersOf, hclassify] at hmembers hslots hcompletions htotal hslot hcompletion
          have hnoCompletion : completionAt position = none := by
            rw [hcompletion]
            unfold runCompletion
            cases hlast : (membersOf knownConstants rest (position + 1)).getLast? with
            | none => rfl
            | some last => exact if_neg (hlater last (List.mem_of_getLast? hlast)).symm
          obtain ⟨hregisters, houtside⟩ := ih offset pending hspannable hmembers
            (fun i hle hlt => hslots i (by omega) (by omega))
            (fun i hle hlt => hcompletions i (by omega) (by omega)) htotal
            { machine with
              registers := meaning.compute position instruction machine.registers } hpending
          simp only [emitFrom, emitInstruction, hclassify, hnoCompletion, segmentSteps,
            segmentStep, gathered, runStatements, Option.toList_none, List.map_nil,
            List.nil_append, List.foldl_cons, runStatement, htransparent, if_true]
          exact ⟨hregisters, houtside⟩
      | some store =>
          obtain ⟨address, source, sizeBytes, rfl⟩ := exists_store_of_classified hclassify
          have haccepted := accepted_of_classified hclassify
          simp only [membersOf, hclassify] at hslots hcompletions htotal hslot hcompletion
          have hthisSlot : slotAt position = some ⟨run, offset, store⟩ := by
            rw [hslot, runSlots, List.lookup_cons, beq_self_eq_true]
          have hbuffered : takeBytes
              (putBytes (machine.buffers run.BufferName) offset
                (slotBytes meaning store position source machine.registers))
              (offset + store.ByteLength) =
              pending ++ pushedBytes meaning store position source machine.registers := by
            rw [slotBytes_eq meaning haccepted, ← hpending,
              ← pushedBytes_length meaning haccepted position source machine.registers]
            exact takeBytes_putBytes _ _ _
          have htotal' : run.TotalBytes = offset + store.ByteLength +
              totalBytes (membersOf knownConstants rest (position + 1)) := by
            rw [htotal, totalBytes, List.map_cons, List.sum_cons, ← Nat.add_assoc]
            rfl
          simp only [emitFrom, emitInstruction, hclassify, hthisSlot, segmentSteps, segmentStep,
            gathered, runStatements, List.foldl_cons, runStatement]
          by_cases hrest : membersOf knownConstants rest (position + 1) = []
          · -- the last store of the run
            have hthisCompletion : completionAt position = some run := by
              rw [hcompletion, hrest]
              exact if_pos rfl
            have hplain : emitFrom knownConstants slotAt completionAt rest (position + 1) =
                emitFrom knownConstants (fun _ => none) (fun _ => none) rest (position + 1) := by
              refine emitFrom_congr (fun i hle hlt => ?_) fun i hle hlt => ?_
              · rw [hslots i (by omega) (by omega), hrest]
                exact lookup_runSlots_eq_none fun member hmember => by
                  rw [List.mem_singleton.mp hmember]
                  exact (Nat.ne_of_gt (by omega : position < i)).symm
              · rw [hcompletions i (by omega) (by omega),
                  runCompletion_cons_of_ne (by omega : i ≠ position), hrest]
                rfl
            rw [hrest, totalBytes, List.map_nil, List.sum_nil, Nat.add_zero] at htotal'
            obtain ⟨hregisters, houtside⟩ := runStatements_direct meaning hspannable
              (position + 1)
              { machine with
                buffers := Function.update machine.buffers run.BufferName
                  (putBytes (machine.buffers run.BufferName) offset
                    (slotBytes meaning store position source machine.registers))
                outside := pushAll meaning.push
                  (pending ++ pushedBytes meaning store position source machine.registers)
                  machine.outside }
            simp only [hplain, hthisCompletion, Option.toList_some, List.map_cons, List.map_nil,
              List.cons_append, List.nil_append, List.foldl_cons, runStatement,
              Function.update_self, htotal', hbuffered]
            refine ⟨hregisters, houtside.trans ?_⟩
            rw [← List.append_assoc, pushAll_append _ (pending ++ _)]
            rfl
          · have hnoCompletion : completionAt position = none := by
              rw [hcompletion]
              exact runCompletion_cons_eq_none hrest hlater
            obtain ⟨hregisters, houtside⟩ := ih _ _ hspannable hrest
              (fun i hle hlt => by
                rw [hslots i (by omega) (by omega), runSlots, List.lookup_cons,
                  beq_false_of_ne (by omega : i ≠ position)])
              (fun i hle hlt => by
                rw [hcompletions i (by omega) (by omega),
                  runCompletion_cons_of_ne (by omega : i ≠ position)])
              htotal'
              { machine with
                buffers := Function.update machine.buffers run.BufferName
                  (putBytes (machine.buffers run.BufferName) offset
                    (slotBytes meaning store position source machine.registers)) }
              (by simp only [Function.update_self]; exact hbuffered)
            simp only [hnoCompletion, Option.toList_none, List.map_nil, List.nil_append]
            refine ⟨hregisters, houtside.trans ?_⟩
            rw [List.append_assoc]
            rfl

theorem gathered_length
    (segment : List IrInstruction) (position : ℕ) (registers : ρ) :
    (gathered (segmentSteps meaning knownConstants segment position) registers).length =
      totalBytes (membersOf knownConstants segment position) := by
  induction segment generalizing position registers with
  | nil => rfl
  | cons instruction rest ih =>
      cases hclassify : TryClassifyKnownGpuFifoStore instruction knownConstants with
      | none =>
          simp only [segmentSteps, segmentStep, hclassify, gathered, membersOf, Step.units,
            List.nil_append, ih]
      | some store =>
          obtain ⟨address, source, sizeBytes, rfl⟩ := exists_store_of_classified hclassify
          simp only [segmentSteps, segmentStep, hclassify, gathered, membersOf, Step.units,
            List.length_append, ih, totalBytes, List.map_cons, List.sum_cons,
            pushedBytes_length meaning (accepted_of_classified hclassify)]

end Segment

/-! ## The runs of a block -/

section Block

variable {ρ ω : Type} (meaning : Meaning ρ ω) {knownConstants : KnownConstants}

theorem scanRun_le (rest : List IrInstruction) (scan : ℕ) :
    (scanRun knownConstants rest scan).2 ≤ rest.length := by
  induction rest generalizing scan with
  | nil => exact Nat.le_refl 0
  | cons instruction rest ih =>
      have hrest := ih (scan + 1)
      unfold scanRun
      cases TryClassifyKnownGpuFifoStore instruction knownConstants with
      | some store => exact Nat.succ_le_succ hrest
      | none =>
          by_cases htransparent : IsGpuFifoBurstTransparent instruction = true
          · simp only [htransparent, if_true, List.length_cons]
            exact Nat.succ_le_succ hrest
          · simp only [htransparent, Bool.false_eq_true, if_false]
            exact Nat.zero_le _

theorem planBlock_skip
    (instructions : List IrInstruction) (index skip count : ℕ) :
    planBlock knownConstants instructions index skip count =
      planBlock knownConstants (instructions.drop skip) (index + skip) 0 count := by
  induction instructions generalizing index skip with
  | nil =>
      rw [List.drop_nil]
      cases skip <;> rfl
  | cons instruction rest ih =>
      cases skip with
      | zero => rfl
      | succ skip =>
          rw [List.drop_succ_cons, planBlock, ih, Nat.add_assoc, Nat.add_comm 1]

/-- The segment that a run was found in: its first instruction is a store, and it reaches
to the first instruction that a run may not span. -/
structure Segment (knownConstants : KnownConstants) (segment : List IrInstruction)
    (index : ℕ) (members : List Member) : Prop where
  spannable : ∀ i ∈ segment, Spannable knownConstants i
  members_eq : members = membersOf knownConstants segment index
  nonempty : members ≠ []

theorem segment_of_classified
    {instruction : IrInstruction} (rest : List IrInstruction) (index : ℕ)
    {firstStore : GpuFifoStoreInfo}
    (hclassify : TryClassifyKnownGpuFifoStore instruction knownConstants = some firstStore) :
    Segment knownConstants (instruction :: rest.take (scanRun knownConstants rest (index + 1)).2)
      index ((index, firstStore) :: (scanRun knownConstants rest (index + 1)).1) where
  spannable := by
    intro i hi
    rcases List.mem_cons.mp hi with rfl | hrest
    · exact Or.inl (by rw [hclassify]; rfl)
    · exact (scanRun_spec rest (index + 1)).2 i hrest
  members_eq := by
    rw [membersOf, hclassify, (scanRun_spec rest (index + 1)).1]
  nonempty := List.cons_ne_nil _ _

/-- The loop over a block passes one instruction, or one segment. -/
@[elab_as_elim]
theorem planBlock_induction
    {motive : List IrInstruction → ℕ → ℕ → BlockPlan → Prop}
    (nil : ∀ index count, motive [] index count ⟨[], [], []⟩)
    (plain : ∀ instruction rest index count,
      TryClassifyKnownGpuFifoStore instruction knownConstants = none →
      motive rest (index + 1) count (planBlock knownConstants rest (index + 1) 0 count) →
      motive (instruction :: rest) index count
        (planBlock knownConstants rest (index + 1) 0 count))
    (short : ∀ segment back index count members,
      Segment knownConstants segment index members →
      motive back (index + segment.length) count
        (planBlock knownConstants back (index + segment.length) 0 count) →
      motive (segment ++ back) index count
        (planBlock knownConstants back (index + segment.length) 0 count))
    (long : ∀ segment back index count members,
      Segment knownConstants segment index members →
      MinimumGpuFifoBurstStores ≤ members.length →
      motive back (index + segment.length) (count + 1)
        (planBlock knownConstants back (index + segment.length) 0 (count + 1)) →
      motive (segment ++ back) index count
        (BlockPlan.addRun (burstRun count members) members
          (planBlock knownConstants back (index + segment.length) 0 (count + 1))))
    (instructions : List IrInstruction) (index count : ℕ) :
    motive instructions index count (planBlock knownConstants instructions index 0 count) := by
  induction hlength : instructions.length using Nat.strong_induction_on
    generalizing instructions index count with
  | _ length ih =>
      cases instructions with
      | nil => exact nil index count
      | cons instruction rest =>
          subst hlength
          cases hclassify : TryClassifyKnownGpuFifoStore instruction knownConstants with
          | none =>
              rw [planBlock, hclassify]
              exact plain instruction rest index count hclassify
                (ih _ (Nat.lt_succ_self _) rest (index + 1) count rfl)
          | some firstStore =>
              have hsegment := segment_of_classified rest index hclassify
              have hsplit : instruction :: rest =
                  (instruction :: rest.take (scanRun knownConstants rest (index + 1)).2) ++
                    rest.drop (scanRun knownConstants rest (index + 1)).2 := by
                rw [List.cons_append, List.take_append_drop]
              have hindex : index +
                  (instruction :: rest.take (scanRun knownConstants rest (index + 1)).2).length =
                  index + 1 + (scanRun knownConstants rest (index + 1)).2 := by
                rw [List.length_cons, List.length_take_of_le (scanRun_le rest (index + 1)),
                  Nat.add_comm _ 1, Nat.add_assoc]
              have hshorter : (rest.drop (scanRun knownConstants rest (index + 1)).2).length <
                  (instruction :: rest).length := by
                rw [List.length_drop, List.length_cons]
                omega
              rw [planBlock, hclassify]
              simp only
              rw [planBlock_skip rest (index + 1), planBlock_skip rest (index + 1), ← hindex,
                hsplit]
              by_cases hminimum : MinimumGpuFifoBurstStores ≤
                  ((index, firstStore) :: (scanRun knownConstants rest (index + 1)).1).length
              · rw [if_pos hminimum]
                exact long _ _ index count _ hsegment hminimum
                  (ih _ hshorter _ _ (count + 1) rfl)
              · rw [if_neg hminimum]
                exact short _ _ index count _ hsegment (ih _ hshorter _ _ count rfl)

theorem le_of_mem_planBlock
    (knownConstants : KnownConstants) (instructions : List IrInstruction) (index count : ℕ) :
    (∀ entry ∈ (planBlock knownConstants instructions index 0 count).slots, index ≤ entry.1) ∧
      ∀ entry ∈ (planBlock knownConstants instructions index 0 count).completions,
        index ≤ entry.1 := by
  refine planBlock_induction (motive := fun _ index _ plan =>
    (∀ entry ∈ plan.slots, index ≤ entry.1) ∧ ∀ entry ∈ plan.completions, index ≤ entry.1)
    ?_ ?_ ?_ ?_ instructions index count
  · exact fun _ _ => ⟨fun _ h => absurd h List.not_mem_nil, fun _ h => absurd h List.not_mem_nil⟩
  · intro instruction rest index count _ ih
    exact ⟨fun entry hentry => (Nat.le_succ index).trans (ih.1 entry hentry),
      fun entry hentry => (Nat.le_succ index).trans (ih.2 entry hentry)⟩
  · intro segment back index count members _ ih
    exact ⟨fun entry hentry => (Nat.le_add_right index _).trans (ih.1 entry hentry),
      fun entry hentry => (Nat.le_add_right index _).trans (ih.2 entry hentry)⟩
  · intro segment back index count members hsegment _ ih
    have hmembers : ∀ member ∈ members, index ≤ member.1 := by
      intro member hmember
      rw [hsegment.members_eq] at hmember
      exact (le_of_mem_membersOf hmember).1
    constructor
    · intro entry hentry
      rcases List.mem_append.mp hentry with hrun | hback
      · obtain ⟨member, hmember, heq⟩ := index_of_mem_runSlots hrun
        rw [heq]
        exact hmembers member hmember
      · exact (Nat.le_add_right index _).trans (ih.1 entry hback)
    · intro entry hentry
      have hlast := List.getLast?_eq_some_getLast hsegment.nonempty
      simp only [BlockPlan.addRun, hlast, List.mem_cons] at hentry
      rcases hentry with rfl | hback
      · exact hmembers _ (List.getLast_mem hsegment.nonempty)
      · exact (Nat.le_add_right index _).trans (ih.2 entry hback)

theorem lookup_eq_none_of_lt
    {β : Type} {entries : List (ℕ × β)} {bound index : ℕ}
    (h : ∀ entry ∈ entries, bound ≤ entry.1) (hlt : index < bound) :
    entries.lookup index = none := by
  rw [List.lookup_eq_none_iff]
  intro entry hentry
  have hle := h entry hentry
  exact bne_iff_ne.mpr (by omega)

/-- Within the segment of a run its own slots and completion are found, and behind it
those of the rest. -/
theorem addRun_lookup
    (run : GpuFifoBurstRun) {members : List Member} {rest : BlockPlan} {bound : ℕ} (index : ℕ)
    (hrest : (∀ entry ∈ rest.slots, bound ≤ entry.1) ∧
      ∀ entry ∈ rest.completions, bound ≤ entry.1)
    (hmembers : ∀ member ∈ members, member.1 < bound) :
    (index < bound →
      (BlockPlan.addRun run members rest).slots.lookup index =
          (runSlots run 0 members).lookup index ∧
        (BlockPlan.addRun run members rest).completions.lookup index =
          runCompletion run members index) ∧
      (bound ≤ index →
        (BlockPlan.addRun run members rest).slots.lookup index = rest.slots.lookup index ∧
          (BlockPlan.addRun run members rest).completions.lookup index =
            rest.completions.lookup index) := by
  constructor
  · intro hlt
    constructor
    · rw [BlockPlan.addRun, List.lookup_append, lookup_eq_none_of_lt hrest.1 hlt, Option.or_none]
    · unfold BlockPlan.addRun runCompletion
      cases members.getLast? with
      | none => exact lookup_eq_none_of_lt hrest.2 hlt
      | some last =>
          simp only [List.lookup_cons]
          by_cases heq : index = last.1
          · rw [heq, beq_self_eq_true, if_pos rfl]
          · rw [beq_false_of_ne heq, if_neg heq]
            exact lookup_eq_none_of_lt hrest.2 hlt
  · intro hle
    have hbelow : ∀ member ∈ members, member.1 ≠ index := by
      intro member hmember
      have hlt := hmembers member hmember
      omega
    constructor
    · rw [BlockPlan.addRun, List.lookup_append, lookup_runSlots_eq_none hbelow, Option.none_or]
    · unfold BlockPlan.addRun
      cases hlast : members.getLast? with
      | none => rfl
      | some last =>
          simp only [List.lookup_cons]
          rw [beq_false_of_ne (hbelow last (List.mem_of_getLast? hlast)).symm]

theorem Segment.lt_of_mem
    {segment : List IrInstruction} {index : ℕ} {members : List Member}
    (h : Segment knownConstants segment index members) :
    ∀ member ∈ members, member.1 < index + segment.length := by
  intro member hmember
  rw [h.members_eq] at hmember
  exact (le_of_mem_membersOf hmember).2

structure PlannedRun (knownConstants : KnownConstants) (slotAt : ℕ → Option GpuFifoBurstSlot)
    (completionAt : ℕ → Option GpuFifoBurstRun) (instructions : List IrInstruction) (index : ℕ)
    (run : GpuFifoBurstRun) (front segment back : List IrInstruction) (members : List Member) :
    Prop where
  split : instructions = front ++ segment ++ back
  found : Segment knownConstants segment (index + front.length) members
  minimum : MinimumGpuFifoBurstStores ≤ members.length
  total : run.TotalBytes = totalBytes members
  slots : ∀ i, index + front.length ≤ i → i < index + front.length + segment.length →
    slotAt i = (runSlots run 0 members).lookup i
  completions : ∀ i, index + front.length ≤ i → i < index + front.length + segment.length →
    completionAt i = runCompletion run members i

theorem exists_plannedRun (instructions : List IrInstruction) (index count : ℕ) :
    ∀ entry ∈ (planBlock knownConstants instructions index 0 count).completions,
      ∃ front segment back members,
        PlannedRun knownConstants
          (fun i => (planBlock knownConstants instructions index 0 count).slots.lookup i)
          (fun i => (planBlock knownConstants instructions index 0 count).completions.lookup i)
          instructions index entry.2 front segment back members := by
  refine planBlock_induction (motive := fun instructions index _ plan =>
    ∀ entry ∈ plan.completions, ∃ front segment back members,
      PlannedRun knownConstants (fun i => plan.slots.lookup i) (fun i => plan.completions.lookup i)
        instructions index entry.2 front segment back members) ?_ ?_ ?_ ?_ instructions index count
  · exact fun _ _ _ h => absurd h List.not_mem_nil
  · intro instruction rest index count _ ih entry hentry
    obtain ⟨front, segment, back, members, h⟩ := ih entry hentry
    have hindex : index + (instruction :: front).length = index + 1 + front.length := by
      rw [List.length_cons]
      omega
    refine ⟨instruction :: front, segment, back, members, ?_, hindex ▸ h.found, h.minimum,
      h.total, hindex ▸ h.slots, hindex ▸ h.completions⟩
    rw [h.split]
    rfl
  · intro first rest index count _ _ ih entry hentry
    obtain ⟨front, segment, back, members, h⟩ := ih entry hentry
    have hindex : index + (first ++ front).length = index + first.length + front.length := by
      rw [List.length_append, Nat.add_assoc]
    refine ⟨first ++ front, segment, back, members, ?_, hindex ▸ h.found, h.minimum,
      h.total, hindex ▸ h.slots, hindex ▸ h.completions⟩
    rw [h.split, List.append_assoc, List.append_assoc, List.append_assoc]
  · intro first rest index count firstMembers hfirst hminimum ih entry hentry
    have hlookup := fun i => addRun_lookup (burstRun count firstMembers) i
      (le_of_mem_planBlock knownConstants rest (index + first.length) (count + 1))
      hfirst.lt_of_mem
    have hlast := List.getLast?_eq_some_getLast hfirst.nonempty
    simp only [BlockPlan.addRun, hlast, List.mem_cons] at hentry
    rcases hentry with rfl | hentry
    · exact ⟨[], first, rest, firstMembers, rfl, hfirst, hminimum, rfl,
        fun i _ hlt => ((hlookup i).1 hlt).1, fun i _ hlt => ((hlookup i).1 hlt).2⟩
    · obtain ⟨front, segment, back, members, h⟩ := ih entry hentry
      have hindex : index + (first ++ front).length = index + first.length + front.length := by
        rw [List.length_append, Nat.add_assoc]
      refine ⟨first ++ front, segment, back, members, ?_, hindex ▸ h.found, h.minimum,
        h.total, ?_, ?_⟩
      · rw [h.split, List.append_assoc, List.append_assoc, List.append_assoc]
      · rw [hindex]
        intro i hle hlt
        rw [((hlookup i).2 (by omega)).1]
        exact h.slots i hle hlt
      · rw [hindex]
        intro i hle hlt
        rw [((hlookup i).2 (by omega)).2]
        exact h.completions i hle hlt

/-- A statement that is not a store to the gather pipe does the same whatever the buffers
hold. -/
theorem sameEffect_other
    {machine other : Machine ρ ω} (h : SameEffect machine other) (position : ℕ)
    (instruction : IrInstruction) :
    SameEffect (runStatement meaning machine (.other position instruction))
      (runStatement meaning other (.other position instruction)) := by
  obtain ⟨hregisters, houtside⟩ := h
  unfold runStatement
  by_cases htransparent : IsGpuFifoBurstTransparent instruction = true
  · simp only [htransparent, if_true]
    exact ⟨by rw [hregisters], houtside⟩
  · simp only [htransparent, Bool.false_eq_true, if_false]
    exact ⟨by rw [hregisters, houtside], by rw [hregisters, houtside]⟩

/-- The stores of a segment made one by one come to the same on like machines. -/
theorem sameEffect_direct
    {segment : List IrInstruction} (hspannable : ∀ i ∈ segment, Spannable knownConstants i)
    {machine other : Machine ρ ω} (h : SameEffect machine other) (position : ℕ) :
    SameEffect
      (runStatements meaning
        (emitFrom knownConstants (fun _ => none) (fun _ => none) segment position) machine)
      (runStatements meaning
        (emitFrom knownConstants (fun _ => none) (fun _ => none) segment position) other) := by
  obtain ⟨hregisters, houtside⟩ := runStatements_direct meaning hspannable position
    machine
  obtain ⟨hregisters', houtside'⟩ := runStatements_direct meaning hspannable position
    other
  exact ⟨by rw [hregisters, hregisters', h.1], by rw [houtside, houtside', h.1, h.2]⟩

theorem PlannedRun.pushes
    {slotAt : ℕ → Option GpuFifoBurstSlot} {completionAt : ℕ → Option GpuFifoBurstRun}
    {instructions front segment back : List IrInstruction} {index : ℕ} {run : GpuFifoBurstRun}
    {members : List Member}
    (h : PlannedRun knownConstants slotAt completionAt instructions index run front segment back
      members)
    (machine : Machine ρ ω) :
    (runStatements meaning
        (emitFrom knownConstants slotAt completionAt segment (index + front.length))
        machine).registers =
        finalState (segmentSteps meaning knownConstants segment (index + front.length))
          machine.registers ∧
      (runStatements meaning
        (emitFrom knownConstants slotAt completionAt segment (index + front.length))
        machine).outside =
        pushAll meaning.push
          (gathered (segmentSteps meaning knownConstants segment (index + front.length))
            machine.registers)
          machine.outside := by
  have hmembers := h.found.members_eq
  refine runStatements_burst meaning run 0 [] h.found.spannable
    (hmembers ▸ h.found.nonempty) (fun i hle hlt => ?_) (fun i hle hlt => ?_) ?_ machine rfl
  · rw [h.slots i hle hlt, hmembers]
  · rw [h.completions i hle hlt, hmembers]
  · rw [h.total, hmembers, Nat.zero_add]

theorem sameEffect_block
    (instructions : List IrInstruction) (index count : ℕ)
    {slotAt : ℕ → Option GpuFifoBurstSlot} {completionAt : ℕ → Option GpuFifoBurstRun}
    (hslots : ∀ i, index ≤ i →
      slotAt i = (planBlock knownConstants instructions index 0 count).slots.lookup i)
    (hcompletions : ∀ i, index ≤ i →
      completionAt i = (planBlock knownConstants instructions index 0 count).completions.lookup i)
    {machine other : Machine ρ ω} (h : SameEffect machine other) :
    SameEffect
      (runStatements meaning (emitFrom knownConstants slotAt completionAt instructions index)
        machine)
      (runStatements meaning
        (emitFrom knownConstants (fun _ => none) (fun _ => none) instructions index) other) := by
  revert hslots hcompletions machine other
  refine planBlock_induction (motive := fun instructions index _ plan =>
    (∀ i, index ≤ i → slotAt i = plan.slots.lookup i) →
    (∀ i, index ≤ i → completionAt i = plan.completions.lookup i) →
    ∀ {machine other : Machine ρ ω}, SameEffect machine other →
    SameEffect
      (runStatements meaning (emitFrom knownConstants slotAt completionAt instructions index)
        machine)
      (runStatements meaning
        (emitFrom knownConstants (fun _ => none) (fun _ => none) instructions index) other))
    ?_ ?_ ?_ ?_ instructions index count
  · exact fun _ _ _ _ _ _ h => h
  · intro instruction rest index count hclassify ih hslots hcompletions machine other h
    have hkeys := le_of_mem_planBlock knownConstants rest (index + 1) count
    have hnoCompletion : completionAt index = none := by
      rw [hcompletions index (Nat.le_refl _)]
      exact lookup_eq_none_of_lt hkeys.2 (Nat.lt_succ_self index)
    have hstep := sameEffect_other meaning h index instruction
    have hrest := ih (fun i hle => hslots i (by omega)) (fun i hle => hcompletions i (by omega))
      hstep
    simp only [emitFrom, emitInstruction, hclassify, hnoCompletion, Option.toList_none,
      List.map_nil, List.nil_append, runStatements, List.foldl_cons]
    exact hrest
  · intro segment back index count members hsegment ih hslots hcompletions machine other h
    have hkeys := le_of_mem_planBlock knownConstants back (index + segment.length) count
    have hplain : emitFrom knownConstants slotAt completionAt segment index =
        emitFrom knownConstants (fun _ => none) (fun _ => none) segment index := by
      refine emitFrom_congr (fun i hle hlt => ?_) fun i hle hlt => ?_
      · rw [hslots i hle, lookup_eq_none_of_lt hkeys.1 hlt]
      · rw [hcompletions i hle, lookup_eq_none_of_lt hkeys.2 hlt]
    rw [emitFrom_append, emitFrom_append, runStatements_append, runStatements_append, hplain]
    exact ih (fun i hle => hslots i (by omega)) (fun i hle => hcompletions i (by omega))
      (sameEffect_direct meaning hsegment.spannable h index)
  · intro segment back index count members hsegment hminimum ih hslots hcompletions machine
      other h
    have hlookup := fun i => addRun_lookup (burstRun count members) i
      (le_of_mem_planBlock knownConstants back (index + segment.length) (count + 1))
      hsegment.lt_of_mem
    have hplanned : PlannedRun knownConstants slotAt completionAt (segment ++ back) index
        (burstRun count members) [] segment back members := by
      refine ⟨rfl, hsegment, hminimum, rfl, fun i hle hlt => ?_, fun i hle hlt => ?_⟩
      · rw [hslots i hle, ((hlookup i).1 hlt).1]
      · rw [hcompletions i hle, ((hlookup i).1 hlt).2]
    obtain ⟨hregisters, houtside⟩ := hplanned.pushes meaning machine
    obtain ⟨hregisters', houtside'⟩ := runStatements_direct meaning
      hsegment.spannable index other
    rw [emitFrom_append, emitFrom_append, runStatements_append, runStatements_append]
    refine ih (fun i hle => ?_) (fun i hle => ?_) ⟨?_, ?_⟩
    · rw [hslots i (by omega), ((hlookup i).2 hle).1]
    · rw [hcompletions i (by omega), ((hlookup i).2 hle).2]
    · rw [hregisters', ← h.1]
      exact hregisters
    · rw [houtside', ← h.1, ← h.2]
      exact houtside

end Block

/-! ## Functions -/

section Plan

variable {knownConstants : KnownConstants}

theorem lookup_map_label
    {β : Type} (entries : List (ℕ × β)) (label other : String) (index : ℕ) :
    (entries.map fun entry => ((label, entry.1), entry.2)).lookup (other, index) =
      if other = label then entries.lookup index else none := by
  induction entries with
  | nil => exact (ite_self none).symm
  | cons entry entries ih =>
      rw [List.map_cons, List.lookup_cons, ih]
      by_cases hlabel : other = label
      · rw [if_pos hlabel, if_pos hlabel, List.lookup_cons, hlabel]
        by_cases hindex : index = entry.1
        · rw [hindex, beq_self_eq_true, beq_self_eq_true]
        · rw [beq_false_of_ne hindex,
            beq_false_of_ne (fun h => hindex (Prod.mk.inj h).2 : (label, index) ≠ (label, entry.1))]
      · rw [if_neg hlabel, if_neg hlabel,
          beq_false_of_ne (fun h => hlabel (Prod.mk.inj h).1 : (other, index) ≠ (label, entry.1))]

structure HoldsBlock (knownConstants : KnownConstants) (plan : GpuFifoBurstPlan)
    (block : IrBasicBlock) (count : ℕ) : Prop where
  slot : ∀ i, plan.Slot block.label i =
    (planBlock knownConstants block.instructions 0 0 count).slots.lookup i
  completion : ∀ i, plan.Completion block.label i =
    (planBlock knownConstants block.instructions 0 0 count).completions.lookup i

def LacksLabel (plan : GpuFifoBurstPlan) (label : String) : Prop :=
  ∀ i, plan.Slot label i = none ∧ plan.Completion label i = none

theorem addBlock_lookup
    (plan : GpuFifoBurstPlan) (label : String) (blockPlan : BlockPlan) (other : String) (i : ℕ) :
    (plan.addBlock label blockPlan).Slot other i =
        (if other = label then blockPlan.slots.lookup i else none).or (plan.Slot other i) ∧
      (plan.addBlock label blockPlan).Completion other i =
        (if other = label then blockPlan.completions.lookup i else none).or
          (plan.Completion other i) := by
  constructor
  · rw [GpuFifoBurstPlan.Slot, GpuFifoBurstPlan.addBlock, List.lookup_append, lookup_map_label]
    rfl
  · rw [GpuFifoBurstPlan.Completion, GpuFifoBurstPlan.addBlock, List.lookup_append,
      lookup_map_label]
    rfl

def planStep (knownConstants : KnownConstants) (plan : GpuFifoBurstPlan) (block : IrBasicBlock) :
    GpuFifoBurstPlan :=
  plan.addBlock block.label (planBlock knownConstants block.instructions 0 0 plan.Runs.length)

theorem holdsBlock_foldl
    {blocks : List IrBasicBlock} (hnodup : (blocks.map IrBasicBlock.label).Nodup)
    {plan : GpuFifoBurstPlan}
    (hlacks : ∀ block ∈ blocks, LacksLabel plan block.label) :
    (∀ label, label ∉ blocks.map IrBasicBlock.label → ∀ i,
        (blocks.foldl (planStep knownConstants) plan).Slot label i = plan.Slot label i ∧
          (blocks.foldl (planStep knownConstants) plan).Completion label i =
            plan.Completion label i) ∧
      ∀ block ∈ blocks, ∃ count,
        HoldsBlock knownConstants (blocks.foldl (planStep knownConstants) plan) block count := by
  induction blocks generalizing plan with
  | nil => exact ⟨fun _ _ _ => ⟨rfl, rfl⟩, fun _ h => absurd h List.not_mem_nil⟩
  | cons first blocks ih =>
      rw [List.map_cons, List.nodup_cons] at hnodup
      obtain ⟨hfirst, hnodup⟩ := hnodup
      have hother : ∀ label, label ≠ first.label → ∀ i,
          (planStep knownConstants plan first).Slot label i = plan.Slot label i ∧
            (planStep knownConstants plan first).Completion label i =
              plan.Completion label i := by
        intro label hne i
        obtain ⟨hslot, hcompletion⟩ := addBlock_lookup plan first.label
          (planBlock knownConstants first.instructions 0 0 plan.Runs.length) label i
        rw [if_neg hne, Option.none_or] at hslot hcompletion
        exact ⟨hslot, hcompletion⟩
      have hlacksRest : ∀ block ∈ blocks,
          LacksLabel (planStep knownConstants plan first) block.label := by
        intro block hblock i
        have hne : block.label ≠ first.label := by
          intro heq
          exact hfirst (heq ▸ List.mem_map_of_mem hblock)
        rw [(hother block.label hne i).1, (hother block.label hne i).2]
        exact hlacks block (List.mem_cons_of_mem _ hblock) i
      obtain ⟨hkeeps, hholds⟩ := ih hnodup hlacksRest
      rw [List.foldl_cons]
      constructor
      · intro label hlabel i
        rw [List.map_cons, List.mem_cons, not_or] at hlabel
        rw [(hkeeps label hlabel.2 i).1, (hkeeps label hlabel.2 i).2]
        exact hother label hlabel.1 i
      · intro block hblock
        rcases List.mem_cons.mp hblock with rfl | hblock
        · refine ⟨plan.Runs.length, ?_, ?_⟩
          · intro i
            obtain ⟨hslot, -⟩ := addBlock_lookup plan block.label
              (planBlock knownConstants block.instructions 0 0 plan.Runs.length) block.label i
            rw [if_pos rfl, (hlacks block List.mem_cons_self i).1, Option.or_none] at hslot
            rw [(hkeeps block.label hfirst i).1]
            exact hslot
          · intro i
            obtain ⟨-, hcompletion⟩ := addBlock_lookup plan block.label
              (planBlock knownConstants block.instructions 0 0 plan.Runs.length) block.label i
            rw [if_pos rfl, (hlacks block List.mem_cons_self i).2, Option.or_none] at hcompletion
            rw [(hkeeps block.label hfirst i).2]
            exact hcompletion
        · exact hholds block hblock

theorem exists_holdsBlock
    (knownConstants : KnownConstants) {function : IrFunction} (hlabels : function.DistinctLabels) {block : IrBasicBlock}
    (hblock : block ∈ function.blocks) :
    ∃ count, HoldsBlock knownConstants (BuildGpuFifoBurstPlan function knownConstants true)
      block count := by
  have hlacks : ∀ block ∈ function.blocks, LacksLabel GpuFifoBurstPlan.Empty block.label :=
    fun _ _ _ => ⟨rfl, rfl⟩
  exact (holdsBlock_foldl hlabels hlacks).2 block hblock

end Plan

/-- The bytes that the stores of a segment push one by one, from the registers at its
start. -/
def individualBytes {ρ ω : Type} (meaning : Meaning ρ ω) (knownConstants : KnownConstants)
    (segment : List IrInstruction) (position : ℕ) (registers : ρ) : List UInt8 :=
  gathered (segmentSteps meaning knownConstants segment position) registers

/-- A burst is exact: its segment is made of at least four stores and of computation, and
comes to the same as the stores one by one, which push its bytes in order. -/
structure ExactBurst {ρ ω : Type} (meaning : Meaning ρ ω) (knownConstants : KnownConstants)
    (plan : GpuFifoBurstPlan) (label : String) (run : GpuFifoBurstRun)
    (segment : List IrInstruction) (position : ℕ) : Prop where
  stores : MinimumGpuFifoBurstStores ≤ (membersOf knownConstants segment position).length
  spannable : ∀ i ∈ segment, Spannable knownConstants i
  length : ∀ registers : ρ,
    (individualBytes meaning knownConstants segment position registers).length = run.TotalBytes
  coalesced : ∀ machine : Machine ρ ω,
    (runStatements meaning
      (emitFrom knownConstants (plan.Slot label) (plan.Completion label) segment position)
      machine).outside =
      pushAll meaning.push
        (individualBytes meaning knownConstants segment position machine.registers)
        machine.outside
  individual : ∀ machine : Machine ρ ω,
    (runStatements meaning
      (emitFrom knownConstants (fun _ => none) (fun _ => none) segment position)
      machine).outside =
      pushAll meaning.push
        (individualBytes meaning knownConstants segment position machine.registers)
        machine.outside

/-- The word that is stored counts up between the stores. -/
def countingBurst : IrFunction where
  name := "burst_with_arithmetic"
  entryLabel := "entry"
  blocks := [⟨"entry",
    .assign "r10" (IrValue.imm (-872349696)) ::
      (List.replicate 4
        [.binary "r3" (IrValue.register "r3") (IrValue.imm 1) "add",
          .store ⟨"r10", -32768⟩ (IrValue.register "r3") 4]).flatten ++ [.ret none]⟩]

/-- `r10` is set once, below the gather pipe. -/
def countingConstants : KnownConstants := fun name =>
  if name = "r10" then some 0xCC010000 else none

/-- The register is a counter, and outside the bytes are collected. -/
def countingMeaning : Meaning ℤ (List UInt8) where
  integer _ _ registers := registers
  single _ _ _ := 0
  push byte bytes := bytes ++ [byte]
  compute _ instruction registers :=
    match instruction with
    | .binary .. => registers + 1
    | _ => registers
  execute _ _ state := state

/-- No instruction between two stores of a run defines the register that the earlier one
stores. -/
def KeepsStoredOperands (function : IrFunction) (knownConstants : KnownConstants) : Prop :=
  ∀ block ∈ function.blocks, ∀ first between last earlier later,
    (BuildGpuFifoBurstPlan function knownConstants true).Slot block.label first =
      some earlier →
    (BuildGpuFifoBurstPlan function knownConstants true).Slot block.label last = some later →
    earlier.Run = later.Run → first < between → between < last →
    ∀ address source sizeBytes name instruction,
      block.instructions[first]? = some (.store address source sizeBytes) →
      source.tryRegister = some name → block.instructions[between]? = some instruction →
      name ∉ instruction.definitions

end Wiicompiled.CodeGen.CxxLinearCodeGenerator
