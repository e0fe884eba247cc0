import Wiicompiled.Support.CommandStream
import Wiicompiled.Audio.AxMail

/-!
# The walks of the scan and of the mix

A command list is a stream of commands with operands.  Both walks follow the commands of
the stream for as long as their operands are there; they differ in what they do with a
command that is cut.
-/

namespace Wiicompiled.Audio.AxDsp

open CommandStream

/-! ## Commands and their operands -/

/-- The number of operands that a command asks for; the end of the list asks for none. -/
def operandWords (layout : AXCommandLayout) : Cmd → Option ℕ
  | .setup | .addToLR | .subToLR | .addSubToLR => some 2
  | .process => some (if layout = .old then 0 else 2)
  | .mixAuxA | .mixAuxB | .mixAuxC => some 5
  | .uplAuxAMixLRSC | .uplAuxBMixLRSC => some 13
  | .compressor => some 4
  | .output | .outputDpl2 => some (if OutputCarriesVolume layout then 5 else 4)
  | .wmOutput => some 8
  | .endOfList => none

/-- The operands of a word in a layout; there are none for the end of the list and for a
word that is no command. -/
def arity (layout : AXCommandLayout) (raw : UInt16) : Option ℕ :=
  if (DecodeCommand raw layout).setsPbAddress then some 2
  else (DecodeCommand raw layout).cmd.bind (operandWords layout)

def addressAt (operands : List UInt16) (offset : ℕ) : UInt32 :=
  Hilo (operands.getD offset 0) (operands.getD (offset + 1) 0)

def addressesAt (operands : List UInt16) (offset count : ℕ) : List UInt32 :=
  (List.range count).map fun slot => addressAt operands (offset + slot * 2)

/-- What a command with its operands tells the mix to do. -/
def operationOf (layout : AXCommandLayout) (newFilter : Bool) (oldPbAddr : UInt32)
    (operands : List UInt16) : Cmd → Option Operation
  | .setup => some (.setupProcessing (addressAt operands 0))
  | .addToLR => some (.addToLR (addressAt operands 0) false)
  | .subToLR => some (.addToLR (addressAt operands 0) true)
  | .addSubToLR => some (.addSubToLR (addressAt operands 0))
  | .process =>
      if layout = .old then some (.processPBList oldPbAddr newFilter true)
      else some (.processPBList (addressAt operands 0) newFilter false)
  | .mixAuxA => some (mixAux 0)
  | .mixAuxB => some (mixAux 1)
  | .mixAuxC => some (mixAux 2)
  | .uplAuxAMixLRSC => some (uploadAux 0)
  | .uplAuxBMixLRSC => some (uploadAux 1)
  | .compressor =>
      some (.runCompressor (operands.getD 0 0) (operands.getD 1 0) (addressAt operands 2))
  | .output => some (output false)
  | .outputDpl2 => some (output true)
  | .wmOutput => some (.outputWMSamples (addressesAt operands 0 4))
  | .endOfList => none
where
  mixAux (auxId : ℕ) : Operation :=
    .mixAUXSamples auxId (addressAt operands 1) (addressAt operands 3) (operands.getD 0 0)
  uploadAux (auxId : ℕ) : Operation :=
    .uploadAUXMixLRSC auxId (addressesAt operands 1 6) (operands.getD 0 0)
  output (uploadAuxC : Bool) : Operation :=
    if OutputCarriesVolume layout then
      .outputSamples (addressAt operands 3) (addressAt operands 1) (operands.getD 0 0)
        uploadAuxC
    else .outputSamples (addressAt operands 2) (addressAt operands 0) 0x8000 uploadAuxC

def stashedPbAddr (layout : AXCommandLayout) (oldPbAddr : UInt32)
    (command : Command UInt16) : UInt32 :=
  if (DecodeCommand command.head layout).setsPbAddress then addressAt command.operands 0
  else oldPbAddr

/-- A command that stashes an address does nothing else. -/
def operationsOfCommand (layout : AXCommandLayout) (newFilter : Bool) (oldPbAddr : UInt32)
    (command : Command UInt16) : List Operation :=
  if (DecodeCommand command.head layout).setsPbAddress then []
  else
    ((DecodeCommand command.head layout).cmd.bind
      (operationOf layout newFilter oldPbAddr command.operands)).toList

def operationsOf (layout : AXCommandLayout) (newFilter : Bool) :
    UInt32 → List (Command UInt16) → List Operation
  | _, [] => []
  | oldPbAddr, command :: commands =>
      operationsOfCommand layout newFilter oldPbAddr command ++
        operationsOf layout newFilter (stashedPbAddr layout oldPbAddr command) commands

def readsAuxInput (layout : AXCommandLayout) (raw : UInt16) : Bool :=
  (DecodeCommand raw layout).cmd ∈
    [some .mixAuxA, some .mixAuxB, some .mixAuxC, some .uplAuxAMixLRSC, some .uplAuxBMixLRSC]

variable {layout : AXCommandLayout} {newFilter : Bool} {cmdList : ℕ → UInt16}

/-! ## The steps of the walks -/

theorem addressAt_window {idx n offset : ℕ} (h : offset + 1 < n) :
    addressAt (window cmdList idx n) offset =
      Hilo (cmdList (idx + offset)) (cmdList (idx + offset + 1)) := by
  rw [addressAt, getD_window (by omega), getD_window h]
  rfl

/-- A cursor that has read the next words. -/
def Cursor.advance (cursor : Cursor) (n : ℕ) : Cursor :=
  ⟨cursor.idx + n, cursor.reads ++ List.range' cursor.idx n⟩

@[simp] theorem Cursor.advance_advance (cursor : Cursor) (m n : ℕ) :
    (cursor.advance m).advance n = cursor.advance (m + n) := by
  simp only [advance, List.append_assoc, Nat.add_assoc, List.range'_append_1]

@[simp] theorem Cursor.advance_idx (cursor : Cursor) (n : ℕ) :
    (cursor.advance n).idx = cursor.idx + n := rfl

theorem Cursor.next_eq (cursor : Cursor) :
    cursor.next cmdList = (cmdList cursor.idx, cursor.advance 1) := rfl

theorem ReadAddress_eq (cursor : Cursor) :
    ReadAddress cmdList cursor =
      (Hilo (cmdList cursor.idx) (cmdList (cursor.idx + 1)), cursor.advance 2) := by
  simp only [ReadAddress, Cursor.next_eq, Cursor.advance_idx, Cursor.advance_advance]

theorem readAddresses_eq (count : ℕ) (cursor : Cursor) :
    readAddresses cmdList count cursor =
      ((List.range count).map fun slot =>
          Hilo (cmdList (cursor.idx + slot * 2)) (cmdList (cursor.idx + slot * 2 + 1)),
        cursor.advance (count * 2)) := by
  induction count generalizing cursor with
  | zero => simp [readAddresses, Cursor.advance]
  | succ count ih =>
      simp only [readAddresses, ReadAddress_eq, ih, Cursor.advance_idx, Cursor.advance_advance]
      rw [List.range_succ_eq_map, List.map_cons, List.map_map]
      refine Prod.ext (List.cons_eq_cons.mpr ⟨rfl, List.map_congr_left fun slot _ => ?_⟩) ?_
      · rw [Function.comp_apply, Nat.succ_mul, Nat.add_comm (slot * 2) 2, Nat.add_assoc]
      · rw [Nat.succ_mul, Nat.add_comm (count * 2) 2]

theorem addressesAt_window {idx n offset count : ℕ} (h : offset + count * 2 ≤ n) :
    addressesAt (window cmdList idx n) offset count =
      (List.range count).map fun slot =>
        Hilo (cmdList (idx + offset + slot * 2)) (cmdList (idx + offset + slot * 2 + 1)) := by
  refine List.map_congr_left fun slot hslot => ?_
  rw [List.mem_range] at hslot
  rw [addressAt_window (by omega), ← Nat.add_assoc]

/-- The mix reads the operands of a command, and does what they tell. -/
theorem executeCommand_eq
    {oldPbAddr : UInt32} {cmd : Cmd} {n : ℕ} (hwords : operandWords layout cmd = some n)
    (cursor : Cursor) :
    executeCommand layout newFilter oldPbAddr cmdList cursor cmd =
      (operationOf layout newFilter oldPbAddr (window cmdList cursor.idx n) cmd).map
        fun operation => (operation, cursor.advance n) := by
  have hnone : cursor.advance 0 = cursor := by
    simp [Cursor.advance]
  cases cmd with
  | endOfList => cases hwords
  | process =>
      cases hwords
      by_cases hold : layout = .old
      · simp [executeCommand, operationOf, UsesStashedPbAddress, hold, hnone]
      · simp [executeCommand, operationOf, UsesStashedPbAddress, hold, ReadAddress_eq,
          addressAt_window]
  | output | outputDpl2 =>
      cases hwords
      cases hvolume : OutputCarriesVolume layout <;>
        simp [executeCommand, executeCommand.output, operationOf, operationOf.output, hvolume,
          Cursor.next_eq, ReadAddress_eq, addressAt_window]
  | _ =>
      cases hwords
      simp [executeCommand, executeCommand.mixAux, executeCommand.uploadAux, operationOf,
        operationOf.mixAux, operationOf.uploadAux, Cursor.next_eq, ReadAddress_eq,
        readAddresses_eq, addressAt_window, addressesAt_window]

theorem operationOf_isSome
    {cmd : Cmd} {n : ℕ} (hwords : operandWords layout cmd = some n) (newFilter : Bool)
    (oldPbAddr : UInt32) (operands : List UInt16) :
    (operationOf layout newFilter oldPbAddr operands cmd).isSome := by
  cases cmd with
  | endOfList => cases hwords
  | process => by_cases hold : layout = .old <;> simp [operationOf, hold]
  | _ => rfl

theorem eq_endOfList
    {cmd : Cmd} (hwords : operandWords layout cmd = none) : cmd = .endOfList := by
  cases cmd with
  | endOfList => rfl
  | _ => cases hwords

theorem executeLoop_done
    {cmdListSize turns : ℕ} {cursor : Cursor} {oldPbAddr : UInt32}
    {operations : List Operation} (h : cmdListSize ≤ cursor.idx) :
    executeLoop layout newFilter cmdListSize cmdList turns cursor oldPbAddr operations =
      ⟨operations, cursor.reads⟩ := by
  cases turns with
  | zero => rfl
  | succ turns => rw [executeLoop, if_neg (Nat.not_lt.mpr h)]

theorem executeLoop_stopped
    {cmdListSize turns : ℕ} {cursor : Cursor} {oldPbAddr : UInt32}
    {operations : List Operation} (h : cursor.idx < cmdListSize)
    (harity : arity layout (cmdList cursor.idx) = none) :
    executeLoop layout newFilter cmdListSize cmdList (turns + 1) cursor oldPbAddr operations =
      ⟨operations, (cursor.advance 1).reads⟩ := by
  unfold arity at harity
  rw [executeLoop, if_pos h]
  split at harity
  · cases harity
  · rename_i hsets
    cases hcmd : (DecodeCommand (cmdList cursor.idx) layout).cmd with
    | none => simp [Cursor.next_eq, hsets, hcmd]
    | some cmd =>
        rw [hcmd, Option.bind_some] at harity
        cases eq_endOfList harity
        simp [Cursor.next_eq, hsets, hcmd, executeCommand]

theorem executeLoop_command
    {cmdListSize turns : ℕ} {cursor : Cursor} {oldPbAddr : UInt32}
    {operations : List Operation} {n : ℕ} (h : cursor.idx < cmdListSize)
    (harity : arity layout (cmdList cursor.idx) = some n) :
    executeLoop layout newFilter cmdListSize cmdList (turns + 1) cursor oldPbAddr operations =
      executeLoop layout newFilter cmdListSize cmdList turns (cursor.advance (1 + n))
        (stashedPbAddr layout oldPbAddr
          ⟨cmdList cursor.idx, window cmdList (cursor.idx + 1) n⟩)
        (operations ++ operationsOfCommand layout newFilter oldPbAddr
          ⟨cmdList cursor.idx, window cmdList (cursor.idx + 1) n⟩) := by
  unfold arity at harity
  rw [executeLoop, if_pos h]
  simp only [Cursor.next_eq, stashedPbAddr, operationsOfCommand]
  split at harity
  · rename_i hsets
    cases harity
    simp only [hsets, if_true, ReadAddress_eq, Cursor.advance_idx, Cursor.advance_advance,
      List.append_nil]
    rw [addressAt_window (by omega)]
  · rename_i hsets
    cases hcmd : (DecodeCommand (cmdList cursor.idx) layout).cmd with
    | none =>
        rw [hcmd] at harity
        cases harity
    | some cmd =>
        rw [hcmd, Option.bind_some] at harity
        obtain ⟨operation, hoperation⟩ :=
          Option.isSome_iff_exists.mp (operationOf_isSome harity newFilter oldPbAddr
            (window cmdList (cursor.idx + 1) n))
        simp only [hsets, Option.bind_some, executeCommand_eq harity,
          Cursor.advance_idx, Cursor.advance_advance, hoperation, Option.map_some,
          Option.toList_some]
        rfl

/-! ## What the scan collects -/

/-- The blocks of aux input among the accesses. -/
def readAddrs (accesses : List AuxAccess) : List UInt32 :=
  accesses.filterMap fun
    | .read addr => some addr
    | .write _ => none

/-- The blocks of aux output among the accesses, as far as there is something to shadow. -/
def writtenAddrs (accesses : List AuxAccess) : List UInt32 :=
  accesses.filterMap fun
    | .write addr => if addr = 0 then none else some addr
    | .read _ => none

/-- The scan of operations: their outputs, and their first blocks of aux input. -/
def scanOf (operations : List Operation) : CommandListScan where
  outputCommands := operations.countP Operation.isOutput
  auxInputAddrs := (readAddrs (operations.flatMap Operation.auxAccesses)).take auxBlocks

/-- An append to the first elements of a list, as far as there is room. -/
theorem take_append_one {α : Type*} (n : ℕ) (xs : List α) (x : α) :
    (if n ≤ (xs.take n).length then xs.take n else xs.take n ++ [x]) =
      (xs ++ [x]).take n := by
  by_cases hfull : n ≤ xs.length
  · rw [if_pos (by simpa using hfull), List.take_append_of_le_length hfull]
  · rw [if_neg (by simpa using hfull), List.take_of_length_le (by omega),
      List.take_of_length_le (by simp; omega)]

theorem addAuxInput_take (xs : List UInt32) (addr : UInt32) (blocks : ℕ) :
    addAuxInput (xs.take auxBlocks) addr blocks =
      (xs ++ (List.range blocks).map (blockAddr addr)).take auxBlocks := by
  have hgeneral : ∀ (numbers : List ℕ) (xs : List UInt32),
      numbers.foldl (fun addrs block =>
        if auxBlocks ≤ addrs.length then addrs
        else addrs ++ [addr + UInt32.ofNat (block * kAxSamplesPerFrame * 4)])
        (xs.take auxBlocks) = (xs ++ numbers.map (blockAddr addr)).take auxBlocks := by
    intro numbers
    induction numbers with
    | nil => simp
    | cons number numbers ih =>
        intro xs
        rw [List.foldl_cons, take_append_one, ih, List.append_assoc, List.map_cons]
        rfl
  exact hgeneral (List.range blocks) xs

theorem blockAddr_zero (addr : UInt32) : blockAddr addr 0 = addr := by
  simp [blockAddr]

@[simp] theorem readAddrs_append (xs ys : List AuxAccess) :
    readAddrs (xs ++ ys) = readAddrs xs ++ readAddrs ys :=
  List.filterMap_append

theorem readAddrs_mixAUXSamples
    (auxId : ℕ) (writeAddr readAddr : UInt32) (volume : UInt16) :
    readAddrs (Operation.auxAccesses (.mixAUXSamples auxId writeAddr readAddr volume)) =
      (List.range 3).map (blockAddr readAddr) := by
  rw [Operation.auxAccesses, readAddrs_append]
  have hwrites : readAddrs (if writeAddr ≠ 0 then
      (List.range 3).map fun block => .write (blockAddr writeAddr block) else []) = [] := by
    split
    · rfl
    · rfl
  rw [hwrites, List.nil_append]
  rfl

theorem readAddrs_uploadAUXMixLRSC
    (auxId : ℕ) (addresses : List UInt32) (volume : UInt16) :
    readAddrs (Operation.auxAccesses (.uploadAUXMixLRSC auxId addresses volume)) =
      (List.range 4).map fun slot => addresses.getD (2 + slot) 0 := rfl

theorem scanOf_append_one (operations : List Operation) (operation : Operation) :
    scanOf (operations ++ [operation]) =
      ⟨(scanOf operations).outputCommands + if operation.isOutput then 1 else 0,
        (readAddrs (operations.flatMap Operation.auxAccesses) ++
          readAddrs operation.auxAccesses).take auxBlocks⟩ := by
  simp [scanOf, List.countP_append, List.countP_cons]

theorem ScanCase.apply_eq
    {cmd : Cmd} {scanCase : ScanCase} (hcase : AxDsp.scanCase layout cmd = some scanCase)
    {oldPbAddr : UInt32} {operation : Operation} (base : ℕ)
    (hoperation : operationOf layout newFilter oldPbAddr
      (window cmdList base scanCase.words) cmd = some operation)
    (operations : List Operation) :
    scanCase.apply cmdList base (scanOf operations) = scanOf (operations ++ [operation]) := by
  rw [scanOf_append_one]
  cases cmd with
  | endOfList => cases hcase
  | mixAuxA | mixAuxB | mixAuxC =>
      cases hcase
      cases hoperation
      have haddr : addressAt (window cmdList base 5) 3 =
          Hilo (cmdList (base + 3)) (cmdList (base + 3 + 1)) := addressAt_window (by omega)
      simp only [operationOf.mixAux, readAddrs_mixAUXSamples, ScanCase.apply, List.foldl_cons,
        List.foldl_nil, scanOf, addAuxInput_take, haddr, Operation.isOutput]
  | uplAuxAMixLRSC | uplAuxBMixLRSC =>
      cases hcase
      cases hoperation
      have haddrs : addressesAt (window cmdList base 13) 1 6 =
          (List.range 6).map fun slot =>
            Hilo (cmdList (base + 1 + slot * 2)) (cmdList (base + 1 + slot * 2 + 1)) :=
        addressesAt_window (by omega)
      simp only [operationOf.uploadAux, readAddrs_uploadAUXMixLRSC, ScanCase.apply, haddrs,
        scanOf, Operation.isOutput]
      simp [List.range'_succ, List.range_succ, addAuxInput_take, blockAddr_zero, Nat.add_assoc]
  | process =>
      cases hcase
      by_cases hold : layout = .old
      · simp only [operationOf, hold, if_true, Option.some.injEq] at hoperation
        subst hoperation
        simp [scanOf, ScanCase.apply, Operation.isOutput, Operation.auxAccesses, readAddrs]
      · simp only [operationOf, hold, if_false, Option.some.injEq] at hoperation
        subst hoperation
        simp [scanOf, ScanCase.apply, Operation.isOutput, Operation.auxAccesses, readAddrs]
  | output | outputDpl2 =>
      cases hcase
      cases hoperation
      unfold operationOf.output
      split <;>
        simp [scanOf, ScanCase.apply, Operation.isOutput, Operation.auxAccesses, readAddrs]
  | _ =>
      cases hcase
      cases hoperation
      simp [scanOf, ScanCase.apply, Operation.isOutput, Operation.auxAccesses, readAddrs]

/-! ## The steps of the scan -/

theorem scanCase_words (layout : AXCommandLayout) (cmd : Cmd) :
    (scanCase layout cmd).map ScanCase.words = operandWords layout cmd := by
  cases cmd with
  | process => simp [scanCase, operandWords, UsesStashedPbAddress]
  | _ => rfl

theorem canReadWords_iff {cmdListSize idx n : ℕ} :
    CanReadWords cmdListSize idx n = true ↔ idx + n ≤ cmdListSize := by
  rw [CanReadWords, decide_eq_true_eq]
  omega

theorem canReadWords_eq_false_iff {cmdListSize idx n : ℕ} :
    CanReadWords cmdListSize idx n = false ↔ cmdListSize < idx + n := by
  rw [← Bool.not_eq_true, canReadWords_iff]
  omega

/-- The scan reads operands of its command, and the last one of a command with aux input. -/
theorem ScanCase.mem_reads
    {cmd : Cmd} {scanCase : ScanCase} (hcase : AxDsp.scanCase layout cmd = some scanCase)
    {base i : ℕ} (h : i ∈ scanCase.reads base) : i < base + scanCase.words := by
  cases cmd with
  | endOfList => cases hcase
  | mixAuxA | mixAuxB | mixAuxC | uplAuxAMixLRSC | uplAuxBMixLRSC =>
      cases hcase
      simp [ScanCase.reads, List.range'_succ] at h
      simp only
      omega
  | _ =>
      cases hcase
      simp [ScanCase.reads] at h

theorem ScanCase.last_mem_reads
    {cmd : Cmd} {scanCase : ScanCase} (hcase : AxDsp.scanCase layout cmd = some scanCase)
    (haux : some cmd ∈ ([some .mixAuxA, some .mixAuxB, some .mixAuxC, some .uplAuxAMixLRSC,
      some .uplAuxBMixLRSC] : List (Option Cmd))) (idx : ℕ) :
    idx + scanCase.words ∈ scanCase.reads (idx + 1) := by
  cases cmd with
  | mixAuxA | mixAuxB | mixAuxC | uplAuxAMixLRSC | uplAuxBMixLRSC =>
      cases hcase
      simp [ScanCase.reads, List.range'_succ]
  | _ => simp at haux

theorem ScanCase.reads_eq_nil
    {cmd : Cmd} {scanCase : ScanCase} (hcase : AxDsp.scanCase layout cmd = some scanCase)
    (hnot : some cmd ∉ ([some .mixAuxA, some .mixAuxB, some .mixAuxC, some .uplAuxAMixLRSC,
      some .uplAuxBMixLRSC] : List (Option Cmd))) (base : ℕ) : scanCase.reads base = [] := by
  cases cmd with
  | mixAuxA | mixAuxB | mixAuxC | uplAuxAMixLRSC | uplAuxBMixLRSC => simp at hnot
  | endOfList => cases hcase
  | _ =>
      cases hcase
      rfl

variable {cmdListSize turns idx : ℕ} {scan : CommandListScan} {reads : List ℕ}

theorem scanLoop_done (h : cmdListSize ≤ idx) :
    scanLoop layout cmdListSize cmdList turns idx scan reads = ⟨false, scan, reads⟩ := by
  cases turns with
  | zero => rfl
  | succ turns => rw [scanLoop, if_pos (canReadWords_eq_false_iff.mpr (by omega))]

theorem scanLoop_stopped
    (h : idx < cmdListSize) (harity : arity layout (cmdList idx) = none) :
    (scanLoop layout cmdListSize cmdList (turns + 1) idx scan reads).scan = scan ∧
      (scanLoop layout cmdListSize cmdList (turns + 1) idx scan reads).reads =
        reads ++ [idx] := by
  unfold arity at harity
  have hread : CanReadWords cmdListSize idx 1 = true := canReadWords_iff.mpr (by omega)
  split at harity
  · cases harity
  · rename_i hsets
    cases hcmd : (DecodeCommand (cmdList idx) layout).cmd with
    | none => simp [scanLoop, hread, hsets, hcmd]
    | some cmd =>
        rw [hcmd, Option.bind_some] at harity
        cases eq_endOfList harity
        simp [scanLoop, hread, hsets, hcmd, scanCase]

theorem cmd_of_setsPbAddress {raw : UInt16}
    (h : (DecodeCommand raw layout).setsPbAddress = true) :
    (DecodeCommand raw layout).cmd = some .setup := by
  unfold DecodeCommand at h ⊢
  split at h
  · cases h
  · rename_i hlayout
    split at h
    · rename_i hraw
      rw [if_neg hlayout, if_pos hraw]
    · cases h

theorem scanLoop_command
    {n : ℕ} (h : idx + 1 + n ≤ cmdListSize) (harity : arity layout (cmdList idx) = some n)
    (turns : ℕ) (reads : List ℕ) (newFilter : Bool) (oldPbAddr : UInt32)
    (operations : List Operation) :
    ∃ operandReads : List ℕ,
      scanLoop layout cmdListSize cmdList (turns + 1) idx (scanOf operations) reads =
        scanLoop layout cmdListSize cmdList turns (idx + 1 + n)
          (scanOf (operations ++ operationsOfCommand layout newFilter oldPbAddr
            ⟨cmdList idx, window cmdList (idx + 1) n⟩)) (reads ++ [idx] ++ operandReads) ∧
      (∀ i ∈ operandReads, i < idx + 1 + n) ∧
      (readsAuxInput layout (cmdList idx) = true → idx + n ∈ operandReads) ∧
      (readsAuxInput layout (cmdList idx) = false → operandReads = []) := by
  have hread : CanReadWords cmdListSize idx 1 = true := canReadWords_iff.mpr (by omega)
  have hskip : CanReadWords cmdListSize (idx + 1) n = true := canReadWords_iff.mpr (by omega)
  unfold arity at harity
  split at harity
  · rename_i hsets
    cases harity
    refine ⟨[], ?_, by simp, ?_, fun _ => rfl⟩
    · simp [scanLoop, hread, hsets, hskip, operationsOfCommand]
    · intro haux
      rw [readsAuxInput, cmd_of_setsPbAddress hsets] at haux
      cases haux
  · rename_i hsets
    cases hcmd : (DecodeCommand (cmdList idx) layout).cmd with
    | none =>
        rw [hcmd] at harity
        cases harity
    | some cmd =>
        rw [hcmd, Option.bind_some, ← scanCase_words] at harity
        obtain ⟨scanCase, hcase, rfl⟩ := Option.map_eq_some_iff.mp harity
        obtain ⟨operation, hoperation⟩ :=
          Option.isSome_iff_exists.mp (operationOf_isSome
            ((scanCase_words layout cmd).symm.trans harity) newFilter oldPbAddr
            (window cmdList (idx + 1) scanCase.words))
        refine ⟨scanCase.reads (idx + 1), ?_, fun i hi => ScanCase.mem_reads hcase hi, ?_, ?_⟩
        · simp [scanLoop, hread, hsets, hcmd, hcase, hskip, operationsOfCommand, hoperation,
            ScanCase.apply_eq hcase (idx + 1) hoperation]
        · intro haux
          rw [readsAuxInput, hcmd, decide_eq_true_eq] at haux
          exact ScanCase.last_mem_reads hcase haux idx
        · intro hnot
          rw [readsAuxInput, hcmd, decide_eq_false_iff_not] at hnot
          exact ScanCase.reads_eq_nil hcase hnot (idx + 1)

theorem scanLoop_cut
    {n : ℕ} (h : idx < cmdListSize) (hcut : cmdListSize < idx + 1 + n)
    (harity : arity layout (cmdList idx) = some n) :
    (scanLoop layout cmdListSize cmdList (turns + 1) idx scan reads).scan = scan ∧
      (scanLoop layout cmdListSize cmdList (turns + 1) idx scan reads).reads =
        reads ++ [idx] := by
  have hread : CanReadWords cmdListSize idx 1 = true := canReadWords_iff.mpr (by omega)
  have hskip : CanReadWords cmdListSize (idx + 1) n = false :=
    canReadWords_eq_false_iff.mpr hcut
  unfold arity at harity
  split at harity
  · rename_i hsets
    cases harity
    simp [scanLoop, hread, hsets, hskip]
  · rename_i hsets
    cases hcmd : (DecodeCommand (cmdList idx) layout).cmd with
    | none =>
        rw [hcmd] at harity
        cases harity
    | some cmd =>
        rw [hcmd, Option.bind_some, ← scanCase_words] at harity
        obtain ⟨scanCase, hcase, rfl⟩ := Option.map_eq_some_iff.mp harity
        simp [scanLoop, hread, hsets, hcmd, hcase, hskip]

end Wiicompiled.Audio.AxDsp
