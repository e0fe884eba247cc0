import Wiicompiled.Audio.CommandWalks

/-!
# The scan and the mix agree on a command list

A list is mixed as it was scanned if its commands are whole: none of them is cut by the
announced size or by the end of the buffer.  Then both walks read copied words only, and
the scan counts the outputs and collects the blocks of aux input that the mix performs and
reads.
-/

namespace Wiicompiled.Audio.AxDsp

open CommandStream

variable {layout : AXCommandLayout} {newFilter : Bool} {cmdList : ℕ → UInt16}

/-! ## Whole lists -/

/-- The stream ends inside of its words, or where the announced words end. -/
def Whole (cmdListSize copied : ℕ) (ending : Ending UInt16) : Prop :=
  ending = .stopped ∨ (ending = .exhausted ∧ copied = cmdListSize)

/-- A probe of the layout ends before the words that are not copied: at the end of the
list, at an unknown word, or at a command that the announced size cuts. -/
def ProbeEnds (layout : AXCommandLayout) (cmdListSize copied : ℕ) :
    Ending UInt16 → Prop
  | .stopped => True
  | .exhausted => False
  | .cut head missing =>
      cmdListSize - copied < missing ∨
        (cmdListSize - copied = missing ∧ readsAuxInput layout head = false)

theorem mem_advance_reads {cursor : Cursor} {n i : ℕ} :
    i ∈ (cursor.advance n).reads ↔
      i ∈ cursor.reads ∨ (cursor.idx ≤ i ∧ i < cursor.idx + n) := by
  rw [Cursor.advance, List.mem_append, List.mem_range'_1]

theorem executeLoop_reads_mono
    {cmdListSize turns i : ℕ} {cursor : Cursor} {oldPbAddr : UInt32}
    {operations : List Operation} (h : i ∈ cursor.reads) :
    i ∈ (executeLoop layout newFilter cmdListSize cmdList turns cursor oldPbAddr
      operations).reads := by
  induction turns generalizing cursor oldPbAddr operations with
  | zero => exact h
  | succ turns ih =>
      by_cases hidx : cursor.idx < cmdListSize
      · cases harity : arity layout (cmdList cursor.idx) with
        | none =>
            rw [executeLoop_stopped hidx harity]
            exact mem_advance_reads.mpr (.inl h)
        | some n =>
            rw [executeLoop_command hidx harity]
            exact ih (mem_advance_reads.mpr (.inl h))
      · rw [executeLoop_done (Nat.not_lt.mp hidx)]
        exact h

theorem executeLoop_reads_command
    {cmdListSize turns n i : ℕ} {cursor : Cursor} {oldPbAddr : UInt32}
    {operations : List Operation} (hidx : cursor.idx < cmdListSize)
    (harity : arity layout (cmdList cursor.idx) = some n)
    (hi : cursor.idx ≤ i ∧ i < cursor.idx + (1 + n)) :
    i ∈ (executeLoop layout newFilter cmdListSize cmdList (turns + 1) cursor oldPbAddr
      operations).reads := by
  rw [executeLoop_command hidx harity]
  exact executeLoop_reads_mono (mem_advance_reads.mpr (.inr hi))

theorem executeLoop_reads_head
    {cmdListSize turns : ℕ} {cursor : Cursor} {oldPbAddr : UInt32}
    {operations : List Operation} (hidx : cursor.idx < cmdListSize) :
    cursor.idx ∈ (executeLoop layout newFilter cmdListSize cmdList (turns + 1) cursor oldPbAddr
      operations).reads := by
  cases harity : arity layout (cmdList cursor.idx) with
  | none =>
      rw [executeLoop_stopped hidx harity]
      exact mem_advance_reads.mpr (.inr (by omega))
  | some n => exact executeLoop_reads_command hidx harity (by omega)

/-- The mix of a whole list reads its words and performs its operations; the mix of any
other list reads a word that was not copied. -/
theorem executeLoop_whole
    {cmdListSize copied : ℕ} (hsize : copied ≤ cmdListSize) (idx n : ℕ) :
    ∀ (turns : ℕ) (cursor : Cursor) (oldPbAddr : UInt32) (operations : List Operation),
      cursor.idx = idx → idx + n = copied → cmdListSize < idx + turns →
      let stream := commands (arity layout) (window cmdList idx n)
      let execution :=
        executeLoop layout newFilter cmdListSize cmdList turns cursor oldPbAddr operations
      (Whole cmdListSize copied stream.2 →
        execution.operations = operations ++ operationsOf layout newFilter oldPbAddr stream.1 ∧
          ∀ i ∈ execution.reads, i ∈ cursor.reads ∨ i < copied) ∧
        (¬ Whole cmdListSize copied stream.2 → ∃ i ∈ execution.reads, copied ≤ i) := by
  induction idx, n using window_induction (arity layout) cmdList with
  | exhausted idx =>
      intro turns cursor oldPbAddr operations hidx hcopied hturns
      rw [commands_window_zero]
      refine ⟨fun hwhole => ?_, fun hnot => ?_⟩
      · rcases hwhole with hstop | ⟨_, hend⟩
        · cases hstop
        · rw [executeLoop_done (by omega)]
          exact ⟨(List.append_nil _).symm, fun i hi => .inl hi⟩
      · have hmore : copied ≠ cmdListSize := fun hend => hnot (.inr ⟨rfl, hend⟩)
        obtain ⟨turns, rfl⟩ := Nat.exists_eq_add_of_lt (show 0 < turns by omega)
        refine ⟨cursor.idx, ?_, by omega⟩
        rw [Nat.zero_add]
        exact executeLoop_reads_head (by omega)
  | stopped idx n harity =>
      intro turns cursor oldPbAddr operations hidx hcopied hturns
      subst hidx
      rw [commands_window_stopped harity]
      obtain ⟨turns, rfl⟩ := Nat.exists_eq_add_of_lt (show 0 < turns by omega)
      rw [Nat.zero_add, executeLoop_stopped (by omega) harity]
      refine ⟨fun _ => ⟨(List.append_nil _).symm, fun i hi => ?_⟩, fun hnot => ?_⟩
      · rcases mem_advance_reads.mp hi with hi | hi
        · exact .inl hi
        · exact .inr (by omega)
      · exact absurd (.inl rfl) hnot
  | cut idx n k harity hcut =>
      intro turns cursor oldPbAddr operations hidx hcopied hturns
      subst hidx
      rw [commands_window_cut harity hcut]
      obtain ⟨turns, rfl⟩ := Nat.exists_eq_add_of_lt (show 0 < turns by omega)
      rw [Nat.zero_add]
      refine ⟨fun hwhole => ?_, fun _ => ⟨copied, ?_, Nat.le_refl copied⟩⟩
      · rcases hwhole with hstop | ⟨hexhausted, _⟩
        · cases hstop
        · cases hexhausted
      · exact executeLoop_reads_command (by omega) harity (by omega)
  | command idx n k harity hle ih =>
      intro turns cursor oldPbAddr operations hidx hcopied hturns
      subst hidx
      rw [commands_window_command harity hle]
      obtain ⟨turns, rfl⟩ := Nat.exists_eq_add_of_lt (show 0 < turns by omega)
      rw [Nat.zero_add, executeLoop_command (by omega) harity]
      obtain ⟨hwhole, hnot⟩ := ih turns (cursor.advance (1 + k))
        (stashedPbAddr layout oldPbAddr
          ⟨cmdList cursor.idx, window cmdList (cursor.idx + 1) k⟩)
        (operations ++ operationsOfCommand layout newFilter oldPbAddr
          ⟨cmdList cursor.idx, window cmdList (cursor.idx + 1) k⟩)
        (by rw [Cursor.advance_idx, Nat.add_assoc]) (by omega) (by omega)
      refine ⟨fun h => ⟨?_, fun i hi => ?_⟩, hnot⟩
      · rw [(hwhole h).1, List.append_assoc]
        rfl
      · rcases (hwhole h).2 i hi with hi | hi
        · rcases mem_advance_reads.mp hi with hi | hi
          · exact .inl hi
          · exact .inr (by omega)
        · exact .inr hi

/-! ## The scan -/

theorem scanLoop_whole
    {cmdListSize copied : ℕ} (hsize : copied ≤ cmdListSize) (idx n : ℕ) :
    ∀ (turns : ℕ) (oldPbAddr : UInt32) (operations : List Operation) (reads : List ℕ),
      idx + n = copied → cmdListSize < idx + turns →
      Whole cmdListSize copied (commands (arity layout) (window cmdList idx n)).2 →
      (scanLoop layout cmdListSize cmdList turns idx (scanOf operations) reads).scan =
        scanOf (operations ++ operationsOf layout newFilter oldPbAddr
          (commands (arity layout) (window cmdList idx n)).1) := by
  induction idx, n using window_induction (arity layout) cmdList with
  | exhausted idx =>
      intro turns oldPbAddr operations reads hcopied hturns hwhole
      rw [commands_window_zero] at hwhole ⊢
      rcases hwhole with hstop | ⟨_, hend⟩
      · cases hstop
      · rw [scanLoop_done (by omega), operationsOf, List.append_nil]
  | stopped idx n harity =>
      intro turns oldPbAddr operations reads hcopied hturns _
      rw [commands_window_stopped harity]
      obtain ⟨turns, rfl⟩ := Nat.exists_eq_add_of_lt (show 0 < turns by omega)
      rw [Nat.zero_add, (scanLoop_stopped (by omega) harity).1, operationsOf, List.append_nil]
  | cut idx n k harity hcut =>
      intro turns oldPbAddr operations reads hcopied hturns hwhole
      rw [commands_window_cut harity hcut] at hwhole
      rcases hwhole with hstop | ⟨hexhausted, _⟩
      · cases hstop
      · cases hexhausted
  | command idx n k harity hle ih =>
      intro turns oldPbAddr operations reads hcopied hturns hwhole
      rw [commands_window_command harity hle] at hwhole ⊢
      obtain ⟨turns, rfl⟩ := Nat.exists_eq_add_of_lt (show 0 < turns by omega)
      obtain ⟨operandReads, hstep, _⟩ := scanLoop_command
        (show idx + 1 + k ≤ cmdListSize by omega) harity turns reads newFilter oldPbAddr
        operations
      rw [Nat.zero_add, hstep, ih turns _ _ _ (by omega) (by omega) hwhole, List.append_assoc]
      rfl

theorem scanLoop_reads_mono
    {cmdListSize turns idx i : ℕ} {operations : List Operation} {reads : List ℕ}
    (h : i ∈ reads) :
    i ∈ (scanLoop layout cmdListSize cmdList turns idx (scanOf operations) reads).reads := by
  induction turns generalizing idx operations reads with
  | zero => exact h
  | succ turns ih =>
      by_cases hidx : idx < cmdListSize
      · cases harity : arity layout (cmdList idx) with
        | none =>
            rw [(scanLoop_stopped hidx harity).2]
            exact List.mem_append_left _ h
        | some n =>
            by_cases hcut : cmdListSize < idx + 1 + n
            · rw [(scanLoop_cut hidx hcut harity).2]
              exact List.mem_append_left _ h
            · obtain ⟨operandReads, hstep, _⟩ := scanLoop_command (Nat.not_lt.mp hcut) harity
                turns reads false 0 operations
              rw [hstep]
              exact ih (List.mem_append_left _ (List.mem_append_left _ h))
      · rw [scanLoop_done (Nat.not_lt.mp hidx)]
        exact h

theorem scanLoop_reads_head
    {cmdListSize turns idx : ℕ} {operations : List Operation} {reads : List ℕ}
    (hidx : idx < cmdListSize) :
    idx ∈ (scanLoop layout cmdListSize cmdList (turns + 1) idx (scanOf operations)
      reads).reads := by
  have hmem : idx ∈ reads ++ [idx] := List.mem_append_right _ List.mem_cons_self
  cases harity : arity layout (cmdList idx) with
  | none =>
      rw [(scanLoop_stopped hidx harity).2]
      exact hmem
  | some n =>
      by_cases hcut : cmdListSize < idx + 1 + n
      · rw [(scanLoop_cut hidx hcut harity).2]
        exact hmem
      · obtain ⟨operandReads, hstep, _⟩ := scanLoop_command (Nat.not_lt.mp hcut) harity turns
          reads false 0 operations
        rw [hstep]
        exact scanLoop_reads_mono (List.mem_append_left _ hmem)

theorem scanLoop_reads_announced
    {cmdListSize turns idx : ℕ} (operations : List Operation) {reads : List ℕ}
    (h : ∀ i ∈ reads, i < cmdListSize) :
    ∀ i ∈ (scanLoop layout cmdListSize cmdList turns idx (scanOf operations) reads).reads,
      i < cmdListSize := by
  induction turns generalizing idx operations reads with
  | zero => exact h
  | succ turns ih =>
      by_cases hidx : idx < cmdListSize
      · have hhead : ∀ i ∈ reads ++ [idx], i < cmdListSize := by
          intro i hi
          rcases List.mem_append.mp hi with hi | hi
          · exact h i hi
          · rw [List.mem_singleton.mp hi]
            exact hidx
        cases harity : arity layout (cmdList idx) with
        | none =>
            rw [(scanLoop_stopped hidx harity).2]
            exact hhead
        | some n =>
            by_cases hcut : cmdListSize < idx + 1 + n
            · rw [(scanLoop_cut hidx hcut harity).2]
              exact hhead
            · obtain ⟨operandReads, hstep, hoperands, _⟩ := scanLoop_command (Nat.not_lt.mp hcut) harity
                turns reads false 0 operations
              rw [hstep]
              refine ih _ fun i hi => ?_
              rcases List.mem_append.mp hi with hi | hi
              · exact hhead i hi
              · have hbound := hoperands i hi
                omega
      · rw [scanLoop_done (Nat.not_lt.mp hidx)]
        exact h

/-- When more words are announced than copied, the scan reads copied words only if and
only if it ends before the others. -/
theorem scanLoop_probe
    {cmdListSize copied : ℕ} (hmore : copied < cmdListSize) (idx n : ℕ) :
    ∀ (turns : ℕ) (operations : List Operation) (reads : List ℕ),
      idx + n = copied → cmdListSize < idx + turns → (∀ i ∈ reads, i < copied) →
      ((∀ i ∈ (scanLoop layout cmdListSize cmdList turns idx (scanOf operations) reads).reads,
          i < copied) ↔
        ProbeEnds layout cmdListSize copied
          (commands (arity layout) (window cmdList idx n)).2) := by
  induction idx, n using window_induction (arity layout) cmdList with
  | exhausted idx =>
      intro turns operations reads hcopied hturns _
      rw [commands_window_zero]
      obtain ⟨turns, rfl⟩ := Nat.exists_eq_add_of_lt (show 0 < turns by omega)
      refine ⟨fun hall => ?_, fun hends => hends.elim⟩
      rw [Nat.zero_add] at hall
      have hhead := hall idx (scanLoop_reads_head (by omega))
      omega
  | stopped idx n harity =>
      intro turns operations reads hcopied hturns hreads
      rw [commands_window_stopped harity]
      obtain ⟨turns, rfl⟩ := Nat.exists_eq_add_of_lt (show 0 < turns by omega)
      refine ⟨fun _ => trivial, fun _ i hi => ?_⟩
      rw [Nat.zero_add, (scanLoop_stopped (by omega) harity).2] at hi
      rcases List.mem_append.mp hi with hi | hi
      · exact hreads i hi
      · rw [List.mem_singleton.mp hi]
        omega
  | cut idx n k harity hcut =>
      intro turns operations reads hcopied hturns hreads
      rw [commands_window_cut harity hcut]
      obtain ⟨turns, rfl⟩ := Nat.exists_eq_add_of_lt (show 0 < turns by omega)
      rw [Nat.zero_add]
      have hhead : ∀ i ∈ reads ++ [idx], i < copied := by
        intro i hi
        rcases List.mem_append.mp hi with hi | hi
        · exact hreads i hi
        · rw [List.mem_singleton.mp hi]
          omega
      by_cases hannounced : cmdListSize < idx + 1 + k
      · rw [(scanLoop_cut (by omega) hannounced harity).2]
        exact ⟨fun _ => .inl (by omega), fun _ => hhead⟩
      · obtain ⟨operandReads, hstep, hoperands, haux, hnone⟩ := scanLoop_command
          (Nat.not_lt.mp hannounced) harity turns reads false 0 operations
        rw [hstep]
        -- The operands are announced: the walk reads the last of them or goes on behind it.
        by_cases hend : cmdListSize = idx + 1 + k
        · rw [scanLoop_done (by omega)]
          cases hreadsAux : readsAuxInput layout (cmdList idx) with
          | true =>
              refine ⟨fun hall => ?_, fun hends => ?_⟩
              · have hlast := hall _ (List.mem_append_right _ (haux hreadsAux))
                omega
              · rcases hends with hmissing | ⟨_, hnot⟩
                · omega
                · rw [hreadsAux] at hnot
                  cases hnot
          | false =>
              rw [hnone hreadsAux, List.append_nil]
              exact ⟨fun _ => .inr ⟨by omega, hreadsAux⟩, fun _ => hhead⟩
        · obtain ⟨turns, rfl⟩ := Nat.exists_eq_add_of_lt (show 0 < turns by omega)
          refine ⟨fun hall => ?_, fun hends => ?_⟩
          · rw [Nat.zero_add] at hall
            have hnext := hall (idx + 1 + k) (scanLoop_reads_head (by omega))
            omega
          · rcases hends with hmissing | ⟨hmissing, _⟩
            · omega
            · omega
  | command idx n k harity hle ih =>
      intro turns operations reads hcopied hturns hreads
      rw [commands_window_command harity hle]
      obtain ⟨turns, rfl⟩ := Nat.exists_eq_add_of_lt (show 0 < turns by omega)
      obtain ⟨operandReads, hstep, hoperands, _⟩ := scanLoop_command
        (show idx + 1 + k ≤ cmdListSize by omega) harity turns reads false 0 operations
      rw [Nat.zero_add, hstep]
      refine ih turns _ _ (by omega) (by omega) fun i hi => ?_
      rcases List.mem_append.mp hi with hi | hi
      · rcases List.mem_append.mp hi with hi | hi
        · exact hreads i hi
        · rw [List.mem_singleton.mp hi]
          omega
      · have hbound := hoperands i hi
        omega

/-! ## Aux input -/

/-- Every block of aux input is among the first that the list reads, or among the first
that it wrote before. -/
def Covered (accesses : List AuxAccess) : Prop :=
  ∀ before addr after, accesses = before ++ .read addr :: after →
    addr ∈ (writtenAddrs before).take auxBlocks ∨ addr ∈ (readAddrs accesses).take auxBlocks

/-- The accesses before the reads of a list are those of its first access, and those of
the rest behind it. -/
theorem forall_reads_cons {access : AuxAccess} {accesses : List AuxAccess}
    {P : List AuxAccess → UInt32 → Prop} :
    (∀ before addr after, access :: accesses = before ++ .read addr :: after → P before addr) ↔
      (∀ addr, access = .read addr → P [] addr) ∧
        ∀ before addr after, accesses = before ++ .read addr :: after →
          P (access :: before) addr := by
  constructor
  · intro h
    refine ⟨fun addr heq => h [] addr accesses (by rw [heq]; rfl), ?_⟩
    intro before addr after heq
    exact h (access :: before) addr after (by rw [heq]; rfl)
  · rintro ⟨hhead, htail⟩ before addr after heq
    rcases before with _ | ⟨first, before⟩
    · exact hhead addr (List.cons.inj heq).1
    · obtain ⟨rfl, hrest⟩ := List.cons.inj heq
      exact htail before addr after hrest

theorem WriteAuxOutBuffer_take (done : List AuxAccess) (addr : UInt32) :
    WriteAuxOutBuffer ((writtenAddrs done).take auxBlocks) addr =
      (writtenAddrs (done ++ [.write addr])).take auxBlocks := by
  have happend : writtenAddrs (done ++ [.write addr]) =
      writtenAddrs done ++ if addr = 0 then [] else [addr] := by
    rw [writtenAddrs, List.filterMap_append]
    by_cases hzero : addr = 0
    · simp [hzero, writtenAddrs]
    · simp [hzero, writtenAddrs]
  unfold WriteAuxOutBuffer
  rw [happend]
  by_cases hzero : addr = 0
  · rw [if_pos hzero, if_pos hzero, List.append_nil]
  · rw [if_neg hzero, if_neg hzero, take_append_one]

/-- No read of a deferred mix falls through to guest memory if and only if each finds its
block in the shadow or in the snapshot. -/
theorem auxSources_iff (auxIn : List UInt32) (done accesses : List AuxAccess) :
    (∀ source ∈ auxSources auxIn ((writtenAddrs done).take auxBlocks) accesses,
        source ≠ .guestMemory) ↔
      ∀ before addr after, accesses = before ++ .read addr :: after →
        addr ∈ (writtenAddrs (done ++ before)).take auxBlocks ∨ addr ∈ auxIn := by
  induction accesses generalizing done with
  | nil => simp [auxSources]
  | cons access accesses ih =>
      rw [forall_reads_cons]
      cases access with
      | write addr =>
          rw [auxSources, WriteAuxOutBuffer_take, ih]
          simp only [List.append_assoc, List.singleton_append, reduceCtorEq, false_imp_iff,
            implies_true, true_and]
      | read addr =>
          have hdone : writtenAddrs (done ++ [.read addr]) = writtenAddrs done := by
            simp [writtenAddrs]
          have hrest := ih (done ++ [.read addr])
          rw [hdone] at hrest
          rw [auxSources, List.forall_mem_cons, hrest]
          simp only [List.append_assoc, List.singleton_append, AuxAccess.read.injEq,
            forall_eq', List.append_nil]
          refine and_congr_left' ?_
          unfold ReadAuxInBuffer
          split
          · rename_i hshadow
            exact ⟨fun _ => .inl hshadow, fun _ => nofun⟩
          · rename_i hshadow
            split
            · rename_i hsnapshot
              exact ⟨fun _ => .inr hsnapshot, fun _ => nofun⟩
            · rename_i hsnapshot
              exact ⟨fun h => absurd rfl h, fun h => (h.elim hshadow hsnapshot).elim⟩

end Wiicompiled.Audio.AxDsp
