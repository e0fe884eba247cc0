import Wiicompiled.Audio.CommandListConsistency

/-!
# Dispatched command lists

Every list that a run mixes was dispatched before, and is mixed with the words, the size
and the layout that it was dispatched with.  It is scanned and mixed consistently exactly
when it is well formed.
-/

namespace Wiicompiled.Audio.AxDsp

open CommandStream

/-! ## Consistent and well-formed lists -/

/-- The number of words that were copied for the list. -/
def Dispatch.copied (dispatch : Dispatch) : ℕ :=
  min dispatch.cmdListSize cmdListWords

def Dispatch.stream (dispatch : Dispatch) (layout : AXCommandLayout) :
    List (Command UInt16) × Ending UInt16 :=
  commands (arity layout) (window dispatch.cmdList 0 dispatch.copied)

/-- The blocks of aux output and input that the commands of the list write and read. -/
def Dispatch.auxAccesses (dispatch : Dispatch) : List AuxAccess :=
  (operationsOf dispatch.layout false 0 (dispatch.stream dispatch.layout).1).flatMap
    Operation.auxAccesses

/-- The walks read copied words only, a sync mail was pushed for each output, and a
deferred mix finds every block of aux input in the snapshot or in its shadow. -/
structure MixedList.Consistent (list : MixedList) : Prop where
  reads : ∀ i ∈ list.dispatch.scanReads ++ list.execution.reads, i < list.dispatch.copied
  mails : list.dispatch.mails.count kDspSync =
    list.execution.operations.countP Operation.isOutput
  aux : list.dispatch.deferred = true →
    ∀ source ∈ auxSources list.dispatch.auxIn []
      (list.execution.operations.flatMap Operation.auxAccesses), source ≠ .guestMemory

/-- No command is cut by the announced size or by the end of the buffer, the probes of
other layouts end before the words that were not copied, and the blocks of aux input that
do not fit into the snapshot are known from other accesses. -/
structure Dispatch.WellFormed (dispatch : Dispatch) : Prop where
  whole : Whole dispatch.cmdListSize dispatch.copied (dispatch.stream dispatch.layout).2
  probes : dispatch.setting = .auto → dispatch.copied < dispatch.cmdListSize →
    ∀ layout ∈ [AXCommandLayout.new, .newNoOutputVolume, .old],
      ProbeEnds layout dispatch.cmdListSize dispatch.copied (dispatch.stream layout).2
  covered : dispatch.deferred = true → Covered dispatch.auxAccesses

theorem Dispatch.copied_le (dispatch : Dispatch) : dispatch.copied ≤ dispatch.cmdListSize :=
  Nat.min_le_left _ _

/-! ## One list -/

/-- Which filter the voices use does not matter to the aux accesses. -/
theorem auxAccesses_operationsOf (layout : AXCommandLayout) (f g : Bool) (oldPbAddr : UInt32)
    (commands : List (Command UInt16)) :
    (operationsOf layout f oldPbAddr commands).flatMap Operation.auxAccesses =
      (operationsOf layout g oldPbAddr commands).flatMap Operation.auxAccesses := by
  have hcommand : ∀ (oldPbAddr : UInt32) (command : Command UInt16),
      (operationsOfCommand layout f oldPbAddr command).flatMap Operation.auxAccesses =
        (operationsOfCommand layout g oldPbAddr command).flatMap Operation.auxAccesses := by
    intro oldPbAddr command
    unfold operationsOfCommand
    split
    · rfl
    · cases (DecodeCommand command.head layout).cmd with
      | none => rfl
      | some cmd =>
          cases cmd with
          | process => by_cases hold : layout = .old <;> simp [operationOf, hold,
              Operation.auxAccesses]
          | _ => rfl
  induction commands generalizing oldPbAddr with
  | nil => rfl
  | cons command commands ih =>
      rw [operationsOf, operationsOf, List.flatMap_append, List.flatMap_append, hcommand, ih]

theorem ExecuteCommandList_reads_iff
    (dispatch : Dispatch) (layout : AXCommandLayout) (newFilter : Bool) :
    (∀ i ∈ (ExecuteCommandList layout newFilter dispatch.cmdListSize dispatch.cmdList).reads,
        i < dispatch.copied) ↔
      Whole dispatch.cmdListSize dispatch.copied (dispatch.stream layout).2 := by
  obtain ⟨hwhole, hnot⟩ := executeLoop_whole dispatch.copied_le 0 dispatch.copied
    (dispatch.cmdListSize + 1) ⟨0, []⟩ 0 [] rfl (Nat.zero_add _) (by omega)
  constructor
  · intro hreads
    by_contra hcut
    obtain ⟨i, hi, hle⟩ := hnot hcut
    exact absurd (hreads i hi) (Nat.not_lt.mpr hle)
  · intro h i hi
    rcases (hwhole h).2 i hi with hnil | hlt
    · exact absurd hnil List.not_mem_nil
    · exact hlt

theorem ExecuteCommandList_operations
    (dispatch : Dispatch) {layout : AXCommandLayout} (newFilter : Bool)
    (h : Whole dispatch.cmdListSize dispatch.copied (dispatch.stream layout).2) :
    (ExecuteCommandList layout newFilter dispatch.cmdListSize dispatch.cmdList).operations =
      operationsOf layout newFilter 0 (dispatch.stream layout).1 :=
  ((executeLoop_whole dispatch.copied_le 0 dispatch.copied
    (dispatch.cmdListSize + 1) ⟨0, []⟩ 0 [] rfl (Nat.zero_add _) (by omega)).1 h).1

theorem ScanCommandList_scan
    (dispatch : Dispatch) {layout : AXCommandLayout} (newFilter : Bool)
    (h : Whole dispatch.cmdListSize dispatch.copied (dispatch.stream layout).2) :
    (ScanCommandList layout dispatch.cmdListSize dispatch.cmdList).scan =
      scanOf (operationsOf layout newFilter 0 (dispatch.stream layout).1) :=
  scanLoop_whole dispatch.copied_le 0 dispatch.copied (dispatch.cmdListSize + 1) 0 [] []
    (Nat.zero_add _) (by omega) h

/-- A scan reads words that were not copied only where more are announced, and then only
if it does not end before them. -/
theorem ScanCommandList_reads_iff (dispatch : Dispatch) (layout : AXCommandLayout) :
    (∀ i ∈ (ScanCommandList layout dispatch.cmdListSize dispatch.cmdList).reads,
        i < dispatch.copied) ↔
      (dispatch.copied < dispatch.cmdListSize →
        ProbeEnds layout dispatch.cmdListSize dispatch.copied (dispatch.stream layout).2) := by
  by_cases hmore : dispatch.copied < dispatch.cmdListSize
  · refine Iff.trans ?_ ⟨fun h _ => h, fun h => h hmore⟩
    exact scanLoop_probe hmore 0 dispatch.copied (dispatch.cmdListSize + 1) [] []
      (Nat.zero_add _) (by omega) fun i hi => absurd hi List.not_mem_nil
  · have hall : dispatch.copied = dispatch.cmdListSize :=
      Nat.le_antisymm dispatch.copied_le (Nat.not_lt.mp hmore)
    refine ⟨fun _ hlt => absurd hlt hmore, fun _ => ?_⟩
    rw [hall]
    exact scanLoop_reads_announced [] fun i hi => absurd hi List.not_mem_nil

theorem Whole.probeEnds
    {layout : AXCommandLayout} {cmdListSize copied : ℕ} {ending : Ending UInt16}
    (h : Whole cmdListSize copied ending) (hmore : copied < cmdListSize) :
    ProbeEnds layout cmdListSize copied ending := by
  rcases h with rfl | ⟨_, hend⟩
  · trivial
  · omega

def MixedList.Dispatched (list : MixedList) : Prop :=
  (∃ (s : AXWii) (host : AXWii.Host), list.dispatch = s.dispatch host) ∧
    ∃ newFilter, list.execution = ExecuteCommandList list.dispatch.layout newFilter
      list.dispatch.cmdListSize list.dispatch.cmdList

/-- The words that a dispatch reads: the probes of the other layouts, and its own scan. -/
theorem dispatch_scanReads_iff (s : AXWii) (host : AXWii.Host) :
    (∀ i ∈ (s.dispatch host).scanReads, i < (s.dispatch host).copied) ↔
      ((s.dispatch host).setting = .auto →
        (s.dispatch host).copied < (s.dispatch host).cmdListSize →
          ∀ layout ∈ [AXCommandLayout.new, .newNoOutputVolume, .old],
            ProbeEnds layout (s.dispatch host).cmdListSize (s.dispatch host).copied
              ((s.dispatch host).stream layout).2) ∧
      ((s.dispatch host).copied < (s.dispatch host).cmdListSize →
        ProbeEnds (s.dispatch host).layout (s.dispatch host).cmdListSize
          (s.dispatch host).copied ((s.dispatch host).stream (s.dispatch host).layout).2) := by
  have hscan := ScanCommandList_reads_iff (s.dispatch host)
  have hreads : (s.dispatch host).scanReads =
      s.probeReads ++ (ScanCommandList (s.dispatch host).layout s.cmdListSize s.cmdList).reads :=
    rfl
  rw [hreads, List.forall_mem_append]
  refine and_congr ?_ (hscan _)
  unfold AXWii.probeReads
  by_cases hauto : s.commandLayout = .auto
  · rw [if_pos hauto, List.forall_mem_append, List.forall_mem_append]
    have hnew := hscan .new
    have hnoVolume := hscan .newNoOutputVolume
    have hold := hscan .old
    constructor
    · rintro ⟨⟨h1, h2⟩, h3⟩ _ hmore layout hlayout
      simp only [List.mem_cons, List.not_mem_nil, or_false] at hlayout
      rcases hlayout with rfl | rfl | rfl
      · exact hnew.mp h1 hmore
      · exact hnoVolume.mp h2 hmore
      · exact hold.mp h3 hmore
    · intro h
      exact ⟨⟨hnew.mpr fun hmore => h hauto hmore _ (by simp),
        hnoVolume.mpr fun hmore => h hauto hmore _ (by simp)⟩,
        hold.mpr fun hmore => h hauto hmore _ (by simp)⟩
  · rw [if_neg hauto]
    exact ⟨fun _ hsetting => absurd hsetting hauto, fun _ i hi => absurd hi List.not_mem_nil⟩

/-- The snapshot of a whole list has its first blocks of aux input. -/
theorem dispatch_auxIn
    {s : AXWii} {host : AXWii.Host} (hdeferred : (s.dispatch host).deferred = true)
    (h : Whole (s.dispatch host).cmdListSize (s.dispatch host).copied
      ((s.dispatch host).stream (s.dispatch host).layout).2) :
    (s.dispatch host).auxIn = (readAddrs (s.dispatch host).auxAccesses).take auxBlocks := by
  have hscan := ScanCommandList_scan (s.dispatch host) false h
  have hauxIn : (s.dispatch host).auxIn =
      (ScanCommandList (s.dispatch host).layout (s.dispatch host).cmdListSize
        (s.dispatch host).cmdList).scan.auxInputAddrs.take auxBlocks := if_pos hdeferred
  rw [hauxIn, hscan, scanOf, List.take_take, Nat.min_self]
  rfl

theorem dispatch_mails
    {s : AXWii} {host : AXWii.Host} (newFilter : Bool)
    (h : Whole (s.dispatch host).cmdListSize (s.dispatch host).copied
      ((s.dispatch host).stream (s.dispatch host).layout).2) :
    (s.dispatch host).mails.count kDspSync =
      (operationsOf (s.dispatch host).layout newFilter 0
        ((s.dispatch host).stream (s.dispatch host).layout).1).countP Operation.isOutput := by
  have hscan := ScanCommandList_scan (s.dispatch host) newFilter h
  have hmails : (s.dispatch host).mails =
      List.replicate (ScanCommandList (s.dispatch host).layout (s.dispatch host).cmdListSize
        (s.dispatch host).cmdList).scan.outputCommands kDspSync := rfl
  rw [hmails, List.count_replicate_self, hscan]
  rfl

/-- A deferred mix of a whole list finds all of its aux input if and only if the blocks
are covered. -/
theorem dispatch_aux_iff
    {s : AXWii} {host : AXWii.Host} (newFilter : Bool)
    (hdeferred : (s.dispatch host).deferred = true)
    (h : Whole (s.dispatch host).cmdListSize (s.dispatch host).copied
      ((s.dispatch host).stream (s.dispatch host).layout).2) :
    (∀ source ∈ auxSources (s.dispatch host).auxIn []
        ((operationsOf (s.dispatch host).layout newFilter 0
          ((s.dispatch host).stream (s.dispatch host).layout).1).flatMap Operation.auxAccesses),
        source ≠ .guestMemory) ↔ Covered (s.dispatch host).auxAccesses := by
  rw [auxAccesses_operationsOf _ newFilter false, dispatch_auxIn hdeferred h]
  exact auxSources_iff _ [] _

/-- A list is scanned and mixed consistently if and only if it is well formed. -/
theorem MixedList.Dispatched.consistent_iff
    {list : MixedList} (h : list.Dispatched) :
    list.Consistent ↔ list.dispatch.WellFormed := by
  obtain ⟨dispatch, execution⟩ := list
  obtain ⟨⟨s, host, hdispatch⟩, newFilter, hexecution⟩ := h
  simp only at hdispatch hexecution
  subst hdispatch hexecution
  have hwhole := ExecuteCommandList_reads_iff (s.dispatch host) (s.dispatch host).layout
    newFilter
  constructor
  · rintro ⟨hreads, hmails, haux⟩
    obtain ⟨hscan, hexecute⟩ := List.forall_mem_append.mp hreads
    have hlist := hwhole.mp hexecute
    refine ⟨hlist, ((dispatch_scanReads_iff s host).mp hscan).1, fun hdeferred => ?_⟩
    rw [← dispatch_aux_iff newFilter hdeferred hlist,
      ← ExecuteCommandList_operations (s.dispatch host) newFilter hlist]
    exact haux hdeferred
  · rintro ⟨hlist, hprobes, hcovered⟩
    refine ⟨List.forall_mem_append.mpr ⟨?_, hwhole.mpr hlist⟩, ?_, fun hdeferred => ?_⟩
    · exact (dispatch_scanReads_iff s host).mpr ⟨hprobes, hlist.probeEnds⟩
    · simp only
      rw [ExecuteCommandList_operations (s.dispatch host) newFilter hlist]
      exact dispatch_mails newFilter hlist
    · simp only
      rw [ExecuteCommandList_operations (s.dispatch host) newFilter hlist]
      exact (dispatch_aux_iff newFilter hdeferred hlist).mpr (hcovered hdeferred)

/-! ## Every list of a run -/

namespace AXWii

/-- What is pending was dispatched with the words that are still there, and so was every
list that was mixed. -/
structure Tracked (s : AXWii) : Prop where
  pending : ∀ dispatch, s.mixPending = some dispatch →
    (∃ (before : AXWii) (host : Host), dispatch = before.dispatch host) ∧
      s.mixLayout = dispatch.layout ∧ s.mixCmdListSize = dispatch.cmdListSize ∧
        s.cmdList = dispatch.cmdList
  lists : ∀ list ∈ s.lists, list.Dispatched

theorem tracked_runMix
    {s : AXWii} (hlists : ∀ list ∈ s.lists, list.Dispatched) {dispatch : Dispatch}
    (hdispatch : ∃ (before : AXWii) (host : Host), dispatch = before.dispatch host)
    (hlayout : s.mixLayout = dispatch.layout)
    (hsize : s.mixCmdListSize = dispatch.cmdListSize) (hwords : s.cmdList = dispatch.cmdList) :
    (s.runMix dispatch).Tracked := by
  constructor
  · intro pending hpending
    cases hpending
  · intro list hlist
    rcases List.mem_append.mp hlist with hlist | hlist
    · exact hlists list hlist
    · rw [List.mem_singleton.mp hlist]
      refine ⟨hdispatch, (if s.ucodeCrc ≠ 0 then UCodeUsesNewFilter s.ucodeCrc
        else s.mixLayout ≠ .old), ?_⟩
      simp only
      rw [hlayout, hsize, hwords]

theorem Tracked.workerMixes {s : AXWii} (h : s.Tracked) :
    s.workerMixes.Tracked ∧ s.workerMixes.mixPending = none := by
  unfold AXWii.workerMixes
  cases hpending : s.mixPending with
  | none => exact ⟨h, hpending⟩
  | some dispatch =>
      obtain ⟨hdispatch, hlayout, hsize, hwords⟩ := h.pending dispatch hpending
      exact ⟨tracked_runMix h.lists hdispatch hlayout hsize hwords, rfl⟩

theorem Tracked.of_idle
    {s s' : AXWii} (h : s.Tracked) (hpending : s'.mixPending = none)
    (hlists : s'.lists = s.lists) : s'.Tracked := by
  refine ⟨fun dispatch hsome => ?_, fun list hlist => h.lists list (hlists ▸ hlist)⟩
  rw [hpending] at hsome
  cases hsome

theorem Tracked.of_same
    {s s' : AXWii} (h : s.Tracked) (hpending : s'.mixPending = s.mixPending)
    (hlayout : s'.mixLayout = s.mixLayout) (hsize : s'.mixCmdListSize = s.mixCmdListSize)
    (hwords : s'.cmdList = s.cmdList) (hlists : s'.lists = s.lists) : s'.Tracked := by
  refine ⟨fun dispatch hsome => ?_, fun list hlist => h.lists list (hlists ▸ hlist)⟩
  rw [hlayout, hsize, hwords]
  exact h.pending dispatch (hpending ▸ hsome)

theorem Tracked.joinMix {s : AXWii} (h : s.Tracked) :
    s.JoinMix.Tracked ∧ s.JoinMix.mixPending = none :=
  ⟨h.workerMixes.1.of_same rfl rfl rfl rfl rfl, h.workerMixes.2⟩

theorem Tracked.dispatchCommandList {s : AXWii} (h : s.Tracked) (host : Host) :
    (s.DispatchCommandList host).Tracked := by
  unfold DispatchCommandList
  simp only
  split
  · refine ⟨fun dispatch hsome => ?_, h.lists⟩
    cases hsome
    exact ⟨⟨s, host, rfl⟩, rfl, rfl, rfl⟩
  · refine tracked_runMix ?_ ⟨s, host, rfl⟩ ?_ ?_ ?_
    · exact h.lists
    · rfl
    · rfl
    · rfl

theorem Tracked.handleTaskMail {s : AXWii} (h : s.Tracked) (mail : UInt32) :
    (s.HandleTaskMail mail).Tracked := by
  unfold HandleTaskMail
  simp only
  split
  · exact h.of_same rfl rfl rfl rfl rfl
  · split
    · exact h.of_same rfl rfl rfl rfl rfl
    · exact h.of_same rfl rfl rfl rfl rfl

theorem Tracked.announceList {s : AXWii} (h : s.Tracked) (mail : UInt32) :
    (s.announceList mail).Tracked :=
  h.of_same rfl rfl rfl rfl rfl

/-- The copy of a list follows a join, so that no pending list loses its words. -/
theorem Tracked.handleMail {s : AXWii} (h : s.Tracked) (host : Host) (mail : UInt32) :
    (s.HandleMail host mail).Tracked := by
  unfold HandleMail
  cases s.mailState with
  | waitingForCmdListSize =>
      simp only
      split
      · exact h.announceList mail
      · split
        · exact h.handleTaskMail mail
        · exact h
  | waitingForCmdListAddress =>
      have hcopied : (s.JoinMix.CopyCmdList host mail s.cmdListSize).Tracked :=
        h.joinMix.1.of_idle h.joinMix.2 rfl
      exact (hcopied.dispatchCommandList host).of_same rfl rfl rfl rfl rfl
  | waitingForNextTask =>
      simp only
      split
      · exact h.announceList mail
      · exact h.handleTaskMail mail

theorem Tracked.stop {s : AXWii} (h : s.Tracked) : s.Stop.Tracked :=
  h.joinMix.1.of_same rfl rfl rfl rfl rfl

theorem Tracked.call {s : AXWii} (h : s.Tracked) (c : Call) : (s.call c).Tracked := by
  cases c with
  | init workerEnabled => exact h.stop.of_same rfl rfl rfl rfl rfl
  | stop => exact h.stop
  | configureFromTask crc =>
      simp only [AXWii.call, ConfigureFromTask]
      split
      · exact h.joinMix.1
      · exact h.joinMix.1.of_same rfl rfl rfl rfl rfl
  | setMixWorkerEnabled enabled => exact h.of_same rfl rfl rfl rfl rfl
  | sendMail host mail => exact h.handleMail host mail
  | readMailFromDSP => exact h.of_same rfl rfl rfl rfl rfl
  | queueResumeCallback => exact h.of_same rfl rfl rfl rfl rfl
  | serviceDeferredCallbacks => exact h.of_same rfl rfl rfl rfl rfl
  | joinMix => exact h.joinMix.1
  | shutdownMixWorker => exact h.workerMixes.1.of_same rfl rfl rfl rfl rfl
  | workerMixes => exact h.workerMixes.1

theorem Tracked.run {s : AXWii} (h : s.Tracked) (calls : List Call) :
    (calls.foldl AXWii.call s).Tracked := by
  induction calls generalizing s with
  | nil => exact h
  | cons c calls ih => exact ih (h.call c)

theorem tracked_initialAXWii (cmdList : ℕ → UInt16) : (initialAXWii cmdList).Tracked := by
  constructor
  · intro dispatch hpending
    cases hpending
  · exact fun list hlist => absurd hlist List.not_mem_nil

/-- A list of one word, an output without its operands. -/
def cutOutputCalls : List Call :=
  let host : Host := ⟨fun _ => 0x0b, fun _ => 0, false⟩
  [.sendMail host 0xBABE0001, .sendMail host 0x80001000]

end AXWii

end Wiicompiled.Audio.AxDsp
