import Wiicompiled.Audio.AuxAccesses
import Wiicompiled.Audio.DeferredMix
import Wiicompiled.Audio.DispatchedLists

/-!
# Publication of the shadowed blocks

The shadow is emptied by the join that publishes it and by the mix that fills it.  Every
mix follows a join, so that no block is dropped, and none is published again.
-/

namespace Wiicompiled.Audio.AxDsp

/-! ## The blocks of all lists -/

def MixedList.shadowed (list : MixedList) (index : ℕ) : List ShadowedBlock :=
  if list.dispatch.deferred then shadowedBlocks index list.execution.operations else []

def shadowedByLists (lists : List MixedList) : List ShadowedBlock :=
  lists.zipIdx.flatMap fun list => list.1.shadowed list.2

theorem shadowedByLists_append_one (lists : List MixedList) (list : MixedList) :
    shadowedByLists (lists ++ [list]) =
      shadowedByLists lists ++ list.shadowed lists.length := by
  unfold shadowedByLists
  rw [List.zipIdx_append, List.flatMap_append, List.zipIdx_singleton, List.flatMap_singleton,
    Nat.zero_add]

theorem list_of_mem_shadowed
    {list : MixedList} {index : ℕ} {block : ShadowedBlock}
    (h : block ∈ list.shadowed index) : block.list = index := by
  unfold MixedList.shadowed at h
  split at h
  · obtain ⟨taken, _, rfl⟩ := List.mem_map.mp h
    rfl
  · cases h

theorem nodup_shadowed (list : MixedList) (index : ℕ) : (list.shadowed index).Nodup := by
  unfold MixedList.shadowed
  split
  · have hplaces : (shadowAddrs [] (list.execution.operations.flatMap
        Operation.auxAccesses)).zipIdx.Nodup := by
      refine List.Nodup.of_map Prod.snd ?_
      rw [List.zipIdx_map_snd]
      exact List.nodup_range'
    unfold shadowedBlocks
    refine List.Nodup.map_on ?_ hplaces
    rintro ⟨a, i⟩ ha ⟨b, j⟩ hb heq
    simp only [ShadowedBlock.mk.injEq, true_and] at heq
    rw [heq.1, heq.2]
  · exact List.nodup_nil

theorem list_lt_of_mem_shadowedByLists
    {lists : List MixedList} {block : ShadowedBlock} (h : block ∈ shadowedByLists lists) :
    block.list < lists.length := by
  obtain ⟨⟨list, index⟩, hlist, hblock⟩ := List.mem_flatMap.mp h
  rw [list_of_mem_shadowed hblock]
  have hlt := List.snd_lt_of_mem_zipIdx hlist
  omega

/-- No block is shadowed twice: it is known by its list and its place. -/
theorem nodup_shadowedByLists (lists : List MixedList) : (shadowedByLists lists).Nodup := by
  induction lists using List.reverseRecOn with
  | nil => exact List.nodup_nil
  | append_singleton lists list ih =>
      rw [shadowedByLists_append_one]
      refine List.nodup_append.mpr ⟨ih, nodup_shadowed list _, ?_⟩
      rintro block hblock other hother rfl
      have hlt := list_lt_of_mem_shadowedByLists hblock
      rw [list_of_mem_shadowed hother] at hlt
      exact Nat.lt_irrefl _ hlt

/-! ## Runs -/

namespace AXWii

/-- Every block that was shadowed is either published or still held, and the shadow is
empty while a mix is pending. -/
structure Accounted (s : AXWii) : Prop where
  blocks : s.published ++ s.auxOut = shadowedByLists s.lists
  pending : ∀ dispatch, s.mixPending = some dispatch →
    s.auxOut = [] ∧ s.deferredAux = dispatch.deferred

theorem accounted_runMix
    {s : AXWii} {dispatch : Dispatch} (hblocks : s.published = shadowedByLists s.lists)
    (hdeferred : s.deferredAux = dispatch.deferred) : (s.runMix dispatch).Accounted := by
  constructor
  · unfold runMix
    simp only
    rw [shadowedByLists_append_one, hblocks, hdeferred]
    rfl
  · intro pending hpending
    cases hpending

theorem Accounted.published_eq {s : AXWii} (h : s.Accounted) (hempty : s.auxOut = []) :
    s.published = shadowedByLists s.lists := by
  have hblocks := h.blocks
  rwa [hempty, List.append_nil] at hblocks

theorem Accounted.workerMixes {s : AXWii} (h : s.Accounted) :
    s.workerMixes.Accounted ∧ s.workerMixes.mixPending = none := by
  unfold AXWii.workerMixes
  cases hpending : s.mixPending with
  | none => exact ⟨h, hpending⟩
  | some dispatch =>
      obtain ⟨hempty, hdeferred⟩ := h.pending dispatch hpending
      exact ⟨accounted_runMix (h.published_eq hempty) hdeferred, rfl⟩

theorem Accounted.joinMix {s : AXWii} (h : s.Accounted) :
    s.JoinMix.mixPending = none ∧ s.JoinMix.auxOut = [] ∧
      s.JoinMix.published = shadowedByLists s.JoinMix.lists :=
  ⟨h.workerMixes.2, rfl, h.workerMixes.1.blocks⟩

theorem Accounted.of_same
    {s s' : AXWii} (h : s.Accounted) (hpending : s'.mixPending = s.mixPending)
    (hdeferred : s'.deferredAux = s.deferredAux) (hauxOut : s'.auxOut = s.auxOut)
    (hlists : s'.lists = s.lists) (hpublished : s'.published = s.published) :
    s'.Accounted := by
  refine ⟨?_, fun dispatch hsome => ?_⟩
  · rw [hpublished, hauxOut, hlists]
    exact h.blocks
  · rw [hauxOut, hdeferred]
    exact h.pending dispatch (hpending ▸ hsome)

theorem accounted_of_joined
    {s : AXWii} (hpending : s.mixPending = none) (hauxOut : s.auxOut = [])
    (hpublished : s.published = shadowedByLists s.lists) : s.Accounted := by
  refine ⟨?_, fun dispatch hsome => ?_⟩
  · rw [hauxOut, List.append_nil]
    exact hpublished
  · rw [hpending] at hsome
    cases hsome

theorem Accounted.joined {s : AXWii} (h : s.Accounted) : s.JoinMix.Accounted :=
  accounted_of_joined h.joinMix.1 h.joinMix.2.1 h.joinMix.2.2

/-- A list is dispatched after a join, so that its mix drops no block. -/
theorem accounted_dispatchCommandList
    (s : AXWii) (hauxOut : s.auxOut = []) (hpublished : s.published = shadowedByLists s.lists)
    (host : Host) : (s.DispatchCommandList host).Accounted := by
  unfold DispatchCommandList
  simp only
  split
  · refine ⟨?_, fun dispatch hsome => ?_⟩
    · simp only
      rw [hauxOut, List.append_nil]
      exact hpublished
    · cases hsome
      exact ⟨hauxOut, rfl⟩
  · refine accounted_runMix ?_ ?_
    · exact hpublished
    · rfl

theorem Accounted.handleTaskMail {s : AXWii} (h : s.Accounted) (mail : UInt32) :
    (s.HandleTaskMail mail).Accounted := by
  unfold HandleTaskMail
  simp only
  split
  · exact h.of_same rfl rfl rfl rfl rfl
  · split
    · exact h.of_same rfl rfl rfl rfl rfl
    · exact h.of_same rfl rfl rfl rfl rfl

theorem Accounted.announceList {s : AXWii} (h : s.Accounted) (mail : UInt32) :
    (s.announceList mail).Accounted :=
  h.of_same rfl rfl rfl rfl rfl

theorem Accounted.handleMail {s : AXWii} (h : s.Accounted) (host : Host) (mail : UInt32) :
    (s.HandleMail host mail).Accounted := by
  unfold HandleMail
  cases s.mailState with
  | waitingForCmdListSize =>
      simp only
      split
      · exact h.announceList mail
      · split
        · exact h.handleTaskMail mail
        · exact h
  | waitingForCmdListAddress =>
      obtain ⟨_, hauxOut, hpublished⟩ := h.joinMix
      have hdispatched := accounted_dispatchCommandList
        (s.JoinMix.CopyCmdList host mail s.cmdListSize) hauxOut hpublished host
      exact hdispatched.of_same rfl rfl rfl rfl rfl
  | waitingForNextTask =>
      simp only
      split
      · exact h.announceList mail
      · exact h.handleTaskMail mail

theorem Accounted.stop {s : AXWii} (h : s.Accounted) : s.Stop.Accounted :=
  h.joined.of_same rfl rfl rfl rfl rfl

theorem Accounted.call {s : AXWii} (h : s.Accounted) (c : Call) : (s.call c).Accounted := by
  cases c with
  | init workerEnabled =>
      exact accounted_of_joined h.joinMix.1 rfl h.joinMix.2.2
  | stop => exact h.stop
  | configureFromTask crc =>
      simp only [AXWii.call, ConfigureFromTask]
      split
      · exact h.joined
      · exact h.joined.of_same rfl rfl rfl rfl rfl
  | setMixWorkerEnabled enabled => exact h.of_same rfl rfl rfl rfl rfl
  | sendMail host mail => exact h.handleMail host mail
  | readMailFromDSP => exact h.of_same rfl rfl rfl rfl rfl
  | queueResumeCallback => exact h.of_same rfl rfl rfl rfl rfl
  | serviceDeferredCallbacks => exact h.of_same rfl rfl rfl rfl rfl
  | joinMix => exact h.joined
  | shutdownMixWorker => exact h.workerMixes.1.of_same rfl rfl rfl rfl rfl
  | workerMixes => exact h.workerMixes.1

theorem Accounted.run {s : AXWii} (h : s.Accounted) (calls : List Call) :
    (calls.foldl AXWii.call s).Accounted := by
  induction calls generalizing s with
  | nil => exact h
  | cons c calls ih => exact ih (h.call c)

theorem accounted_initialAXWii (cmdList : ℕ → UInt16) : (initialAXWii cmdList).Accounted :=
  accounted_of_joined rfl rfl rfl

/-- No block was published twice, and the next join has published every block once. -/
structure PublishedOnce (s : AXWii) : Prop where
  atMost : ∀ block, s.published.count block ≤ 1
  joined : ∀ block ∈ shadowedByLists s.JoinMix.lists, s.JoinMix.published.count block = 1

theorem Accounted.publishedOnce {s : AXWii} (h : s.Accounted) : s.PublishedOnce where
  atMost block := by
    have hnodup := nodup_shadowedByLists s.lists
    rw [← h.blocks] at hnodup
    exact List.nodup_iff_count_le_one.mp (List.nodup_append.mp hnodup).1 block
  joined block hblock := by
    rw [h.joinMix.2.2]
    exact List.count_eq_one_of_mem (nodup_shadowedByLists _) hblock

end AXWii

/-! ## The deferred mix of a list -/

def Dispatch.program (dispatch : Dispatch) (env : MixEnv) (newFilter : Bool) (mixer : Mixer) :
    Mix Mixer :=
  mixOperations env (ExecuteCommandList dispatch.layout newFilter dispatch.cmdListSize
    dispatch.cmdList).operations mixer

/-- The mix of the worker and its join leave the mixer and the memory that the synchronous
mix leaves, with what the guest writes in between. -/
def Dispatch.MixesAgree (dispatch : Dispatch) (env : MixEnv) (newFilter : Bool)
    (mixer : Mixer) (memory : GuestMemory) (turns : List (List GuestWrite)) : Prop :=
  let (mixer', memory') := (dispatch.program env newFilter mixer).runSync env.map memory
  deferAndJoin env.map (dispatch.program env newFilter mixer) dispatch.auxIn turns memory =
    (mixer', { memory' with main := applyGuestWrites memory'.main turns.flatten })

def Dispatch.accesses (dispatch : Dispatch) (env : MixEnv) (newFilter : Bool)
    (mixer : Mixer) (memory : GuestMemory) : List Access :=
  (dispatch.program env newFilter mixer).accesses env.map memory

/-- A list whose buffers are isolated is mixed by the worker as it is mixed at once, and in
every run each shadowed block is published once. -/
theorem deferred_mix_eq_synchronous_mix :
    (∀ (env : MixEnv) (dispatch : Dispatch) (newFilter : Bool) (mixer : Mixer)
        (memory : GuestMemory) (turns : List (List GuestWrite)),
      Isolated (dispatch.accesses env newFilter mixer memory) turns →
        dispatch.MixesAgree env newFilter mixer memory turns) ∧
      ∀ (cmdList : ℕ → UInt16) (calls : List AXWii.Call),
        (calls.foldl AXWii.call (initialAXWii cmdList)).PublishedOnce :=
  ⟨fun env dispatch newFilter mixer memory turns h =>
      deferAndJoin_eq env.map (dispatch.program env newFilter mixer) dispatch.auxIn turns
        memory h,
    fun cmdList calls => ((AXWii.accounted_initialAXWii cmdList).run calls).publishedOnce⟩

/-- The regions of main memory and the locked cache, constant ramps, and no voices. -/
def silentEnv : MixEnv where
  map := ⟨true, true, fun addr _ => 0xE0000000 ≤ addr⟩
  volumeRamp := fun _ volume _ => volume
  processPBList := fun _ _ _ mixer => .done mixer

def newListDispatch (words : List UInt16) (auxIn : List UInt32) : Dispatch where
  cmdListSize := words.length
  cmdList := fun i => words.getD i 0
  setting := .new
  layout := .new
  scanReads := []
  mails := []
  deferred := true
  auxIn := auxIn

/-- All buses hold samples of one. -/
def unitMixer : Mixer where
  bus := fun _ _ => 1
  lastMainVolume := 0x8000
  lastAuxVolumes := fun _ => 0x8000
  compressorPos := 0
  pbLayout := .unknown

def zeroMemory : GuestMemory := ⟨fun _ => 0, fun _ => 0⟩

/-- The blocks that are accounted for a list are those that its deferred mix shadows, in
their order, whatever the guest writes meanwhile. -/
theorem mixOperations_shadows {env : MixEnv}
    (hvoices : ∀ pbAddr newFilter oldAxLayout mixer,
      (env.processPBList pbAddr newFilter oldAxLayout mixer).Makes [])
    (list : ℕ) (operations : List Operation) (mixer : Mixer) (turns : List (List GuestWrite))
    (memory : GuestMemory) (auxIn : List (UInt32 × AuxBlock)) :
    ((mixOperations env operations mixer).runDeferred env.map turns
      ⟨memory, [], auxIn⟩).2.2.auxOut.map Prod.fst =
      (shadowedBlocks list operations).map ShadowedBlock.addr := by
  have hmakes := mixOperations_makes hvoices operations mixer
  rw [hmakes.map_fst_auxOut, shadowedBlocks, List.map_map]
  exact (List.zipIdx_map_fst 0 _).symm

theorem uploadedBlocks_shadowed :
    ((mixOperations silentEnv [.uploadAUXMixLRSC 0 [0x80001000, 0x80002000] 0x8000]
      unitMixer).runDeferred silentEnv.map [] ⟨zeroMemory, [], []⟩).2.2.auxOut.map Prod.fst =
      (shadowedBlocks 0 [.uploadAUXMixLRSC 0 [0x80001000, 0x80002000] 0x8000]).map
        ShadowedBlock.addr :=
  mixOperations_shadows (fun _ _ _ mixer => .done mixer) 0 _ unitMixer [] zeroMemory []

/-- Write the first aux buses from 0x1000 on, and mix what is read from 0x2000 on. -/
def mixAuxDispatch : Dispatch :=
  newListDispatch [0x05, 0x8000, 0x8000, 0x1000, 0x8000, 0x2000, 0x0e]
    [0x80002000, 0x80002180, 0x80002300]

theorem separate_of_blocks
    {accesses : List Access} {turns : List (List GuestWrite)}
    (houtputs : ∀ access ∈ accesses, (access matches .write ..) = false)
    (hin : (readBlocks accesses).length ≤ auxBlocks)
    (hout : (writtenBlocks accesses).length ≤ auxBlocks)
    (hblocks : (auxBlocksOf accesses).all fun a => (auxBlocksOf accesses).all fun b =>
      a.2 = b.2 ∨ PendingStores.Apart a.2 auxBytes b.2 auxBytes)
    (hguest : turns.flatten.all fun write => (auxBlocksOf accesses).all fun block =>
      auxBytes ≤ (write.1 - block.2).toNat) : Separate accesses turns where
  auxIn := hin
  auxOut := hout
  blocks a ha b hb :=
    of_decide_eq_true (List.all_eq_true.mp (List.all_eq_true.mp hblocks a ha) b hb)
  outputs _ _ hmem := Bool.noConfusion (houtputs _ hmem)
  guestBlocks write hwrite block hblock := Nat.not_lt.mpr
    (of_decide_eq_true (List.all_eq_true.mp (List.all_eq_true.mp hguest write hwrite) block hblock))
  guestOutputs _ _ _ _ hmem := Bool.noConfusion (houtputs _ hmem)

/-- A list that mixes the aux buses, while the guest writes elsewhere. -/
theorem mix_aux_eq_synchronous_mix :
    mixAuxDispatch.MixesAgree silentEnv true unitMixer zeroMemory [[(0x100, 1)]] := by
  let accesses := mixAuxDispatch.accesses silentEnv true unitMixer zeroMemory
  have hseparate : Separate accesses [[(0x100, 1)]] := by
    refine separate_of_blocks ?_ ?_ ?_ ?_ ?_
    all_goals decide +kernel
  have haddresses : ((auxBlocksOf accesses).all fun a => (auxBlocksOf accesses).all fun b =>
      a.2 = b.2 → a.1 = b.1) = true := by
    decide +kernel
  have hinputs : ∀ access ∈ accesses, (access matches .read ..) = false := by
    decide +kernel
  refine deferred_mix_eq_synchronous_mix.1 silentEnv mixAuxDispatch true unitMixer zeroMemory
    [[(0x100, 1)]] ⟨hseparate, ?_, ?_, ?_, ?_⟩
  · decide +kernel
  · exact fun a ha b hb =>
      of_decide_eq_true (List.all_eq_true.mp (List.all_eq_true.mp haddresses a ha) b hb)
  · exact fun _ _ hmem => Bool.noConfusion (hinputs _ hmem)
  · exact fun _ _ _ _ hmem => Bool.noConfusion (hinputs _ hmem)

/-- The list that writes its aux output, and then adds it to the main buses. -/
def addOwnOutputDispatch : Dispatch :=
  newListDispatch [0x05, 0x8000, 0x8000, 0x1000, 0x8000, 0x2000, 0x01, 0x8000, 0x1000, 0x0e]
    [0x80002000, 0x80002180, 0x80002300]

/-- The list that reads its aux output by another address. -/
def aliasedDispatch : Dispatch :=
  newListDispatch [0x05, 0x8000, 0x8000, 0x1000, 0xC000, 0x1000, 0x0e]
    [0xC0001000, 0xC0001180, 0xC0001300]

/-- The list that adds a buffer to the main buses. -/
def addBufferDispatch : Dispatch :=
  newListDispatch [0x01, 0x8000, 0x3000, 0x0e] []

/-- The list that outputs the samples of the remotes to the locked cache. -/
def lockedCacheDispatch : Dispatch :=
  newListDispatch [0x0d, 0xE000, 0, 0xE000, 0, 0xE000, 0, 0xE000, 0, 0x0e] []

/-- The worker adds what was in memory before the list, and finds its own output by the
address that it was written by only.  It adds what the guest writes, and leaves the locked
cache alone. -/
theorem separate_mixes_differ :
    (Separate (addOwnOutputDispatch.accesses silentEnv true unitMixer zeroMemory) [] ∧
      ¬ addOwnOutputDispatch.MixesAgree silentEnv true unitMixer zeroMemory []) ∧
    (Separate (aliasedDispatch.accesses silentEnv true unitMixer zeroMemory) [] ∧
      ¬ aliasedDispatch.MixesAgree silentEnv true unitMixer zeroMemory []) ∧
    (Separate (addBufferDispatch.accesses silentEnv true unitMixer zeroMemory)
        [[(0x3003, 1)]] ∧
      ¬ addBufferDispatch.MixesAgree silentEnv true unitMixer zeroMemory [[(0x3003, 1)]]) ∧
    (Separate (lockedCacheDispatch.accesses silentEnv true unitMixer zeroMemory) [] ∧
      ¬ lockedCacheDispatch.MixesAgree silentEnv true unitMixer zeroMemory []) := by
  have hbus : ∀ (dispatch : Dispatch) (turns : List (List GuestWrite)),
      ((dispatch.program silentEnv true unitMixer).runSync silentEnv.map
          zeroMemory).1.bus kBusMainL 0 ≠
        (deferAndJoin silentEnv.map (dispatch.program silentEnv true unitMixer) dispatch.auxIn
          turns zeroMemory).1.bus kBusMainL 0 →
          ¬ dispatch.MixesAgree silentEnv true unitMixer zeroMemory turns :=
    fun dispatch turns hne hagree =>
      hne (congrArg (fun result => result.1.bus kBusMainL 0) hagree).symm
  have houtside : ∀ dispatch : Dispatch,
      ((dispatch.program silentEnv true unitMixer).runSync silentEnv.map
          zeroMemory).2.outside 0xE0000001 ≠
        (deferAndJoin silentEnv.map (dispatch.program silentEnv true unitMixer) dispatch.auxIn
          [] zeroMemory).2.outside 0xE0000001 →
          ¬ dispatch.MixesAgree silentEnv true unitMixer zeroMemory [] :=
    fun dispatch hne hagree =>
      hne (congrArg (fun result => result.2.outside 0xE0000001) hagree).symm
  refine ⟨⟨separate_of_blocks ?_ ?_ ?_ ?_ ?_, hbus _ _ ?_⟩,
    ⟨separate_of_blocks ?_ ?_ ?_ ?_ ?_, hbus _ _ ?_⟩,
    ⟨separate_of_blocks ?_ ?_ ?_ ?_ ?_, hbus _ _ ?_⟩,
    separate_of_blocks ?_ ?_ ?_ ?_ ?_, houtside _ ?_⟩
  all_goals decide +kernel

end Wiicompiled.Audio.AxDsp
