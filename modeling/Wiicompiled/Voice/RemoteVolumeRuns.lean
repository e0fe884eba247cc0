import Wiicompiled.Voice.RemoteVolumes

/-!
# Remote volumes over the calls of a session

Each step of a call keeps the client on the policy.  The two entry points that write
volumes of their own keep it exactly when what they write is what the policy gives.
-/

namespace Wiicompiled.Voice.EmbeddedCore

open DerivedView

/-! ## Settings -/

theorem Sound.valid_of_no_client
    {s : SessionState} (h : Sound s) (hclient : s.client = none) : Valid s := by
  refine ⟨h, ?_⟩
  intro client hsome
  rw [hclient] at hsome
  cases hsome

theorem insert_clampVolume_bounds
    {saved : AList fun _ : ParticipantId => Volume}
    (h : ∀ participantId volume, saved.lookup participantId = some volume →
      0 ≤ volume ∧ volume ≤ 3)
    (changed : ParticipantId) (volume : Volume) :
    ∀ participantId volume',
      (saved.insert changed (clampVolume volume)).lookup participantId = some volume' →
        0 ≤ volume' ∧ volume' ≤ 3 := by
  intro participantId volume' hlookup
  by_cases heq : participantId = changed
  · subst heq
    rw [AList.lookup_insert] at hlookup
    rw [← Option.some.inj hlookup]
    exact clampVolume_bounds volume
  · rw [AList.lookup_insert_ne heq] at hlookup
    exact h participantId volume' hlookup

theorem loadPeerVolumes_bounds
    {peerVolumes : List (ParticipantId × Volume)}
    {saved : AList fun _ : ParticipantId => Volume}
    (h : ∀ participantId volume, saved.lookup participantId = some volume →
      0 ≤ volume ∧ volume ≤ 3) :
    ∀ participantId volume,
      (loadPeerVolumes peerVolumes saved).lookup participantId = some volume →
        0 ≤ volume ∧ volume ≤ 3 := by
  induction peerVolumes generalizing saved with
  | nil => exact h
  | cons entry peerVolumes ih =>
      by_cases hempty : entry.1 = []
      · rw [loadPeerVolumes, List.foldl_cons, if_pos hempty]
        exact ih h
      · rw [loadPeerVolumes, List.foldl_cons, if_neg hempty]
        exact ih (insert_clampVolume_bounds h entry.1 entry.2)

/-- The first call loads the settings; later calls find them loaded. -/
theorem valid_loadSettings
    {s : SessionState} (h : s = initialState ∨ Valid s) (settings : Settings) :
    Valid (loadSettings settings s) := by
  rcases h with rfl | h
  · have hsaved : ∀ participantId volume,
        (loadPeerVolumes settings.peerVolumes ∅).lookup participantId = some volume →
          0 ≤ volume ∧ volume ≤ 3 := by
      refine loadPeerVolumes_bounds ?_
      intro participantId volume hlookup
      rw [AList.lookup_empty] at hlookup
      cases hlookup
    have hlinks : ∀ memberId : MemberId, memberId ∉ (∅ : AList fun _ : MemberId => Bool) :=
      fun memberId => AList.notMem_empty memberId
    unfold loadSettings
    split
    · contradiction
    · split
      · refine Sound.valid_of_no_client ⟨hsaved, ?_, ?_, rfl⟩ rfl
        · exact fun client hclient => nomatch hclient
        · exact fun memberId hmem => absurd hmem (hlinks memberId)
      · refine Sound.valid_of_no_client ⟨hsaved, ?_, ?_, rfl⟩ rfl
        · exact fun client hclient => nomatch hclient
        · exact fun memberId hmem => absurd hmem (hlinks memberId)
  · rw [loadSettings, if_pos h.sound.loaded]
    exact h

/-! ## The service: peers -/

theorem Sound.clearPeerRuntime {s : SessionState} (h : Sound s) :
    Valid (clearPeerRuntime s) := by
  refine Sound.valid_of_no_client ⟨h.saved, ?_, ?_, h.loaded⟩ rfl
  · exact fun client hclient => nomatch hclient
  · exact fun memberId hmem => absurd hmem (AList.notMem_empty memberId)

theorem Valid.of_same_volumes
    {s s' : SessionState} (h : Valid s) (hclient : s'.client = s.client)
    (hpeers : s'.developmentPeers = s.developmentPeers)
    (hlinks : ∀ memberId ∈ s'.peerLinks, memberId ∈ s.developmentPeers)
    (hsaved : s'.savedPeerVolumes = s.savedPeerVolumes)
    (hloaded : s'.settingsLoaded = s.settingsLoaded)
    (heffective : ∀ participantId, effectiveVolumeFor s' participantId =
      effectiveVolumeFor s participantId) : Valid s' := by
  refine ⟨⟨?_, ?_, ?_, ?_⟩, ?_⟩
  · rw [hsaved]
    exact h.sound.saved
  · rw [hclient, hpeers]
    exact h.sound.known
  · rw [hpeers]
    exact hlinks
  · rw [hloaded]
    exact h.sound.loaded
  · intro client hsome memberId volume hlookup
    have hfollows := h.follows client (hclient ▸ hsome) memberId volume hlookup
    rw [volumeOf] at hfollows ⊢
    rw [hpeers, ← hfollows]
    exact congrArg (Option.map · _) (funext heffective)

theorem Sound.clearVoiceSession {s : SessionState} (h : Sound s) :
    Valid (clearVoiceSession s) :=
  h.clearPeerRuntime.of_same_volumes rfl rfl h.clearPeerRuntime.sound.linked rfl rfl
    fun _ => rfl

/-- A member that is let go leaves the volumes of the others as they are. -/
theorem Valid.of_erase
    {s s' : SessionState} (h : Valid s) (memberId : MemberId)
    (hclient : ∀ client, s'.client = some client →
      ∃ before, s.client = some before ∧ client.peers = before.peers.erase memberId)
    (hlinks : s'.peerLinks = s.peerLinks.erase memberId)
    (hpeers : ∀ other, other ≠ memberId →
      s'.developmentPeers.lookup other = s.developmentPeers.lookup other)
    (hsaved : s'.savedPeerVolumes = s.savedPeerVolumes)
    (hloaded : s'.settingsLoaded = s.settingsLoaded)
    (heffective : ∀ participantId, effectiveVolumeFor s' participantId =
      effectiveVolumeFor s participantId) : Valid s' := by
  have hkept : ∀ other, other ≠ memberId → other ∈ s.developmentPeers →
      other ∈ s'.developmentPeers := by
    intro other hne hmem
    rw [← AList.lookup_isSome, hpeers other hne]
    exact AList.lookup_isSome.mpr hmem
  refine ⟨⟨?_, ?_, ?_, ?_⟩, ?_⟩
  · rw [hsaved]
    exact h.sound.saved
  · intro client hsome other hmem
    obtain ⟨before, hbefore, herase⟩ := hclient client hsome
    rw [herase, AList.mem_erase] at hmem
    exact hkept other hmem.1 (h.sound.known before hbefore other hmem.2)
  · intro other hmem
    rw [hlinks, AList.mem_erase] at hmem
    exact hkept other hmem.1 (h.sound.linked other hmem.2)
  · rw [hloaded]
    exact h.sound.loaded
  · intro client hsome
    obtain ⟨before, hbefore, herase⟩ := hclient client hsome
    rw [herase]
    refine (h.follows before hbefore).erase ?_
    intro other hne
    rw [volumeOf, volumeOf, hpeers other hne]
    exact congrArg (Option.map · _) (funext heffective)

theorem disconnectPeer_client
    {s : SessionState} {memberId : MemberId} {client : VoiceClient}
    (h : (disconnectPeer s memberId).client = some client) :
    ∃ before, s.client = some before ∧ client.peers = before.peers.erase memberId := by
  unfold disconnectPeer at h
  cases hbefore : s.client with
  | none =>
      simp only [hbefore] at h
      cases h
  | some before =>
      simp only [hbefore] at h
      split at h
      · cases h
      · cases h
        exact ⟨before, rfl, rfl⟩

theorem disconnectPeer_eq (s : SessionState) (memberId : MemberId) :
    disconnectPeer s memberId = { s with client := (disconnectPeer s memberId).client } := by
  unfold disconnectPeer
  cases hbefore : s.client with
  | none => rfl
  | some before => rfl

theorem Valid.resetPeerTransport {s : SessionState} (h : Valid s) (memberId : MemberId) :
    Valid (resetPeerTransport s memberId) := by
  unfold EmbeddedCore.resetPeerTransport
  by_cases hempty : memberId = []
  · rw [if_pos hempty]
    exact h
  · rw [if_neg hempty, disconnectPeer_eq]
    exact h.of_erase memberId (fun _ hsome => disconnectPeer_client hsome) rfl
      (fun _ _ => rfl) rfl rfl fun _ => rfl

theorem Valid.removePeer {s : SessionState} (h : Valid s) (memberId : MemberId) :
    Valid (removePeer s memberId) := by
  unfold EmbeddedCore.removePeer
  by_cases hempty : memberId = []
  · rw [if_pos hempty]
    exact h
  · rw [if_neg hempty, disconnectPeer_eq]
    exact h.of_erase memberId (fun _ hsome => disconnectPeer_client hsome) rfl
      (fun _ hne => AList.lookup_erase_ne hne) rfl rfl fun _ => rfl

/-! ## The service: signaling and links -/

theorem Valid.dismissAdmission {s : SessionState} (h : Valid s) : Valid (dismissAdmission s) :=
  h.sound.clearPeerRuntime.of_same_volumes rfl rfl h.sound.clearPeerRuntime.sound.linked
    rfl rfl fun _ => rfl

/-- A participant that was not there may be muted without a push to the others. -/
theorem effectiveVolumeFor_insert_muted
    {s : SessionState} {muted participantId : ParticipantId} (hne : participantId ≠ muted) :
    effectiveVolumeFor
        { s with autoMutedNewParticipants := insert muted s.autoMutedNewParticipants }
        participantId =
      effectiveVolumeFor s participantId := by
  have hmem : participantId ∈ insert muted s.autoMutedNewParticipants ↔
      participantId ∈ s.autoMutedNewParticipants := by
    simp [hne]
  have hpolicy : policyMutedFor
        { s with autoMutedNewParticipants := insert muted s.autoMutedNewParticipants }
        participantId =
      policyMutedFor s participantId := by
    unfold policyMutedFor
    exact congrArg (_ || ·) (decide_eq_decide.mpr hmem)
  unfold effectiveVolumeFor
  rw [hpolicy]
  rfl

theorem mem_entries_of_lookup
    {developmentPeers : AList fun _ : MemberId => ParticipantId}
    {memberId : MemberId} {participantId : ParticipantId}
    (h : developmentPeers.lookup memberId = some participantId) :
    ∃ entry ∈ developmentPeers.entries, entry.2 = participantId :=
  ⟨⟨memberId, participantId⟩, AList.mem_lookup_iff.mp h, rfl⟩

theorem Valid.push_introduced
    {s : SessionState} (h : Valid s) (muted : Finset ParticipantId)
    (memberId : MemberId) (participantId : ParticipantId)
    (hothers : ∀ other otherId, s.developmentPeers.lookup other = some otherId →
      effectiveVolumeFor { s with autoMutedNewParticipants := muted } otherId =
        effectiveVolumeFor s otherId) :
    Valid (applyRemoteVolumeForMember
      { s with
        autoMutedNewParticipants := muted
        developmentPeers := s.developmentPeers.insert memberId participantId } memberId) := by
  have hsound : Sound
      { s with
        autoMutedNewParticipants := muted
        developmentPeers := s.developmentPeers.insert memberId participantId } := by
    refine ⟨h.sound.saved, ?_, ?_, h.sound.loaded⟩
    · intro client hclient other hmem
      exact (AList.mem_insert _).mpr (.inr (h.sound.known client hclient other hmem))
    · intro other hmem
      exact (AList.mem_insert _).mpr (.inr (h.sound.linked other hmem))
  refine hsound.valid_push ?_
  intro client hclient other volume hne hlookup
  have hfollows := h.follows client hclient other volume hlookup
  obtain ⟨otherId, hother, hvolume⟩ := Option.map_eq_some_iff.mp hfollows
  refine Option.map_eq_some_iff.mpr ⟨otherId, ?_, ?_⟩
  · rw [AList.lookup_insert_ne hne]
    exact hother
  · rw [← hvolume]
    exact hothers other otherId hother

theorem Valid.introducePeer
    {s : SessionState} (h : Valid s) (localProfileId payload : Text) :
    Valid (introducePeer localProfileId payload s) := by
  unfold EmbeddedCore.introducePeer
  split
  · exact h
  · split
    · exact h
    · rename_i memberId participantId _
      split
      · exact h
      · by_cases hmuted : (s.muteNewPlayers && !decide
            (∃ entry ∈ s.developmentPeers.entries, entry.2 = participantId)) = true
        · simp only [hmuted, if_true]
          refine h.push_introduced (insert participantId s.autoMutedNewParticipants)
            memberId participantId ?_
          intro other otherId hother
          refine effectiveVolumeFor_insert_muted ?_
          rintro rfl
          rw [Bool.and_eq_true, Bool.not_eq_true', decide_eq_false_iff_not] at hmuted
          exact hmuted.2 (mem_entries_of_lookup hother)
        · simp only [hmuted]
          exact h.push_introduced s.autoMutedNewParticipants memberId participantId
            fun _ _ _ => rfl

theorem Valid.insertLink
    {s : SessionState} (h : Valid s) {memberId : MemberId} (value : Bool)
    (hknown : memberId ∈ s.developmentPeers) :
    Valid { s with peerLinks := s.peerLinks.insert memberId value } := by
  refine h.of_same_volumes rfl rfl ?_ rfl rfl fun _ => rfl
  intro other hmem
  rcases (AList.mem_insert _).mp hmem with rfl | hmem
  · exact hknown
  · exact h.sound.linked other hmem

theorem resetPeerTransport_developmentPeers (s : SessionState) (memberId : MemberId) :
    (resetPeerTransport s memberId).developmentPeers = s.developmentPeers := by
  unfold resetPeerTransport
  split
  · rfl
  · rw [disconnectPeer_eq]

theorem Valid.readyPeer
    {s : SessionState} (h : Valid s) (memberId : MemberId) (fails : Bool) :
    Valid (readyPeer memberId fails s).2 := by
  unfold EmbeddedCore.readyPeer
  split
  · exact h
  · rename_i hguard
    have hknown : memberId ∈ s.developmentPeers := by
      by_contra hnot
      exact hguard (.inr (.inr (.inl hnot)))
    have hlinked : ∀ s' : SessionState, Valid s' → memberId ∈ s'.developmentPeers →
        Valid (if memberId ∈ s'.peerLinks then (false, s')
          else if fails then (true, s')
          else (false, { s' with peerLinks := s'.peerLinks.insert memberId true })).2 := by
      intro s' h' hmem
      split
      · exact h'
      · split
        · exact h'
        · exact h'.insertLink true hmem
    have hreset : ∀ connected : Bool,
        Valid (if memberId ∈ s.peerLinks ∨ connected = true then
          EmbeddedCore.resetPeerTransport s memberId else s) ∧
        memberId ∈ (if memberId ∈ s.peerLinks ∨ connected = true then
          EmbeddedCore.resetPeerTransport s memberId else s).developmentPeers := by
      intro connected
      split
      · rw [resetPeerTransport_developmentPeers]
        exact ⟨h.resetPeerTransport memberId, hknown⟩
      · exact ⟨h, hknown⟩
    exact hlinked _ (hreset _).1 (hreset _).2

theorem Valid.applyRemoteSignal
    {s : SessionState} (h : Valid s) (memberId : MemberId)
    (isOffer decodes setupFails fails : Bool) :
    Valid (applyRemoteSignal memberId isOffer decodes setupFails fails s).2 := by
  unfold EmbeddedCore.applyRemoteSignal
  split
  · exact h
  · rename_i hguard
    have hknown : memberId ∈ s.developmentPeers := by
      by_contra hnot
      exact hguard (.inr (.inr hnot))
    split
    · exact h
    · split
      · split
        · exact h
        · split
          · exact h.insertLink false hknown
          · exact h.insertLink true hknown
      · split
        · exact h
        · exact h

theorem Valid.processEvent
    {s : SessionState} (h : Valid s) (localProfileId : Text) (event : SignalingEvent) :
    Valid (processEvent localProfileId s event).2 := by
  cases event with
  | opened => exact h.dismissAdmission
  | iceServers => exact h
  | admitted parsed =>
      rcases parsed with _ | ⟨memberId, room⟩
      · exact h.dismissAdmission
      · exact h.of_same_volumes rfl rfl h.sound.linked rfl rfl fun _ => rfl
  | admissionFailed => exact h.dismissAdmission
  | peerInfo payload => exact h.introducePeer localProfileId payload
  | peerReady memberId fails => exact h.readyPeer memberId fails
  | signal memberId isOffer decodes setupFails fails =>
      exact h.applyRemoteSignal memberId isOffer decodes setupFails fails
  | peerLeft memberId => exact h.removePeer memberId
  | authorization => exact h
  | closed => exact h.dismissAdmission
  | error => exact h.dismissAdmission

theorem Valid.processEvents
    {s : SessionState} (h : Valid s) (localProfileId : Text) (events : List SignalingEvent) :
    Valid (processEvents localProfileId events s).2 := by
  induction events generalizing s with
  | nil => exact h
  | cons event events ih =>
      have hevent := h.processEvent localProfileId event
      unfold EmbeddedCore.processEvents
      split
      · rename_i s' heq
        rw [heq] at hevent
        exact hevent
      · rename_i s' heq
        rw [heq] at hevent
        exact ih hevent

theorem Valid.push_connected
    {s : SessionState} (h : Valid s) {memberId : MemberId} (hlinked : memberId ∈ s.peerLinks)
    {peers : AList fun _ : MemberId => Volume}
    (hpeers : ∀ other volume, other ≠ memberId → peers.lookup other = some volume →
      ∃ client, s.client = some client ∧ client.peers.lookup other = some volume) :
    Valid (applyRemoteVolumeForMember
      { s with
        peerLinks := s.peerLinks.insert memberId false
        client := some ⟨peers⟩ } memberId) := by
  have hknown := h.sound.linked memberId hlinked
  have hother : ∀ other volume, other ≠ memberId → peers.lookup other = some volume →
      volumeOf s other = some volume := by
    intro other volume hne hlookup
    obtain ⟨client, hclient, hbefore⟩ := hpeers other volume hne hlookup
    exact h.follows client hclient other volume hbefore
  have hsound : Sound
      { s with
        peerLinks := s.peerLinks.insert memberId false
        client := some ⟨peers⟩ } := by
    refine ⟨h.sound.saved, ?_, (h.insertLink false hknown).sound.linked, h.sound.loaded⟩
    intro client hclient other hmem
    cases hclient
    by_cases heq : other = memberId
    · subst heq
      exact hknown
    · obtain ⟨volume, hvolume⟩ := Option.isSome_iff_exists.mp (AList.lookup_isSome.mpr hmem)
      obtain ⟨before, hbefore, hlookup⟩ := hpeers other volume heq hvolume
      exact h.sound.known before hbefore other
        (AList.lookup_isSome.mp (Option.isSome_of_eq_some hlookup))
  refine hsound.valid_push ?_
  intro client hclient other volume hne hlookup
  cases hclient
  exact hother other volume hne hlookup

theorem Valid.connectLink
    {s : SessionState} (h : Valid s) {memberId : MemberId} (hlinked : memberId ∈ s.peerLinks)
    (starts : Bool) : Valid (connectLink memberId starts s).2 := by
  have hreleased := h.insertLink false (h.sound.linked memberId hlinked)
  unfold EmbeddedCore.connectLink
  cases hclient : s.client with
  | none =>
      by_cases hrefused : memberId = [] ∨ starts = false
      · simp only [hrefused, if_true]
        rw [hclient] at hreleased
        exact hreleased
      · simp only [hrefused, if_false]
        refine h.push_connected hlinked ?_
        intro other volume hne hlookup
        rw [AList.lookup_eq_none.mpr] at hlookup
        · cases hlookup
        · simpa [AList.mem_keys] using hne
  | some client =>
      by_cases hpeer : client.hasPeer memberId = true
      · simp only [hpeer, if_true]
        exact h
      · simp only [hpeer]
        cases hadd : client.addPeer memberId starts with
        | none =>
            rw [hclient] at hreleased
            exact hreleased
        | some added =>
            unfold VoiceClient.addPeer at hadd
            split at hadd
            · cases hadd
            · cases hadd
              refine h.push_connected hlinked ?_
              intro other volume hne hlookup
              rw [AList.lookup_insert_ne hne] at hlookup
              exact ⟨client, hclient, hlookup⟩

theorem Valid.pollLink
    {s : SessionState} (h : Valid s) (poll : MemberId → LinkPoll) (memberId : MemberId) :
    Valid (pollLink poll s memberId).2 := by
  unfold EmbeddedCore.pollLink
  by_cases hlookup : s.peerLinks.lookup memberId = some true
  · rw [if_neg (not_not.mpr hlookup)]
    cases poll memberId with
    | pending => exact h
    | failed => exact h
    | connected starts =>
        exact h.connectLink
          (AList.lookup_isSome.mp (Option.isSome_of_eq_some hlookup)) starts
  · rw [if_pos hlookup]
    exact h

theorem Valid.pollLinks
    {s : SessionState} (h : Valid s) (poll : MemberId → LinkPoll)
    (memberIds : List MemberId) : Valid (pollLinks poll memberIds s).2 := by
  induction memberIds generalizing s with
  | nil => exact h
  | cons memberId memberIds ih => exact ih (h.pollLink poll memberId)

theorem Valid.pollPeerLinks {s : SessionState} (h : Valid s) (poll : MemberId → LinkPoll) :
    Valid (pollPeerLinks poll s) := by
  have hremove : ∀ (failed : List MemberId) (s : SessionState), Valid s →
      Valid (failed.foldl EmbeddedCore.removePeer s) := by
    intro failed
    induction failed with
    | nil => exact fun s h => h
    | cons memberId failed ih => exact fun s h => ih _ (h.removePeer memberId)
  unfold EmbeddedCore.pollPeerLinks
  split
  · exact h
  · exact hremove _ _ (h.pollLinks poll s.peerLinks.keys)

end Wiicompiled.Voice.EmbeddedCore
