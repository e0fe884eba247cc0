import Wiicompiled.Voice.RemoteVolumeRuns

/-!
# Remote volumes follow the policy

What each entry point of the session does to the volumes, and from it what a sequence of
calls does to them.
-/

namespace Wiicompiled.Voice.EmbeddedCore

open DerivedView

/-! ## The entry points that keep the policy -/

/-- New friends and teams are pushed, unless they are the old ones. -/
theorem Valid.updatePolicyInputs {s : SessionState} (h : Valid s) (input : ServiceInput) :
    Valid (updatePolicyInputs input s) := by
  have hgeneral : ∀ (active : Bool) (friends teams teammates : Finset Text),
      Valid (if decide (friends ≠ s.friendProfileIds ∨ s.teamModeActive ≠ active ∨
            s.teamProfileIds ≠ teams ∨ s.teammateProfileIds ≠ teammates) = true then
          applyAllRemoteVolumes
            { s with
              friendProfileIds := friends
              teamModeActive := active
              teamProfileIds := teams
              teammateProfileIds := teammates }
        else
          { s with
            friendProfileIds := friends
            teamModeActive := active
            teamProfileIds := teams
            teammateProfileIds := teammates }) := by
    intro active friends teams teammates
    by_cases hsame : friends = s.friendProfileIds ∧ s.teamModeActive = active ∧
        s.teamProfileIds = teams ∧ s.teammateProfileIds = teammates
    · obtain ⟨rfl, rfl, rfl, rfl⟩ := hsame
      rw [if_neg (by simp)]
      exact h
    · rw [if_pos (by simpa only [decide_eq_true_eq, Ne, ← not_and_or] using hsame)]
      exact Sound.applyAllRemoteVolumes
        ⟨h.sound.saved, h.sound.known, h.sound.linked, h.sound.loaded⟩
  exact hgeneral _ _ _ _

theorem Valid.clearIfActive {s : SessionState} (h : Valid s) (microphoneTestRunning : Bool) :
    Valid (clearIfActive microphoneTestRunning s) := by
  unfold EmbeddedCore.clearIfActive
  split
  · exact h.sound.clearVoiceSession
  · exact h

theorem Valid.enterRoom {s : SessionState} (h : Valid s) (input : ServiceInput) :
    Valid (enterRoom input s) := by
  unfold EmbeddedCore.enterRoom
  simp only
  split
  · exact h.sound.clearPeerRuntime.of_same_volumes rfl rfl
      h.sound.clearPeerRuntime.sound.linked rfl rfl fun _ => rfl
  · exact h.of_same_volumes rfl rfl h.sound.linked rfl rfl fun _ => rfl

theorem Valid.connectSignaling {s : SessionState} (h : Valid s) (input : ServiceInput) :
    Valid (connectSignaling input s) := by
  unfold EmbeddedCore.connectSignaling
  split
  · exact h.of_same_volumes rfl rfl h.sound.linked rfl rfl fun _ => rfl
  · exact h

theorem valid_service
    {s : SessionState} (h : s = initialState ∨ Valid s) (input : ServiceInput) :
    Valid (serviceEmbeddedVoiceSession input s) := by
  have hinputs := (valid_loadSettings h input.settings).updatePolicyInputs input
  unfold serviceEmbeddedVoiceSession
  simp only
  split
  · exact hinputs.clearIfActive input.microphoneTestRunning
  · split
    · exact hinputs.clearIfActive input.microphoneTestRunning
    · split
      · exact hinputs.sound.clearVoiceSession
      · have hroom := (hinputs.enterRoom input).connectSignaling input
        split
        · exact hroom
        · have hevents := hroom.processEvents input.profileId input.events
          split
          · rename_i heq
            rw [heq] at hevents
            exact hevents
          · rename_i heq
            rw [heq] at hevents
            split
            · exact hevents.of_same_volumes rfl rfl hevents.sound.linked rfl rfl fun _ => rfl
            · exact hevents.pollPeerLinks input.poll

theorem valid_setRuntimeBlocked
    {s : SessionState} (h : s = initialState ∨ Valid s) (settings : Settings)
    (blocked sameReason : Bool) :
    Valid (setEmbeddedVoiceRuntimeBlocked settings blocked sameReason s) := by
  have hloaded := valid_loadSettings h settings
  have hblocked : ∀ value, Valid { loadSettings settings s with runtimeBlocked := value } :=
    fun _ => hloaded.of_same_volumes rfl rfl hloaded.sound.linked rfl rfl fun _ => rfl
  unfold setEmbeddedVoiceRuntimeBlocked
  simp only
  split
  · exact hloaded
  · split
    · exact (hblocked blocked).sound.clearVoiceSession
    · exact hblocked blocked

theorem valid_setEnabled
    {s : SessionState} (h : s = initialState ∨ Valid s) (settings : Settings)
    (enabled : Bool) : Valid (setEmbeddedVoiceEnabled settings enabled s) := by
  have hloaded := valid_loadSettings h settings
  have henabled : ∀ value, Valid { loadSettings settings s with enabled := value } :=
    fun _ => hloaded.of_same_volumes rfl rfl hloaded.sound.linked rfl rfl fun _ => rfl
  unfold setEmbeddedVoiceEnabled
  simp only
  split
  · exact hloaded
  · split
    · exact henabled enabled
    · exact (henabled enabled).sound.clearVoiceSession

theorem valid_setMutePolicy
    {s : SessionState} (h : s = initialState ∨ Valid s) (settings : Settings)
    (e o b t bt n : Bool) : Valid (setEmbeddedVoiceMutePolicy settings e o b t bt n s) := by
  have hloaded := valid_loadSettings h settings
  have hsound : Sound (setMuteFlags e o b t bt n (loadSettings settings s)) :=
    ⟨hloaded.sound.saved, hloaded.sound.known, hloaded.sound.linked, hloaded.sound.loaded⟩
  unfold setEmbeddedVoiceMutePolicy
  simp only
  split
  · exact Sound.applyAllRemoteVolumes ⟨hsound.saved, hsound.known, hsound.linked, hsound.loaded⟩
  · exact hsound.applyAllRemoteVolumes

/-! ## The entry points that write volumes of their own -/

/-- A call writes no volume that differs from what the policy gives.  The volume of a
participant reaches one of its members only, so that the others have to be there already
or be muted.  A reset has to find no muted peer; one that a device cuts short leaves the
peers as they are, and these have to be at full volume or muted. -/
def Harmless (s : SessionState) : Call → Prop
  | .setPeerVolume _ memberId volume =>
      ∀ client, s.client = some client → ∀ other ∈ client.peers, other ≠ memberId →
        ∀ participantId, s.developmentPeers.lookup memberId = some participantId →
          s.developmentPeers.lookup other = some participantId →
            policyMutedFor s participantId = true ∨
              manualVolumeFor s participantId = clampVolume volume
  | .resetAudioSettings _ deviceThrows =>
      ∀ client, s.client = some client → ∀ memberId ∈ client.peers,
        ∀ participantId, s.developmentPeers.lookup memberId = some participantId →
          if deviceThrows then
            policyMutedFor s participantId = true ∨ manualVolumeFor s participantId = 1
          else policyMutedFor s participantId = false
  | _ => True

theorem effectiveVolumeFor_insert_saved
    (s : SessionState) (changed participantId : ParticipantId) (volume : Volume) :
    effectiveVolumeFor
        { s with savedPeerVolumes := s.savedPeerVolumes.insert changed volume } participantId =
      if policyMutedFor s participantId = true then 0
      else if participantId = changed then volume
      else manualVolumeFor s participantId := by
  have hmanual : manualVolumeFor
        { s with savedPeerVolumes := s.savedPeerVolumes.insert changed volume } participantId =
      if participantId = changed then volume else manualVolumeFor s participantId := by
    unfold manualVolumeFor
    by_cases heq : participantId = changed
    · subst heq
      rw [if_pos rfl, AList.lookup_insert, Option.getD_some]
    · rw [if_neg heq, AList.lookup_insert_ne heq]
  unfold effectiveVolumeFor
  rw [hmanual]
  rfl

theorem Valid.setPeerVolume_known
    {s : SessionState} (h : Valid s) {memberId : MemberId} {participantId : ParticipantId}
    (hmember : s.developmentPeers.lookup memberId = some participantId) (volume : Volume) :
    Sound (applyRemoteVolumeForMember
      { s with
        savedPeerVolumes := s.savedPeerVolumes.insert participantId (clampVolume volume) }
      memberId) ∧
    (FollowsPolicy (applyRemoteVolumeForMember
      { s with
        savedPeerVolumes := s.savedPeerVolumes.insert participantId (clampVolume volume) }
      memberId) ↔
      ∀ client, s.client = some client → ∀ other ∈ client.peers, other ≠ memberId →
        s.developmentPeers.lookup other = some participantId →
          policyMutedFor s participantId = true ∨
            manualVolumeFor s participantId = clampVolume volume) := by
  have hsound : Sound
      { s with
        savedPeerVolumes := s.savedPeerVolumes.insert participantId (clampVolume volume) } :=
    ⟨insert_clampVolume_bounds h.sound.saved participantId volume, h.sound.known,
      h.sound.linked, h.sound.loaded⟩
  refine ⟨hsound.applyRemoteVolumeForMember memberId, ?_⟩
  rw [followsPolicy_push_iff hsound memberId]
  refine forall_congr' fun client => forall_congr' fun hclient =>
    forall_congr' fun other => ?_
  constructor
  · intro hall hmem hne hother
    obtain ⟨before, hbefore⟩ := Option.isSome_iff_exists.mp (AList.lookup_isSome.mpr hmem)
    have hnew := hall before hne hbefore
    have hold := h.follows client hclient other before hbefore
    rw [volumeOf, hother, Option.map_some, Option.some.injEq] at hold
    rw [volumeOf, hother, Option.map_some, Option.some.injEq,
      effectiveVolumeFor_insert_saved, if_pos rfl] at hnew
    unfold effectiveVolumeFor at hold
    by_cases hmuted : policyMutedFor s participantId = true
    · exact .inl hmuted
    · rw [if_neg hmuted] at hnew hold
      exact .inr (hold.trans hnew.symm)
  · intro hall before hne hbefore
    have hmem := AList.lookup_isSome.mp (Option.isSome_of_eq_some hbefore)
    obtain ⟨otherId, hother, hold⟩ :=
      Option.map_eq_some_iff.mp (h.follows client hclient other before hbefore)
    refine Option.map_eq_some_iff.mpr ⟨otherId, hother, ?_⟩
    rw [effectiveVolumeFor_insert_saved, ← hold]
    unfold effectiveVolumeFor
    by_cases heq : otherId = participantId
    · subst heq
      rcases hall hmem hne hother with hmuted | hmanual
      · rw [if_pos hmuted, if_pos hmuted]
      · rw [if_pos rfl, hmanual]
    · rw [if_neg heq]

theorem Valid.setPeerVolume_unknown
    {s : SessionState} (h : Valid s) {memberId : MemberId}
    (hmember : s.developmentPeers.lookup memberId = none) (volume : Volume) :
    Valid { s with client := s.client.map fun client => client.setRemoteVolume memberId volume } := by
  cases hclient : s.client with
  | none =>
      rw [Option.map_none, setClient_self hclient]
      exact h
  | some client =>
      have hnot : memberId ∉ client.peers := by
        intro hmem
        have hknown := AList.lookup_isSome.mpr (h.sound.known client hclient memberId hmem)
        rw [hmember] at hknown
        cases hknown
      rw [Option.map_some, VoiceClient.setRemoteVolume, if_neg hnot, setClient_self hclient]
      exact h

theorem effectiveVolumeFor_reset (s : SessionState) (participantId : ParticipantId) :
    effectiveVolumeFor
        { s with
          savedPeerVolumes := s.savedPeerVolumes.keys.foldl
            (fun saved participantId => saved.insert participantId 1) s.savedPeerVolumes }
        participantId =
      if policyMutedFor s participantId = true then 0 else 1 := by
  have hmanual : manualVolumeFor
        { s with
          savedPeerVolumes := s.savedPeerVolumes.keys.foldl
            (fun saved participantId => saved.insert participantId 1) s.savedPeerVolumes }
        participantId = 1 := by
    unfold manualVolumeFor
    rw [lookup_overwrite]
    by_cases hmem : participantId ∈ s.savedPeerVolumes
    · rw [if_pos hmem, Option.getD_some]
    · rw [if_neg hmem, Option.getD_none]
  unfold effectiveVolumeFor
  rw [hmanual]
  rfl

theorem Sound.reset {s : SessionState} (h : Sound s) :
    Sound
      { s with
        savedPeerVolumes := s.savedPeerVolumes.keys.foldl
          (fun saved participantId => saved.insert participantId 1) s.savedPeerVolumes } := by
  refine ⟨?_, h.known, h.linked, h.loaded⟩
  intro participantId volume hlookup
  rw [lookup_overwrite] at hlookup
  split at hlookup
  · cases hlookup
    exact ⟨zero_le_one, by norm_num⟩
  · cases hlookup

theorem setRemoteVolumeOfAll_lookup
    (client : VoiceClient) (volume : Volume) (memberId : MemberId) :
    (client.setRemoteVolumeOfAll volume).peers.lookup memberId =
      if memberId ∈ client.peers then some (clampVolume volume) else none :=
  lookup_overwrite client.peers (clampVolume volume) memberId

/-- Full volume for all peers is what the policy gives when it mutes none of them. -/
theorem Valid.reset_pushed {s : SessionState} (h : Valid s) :
    let reset : SessionState :=
      { s with
        savedPeerVolumes := s.savedPeerVolumes.keys.foldl
          (fun saved participantId => saved.insert participantId 1) s.savedPeerVolumes
        client := s.client.map fun client => client.setRemoteVolumeOfAll 1 }
    Sound reset ∧
      (FollowsPolicy reset ↔
        ∀ client, s.client = some client → ∀ memberId ∈ client.peers,
          ∀ participantId, s.developmentPeers.lookup memberId = some participantId →
            policyMutedFor s participantId = false) := by
  have hone : clampVolume 1 = 1 := clampVolume_of_bounds ⟨zero_le_one, by norm_num⟩
  have hmem : ∀ (client : VoiceClient) memberId,
      memberId ∈ (client.setRemoteVolumeOfAll 1).peers → memberId ∈ client.peers := by
    intro client memberId hmem
    rw [← AList.lookup_isSome, setRemoteVolumeOfAll_lookup] at hmem
    by_contra hnot
    rw [if_neg hnot] at hmem
    cases hmem
  refine ⟨h.sound.reset.setClient hmem, ?_⟩
  constructor
  · intro hfollows client hclient memberId hpeer participantId hmember
    have hvolume := hfollows (client.setRemoteVolumeOfAll 1) (by simp [hclient]) memberId 1
      (by rw [setRemoteVolumeOfAll_lookup, if_pos hpeer, hone])
    obtain ⟨other, hother, heffective⟩ := Option.map_eq_some_iff.mp hvolume
    obtain rfl := Option.some.inj (hmember.symm.trans hother)
    have hreset := (effectiveVolumeFor_reset s participantId).symm.trans heffective
    by_contra hmuted
    rw [Bool.not_eq_false] at hmuted
    rw [if_pos hmuted] at hreset
    exact zero_ne_one hreset
  · intro hunmuted client hclient memberId volume hlookup
    obtain ⟨before, hbefore, rfl⟩ := Option.map_eq_some_iff.mp hclient
    rw [setRemoteVolumeOfAll_lookup, hone] at hlookup
    split at hlookup
    · rename_i hpeer
      obtain ⟨participantId, hmember⟩ := Option.isSome_iff_exists.mp
        (AList.lookup_isSome.mpr (h.sound.known before hbefore memberId hpeer))
      have hreset := effectiveVolumeFor_reset s participantId
      rw [if_neg (by simp [hunmuted before hbefore memberId hpeer participantId hmember])]
        at hreset
      refine Option.map_eq_some_iff.mpr ⟨participantId, hmember, ?_⟩
      exact hreset.trans (Option.some.inj hlookup)
    · cases hlookup

theorem Valid.reset_cut_short {s : SessionState} (h : Valid s) :
    FollowsPolicy
        { s with
          savedPeerVolumes := s.savedPeerVolumes.keys.foldl
            (fun saved participantId => saved.insert participantId 1) s.savedPeerVolumes } ↔
      ∀ client, s.client = some client → ∀ memberId ∈ client.peers,
        ∀ participantId, s.developmentPeers.lookup memberId = some participantId →
          policyMutedFor s participantId = true ∨ manualVolumeFor s participantId = 1 := by
  refine forall_congr' fun client => forall_congr' fun hclient =>
    forall_congr' fun memberId => ?_
  constructor
  · intro hall hmem participantId hmember
    obtain ⟨before, hbefore⟩ := Option.isSome_iff_exists.mp (AList.lookup_isSome.mpr hmem)
    obtain ⟨other, hother, hold⟩ :=
      Option.map_eq_some_iff.mp (h.follows client hclient memberId before hbefore)
    obtain rfl := Option.some.inj (hmember.symm.trans hother)
    obtain ⟨other, hother, hnew⟩ := Option.map_eq_some_iff.mp (hall before hbefore)
    obtain rfl := Option.some.inj (hmember.symm.trans hother)
    have hreset := (effectiveVolumeFor_reset s participantId).symm.trans hnew
    unfold effectiveVolumeFor at hold
    by_cases hmuted : policyMutedFor s participantId = true
    · exact .inl hmuted
    · rw [if_neg hmuted] at hold hreset
      exact .inr (hold.trans hreset.symm)
  · intro hall before hbefore
    have hmem := AList.lookup_isSome.mp (Option.isSome_of_eq_some hbefore)
    obtain ⟨participantId, hmember, hold⟩ :=
      Option.map_eq_some_iff.mp (h.follows client hclient memberId before hbefore)
    refine Option.map_eq_some_iff.mpr ⟨participantId, hmember, ?_⟩
    refine (effectiveVolumeFor_reset s participantId).trans ?_
    unfold effectiveVolumeFor at hold
    rcases hall hmem participantId hmember with hmuted | hmanual
    · rw [if_pos hmuted] at hold ⊢
      exact hold
    · rw [hmanual] at hold
      exact hold

/-! ## Every sequence of calls -/

/-- What a call finds is not changed by the load that it begins with. -/
theorem harmless_loadSettings
    {s : SessionState} (h : s = initialState ∨ Valid s) (settings : Settings) (call : Call) :
    Harmless (loadSettings settings s) call ↔ Harmless s call := by
  rcases h with rfl | h
  · have hnone : (loadSettings settings initialState).client = none := by
      unfold loadSettings
      split
      · rfl
      · split
        · rfl
        · rfl
    have hvacuous : ∀ s : SessionState, s.client = none → Harmless s call := by
      intro s hclient
      unfold Harmless
      split
      · intro client hsome
        rw [hclient] at hsome
        cases hsome
      · intro client hsome
        rw [hclient] at hsome
        cases hsome
      · trivial
    exact ⟨fun _ => hvacuous _ rfl, fun _ => hvacuous _ hnone⟩
  · rw [loadSettings, if_pos h.sound.loaded]

/-- After a call the session is sound, and follows the policy if and only if the call was
harmless. -/
theorem call_followsPolicy_iff
    {s : SessionState} (h : s = initialState ∨ Valid s) (call : Call) :
    Sound (s.call call) ∧ (FollowsPolicy (s.call call) ↔ Harmless s call) := by
  have hkept : Valid (s.call call) → Harmless s call →
      Sound (s.call call) ∧ (FollowsPolicy (s.call call) ↔ Harmless s call) :=
    fun hvalid hharmless =>
      ⟨hvalid.sound, fun _ => hharmless, fun _ => hvalid.follows⟩
  cases call with
  | service input => exact hkept (valid_service h input) trivial
  | setRuntimeBlocked settings blocked sameReason =>
      exact hkept (valid_setRuntimeBlocked h settings blocked sameReason) trivial
  | setEnabled settings enabled => exact hkept (valid_setEnabled h settings enabled) trivial
  | setMutePolicy settings e o b t bt n =>
      exact hkept (valid_setMutePolicy h settings e o b t bt n) trivial
  | loadOnly settings => exact hkept (valid_loadSettings h settings) trivial
  | setPeerVolume settings memberId volume =>
      rw [← harmless_loadSettings h settings]
      have hloaded := valid_loadSettings h settings
      simp only [SessionState.call, setEmbeddedVoicePeerVolume]
      split
      · rename_i participantId hmember
        refine ⟨(hloaded.setPeerVolume_known hmember volume).1, ?_⟩
        rw [(hloaded.setPeerVolume_known hmember volume).2]
        simp only [Harmless, hmember, Option.some.injEq, forall_eq']
      · rename_i hmember
        have hvalid := hloaded.setPeerVolume_unknown hmember (clampVolume volume)
        refine ⟨hvalid.sound, fun _ => ?_, fun _ => hvalid.follows⟩
        simp only [Harmless, hmember]
        exact fun _ _ _ _ _ _ hnone => nomatch hnone
  | resetAudioSettings settings deviceThrows =>
      rw [← harmless_loadSettings h settings]
      have hloaded := valid_loadSettings h settings
      simp only [SessionState.call, resetEmbeddedVoiceAudioSettings]
      cases deviceThrows with
      | false => exact hloaded.reset_pushed
      | true => exact ⟨hloaded.sound.reset, hloaded.reset_cut_short⟩

def Throughout (holds : SessionState → Prop) : SessionState → List Call → Prop
  | s, [] => holds s
  | s, call :: calls => holds s ∧ Throughout holds (s.call call) calls

def HarmlessThroughout : SessionState → List Call → Prop
  | _, [] => True
  | s, call :: calls => Harmless s call ∧ HarmlessThroughout (s.call call) calls

/-- No peer that the policy mutes is audible. -/
def MutedSilent (s : SessionState) : Prop :=
  ∀ client, s.client = some client → ∀ memberId volume participantId,
    client.peers.lookup memberId = some volume →
      s.developmentPeers.lookup memberId = some participantId →
        policyMutedFor s participantId = true → volume = 0

theorem FollowsPolicy.mutedSilent {s : SessionState} (h : FollowsPolicy s) : MutedSilent s := by
  intro client hclient memberId volume participantId hlookup hmember hmuted
  have hvolume := h client hclient memberId volume hlookup
  rw [volumeOf, hmember, Option.map_some, Option.some.injEq, effectiveVolumeFor,
    if_pos hmuted] at hvolume
  exact hvolume.symm

theorem Throughout.mono
    {weak strong : SessionState → Prop} (hle : ∀ s, strong s → weak s)
    {s : SessionState} {calls : List Call} (h : Throughout strong s calls) :
    Throughout weak s calls := by
  induction calls generalizing s with
  | nil => exact hle s h
  | cons call calls ih => exact ⟨hle s h.1, ih h.2⟩

theorem throughout_followsPolicy_iff
    {s : SessionState} (h : s = initialState ∨ Valid s) (calls : List Call) :
    Throughout FollowsPolicy s calls ↔ HarmlessThroughout s calls := by
  have hnow : FollowsPolicy s := by
    rcases h with rfl | h
    · exact fun client hclient => nomatch hclient
    · exact h.follows
  induction calls generalizing s with
  | nil => exact ⟨fun _ => trivial, fun _ => hnow⟩
  | cons call calls ih =>
      obtain ⟨hsound, hiff⟩ := call_followsPolicy_iff h call
      constructor
      · intro hall
        have hnext : FollowsPolicy (s.call call) := by
          cases calls with
          | nil => exact hall.2
          | cons next calls => exact hall.2.1
        exact ⟨hiff.mp hnext, (ih (.inr ⟨hsound, hnext⟩) hnext).mp hall.2⟩
      · intro hall
        have hnext := hiff.mpr hall.1
        exact ⟨hnow, (ih (.inr ⟨hsound, hnext⟩) hnext).mpr hall.2⟩

/-- In a session the remote volumes follow the policy after each call if and only if
every call is harmless, and then no muted peer is audible. -/
theorem remote_volumes_follow_policy (calls : List Call) :
    (Throughout FollowsPolicy initialState calls ↔ HarmlessThroughout initialState calls) ∧
      (HarmlessThroughout initialState calls → Throughout MutedSilent initialState calls) := by
  have hiff := throughout_followsPolicy_iff (.inl rfl) calls
  exact ⟨hiff, fun hharmless => (hiff.mpr hharmless).mono fun _ hfollows => hfollows.mutedSilent⟩

/-- A member joins the room and is connected, everyone is muted, and the audio settings
are reset. -/
def resetCalls : List Call :=
  let settings : Settings := ⟨true, false, false, false, false, false, false, [], true⟩
  let memberId : MemberId := List.replicate 32 97
  let input : ServiceInput :=
    { settings := settings
      friendProfileIds := []
      teamModeActive := false
      teamProfileIds := []
      teammateProfileIds := []
      localRoomActive := true
      profileId := [49]
      identityGeneration := 1
      microphoneTestRunning := false
      reconnectDue := true
      signalingConnects := true
      serviceThrows := false
      events :=
        [.admitted (some (List.replicate 32 98, [114])),
          .peerInfo (memberId ++ [10, 50, 10, 114, 10, 78, 10, 109]),
          .signal memberId true true false false]
      poll := fun _ => .connected true }
  [.service input, .setMutePolicy settings true false false false false false,
    .resetAudioSettings settings false]

/-- The reset makes a muted peer audible. -/
theorem reset_unmutes_muted_peer : ¬ Throughout FollowsPolicy initialState resetCalls := by
  intro h
  have hlast : FollowsPolicy (resetCalls.foldl SessionState.call initialState) := h.2.2.2
  have hvolume : ((resetCalls.foldl SessionState.call initialState).client.map fun client =>
      client.peers.lookup (List.replicate 32 97)) = some (some 1) := by
    decide +kernel
  have hpolicy : volumeOf (resetCalls.foldl SessionState.call initialState)
      (List.replicate 32 97) = some 0 := by
    decide +kernel
  obtain ⟨client, hclient, hlookup⟩ := Option.map_eq_some_iff.mp hvolume
  have hfollows := hlast client hclient _ 1 hlookup
  rw [hpolicy] at hfollows
  exact absurd (Option.some.inj hfollows) (by norm_num)

end Wiicompiled.Voice.EmbeddedCore
