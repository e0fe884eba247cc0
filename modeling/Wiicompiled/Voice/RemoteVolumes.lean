import Mathlib.Tactic.NormNum
import Wiicompiled.Support.DerivedView
import Wiicompiled.Voice.EmbeddedCore

/-!
# Remote volumes and the policy

The volumes of the client are a view of the session: each is the effective volume of the
participant behind the member.  The pushes of the session are refreshes of this view.
Every entry point refreshes what it changes, but for two: the reset of the audio settings
sets all volumes to full, and the volume of a participant is applied to one member only.
-/

namespace Wiicompiled.Voice.EmbeddedCore

open DerivedView

/-! ## What has to hold -/

def volumeOf (s : SessionState) (memberId : MemberId) : Option Volume :=
  (s.developmentPeers.lookup memberId).map (effectiveVolumeFor s)

/-- Every connected peer is at the effective volume of its participant. -/
def FollowsPolicy (s : SessionState) : Prop :=
  ∀ client, s.client = some client → Synced (volumeOf s) client.peers

/-- Saved volumes are within their bounds, and connected peers and links belong to
introduced members of a session whose settings are loaded. -/
structure Sound (s : SessionState) : Prop where
  saved : ∀ participantId volume, s.savedPeerVolumes.lookup participantId = some volume →
    0 ≤ volume ∧ volume ≤ 3
  known : ∀ client, s.client = some client →
    ∀ memberId ∈ client.peers, memberId ∈ s.developmentPeers
  linked : ∀ memberId ∈ s.peerLinks, memberId ∈ s.developmentPeers
  loaded : s.settingsLoaded = true

structure Valid (s : SessionState) : Prop where
  sound : Sound s
  follows : FollowsPolicy s

theorem clampVolume_bounds (volume : Volume) :
    0 ≤ clampVolume volume ∧ clampVolume volume ≤ 3 := by
  unfold clampVolume
  split
  · exact ⟨le_refl 0, by norm_num⟩
  · split
    · exact ⟨by norm_num, le_refl 3⟩
    · rename_i hlow hhigh
      exact ⟨not_lt.mp hlow, not_lt.mp hhigh⟩

theorem clampVolume_of_bounds {volume : Volume} (h : 0 ≤ volume ∧ volume ≤ 3) :
    clampVolume volume = volume := by
  rw [clampVolume, if_neg (not_lt.mpr h.1), if_neg (not_lt.mpr h.2)]

/-- Effective volumes are within the bounds, so the client keeps them as they are. -/
theorem Sound.effectiveVolumeFor_bounds
    {s : SessionState} (h : Sound s) (participantId : ParticipantId) :
    0 ≤ effectiveVolumeFor s participantId ∧ effectiveVolumeFor s participantId ≤ 3 := by
  unfold effectiveVolumeFor
  split
  · exact ⟨le_refl 0, by norm_num⟩
  · unfold manualVolumeFor
    cases hlookup : s.savedPeerVolumes.lookup participantId with
    | none => exact ⟨by norm_num, by norm_num⟩
    | some volume => exact h.saved participantId volume hlookup

theorem volumeOf_isSome {s : SessionState} {memberId : MemberId}
    (h : memberId ∈ s.developmentPeers) : (volumeOf s memberId).isSome := by
  rw [volumeOf, Option.isSome_map]
  exact AList.lookup_isSome.mpr h

/-! ## Pushes are refreshes -/

theorem setClient_self {s : SessionState} {client : Option VoiceClient}
    (h : s.client = client) : { s with client := client } = s := by
  subst h
  rfl

theorem applyRemoteVolumeForMember_eq
    {s : SessionState} (h : Sound s) (memberId : MemberId) :
    applyRemoteVolumeForMember s memberId =
      { s with
        client := s.client.map fun client =>
          ⟨refresh (volumeOf s) client.peers memberId⟩ } := by
  unfold applyRemoteVolumeForMember
  cases hclient : s.client with
  | none => exact (setClient_self hclient).symm
  | some client =>
      have hkeep := setClient_self hclient
      by_cases hmem : memberId ∈ client.peers
      · have hpeer : client.hasPeer memberId = true := by
          simpa [VoiceClient.hasPeer] using hmem
        cases hlookup : s.developmentPeers.lookup memberId with
        | none =>
            simp [hpeer, refresh, volumeOf, hlookup, hkeep]
        | some participantId =>
            have hclamp := clampVolume_of_bounds (h.effectiveVolumeFor_bounds participantId)
            simp [hpeer, refresh, volumeOf, hlookup, hmem, VoiceClient.setRemoteVolume,
              hclamp]
      · have hpeer : client.hasPeer memberId = false := by
          simpa [VoiceClient.hasPeer] using hmem
        have hsame : refresh (volumeOf s) client.peers memberId = client.peers := by
          unfold refresh
          split
          · rw [if_neg hmem]
          · rfl
        simp [hpeer, hsame, hkeep]

/-- A state with another client is as sound, if the client's peers are known. -/
theorem Sound.setClient
    {s : SessionState} (h : Sound s) {client : VoiceClient → VoiceClient}
    (hpeers : ∀ c memberId, memberId ∈ (client c).peers → memberId ∈ c.peers) :
    Sound { s with client := s.client.map client } where
  saved := h.saved
  known := by
    intro c hc memberId hmem
    obtain ⟨c', hc', rfl⟩ := Option.map_eq_some_iff.mp hc
    exact h.known c' hc' memberId (hpeers c' memberId hmem)
  linked := h.linked
  loaded := h.loaded

theorem Sound.applyRemoteVolumeForMember
    {s : SessionState} (h : Sound s) (memberId : MemberId) :
    Sound (EmbeddedCore.applyRemoteVolumeForMember s memberId) := by
  rw [applyRemoteVolumeForMember_eq h]
  exact h.setClient fun _ _ hmem => mem_refresh.mp hmem

/-- After the push of one member the client follows the policy exactly when the volumes
of all others are what the policy gives. -/
theorem followsPolicy_push_iff
    {s : SessionState} (h : Sound s) (memberId : MemberId) :
    FollowsPolicy (EmbeddedCore.applyRemoteVolumeForMember s memberId) ↔
      ∀ client, s.client = some client → ∀ other volume, other ≠ memberId →
        client.peers.lookup other = some volume → volumeOf s other = some volume := by
  rw [applyRemoteVolumeForMember_eq h]
  constructor
  · intro hfollows client hclient other volume hne hlookup
    refine hfollows ⟨refresh (volumeOf s) client.peers memberId⟩ ?_ other volume ?_
    · simp [hclient]
    · rw [lookup_refresh_ne hne]
      exact hlookup
  · intro hothers client hclient
    obtain ⟨c, hc, rfl⟩ := Option.map_eq_some_iff.mp hclient
    exact synced_refresh (hothers c hc) fun hmem => volumeOf_isSome (h.known c hc memberId hmem)

theorem Sound.valid_push
    {s : SessionState} (h : Sound s) {memberId : MemberId}
    (hothers : ∀ client, s.client = some client → ∀ other volume, other ≠ memberId →
      client.peers.lookup other = some volume → volumeOf s other = some volume) :
    Valid (EmbeddedCore.applyRemoteVolumeForMember s memberId) :=
  ⟨h.applyRemoteVolumeForMember memberId, (followsPolicy_push_iff h memberId).mpr hothers⟩

theorem foldl_applyRemoteVolumeForMember
    {s : SessionState} (h : Sound s) (memberIds : List MemberId) :
    memberIds.foldl EmbeddedCore.applyRemoteVolumeForMember s =
      { s with
        client := s.client.map fun client =>
          ⟨memberIds.foldl (refresh (volumeOf s)) client.peers⟩ } := by
  induction memberIds generalizing s with
  | nil =>
      have hsame : (s.client.map fun client => (⟨client.peers⟩ : VoiceClient)) = s.client :=
        Option.map_id'
      simp only [List.foldl_nil, hsame]
  | cons memberId memberIds ih =>
      rw [List.foldl_cons, ih (h.applyRemoteVolumeForMember memberId),
        applyRemoteVolumeForMember_eq h, Option.map_map]
      rfl

theorem applyAllRemoteVolumes_eq {s : SessionState} (h : Sound s) :
    applyAllRemoteVolumes s =
      { s with
        client := s.client.map fun client =>
          ⟨s.developmentPeers.keys.foldl (refresh (volumeOf s)) client.peers⟩ } := by
  unfold applyAllRemoteVolumes
  cases hclient : s.client with
  | none => exact (setClient_self hclient).symm
  | some client => rw [foldl_applyRemoteVolumeForMember h, hclient]

theorem mem_foldl_refresh
    {derive : MemberId → Option Volume} {memberIds : List MemberId}
    {view : AList fun _ : MemberId => Volume} {memberId : MemberId} :
    memberId ∈ memberIds.foldl (refresh derive) view ↔ memberId ∈ view := by
  induction memberIds generalizing view with
  | nil => rfl
  | cons first memberIds ih => rw [List.foldl_cons, ih, mem_refresh]

/-- After a push of all volumes the client follows the policy, whatever it held. -/
theorem Sound.applyAllRemoteVolumes {s : SessionState} (h : Sound s) :
    Valid (EmbeddedCore.applyAllRemoteVolumes s) := by
  rw [applyAllRemoteVolumes_eq h]
  refine ⟨h.setClient fun _ _ hmem => mem_foldl_refresh.mp hmem, ?_⟩
  intro client hclient
  obtain ⟨c, hc, rfl⟩ := Option.map_eq_some_iff.mp hclient
  exact synced_refreshAll (fun memberId hmem => AList.mem_keys.mp (h.known c hc memberId hmem))
    fun memberId hmem => volumeOf_isSome (h.known c hc memberId hmem)

end Wiicompiled.Voice.EmbeddedCore
