import Mathlib.Data.Finset.Basic
import Mathlib.Data.List.AList
import Mathlib.Algebra.Order.Ring.Rat

/-!
# The embedded voice session

The session knows the peers that signaling introduced, the settings and policies that
decide how loud a participant is, and a voice client that holds a volume for each peer
it is connected to.  The volumes of the client are written by the entry points that
change what they depend on.

A volume is a finite number.  Text is kept as its bytes.
-/

namespace Wiicompiled.Voice.EmbeddedCore

abbrev Text := List UInt8

abbrev MemberId := Text

abbrev ParticipantId := Text

abbrev Volume := ℚ

def maxRemotePeers : ℕ := 11

/-- A volume within its bounds. -/
def clampVolume (volume : Volume) : Volume :=
  if volume < 0 then 0 else if 3 < volume then 3 else volume

/-! ## The voice client -/

/-- The peers that are connected, with their volumes. -/
structure VoiceClient where
  peers : AList fun _ : MemberId => Volume

namespace VoiceClient

def hasPeer (client : VoiceClient) (memberId : MemberId) : Bool :=
  memberId ∈ client.peers

def setRemoteVolumeOfAll (client : VoiceClient) (volume : Volume) : VoiceClient :=
  ⟨client.peers.keys.foldl (fun peers memberId => peers.insert memberId (clampVolume volume))
    client.peers⟩

def setRemoteVolume (client : VoiceClient) (memberId : MemberId) (volume : Volume) :
    VoiceClient :=
  if memberId ∈ client.peers then ⟨client.peers.insert memberId (clampVolume volume)⟩
  else client

def removePeer (client : VoiceClient) (memberId : MemberId) : VoiceClient :=
  ⟨client.peers.erase memberId⟩

/-- A new peer is at full volume.  There is no result when it is there already, when the
session is full, or when its receiver does not start. -/
def addPeer (client : VoiceClient) (memberId : MemberId) (starts : Bool) :
    Option VoiceClient :=
  if memberId = [] ∨ memberId ∈ client.peers ∨
      maxRemotePeers ≤ client.peers.entries.length ∨ starts = false then none
  else some ⟨client.peers.insert memberId 1⟩

end VoiceClient

/-! ## The session -/

/-- `peerLinks` says of each link whether its transport is still being set up. -/
structure SessionState where
  client : Option VoiceClient
  enabled : Bool
  runtimeBlocked : Bool
  muteEveryone : Bool
  muteOnlyFriends : Bool
  muteEveryoneButFriends : Bool
  muteTeammates : Bool
  muteEveryoneButTeammates : Bool
  muteNewPlayers : Bool
  teamModeActive : Bool
  signaling : Bool
  lifecycleActive : Bool
  developmentAdmitted : Bool
  localMemberId : MemberId
  profileId : Text
  roomInstanceId : Text
  identityGeneration : ℕ
  developmentPeers : AList fun _ : MemberId => ParticipantId
  savedPeerVolumes : AList fun _ : ParticipantId => Volume
  peerLinks : AList fun _ : MemberId => Bool
  friendProfileIds : Finset Text
  teamProfileIds : Finset Text
  teammateProfileIds : Finset Text
  autoMutedNewParticipants : Finset ParticipantId
  settingsLoaded : Bool

/-- A session before its first call. -/
def initialState : SessionState where
  client := none
  enabled := false
  runtimeBlocked := false
  muteEveryone := false
  muteOnlyFriends := false
  muteEveryoneButFriends := false
  muteTeammates := false
  muteEveryoneButTeammates := false
  muteNewPlayers := false
  teamModeActive := false
  signaling := false
  lifecycleActive := false
  developmentAdmitted := false
  localMemberId := []
  profileId := []
  roomInstanceId := []
  identityGeneration := 0
  developmentPeers := ∅
  savedPeerVolumes := ∅
  peerLinks := ∅
  friendProfileIds := ∅
  teamProfileIds := ∅
  teammateProfileIds := ∅
  autoMutedNewParticipants := ∅
  settingsLoaded := false

/-! ## The policy -/

def isFriendProfile (s : SessionState) (participantId : ParticipantId) : Bool :=
  participantId ≠ [] ∧ participantId ∈ s.friendProfileIds

def isKnownTeamProfile (s : SessionState) (participantId : ParticipantId) : Bool :=
  s.teamModeActive ∧ participantId ≠ [] ∧ participantId ∈ s.teamProfileIds

def isTeammateProfile (s : SessionState) (participantId : ParticipantId) : Bool :=
  isKnownTeamProfile s participantId ∧ participantId ∈ s.teammateProfileIds

def manualVolumeFor (s : SessionState) (participantId : ParticipantId) : Volume :=
  (s.savedPeerVolumes.lookup participantId).getD 1

def policyMutedFor (s : SessionState) (participantId : ParticipantId) : Bool :=
  let isFriend := isFriendProfile s participantId
  let teamKnown := isKnownTeamProfile s participantId
  let isTeammate := teamKnown && isTeammateProfile s participantId
  s.muteEveryone || (s.muteOnlyFriends && isFriend) ||
    (s.muteEveryoneButFriends && !isFriend) || (s.muteTeammates && isTeammate) ||
    (s.muteEveryoneButTeammates && teamKnown && !isTeammate) ||
    decide (participantId ∈ s.autoMutedNewParticipants)

def effectiveVolumeFor (s : SessionState) (participantId : ParticipantId) : Volume :=
  if policyMutedFor s participantId then 0 else manualVolumeFor s participantId

def applyRemoteVolumeForMember (s : SessionState) (memberId : MemberId) : SessionState :=
  match s.client with
  | none => s
  | some client =>
      if !client.hasPeer memberId then s
      else
        match s.developmentPeers.lookup memberId with
        | none => s
        | some participantId =>
            { s with
              client := some
                (client.setRemoteVolume memberId (effectiveVolumeFor s participantId)) }

def applyAllRemoteVolumes (s : SessionState) : SessionState :=
  match s.client with
  | none => s
  | some _ => s.developmentPeers.keys.foldl applyRemoteVolumeForMember s

/-! ## Peers come and go -/

def stopVoiceClient (s : SessionState) : SessionState :=
  { s with client := none }

def clearPeerRuntime (s : SessionState) : SessionState :=
  { stopVoiceClient s with
    peerLinks := ∅, developmentPeers := ∅, autoMutedNewParticipants := ∅ }

def clearVoiceNetworkSession (s : SessionState) : SessionState :=
  { clearPeerRuntime s with
    signaling := false
    profileId := []
    roomInstanceId := []
    identityGeneration := 0
    lifecycleActive := false
    developmentAdmitted := false
    localMemberId := [] }

def clearVoiceSession (s : SessionState) : SessionState :=
  clearVoiceNetworkSession s

/-- The client lets go of a peer, and stops after its last one. -/
def disconnectPeer (s : SessionState) (memberId : MemberId) : SessionState :=
  match s.client with
  | none => s
  | some client =>
      let client := client.removePeer memberId
      { s with client := if client.peers.entries = [] then none else some client }

def resetPeerTransport (s : SessionState) (memberId : MemberId) : SessionState :=
  if memberId = [] then s
  else { disconnectPeer s memberId with peerLinks := s.peerLinks.erase memberId }

def removePeer (s : SessionState) (memberId : MemberId) : SessionState :=
  if memberId = [] then s
  else
    { disconnectPeer s memberId with
      peerLinks := s.peerLinks.erase memberId
      developmentPeers := s.developmentPeers.erase memberId }

/-! ## Events of the signaling -/

/-- An event as the session reads it.  The payload of an admission is given as it was
parsed; `fails` says that the host threw on the way. -/
inductive SignalingEvent where
  | opened
  | iceServers
  | admitted (parsed : Option (MemberId × Text))
  | admissionFailed
  | peerInfo (payload : Text)
  | peerReady (memberId : MemberId) (fails : Bool)
  | signal (memberId : MemberId) (isOffer decodes setupFails fails : Bool)
  | peerLeft (memberId : MemberId)
  | authorization
  | closed
  | error
deriving DecidableEq, Repr

/-- The member and the participant of an introduction into the expected room. -/
def parseDevelopmentPeer (payload expectedRoomInstanceId : Text) :
    Option (MemberId × ParticipantId) :=
  match payload.splitOn 10 with
  | memberId :: participantId :: room :: _ :: _ :: _ =>
      if memberId.length = 32 ∧ participantId ≠ [] ∧ room = expectedRoomInstanceId then
        some (memberId, participantId)
      else none
  | _ => none

def dismissAdmission (s : SessionState) : SessionState :=
  { clearPeerRuntime s with developmentAdmitted := false, localMemberId := [] }

/-- A peer is introduced.  With new players muted, a participant that was not there is
muted by its own. -/
def introducePeer (localProfileId payload : Text) (s : SessionState) : SessionState :=
  if s.developmentAdmitted = false ∨ s.roomInstanceId = [] then s
  else
    match parseDevelopmentPeer payload s.roomInstanceId with
    | none => s
    | some (memberId, participantId) =>
        if participantId = localProfileId then s
        else
          let alreadyPresent := decide
            (∃ entry ∈ s.developmentPeers.entries, entry.2 = participantId)
          let s :=
            if s.muteNewPlayers && !alreadyPresent then
              { s with
                autoMutedNewParticipants :=
                  insert participantId s.autoMutedNewParticipants }
            else s
          applyRemoteVolumeForMember
            { s with developmentPeers := s.developmentPeers.insert memberId participantId }
            memberId

/-- The transport to an introduced peer is set up from the start. -/
def readyPeer (memberId : MemberId) (fails : Bool) (s : SessionState) :
    Bool × SessionState :=
  if s.developmentAdmitted = false ∨ memberId = [] ∨ memberId ∉ s.developmentPeers ∨
      s.localMemberId = [] then (false, s)
  else
    let connected := s.client.any fun client => client.hasPeer memberId
    let s :=
      if memberId ∈ s.peerLinks ∨ connected = true then resetPeerTransport s memberId
      else s
    if memberId ∈ s.peerLinks then (false, s)
    else if fails then (true, s)
    else (false, { s with peerLinks := s.peerLinks.insert memberId true })

/-- A description of the other side; an offer may begin a link. -/
def applyRemoteSignal (memberId : MemberId) (isOffer decodes setupFails fails : Bool)
    (s : SessionState) : Bool × SessionState :=
  if s.developmentAdmitted = false ∨ memberId = [] ∨ memberId ∉ s.developmentPeers then
    (false, s)
  else if decodes = false then (true, s)
  else if memberId ∉ s.peerLinks then
    if !isOffer then (true, s)
    else if setupFails then
      (true, { s with peerLinks := s.peerLinks.insert memberId false })
    else (fails, { s with peerLinks := s.peerLinks.insert memberId true })
  else if s.peerLinks.lookup memberId = some false then (false, s)
  else (fails, s)

/-- One event; the flag says that it threw, which ends the service. -/
def processEvent (localProfileId : Text) (s : SessionState) :
    SignalingEvent → Bool × SessionState
  | .opened | .admissionFailed | .closed | .error | .admitted none =>
      (false, dismissAdmission s)
  | .iceServers | .authorization => (false, s)
  | .admitted (some (memberId, room)) =>
      (false,
        { s with
          roomInstanceId := room, developmentAdmitted := true, localMemberId := memberId })
  | .peerInfo payload => (false, introducePeer localProfileId payload s)
  | .peerReady memberId fails => readyPeer memberId fails s
  | .signal memberId isOffer decodes setupFails fails =>
      applyRemoteSignal memberId isOffer decodes setupFails fails s
  | .peerLeft memberId => (false, removePeer s memberId)

/-- The events of one service, up to one that throws. -/
def processEvents (localProfileId : Text) : List SignalingEvent → SessionState →
    Bool × SessionState
  | [], s => (false, s)
  | event :: events, s =>
      match processEvent localProfileId s event with
      | (true, s) => (true, s)
      | (false, s) => processEvents localProfileId events s

/-! ## Links become connections -/

/-- What a poll finds of a link: the connection is not there yet, something threw, or it
is there and the client or its receiver starts or does not. -/
inductive LinkPoll where
  | pending
  | failed
  | connected (starts : Bool)
deriving DecidableEq, Repr

/-- A link whose transport connected becomes a peer of the client; the flag says that
the link failed. -/
def connectLink (memberId : MemberId) (starts : Bool) (s : SessionState) :
    Bool × SessionState :=
  let released := { s with peerLinks := s.peerLinks.insert memberId false }
  match s.client with
  | none =>
      if memberId = [] ∨ starts = false then (true, released)
      else
        (false, applyRemoteVolumeForMember
          { released with
            client := some ⟨AList.singleton memberId 1⟩ } memberId)
  | some client =>
      if client.hasPeer memberId then (false, s)
      else
        match client.addPeer memberId starts with
        | none => (true, released)
        | some client =>
            (false, applyRemoteVolumeForMember
              { released with client := some client } memberId)

def pollLink (poll : MemberId → LinkPoll) (s : SessionState) (memberId : MemberId) :
    Bool × SessionState :=
  if s.peerLinks.lookup memberId ≠ some true then (false, s)
  else
    match poll memberId with
    | .pending => (false, s)
    | .failed => (true, s)
    | .connected starts => connectLink memberId starts s

/-- Poll the links in turn, then remove those that failed. -/
def pollLinks (poll : MemberId → LinkPoll) : List MemberId → SessionState →
    List MemberId × SessionState
  | [], s => ([], s)
  | memberId :: memberIds, s =>
      let (hasFailed, s) := pollLink poll s memberId
      let (failed, s) := pollLinks poll memberIds s
      (if hasFailed then memberId :: failed else failed, s)

def pollPeerLinks (poll : MemberId → LinkPoll) (s : SessionState) : SessionState :=
  if s.signaling = false ∨ s.developmentAdmitted = false then s
  else
    let (failed, s) := pollLinks poll s.peerLinks.keys s
    failed.foldl removePeer s

/-! ## Settings -/

/-- What the file of settings says; `complete` is false when reading it threw. -/
structure Settings where
  enabled : Bool
  muteEveryone : Bool
  muteOnlyFriends : Bool
  muteEveryoneButFriends : Bool
  muteTeammates : Bool
  muteEveryoneButTeammates : Bool
  muteNewPlayers : Bool
  peerVolumes : List (ParticipantId × Volume)
  complete : Bool

def loadPeerVolumes (peerVolumes : List (ParticipantId × Volume))
    (saved : AList fun _ : ParticipantId => Volume) : AList fun _ : ParticipantId => Volume :=
  peerVolumes.foldl (fun saved entry =>
    if entry.1 = [] then saved else saved.insert entry.1 (clampVolume entry.2)) saved

/-- The policies of a mute of everyone, or of contradicting ones, are dropped. -/
def setMuteFlags (muteEveryone muteOnlyFriends muteEveryoneButFriends muteTeammates
    muteEveryoneButTeammates muteNewPlayers : Bool) (s : SessionState) : SessionState :=
  { s with
    muteEveryone := muteEveryone
    muteOnlyFriends := !muteEveryone && muteOnlyFriends
    muteEveryoneButFriends := !muteEveryone && muteEveryoneButFriends && !muteOnlyFriends
    muteTeammates := !muteEveryone && muteTeammates
    muteEveryoneButTeammates :=
      !muteEveryone && muteEveryoneButTeammates && !muteTeammates
    muteNewPlayers := !muteEveryone && muteNewPlayers }

def loadSettings (settings : Settings) (s : SessionState) : SessionState :=
  if s.settingsLoaded then s
  else
    let s :=
      { s with
        settingsLoaded := true
        enabled := settings.enabled
        muteEveryone := settings.muteEveryone
        muteOnlyFriends := settings.muteOnlyFriends
        muteEveryoneButFriends := settings.muteEveryoneButFriends
        muteTeammates := settings.muteTeammates
        muteEveryoneButTeammates := settings.muteEveryoneButTeammates
        muteNewPlayers := settings.muteNewPlayers
        savedPeerVolumes := loadPeerVolumes settings.peerVolumes s.savedPeerVolumes }
    if settings.complete then
      setMuteFlags s.muteEveryone s.muteOnlyFriends s.muteEveryoneButFriends
        s.muteTeammates s.muteEveryoneButTeammates s.muteNewPlayers s
    else s

/-! ## Entry points -/

/-- What a service is called with, and what the host answers on the way. -/
structure ServiceInput where
  settings : Settings
  friendProfileIds : List Text
  teamModeActive : Bool
  teamProfileIds : List Text
  teammateProfileIds : List Text
  localRoomActive : Bool
  profileId : Text
  identityGeneration : ℕ
  microphoneTestRunning : Bool
  reconnectDue : Bool
  signalingConnects : Bool
  serviceThrows : Bool
  events : List SignalingEvent
  poll : MemberId → LinkPoll

/-- Take over the friends and teams, and apply the volumes when they changed. -/
def updatePolicyInputs (input : ServiceInput) (s : SessionState) : SessionState :=
  let friends := (input.friendProfileIds.filter (· ≠ [])).toFinset
  let teams :=
    if input.teamModeActive then (input.teamProfileIds.filter (· ≠ [])).toFinset else ∅
  let teammates :=
    if input.teamModeActive then
      (input.teammateProfileIds.filter fun id => id ≠ [] ∧ id ∈ teams).toFinset
    else ∅
  let changed := decide (friends ≠ s.friendProfileIds ∨
    s.teamModeActive ≠ input.teamModeActive ∨ s.teamProfileIds ≠ teams ∨
      s.teammateProfileIds ≠ teammates)
  let s :=
    { s with
      friendProfileIds := friends
      teamModeActive := input.teamModeActive
      teamProfileIds := teams
      teammateProfileIds := teammates }
  if changed then applyAllRemoteVolumes s else s

/-- The session of an inactive runtime is cleared once. -/
def clearIfActive (microphoneTestRunning : Bool) (s : SessionState) : SessionState :=
  if s.signaling || s.client.isSome || microphoneTestRunning || s.lifecycleActive then
    clearVoiceSession s
  else s

def enterRoom (input : ServiceInput) (s : SessionState) : SessionState :=
  let s :=
    if s.identityGeneration ≠ input.identityGeneration ∨ s.profileId ≠ input.profileId then
      { clearPeerRuntime s with
        signaling := false
        profileId := input.profileId
        roomInstanceId := []
        identityGeneration := input.identityGeneration
        developmentAdmitted := false
        localMemberId := [] }
    else s
  { s with lifecycleActive := true }

def connectSignaling (input : ServiceInput) (s : SessionState) : SessionState :=
  if !s.signaling && input.reconnectDue then
    { s with signaling := input.signalingConnects, developmentAdmitted := false }
  else s

def serviceEmbeddedVoiceSession (input : ServiceInput) (s : SessionState) : SessionState :=
  let s := updatePolicyInputs input (loadSettings input.settings s)
  if s.runtimeBlocked then clearIfActive input.microphoneTestRunning s
  else if !s.enabled then clearIfActive input.microphoneTestRunning s
  else if !input.localRoomActive || decide (input.profileId = []) then
    clearVoiceNetworkSession s
  else
    let s := connectSignaling input (enterRoom input s)
    if !s.signaling || input.serviceThrows then s
    else
      match processEvents input.profileId input.events s with
      | (true, s) => s
      | (false, s) =>
          if .closed ∈ input.events then { s with signaling := false }
          else pollPeerLinks input.poll s

def setEmbeddedVoiceRuntimeBlocked (settings : Settings) (blocked sameReason : Bool)
    (s : SessionState) : SessionState :=
  let s := loadSettings settings s
  if s.runtimeBlocked = blocked ∧ sameReason then s
  else
    let s := { s with runtimeBlocked := blocked }
    if blocked then clearVoiceSession s else s

def setEmbeddedVoiceEnabled (settings : Settings) (enabled : Bool) (s : SessionState) :
    SessionState :=
  let s := loadSettings settings s
  if s.enabled = enabled then s
  else
    let s := { s with enabled := enabled }
    if enabled then s else clearVoiceSession s

def setEmbeddedVoiceMutePolicy (settings : Settings) (muteEveryone muteOnlyFriends
    muteEveryoneButFriends muteTeammates muteEveryoneButTeammates muteNewPlayers : Bool)
    (s : SessionState) : SessionState :=
  let s := setMuteFlags muteEveryone muteOnlyFriends muteEveryoneButFriends muteTeammates
    muteEveryoneButTeammates muteNewPlayers (loadSettings settings s)
  let s :=
    if !s.muteNewPlayers || s.muteEveryone then
      { s with autoMutedNewParticipants := ∅ }
    else s
  applyAllRemoteVolumes s

/-- The volume is saved for the participant of a known member and applied to this
member; an unknown member gets it directly. -/
def setEmbeddedVoicePeerVolume (settings : Settings) (memberId : MemberId)
    (volume : Volume) (s : SessionState) : SessionState :=
  let s := loadSettings settings s
  match s.developmentPeers.lookup memberId with
  | some participantId =>
      applyRemoteVolumeForMember
        { s with
          savedPeerVolumes := s.savedPeerVolumes.insert participantId (clampVolume volume) }
        memberId
  | none =>
      { s with
        client := s.client.map fun client =>
          client.setRemoteVolume memberId (clampVolume volume) }

/-- All saved volumes go back to full.  The client's devices are set before its volumes,
and may throw. -/
def resetEmbeddedVoiceAudioSettings (settings : Settings) (deviceThrows : Bool)
    (s : SessionState) : SessionState :=
  let s := loadSettings settings s
  let s :=
    { s with
      savedPeerVolumes := s.savedPeerVolumes.keys.foldl
        (fun saved participantId => saved.insert participantId 1) s.savedPeerVolumes }
  if deviceThrows then s
  else { s with client := s.client.map fun client => client.setRemoteVolumeOfAll 1 }

/-- A call of the session.  The entry points for devices, processing, gain, playback,
hotkeys, overlays and status read or write nothing that is modelled, but for the load of
the settings that some of them begin with. -/
inductive Call where
  | service (input : ServiceInput)
  | setRuntimeBlocked (settings : Settings) (blocked sameReason : Bool)
  | setEnabled (settings : Settings) (enabled : Bool)
  | setMutePolicy (settings : Settings) (muteEveryone muteOnlyFriends
      muteEveryoneButFriends muteTeammates muteEveryoneButTeammates muteNewPlayers : Bool)
  | setPeerVolume (settings : Settings) (memberId : MemberId) (volume : Volume)
  | resetAudioSettings (settings : Settings) (deviceThrows : Bool)
  | loadOnly (settings : Settings)

def SessionState.call (s : SessionState) : Call → SessionState
  | .service input => serviceEmbeddedVoiceSession input s
  | .setRuntimeBlocked settings blocked sameReason =>
      setEmbeddedVoiceRuntimeBlocked settings blocked sameReason s
  | .setEnabled settings enabled => setEmbeddedVoiceEnabled settings enabled s
  | .setMutePolicy settings muteEveryone muteOnlyFriends muteEveryoneButFriends
      muteTeammates muteEveryoneButTeammates muteNewPlayers =>
      setEmbeddedVoiceMutePolicy settings muteEveryone muteOnlyFriends
        muteEveryoneButFriends muteTeammates muteEveryoneButTeammates muteNewPlayers s
  | .setPeerVolume settings memberId volume =>
      setEmbeddedVoicePeerVolume settings memberId volume s
  | .resetAudioSettings settings deviceThrows =>
      resetEmbeddedVoiceAudioSettings settings deviceThrows s
  | .loadOnly settings => loadSettings settings s

end Wiicompiled.Voice.EmbeddedCore
