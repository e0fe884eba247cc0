import Wiicompiled.Support.DirectoryTree
import Wiicompiled.Support.ThrowingPrograms
import Mathlib.Data.List.Dedup

/-!
# Transactional directory output

The producer writes a complete tree into a staging directory beside the destination.  Only
when it succeeded is the destination moved to a backup name and the staging directory moved
to the destination; a failure in between moves the backup back.  The host may refuse every
call of the file system; a call that is refused may have done part of its work where it has
parts.
-/

namespace Wiicompiled.Output

open ThrowingPrograms

/-! ## The disk -/

abbrev Name := List Char

abbrev Path := List Name

structure File where
  bytes : List UInt8
  lastWriteTime : ℕ
deriving DecidableEq

abbrev Disk := DirectoryTree Name File

/-- A path as `Path.GetFullPath` leaves it: the names below the root, and whether a
separator ends the text. -/
structure FullPath where
  components : Path
  endsInSeparator : Bool

/-- `Directory.GetParent`: a separator at the end is all that is cut off. -/
def GetParent (path : FullPath) : Option Path :=
  if path.components = [] then none
  else if path.endsInSeparator then some path.components
  else some path.components.dropLast

/-- `Path.GetFileName` of the path without separators at its end. -/
def leafName (path : FullPath) : Name :=
  path.components.getLastD []

/-- A GUID in the format `N`. -/
structure Guid where
  digits : List Char
  length_digits : digits.length = 32
  hexadecimal : ∀ digit ∈ digits, digit ∈ "0123456789abcdef".toList

def stagingMarker : Name := ".translate-mod-staging-".toList

def backupMarker : Name := ".translate-mod-backup-".toList

/-- `$".{leaf}{marker}{guid:N}"` -/
def markedName (leaf marker : Name) (guid : Guid) : Name :=
  '.' :: (leaf ++ (marker ++ guid.digits))

def stagingPath (destination : FullPath) (guid : Guid) : Path :=
  (GetParent destination).getD [] ++ [markedName (leafName destination) stagingMarker guid]

def backupPath (destination : FullPath) (guid : Guid) : Path :=
  (GetParent destination).getD [] ++ [markedName (leafName destination) backupMarker guid]

/-! ## Calls of the file system -/

/-- What the host does with a call.  Where it refuses one, a removal has kept some paths
and a creation has made some directories. -/
inductive Answer where
  | succeeds
  | fails (kept : List Path) (made : ℕ)

structure Host where
  answers : ℕ → Answer
  stagingGuid : Guid
  backupGuid : Guid
  /-- What `StringComparer.OrdinalIgnoreCase` compares. -/
  caseKey : Path → Path

/-- What is thrown. -/
inductive Failure where
  /-- `IOException` or `UnauthorizedAccessException` -/
  | io
  /-- `ArgumentException`, of a dictionary with a key twice -/
  | argument
  /-- `InvalidOperationException`, of a destination without a parent -/
  | noParent
  /-- what the producer or its failure callback throws -/
  | producer
  | aggregate (publishError rollbackError : Failure)
deriving DecidableEq

inductive WarningSubject where
  | stagingOutput
  | priorOutputBackup
deriving DecidableEq

/-- The disk, the number of calls so far and the warnings. -/
structure World where
  tree : Disk
  asked : ℕ
  warnings : List (WarningSubject × Path)

abbrev Action (α : Type) := EStateM Failure World α

/-- A call that changes the disk, where its arguments let it. -/
def perform (host : Host) (change : Disk → Option Disk)
    (partly : List Path → ℕ → Disk → Disk) : Action Unit := fun world =>
  match host.answers world.asked with
  | .fails kept made =>
      .error .io { world with tree := partly kept made world.tree, asked := world.asked + 1 }
  | .succeeds =>
      match change world.tree with
      | some tree => .ok () { world with tree := tree, asked := world.asked + 1 }
      | none => .error .io { world with asked := world.asked + 1 }

def observe {α : Type} (host : Host) (read : Disk → Except Failure α) : Action α := fun world =>
  match host.answers world.asked with
  | .fails _ _ => .error .io { world with asked := world.asked + 1 }
  | .succeeds =>
      match read world.tree with
      | .ok value => .ok value { world with asked := world.asked + 1 }
      | .error failure => .error failure { world with asked := world.asked + 1 }

/-- `Directory.Exists` -/
def DirectoryExists (path : Path) (world : World) : Bool :=
  world.tree.entry path = some .directory

/-- No file stands at or above the path. -/
def canCreate (tree : Disk) (path : Path) : Bool :=
  path.inits.all fun above =>
    match tree.entry above with
    | some (.file _) => false
    | _ => true

/-- `Directory.CreateDirectory`, with the directories above it. -/
def CreateDirectory (host : Host) (path : Path) : Action Unit :=
  perform host
    (fun tree => if canCreate tree path then some (tree.makeDirectories path) else none)
    (fun _ made tree =>
      if canCreate tree path then tree.makeDirectories (path.take made) else tree)

/-- `Directory.Move` -/
def DirectoryMove (host : Host) (source target : Path) : Action Unit :=
  perform host
    (fun tree => if h : tree.CanMove source target then some (tree.move source target h) else none)
    (fun _ _ tree => tree)

/-- `Directory.Delete`, with all that is in it. -/
def DirectoryDelete (host : Host) (path : Path) : Action Unit :=
  perform host
    (fun tree => if tree.entry path = some .directory then some (tree.remove path []) else none)
    (fun kept _ tree => tree.remove path kept)

def readFile (tree : Disk) (path : Path) : Except Failure File :=
  match tree.entry path with
  | some (.file file) => .ok file
  | _ => .error .io

/-- `FileOutput.FilesEqual` -/
def FilesEqual (host : Host) (left right : Path) : Action Bool := do
  let leftFile ← observe host fun tree => readFile tree left
  let rightFile ← observe host fun tree => readFile tree right
  return leftFile.bytes == rightFile.bytes

def SetLastWriteTime (host : Host) (path : Path) (time : ℕ) : Action Unit :=
  perform host
    (fun tree =>
      match tree.entry path with
      | some (.file _) => some (tree.modifyFile path fun file => { file with lastWriteTime := time })
      | _ => none)
    (fun _ _ tree => tree)

/-! ## Publication -/

def FileSystemRetryCount : ℕ := 8

/-- The failures that are tried again. -/
def transient (failure : Failure) : Bool :=
  failure = .io

/-- A failure of the last attempt is thrown as an `IOException` again. -/
def RetryTransientFileSystemAction (action : Action Unit) : Action Unit :=
  retry transient action (FileSystemRetryCount - 1)

def MoveDirectoryWithRetry (host : Host) (source destination : Path) : Action Unit :=
  RetryTransientFileSystemAction (DirectoryMove host source destination)

def warn (subject : WarningSubject) (path : Path) : Action Unit :=
  modify fun world => { world with warnings := world.warnings ++ [(subject, path)] }

def TryDeleteDirectory (host : Host) (path : Path) (subject : WarningSubject) : Action Unit :=
  handle (RetryTransientFileSystemAction (DirectoryDelete host path)) fun failure =>
    if transient failure then warn subject path else throw failure

def relativeFiles (tree : Disk) (root : Path) : List Path :=
  (tree.paths.dedup.filter fun path =>
    root.isPrefixOf path &&
      match tree.entry path with
      | some (.file _) => true
      | _ => false).map fun path => path.drop root.length

/-- Paths that differ in case only cannot be keys of the dictionary. -/
def EnumerateRelativeFiles (host : Host) (root : Path) : Action (List Path) :=
  observe host fun tree =>
    if tree.entry root = some .directory then
      if ((relativeFiles tree root).map host.caseKey).Nodup then .ok (relativeFiles tree root)
      else .error .argument
    else .error .io

structure PublishResult where
  AddedFiles : ℕ
  UpdatedFiles : ℕ
  RemovedFiles : ℕ
  UnchangedFiles : ℕ
deriving DecidableEq

def noFiles : PublishResult := ⟨0, 0, 0, 0⟩

/-- `TryGetValue` -/
def tryGetValue (host : Host) (files : List Path) (relativePath : Path) : Option Path :=
  files.find? fun other => host.caseKey other = host.caseKey relativePath

/-- One staged file against the live tree: the time of an unchanged file is the live one. -/
def compareFile (host : Host) (staging destination : Path) (liveFiles : List Path)
    (counts : PublishResult) (relativePath : Path) : Action PublishResult :=
  match tryGetValue host liveFiles relativePath with
  | none => pure { counts with AddedFiles := counts.AddedFiles + 1 }
  | some livePath => do
      let equal ← FilesEqual host (staging ++ relativePath) (destination ++ livePath)
      if equal then
        let live ← observe host fun tree => readFile tree (destination ++ livePath)
        SetLastWriteTime host (staging ++ relativePath) live.lastWriteTime
        return { counts with UnchangedFiles := counts.UnchangedFiles + 1 }
      else return { counts with UpdatedFiles := counts.UpdatedFiles + 1 }

def removedFiles (host : Host) (stagedFiles liveFiles : List Path) : ℕ :=
  liveFiles.countP fun path => (tryGetValue host stagedFiles path).isNone

/-- The handler of a failed publication. -/
def restore (host : Host) (destination backup : Path) (publishError : Failure) : Action Unit := do
  select
    (fun world => !DirectoryExists destination world && DirectoryExists backup world)
    (handle (MoveDirectoryWithRetry host backup destination) fun rollbackError =>
      throw (.aggregate publishError rollbackError))
    (pure ())
  throw publishError

def Publish (host : Host) (staging : Path) (destination : FullPath) : Action PublishResult := do
  let stagedFiles ← EnumerateRelativeFiles host staging
  let liveFiles ← select (DirectoryExists destination.components)
    (EnumerateRelativeFiles host destination.components) (pure [])
  let counts ← stagedFiles.foldlM
    (compareFile host staging destination.components liveFiles) noFiles
  let result : PublishResult :=
    { counts with RemovedFiles := removedFiles host stagedFiles liveFiles }
  select (fun world => !DirectoryExists destination.components world)
    (do
      MoveDirectoryWithRetry host staging destination.components
      return result)
    (do
      let backup := backupPath destination host.backupGuid
      MoveDirectoryWithRetry host destination.components backup
      handle (MoveDirectoryWithRetry host staging destination.components)
        (restore host destination.components backup)
      TryDeleteDirectory host backup .priorOutputBackup
      return result)

/-! ## Generation -/

/-- What the producer leaves in the staging directory, and its exit code; without one it
throws.  The callback for its failure may throw too. -/
structure Producer where
  staged : Disk
  exitCode : Option ℤ
  onProducerFailureThrows : Bool

/-- The producer writes below the staging directory only. -/
def Producer.run (producer : Producer) (staging : Path) : Action ℤ := fun world =>
  if h : world.tree.entry staging = some .directory then
    match producer.exitCode with
    | some exitCode =>
        .ok exitCode { world with tree := world.tree.graft staging producer.staged h }
    | none => .error .producer { world with tree := world.tree.graft staging producer.staged h }
  else .error .producer world

/-- The warnings of the result are those of the world at the end: the list is shared. -/
structure GenerateAndPublishResult where
  ExitCode : ℤ
  Publication : Option PublishResult

def generate (host : Host) (producer : Producer) (staging : Path) (destination : FullPath) :
    Action GenerateAndPublishResult := do
  let producerResult ← producer.run staging
  if producerResult ≠ 0 then
    if producer.onProducerFailureThrows then throw .producer
    else return ⟨producerResult, none⟩
  else
    let publication ← Publish host staging destination
    return ⟨0, some publication⟩

def GenerateAndPublish (host : Host) (destination : FullPath) (producer : Producer) :
    Action GenerateAndPublishResult :=
  match GetParent destination with
  | none => throw .noParent
  | some parent => do
      CreateDirectory host parent
      let staging := stagingPath destination host.stagingGuid
      CreateDirectory host staging
      ensure (generate host producer staging destination)
        (select (DirectoryExists staging) (TryDeleteDirectory host staging .stagingOutput)
          (pure ()))

end Wiicompiled.Output
