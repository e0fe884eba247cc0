import Wiicompiled.Support.DirectoryParts

/-!
# Moving files and directories of the NAND

`NANDMove` renames the source into the destination directory.  Where the two are on different
mounts it copies the source into a scratch directory of the destination, publishes the copy
under its name, and removes the source.  Every operation of the host may fail; a copy and the
removal of a directory have states in between.
-/

namespace Wiicompiled.Storage.NandMove

open DirectoryTree

abbrev Name := List Char

abbrev Path := List Name

abbrev Disk := DirectoryTree Name (List UInt8)

inductive NandResult where
  | ok
  | exists
  | invalid
  | noExists
  | unknown
deriving DecidableEq

/-! ## The host -/

inductive RenameAnswer where
  | succeeds
  | crossDeviceLink
  | fails
deriving DecidableEq

inductive CreateAnswer where
  | succeeds
  | fileExists
  | fails
deriving DecidableEq

/-- What stands at the target of a copy while it runs; the last one stays when it fails. -/
structure CopyAnswer where
  succeeds : Bool
  progress : List (Part Name (List UInt8))

/-- The paths that a removal of a directory has kept so far; when it fails they stay. -/
structure RemovalAnswer where
  succeeds : Bool
  progress : List (List Path)

/-- What the host does with each operation of one call.  A query of a status that fails gives
an error code; the functions that ask answer `false` then. -/
structure Host where
  sourceQuery : Bool
  directoryQuery : Bool
  destinationQuery : Bool
  kindQuery : Bool
  rename : RenameAnswer
  create : ℕ → CreateAnswer
  copy : CopyAnswer
  publish : Bool
  cleanup : RemovalAnswer
  removal : RemovalAnswer
  rollback : RemovalAnswer

/-- The disk, and all the disks since the call began. -/
structure World where
  tree : Disk
  moments : List Disk

def World.change (world : World) (tree : Disk) : World where
  tree := tree
  moments := world.moments ++ [tree]

/-! ## Operations -/

def PathExists (query : Bool) (tree : Disk) (path : Path) : Bool :=
  query && (tree.entry path).isSome

def IsDirectory (query : Bool) (tree : Disk) (path : Path) : Bool :=
  query && tree.entry path = some .directory

/-- What `rename` puts another entry in the place of: nothing, a file for a file, or an empty
directory for a directory. -/
def CanReplace (tree : Disk) (source target : Path) : Bool :=
  match tree.entry source, tree.entry target with
  | _, none => true
  | some (.file _), some (.file _) => true
  | some .directory, some .directory =>
      tree.paths.all fun path => !(target.isPrefixOf path && path ≠ target && (tree.entry path).isSome)
  | _, _ => false

/-- The disk after a `rename`, when it is possible.  A path renamed to itself stays. -/
def renamed (tree : Disk) (source target : Path) : Option Disk :=
  if source = target then some tree
  else if CanReplace tree source target then
    if h : (tree.remove target []).CanMove source target then
      some ((tree.remove target []).move source target h)
    else none
  else none

inductive CreateResult where
  | created (world : World)
  | fileExists
  | failed

/-- `create_directory`: a name that is taken is not created, with or without an error. -/
def createDirectory (answer : CreateAnswer) (path : Path) (world : World) : CreateResult :=
  match answer with
  | .fails => .failed
  | .fileExists => .fileExists
  | .succeeds =>
      if world.tree.entry path ≠ none then .fileExists
      else if h : world.tree.CanPut path then
        .created (world.change (world.tree.put path .emptyDirectory h))
      else .failed

def World.putPart (path : Path) (world : World) (stuff : Part Name (List UInt8)) : World :=
  if h : world.tree.CanPut path then world.change (world.tree.put path stuff h) else world

/-- `copy` with all that is in a directory, or `copy_file`: the copy is complete when it
succeeds.  A directory is not copied into itself, and `copy_file` copies no directory. -/
def copySource (answer : CopyAnswer) (sourceIsDirectory : Bool) (source target : Path)
    (world : World) : World × Bool :=
  let begun := answer.progress.foldl (World.putPart target) world
  if answer.succeeds ∧ sourceIsDirectory = IsDirectory true world.tree source ∧
      world.tree.CanMove source target then
    (begun.putPart target (world.tree.part source), true)
  else (begun, false)

/-- A rename without replacement, or a hard link. -/
def publishCopy (succeeds sourceIsDirectory : Bool) (source target : Path) (world : World) :
    Option World :=
  if succeeds then
    if h : world.tree.CanMove source target then
      if sourceIsDirectory then some (world.change (world.tree.move source target h))
      else some (world.putPart target (world.tree.part source))
    else none
  else none

/-- The removal of a directory has states in between, that of a file has none. -/
def beginRemoval (progress : List (List Path)) (path : Path) (world : World) : World :=
  if world.tree.entry path = some .directory then
    progress.foldl (fun world kept => world.change (world.tree.remove path kept)) world
  else world

/-- `remove_all` -/
def removeAll (answer : RemovalAnswer) (path : Path) (world : World) : World × Bool :=
  let begun := beginRemoval answer.progress path world
  if answer.succeeds then (begun.change (begun.tree.remove path []), true) else (begun, false)

/-! ## The move -/

/-- `".nandmove-" + processId + "-" + sequence + "-" + attempt`. -/
def scratchName (processId sequence attempt : ℕ) : Name :=
  (".nandmove-" ++ toString processId ++ "-" ++ toString sequence ++ "-" ++
    toString attempt).toList

/-- The attempts to claim a scratch directory, of which `left` are left. -/
def claimScratch (host : Host) (processId moveSequence : ℕ) (dstDirectoryHost : Path)
    (world : World) : ℕ → ℕ → Option (Path × World)
  | 0, _ => none
  | left + 1, attempt =>
      let candidate :=
        dstDirectoryHost ++ [scratchName processId (moveSequence + attempt) attempt]
      match createDirectory (host.create attempt) candidate world with
      | .created world => some (candidate, world)
      | .fileExists =>
          claimScratch host processId moveSequence dstDirectoryHost world left (attempt + 1)
      | .failed => none

/-- The copy, its publication and the removal of the source. -/
def moveByCopy (host : Host) (srcHost dstHost scratchHost : Path) (srcName : Name)
    (world : World) : NandResult × World :=
  let sourceIsDirectory := IsDirectory host.kindQuery world.tree srcHost
  let tempHost := scratchHost ++ [srcName]
  match copySource host.copy sourceIsDirectory srcHost tempHost world with
  | (world, false) => (.unknown, (removeAll host.cleanup scratchHost world).1)
  | (world, true) =>
      match publishCopy host.publish sourceIsDirectory tempHost dstHost world with
      | none => (.unknown, (removeAll host.cleanup scratchHost world).1)
      | some world =>
          let world := (removeAll host.cleanup scratchHost world).1
          match removeAll host.removal srcHost world with
          | (world, true) => (.ok, world)
          | (world, false) =>
              if sourceIsDirectory then (.unknown, world)
              else (.unknown, (removeAll host.rollback dstHost world).1)

/-- How a call ends, and its scratch directory, if it had one. -/
structure Outcome where
  result : NandResult
  world : World
  scratchHost : Option Path

def moveInto (host : Host) (processId moveSequence : ℕ) (srcHost dstDirectoryHost : Path)
    (srcName : Name) (world : World) : Outcome :=
  let dstHost := dstDirectoryHost ++ [srcName]
  if PathExists host.sourceQuery world.tree srcHost = false then ⟨.noExists, world, none⟩
  else if IsDirectory host.directoryQuery world.tree dstDirectoryHost = false then
    ⟨.noExists, world, none⟩
  else if PathExists host.destinationQuery world.tree dstHost then ⟨.exists, world, none⟩
  else
    match host.rename, renamed world.tree srcHost dstHost with
    | .succeeds, some tree => ⟨.ok, world.change tree, none⟩
    | .crossDeviceLink, _ =>
        match claimScratch host processId moveSequence dstDirectoryHost world 128 0 with
        | none => ⟨.unknown, world, none⟩
        | some (scratchHost, world) =>
            let (result, world) := moveByCopy host srcHost dstHost scratchHost srcName world
            ⟨result, world, some scratchHost⟩
    | _, _ => ⟨.unknown, world, none⟩

/-- A null pointer is no path, and an empty path has no host path. -/
def NANDMove_HLE (host : Host) (processId moveSequence : ℕ)
    (translateNandPath : List Char → Option Path) (srcPath dstPath : Option (List Char))
    (tree : Disk) : Outcome :=
  let world : World := ⟨tree, []⟩
  match srcPath, dstPath with
  | some srcPath, some dstPath =>
      let srcHost := (translateNandPath srcPath).getD []
      let srcName := srcHost.getLastD []
      if srcName = [] then ⟨.invalid, world, none⟩
      else
        match translateNandPath dstPath with
        | some dstDirectoryHost =>
            moveInto host processId moveSequence srcHost dstDirectoryHost srcName world
        -- the empty path is no directory
        | none => ⟨.noExists, world, none⟩
  | _, _ => ⟨.invalid, world, none⟩

end Wiicompiled.Storage.NandMove
