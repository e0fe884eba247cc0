import Wiicompiled.Storage.DvdPath
import Wiicompiled.Support.ByteImage
import Wiicompiled.Support.KeyedForest
import Wiicompiled.Support.OrderedMap
import Mathlib.Data.List.Lex

/-!
# File system tables

The table of a disc is a depth-first array of entries and a table of names.  It is built
from a list of registered files: one file is kept for each lookup path, the files are put
into a tree, and the tree is emitted with the ends of directories patched afterwards.  The
reader walks the array with a stack of open directories.
-/

namespace Wiicompiled.Storage.DvdFst

open ByteImage

instance linearOrderUInt8 : LinearOrder UInt8 where
  le_refl := UInt8.le_refl
  le_trans _ _ _ := UInt8.le_trans
  le_antisymm _ _ := UInt8.le_antisymm
  le_total := UInt8.le_total
  lt_iff_le_not_ge a b := by
    simp only [UInt8.le_iff_toNat_le, UInt8.lt_iff_toNat_lt]
    omega
  toDecidableLE := inferInstance

/-! ## Registered files and images -/

structure RegisteredFile where
  hostPath : Text
  dvdPath : Text
  size : BitVec 32
  discOffsetWords : BitVec 32
deriving DecidableEq

structure IndexedEntry where
  hostPath : Text
  dvdPath : Text
  size : BitVec 32
  discOffsetWords : BitVec 32
  parentIndex : ℕ
  subtreeEnd : ℕ
  isDirectory : Bool
deriving DecidableEq

structure Image where
  entries : List IndexedEntry
  pathToEntry : Text → Option ℕ
  bytes : List UInt8

/-- Why an image cannot be built. -/
inductive BuildError where
  | rootAsFile
  | fileAndDirectory (path : Text)
  | emptyImplicitNode (path : Text)
  | tooManyEntries
  | nameTableExceedsLimit
deriving DecidableEq

/-! ## The tree of files -/

/-- Keep the last registration for each lookup path. -/
def collapse (registrations : List RegisteredFile) :
    Except BuildError (List (Text × RegisteredFile)) :=
  registrations.foldlM
    (fun filesByPath file =>
      let file := { file with dvdPath := canonicalizePath file.dvdPath }
      if file.dvdPath = [slash] then .error .rootAsFile
      else .ok (OrderedMap.assign (normalizeLookupPath file.dvdPath) file filesByPath))
    []

/-- The children of a node, by the lower case of their names. -/
abbrev Children := KeyedForest Text Text RegisteredFile

/-- Put a file at the components of its path. -/
def insertFile (root : Children) (file : RegisteredFile) : Children :=
  match (components file.dvdPath).map fun component => (lowercase component, component) with
  | [] => root
  | first :: path => root.insert file first path

def buildTree (filesByPath : List (Text × RegisteredFile)) : Children :=
  filesByPath.foldl (fun root entry => insertFile root entry.2) .nil

/-! ## Emission -/

/-- The entries, the paths and the names that are emitted. -/
structure EmitState where
  entries : List IndexedEntry
  pathToEntry : Text → Option ℕ
  names : List Text

def emplace (map : Text → Option ℕ) (key : Text) (value : ℕ) : Text → Option ℕ :=
  fun other => if other = key ∧ map key = none then some value else map other

namespace EmitState

def push (state : EmitState) (entry : IndexedEntry) (name : Text) : EmitState where
  entries := state.entries ++ [entry]
  pathToEntry := emplace state.pathToEntry (normalizeLookupPath entry.dvdPath)
    state.entries.length
  names := state.names ++ [name]

/-- Patch the end of a directory with the number of entries so far. -/
def close (state : EmitState) (index : ℕ) : EmitState :=
  { state with
    entries := state.entries.modify index fun entry =>
      { entry with subtreeEnd := state.entries.length } }

end EmitState

def childPath (directoryPath name : Text) : Text :=
  if directoryPath = [slash] then slash :: name else directoryPath ++ slash :: name

def emitTree : Children → ℕ → Text → EmitState → Except BuildError EmitState
  | .nil, _, _, state => .ok state
  | .cons _ name file children rest, directoryIndex, directoryPath, state =>
      let path := childPath directoryPath name
      let index := state.entries.length
      match children, file with
      | .cons .., some _ => .error (.fileAndDirectory path)
      | .cons .., none => do
          let below ← emitTree children index path
            (state.push ⟨[], path, 0, 0, directoryIndex, 0, true⟩ name)
          emitTree rest directoryIndex directoryPath (below.close index)
      | .nil, none => .error (.emptyImplicitNode path)
      | .nil, some file =>
          emitTree rest directoryIndex directoryPath
            (state.push ⟨file.hostPath, path, file.size, file.discOffsetWords, directoryIndex,
              index + 1, false⟩ name)

/-! ## Bytes -/

/-- Put names behind a table, each with a zero, and tell where they are. -/
def buildStringTable : List Text → List UInt8 → Except BuildError (List ℕ × List UInt8)
  | [], table => .ok ([], table)
  | name :: names, table =>
      if 0x00FFFFFF < table.length then .error .nameTableExceedsLimit
      else do
        let (offsets, result) ← buildStringTable names (table ++ name ++ [0])
        .ok (table.length :: offsets, result)

def recordBytes (entry : IndexedEntry) (nameOffset : ℕ) : List UInt8 :=
  let typeAndName := (if entry.isDirectory then 0x01000000 else 0) ||| nameOffset
  let word1 := if entry.isDirectory then entry.parentIndex else entry.discOffsetWords.toNat
  let word2 := if entry.isDirectory then entry.subtreeEnd else entry.size.toNat
  toBytes 4 typeAndName ++ toBytes 4 word1 ++ toBytes 4 word2

def buildImage (registrations : List RegisteredFile) : Except BuildError Image := do
  let filesByPath ← collapse registrations
  let root : EmitState :=
    { entries := [⟨[], [slash], 0, 0, 0, 0, true⟩]
      pathToEntry := emplace (fun _ => none) [slash] 0
      names := [[]] }
  let emitted ← emitTree (buildTree filesByPath) 0 [slash] root
  let image := emitted.close 0
  if (2 ^ 32 - 1) / 12 < image.entries.length then .error .tooManyEntries
  else do
    let (offsets, table) ← buildStringTable image.names.tail [0]
    .ok
      { entries := image.entries
        pathToEntry := image.pathToEntry
        bytes := (image.entries.zip (0 :: offsets)).flatMap
          (fun entry => recordBytes entry.1 entry.2) ++ table }

/-! ## The reader -/

structure FstFileEntry where
  start : ℕ
  stop : ℕ
  size : ℕ
  dvdPath : Text
deriving DecidableEq

def read32 (data : List UInt8) (offset : ℕ) : ℕ :=
  fromBytes (window data offset 4)

/-- The text up to the next zero. -/
def cString (data : List UInt8) (offset : ℕ) : Text :=
  (data.drop offset).takeWhile (· ≠ 0)

/-- Close the directories that end at an index or before it. -/
def settle (stack : List (ℕ × Text)) (index : ℕ) : List (ℕ × Text) :=
  stack.dropWhile fun frame => frame.1 ≤ index

/-- The path of a name below an open directory. -/
def relativePath (path name : Text) : Text :=
  if path = [] then name else path ++ slash :: name

def walkEntries (data : List UInt8) (stringBase : ℕ) :
    ℕ → ℕ → List (ℕ × Text) → List FstFileEntry
  | 0, _, _ => []
  | count + 1, index, stack =>
      match settle stack index with
      | [] => []
      | (endIndex, path) :: rest =>
          let nameWord := read32 data (index * 12)
          let nameOffset := nameWord % 2 ^ 24
          if data.length ≤ stringBase + nameOffset then []
          else
            let name := cString data (stringBase + nameOffset)
            if nameWord / 2 ^ 24 ≠ 0 then
              let nextIndex := read32 data (index * 12 + 8)
              walkEntries data stringBase count (index + 1)
                ((nextIndex, relativePath path name) :: (endIndex, path) :: rest)
            else
              let startBytes := read32 data (index * 12 + 4) * 4
              let fileSize := read32 data (index * 12 + 8)
              let following :=
                walkEntries data stringBase count (index + 1) ((endIndex, path) :: rest)
              if 0xFFFFFFFF < startBytes then following
              else
                ⟨startBytes, (startBytes + fileSize) % 2 ^ 32, fileSize,
                  slash :: relativePath path name⟩ :: following

def fstFiles (data : List UInt8) : List FstFileEntry :=
  if data.length < 12 then []
  else
    let entryCount := read32 data 8
    if entryCount = 0 ∨ 0x10000 < entryCount then []
    else if data.length ≤ entryCount * 12 then []
    else walkEntries data (entryCount * 12) (entryCount - 1) 1 [(entryCount, [])]

/-- The index that is loaded from a table: its files, sorted by their starts.  The order
of files with one start is not told. -/
structure LoadedFstIndex (data : List UInt8) (files : List FstFileEntry) : Prop where
  perm : files.Perm (fstFiles data)
  sorted : files.Pairwise fun a b => a.start ≤ b.start

end Wiicompiled.Storage.DvdFst
