import Mathlib.Algebra.Ring.Nat
import Mathlib.Data.List.Basic

/-!
# Host paths of guest NAND paths

A guest path is made absolute, its dots are resolved, and its components are appended to the
host directory of the NAND, or to the directory that the saves are redirected to.  Host
paths are those of the standard library: appending a path that has a root of its own
replaces what it is appended to.
-/

namespace Wiicompiled.Storage.Nand

/-! ## Host paths -/

inductive Platform where
  | posix
  | windows
deriving DecidableEq

/-- A path of the host: its root name, whether a root directory follows, and the components
of the rest.  Empty components do not count. -/
structure HostPath where
  rootName : Option (List Char)
  rootDirectory : Bool
  relative : List (List Char)
deriving DecidableEq

/-- The root name that a text begins with, and the rest.  Only drives begin without a
separator. -/
def splitRootName (platform : Platform) (text : List Char) : Option (List Char) × List Char :=
  match platform, text with
  | .windows, letter :: ':' :: rest =>
      if letter.isAlpha then (some [letter, ':'], rest) else (none, text)
  | _, _ => (none, text)

def HostPath.parse (platform : Platform) (text : List Char) : HostPath :=
  let (rootName, rest) := splitRootName platform text
  { rootName
    rootDirectory := rest.head? = some '/'
    relative := (rest.splitOn '/').filter fun component => component ≠ [] }

def HostPath.isAbsolute (platform : Platform) (path : HostPath) : Bool :=
  match platform with
  | .posix => path.rootDirectory
  | .windows => path.rootName.isSome && path.rootDirectory

/-- `path /= other`. -/
def HostPath.append (platform : Platform) (path other : HostPath) : HostPath :=
  if other.isAbsolute platform ∨ (other.rootName.isSome ∧ other.rootName ≠ path.rootName) then
    other
  else if other.rootDirectory then { path with rootDirectory := true, relative := other.relative }
  else { path with relative := path.relative ++ other.relative }

/-! ## Guest paths -/

/-- Eight hexadecimal digits. -/
def hex8 (value : BitVec 32) : List Char :=
  (List.range 8).map fun i => Nat.digitChar (value.toNat / 16 ^ (7 - i) % 16)

def kNandTitleIdHi : BitVec 32 := 0x00010004

/-- `/title/%08x/%08x/data`. -/
def currentNandDataDir (titleIdLo : BitVec 32) : List Char :=
  "/title/".toList ++ hex8 kNandTitleIdHi ++ ['/'] ++ hex8 titleIdLo ++ "/data".toList

def pushComponent (components : List (List Char)) (component : List Char) : List (List Char) :=
  if component = ['.', '.'] then components.dropLast
  else if component ≠ [] ∧ component ≠ ['.'] then components ++ [component]
  else components

/-- The loop over the characters, with a last turn at the end. -/
def resolveLoop : List Char → List Char → List (List Char) → List (List Char)
  | [], component, components => pushComponent components component
  | c :: rest, component, components =>
      if c ≠ '/' then resolveLoop rest (component ++ [c]) components
      else resolveLoop rest [] (pushComponent components component)

def lexicallyResolveWiiPath (path : List Char) : List Char :=
  let resolved := (resolveLoop (path.drop 1) [] []).flatMap fun part => '/' :: part
  if resolved = [] then ['/'] else resolved

/-- Take slashes at the end away, but not the only character. -/
def popSlashes (path : List Char) : List Char :=
  if 1 < path.length ∧ path.getLast? = some '/' then popSlashes path.dropLast else path
termination_by path.length
decreasing_by
  rw [List.length_dropLast]
  omega

/-- The path with slashes only, behind the current directory if it is relative. -/
def absoluteWiiPath (titleIdLo : BitVec 32) (wiiPath : List Char) : List Char :=
  let path := wiiPath.map fun c => if c = '\\' then '/' else c
  if path.head? ≠ some '/' then
    let cwd := currentNandDataDir titleIdLo
    (if cwd ≠ [] ∧ cwd.getLast? ≠ some '/' then cwd ++ ['/'] else cwd) ++ path
  else path

/-- A null pointer and an empty path have no absolute form. -/
def normalizeAbsoluteWiiPath (titleIdLo : BitVec 32) (wiiPath : Option (List Char)) : List Char :=
  match wiiPath with
  | none => []
  | some [] => []
  | some wiiPath => popSlashes (lexicallyResolveWiiPath (absoluteWiiPath titleIdLo wiiPath))

/-! ## Translation -/

/-- The components between slashes are appended one by one. -/
def buildHostNandPath (platform : Platform) (nandBasePath : HostPath) (wiiPath : List Char) :
    HostPath :=
  ((wiiPath.splitOn '/').filter fun component => component ≠ []).foldl
    (fun hostPath component => hostPath.append platform (.parse platform component)) nandBasePath

/-- The path in the directory of the redirected saves, for paths in the data directory. -/
def resolveRiivolutionSaveHostPath (platform : Platform) (redirect : Option HostPath)
    (titleIdLo : BitVec 32) (absoluteWiiPath : List Char) : Option HostPath :=
  redirect.bind fun hostDirectory =>
    let dataDir := currentNandDataDir titleIdLo
    if absoluteWiiPath ≠ dataDir ∧ (absoluteWiiPath.length ≤ dataDir.length ∨
        absoluteWiiPath.take dataDir.length ≠ dataDir ∨
        absoluteWiiPath[dataDir.length]? ≠ some '/') then none
    else
      let relative :=
        if dataDir.length < absoluteWiiPath.length then absoluteWiiPath.drop (dataDir.length + 1)
        else []
      some (if relative ≠ [] then hostDirectory.append platform (.parse platform relative)
        else hostDirectory)

def translateNandPath (platform : Platform) (nandBasePath : HostPath) (redirect : Option HostPath)
    (titleIdLo : BitVec 32) (wiiPath : Option (List Char)) : Option HostPath :=
  let wiiPathStr := normalizeAbsoluteWiiPath titleIdLo wiiPath
  if wiiPathStr = [] then none
  else
    match resolveRiivolutionSaveHostPath platform redirect titleIdLo wiiPathStr with
    | some redirectedHostPath => some redirectedHostPath
    | none => some (buildHostNandPath platform nandBasePath wiiPathStr)

end Wiicompiled.Storage.Nand
