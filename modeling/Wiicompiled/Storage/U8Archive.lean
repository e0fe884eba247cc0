import Wiicompiled.Support.ByteImage

/-!
# Extraction from U8 archives

A U8 archive is a table of nodes with a table of names behind it.  Directories are nodes
that end at an index; the extraction keeps the open ones on a stack.  All fields are 32-bit
numbers of the file and their sums are taken modulo 2 ^ 32.  An extraction that reads behind
the bytes of the archive has no result.
-/

namespace Wiicompiled.Storage.U8Archive

open ByteImage

/-- The bytes before the first null byte, when there is one in the array. -/
def readName (data : List UInt8) (offset : ℕ) : Option (List UInt8) :=
  if 0 ∈ data.drop offset then some ((data.drop offset).takeWhile (· ≠ 0)) else none

def readRange (data : List UInt8) (offset size : ℕ) : Option (List UInt8) :=
  if offset + size ≤ data.length then some (window data offset size) else none

def nodeBytes : ℕ := 12

/-- An open directory. -/
structure DirFrame where
  path : List UInt8
  endIndex : ℕ
deriving DecidableEq, Repr

/-- The bytes of an archive and where its tables are. -/
structure Archive where
  data : List UInt8
  rootOffset : ℕ
  nodeCount : ℕ
  stringTableOffset : ℕ
deriving DecidableEq, Repr

/-- The loop over the nodes from `index` on, of which `left` are left.  The innermost open
directory is the first frame.  The result of a finished loop is the file, if there is one. -/
def scanNodes (archive : Archive) (targetName : List UInt8) :
    ℕ → ℕ → List DirFrame → Option (Option (List UInt8))
  | 0, _, _ => some none
  | left + 1, index, stack =>
      match stack.dropWhile fun frame => frame.endIndex ≤ index with
      | [] => some none
      | top :: below => do
          let node := archive.rootOffset + index * nodeBytes
          let typeAndName ← read archive.data node 4
          let nameOffset := typeAndName % 2 ^ 24
          -- the check is on 32 bits, the pointer is not
          if archive.data.length ≤ (archive.stringTableOffset + nameOffset) % 2 ^ 32 then
            some none
          else
            let name ← readName archive.data (archive.stringTableOffset + nameOffset)
            let fullPath := top.path ++ name
            if typeAndName / 2 ^ 24 ≠ 0 then
              let endIndex ← read archive.data (node + 8) 4
              scanNodes archive targetName left (index + 1)
                (⟨fullPath ++ [47], endIndex⟩ :: top :: below)
            else if fullPath = targetName ∨ name = targetName then
              let fileOffset ← read archive.data (node + 4) 4
              let fileSize ← read archive.data (node + 8) 4
              if archive.data.length < (fileOffset + fileSize) % 2 ^ 32 then some none
              else (readRange archive.data fileOffset fileSize).map some
            else scanNodes archive targetName left (index + 1) (top :: below)

def u8Magic : ℕ := 0x55AA382D

/-- The file of an archive, or that there is none, or nothing when a byte outside of the
archive is read. -/
def extractFromU8 (data targetName : List UInt8) : Option (Option (List UInt8)) :=
  if data.length < 0x20 then some none
  else do
    let magic ← read data 0 4
    if magic ≠ u8Magic then some none
    else
      let rootOffset ← read data 4 4
      if data.length < (rootOffset + 0x0C) % 2 ^ 32 then some none
      else
        let nodeCount ← read data (rootOffset + 8) 4
        let nodeTableSize := nodeCount * nodeBytes % 2 ^ 32
        let stringTableOffset := (rootOffset + nodeTableSize) % 2 ^ 32
        if data.length ≤ stringTableOffset then some none
        else
          scanNodes ⟨data, rootOffset, nodeCount, stringTableOffset⟩ targetName
            (nodeCount - 1) 1 [⟨[], nodeCount⟩]

end Wiicompiled.Storage.U8Archive
