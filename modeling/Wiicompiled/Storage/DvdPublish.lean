import Wiicompiled.Storage.DvdFst
import Wiicompiled.Support.SortedLookup

/-!
# Publishing the file table

Files are registered by their paths, and a file that is registered again replaces the one
before it.  Registered files keep the disc offsets of the base table; the others are put
behind them.  The published extents lead from an offset back to the file.
-/

namespace Wiicompiled.Storage.DvdFst

/-! ## Registration -/

structure DVDFileEntry where
  hostPath : Text
  dvdPath : Text
  size : BitVec 32
  discOffsetWords : BitVec 32
  isDirectory : Bool
deriving DecidableEq

/-- The registered files and the last of them for each lookup path. -/
structure FileIndex where
  fileEntries : List DVDFileEntry
  pathToEntry : Text → Option ℕ

def FileIndex.empty : FileIndex :=
  ⟨[], fun _ => none⟩

def registerFileEntry (index : FileIndex) (dvdPath hostPath : Text) (size : BitVec 32) :
    FileIndex where
  fileEntries := index.fileEntries ++ [⟨hostPath, canonicalizePath dvdPath, size, 0, false⟩]
  pathToEntry := fun path =>
    if path = normalizeLookupPath (canonicalizePath dvdPath) then some index.fileEntries.length
    else index.pathToEntry path

/-- The indices that registrations lead to. -/
inductive FileIndex.Registered : FileIndex → Prop where
  | empty : FileIndex.empty.Registered
  | register {index : FileIndex} (dvdPath hostPath : Text) (size : BitVec 32)
      (h : index.Registered) : (registerFileEntry index dvdPath hostPath size).Registered

/-! ## Disc offsets -/

/-- Give a file of the base table its disc offset. -/
def placeFstFile (pathToEntry : Text → Option ℕ) (entries : List DVDFileEntry)
    (fstFile : FstFileEntry) : List DVDFileEntry :=
  match pathToEntry (normalizeLookupPath fstFile.dvdPath) with
  | none => entries
  | some entryNum =>
      entries.modify entryNum fun entry =>
        { entry with discOffsetWords := BitVec.ofNat 32 (fstFile.start / 4) }

/-- The end of the files of the base table and of the entries with an offset. -/
def firstFreeByte (fstFiles : List FstFileEntry) (entries : List DVDFileEntry) : ℕ :=
  entries.foldl
    (fun nextFreeBytes entry =>
      if entry.discOffsetWords ≠ 0 then
        max nextFreeBytes (entry.discOffsetWords.toNat * 4 + entry.size.toNat)
      else nextFreeBytes)
    (fstFiles.foldl (fun nextFreeBytes fstFile => max nextFreeBytes fstFile.stop) 0)

/-- The next multiple of thirty-two. -/
def alignUp (bytes : ℕ) : ℕ :=
  (bytes + 31) / 32 * 32

inductive PublishError where
  | syntheticExtents
  | image (error : BuildError)
  | reservation
deriving DecidableEq

/-- Put the entries without an offset one behind the other. -/
def placeSynthetic : ℕ → List DVDFileEntry → Except PublishError (List DVDFileEntry)
  | _, [] => .ok []
  | nextFreeBytes, entry :: entries =>
      if entry.isDirectory ∨ entry.discOffsetWords ≠ 0 then do
        let placed ← placeSynthetic nextFreeBytes entries
        .ok (entry :: placed)
      else
        let start := alignUp nextFreeBytes
        if 0xFFFFFFFF < start / 4 then .error .syntheticExtents
        else do
          let placed ← placeSynthetic (start + max entry.size.toNat 4) entries
          .ok ({ entry with discOffsetWords := BitVec.ofNat 32 (start / 4) } :: placed)

/-! ## Published extents -/

structure PublishedExtent where
  startBytes : ℕ
  endBytes : ℕ
  entryIndex : ℕ
deriving DecidableEq

/-- The extent of an entry; an empty file has one byte. -/
def publishedExtent (entry : IndexedEntry × ℕ) : Option PublishedExtent :=
  if entry.1.isDirectory ∨ entry.1.discOffsetWords = 0 then none
  else some ⟨entry.1.discOffsetWords.toNat * 4,
    entry.1.discOffsetWords.toNat * 4 + max entry.1.size.toNat 1, entry.2⟩

def publishedExtents (entries : List IndexedEntry) : List PublishedExtent :=
  entries.zipIdx.filterMap publishedExtent

/-- The image that is published for the registered files, when it fits its reservation. -/
def buildAndPublishRuntimeFst (index : FileIndex) (fstFiles : List FstFileEntry)
    (reservedSize : ℕ) : Except PublishError Image := do
  let placed := fstFiles.foldl (placeFstFile index.pathToEntry) index.fileEntries
  let fileEntries ← placeSynthetic (firstFreeByte fstFiles placed) placed
  let registrations := fileEntries.map fun entry =>
    (⟨entry.hostPath, entry.dvdPath, entry.size, entry.discOffsetWords⟩ : RegisteredFile)
  match buildImage registrations with
  | .error error => .error (.image error)
  | .ok image => if reservedSize < image.bytes.length then .error .reservation else .ok image

/-! ## Reads -/

def findPublishedExtentForByteOffset (extents : List PublishedExtent) (offset : ℕ) :
    Option PublishedExtent :=
  match SortedLookup.lastUpTo PublishedExtent.startBytes offset extents with
  | none => none
  | some extent =>
      if extent.startBytes ≤ offset ∧ offset < extent.endBytes then some extent else none

/-- A part of the file of an entry. -/
structure FileRead where
  entryIndex : ℕ
  fileOffset : ℕ
  readLength : ℕ
deriving DecidableEq

/-- What a read through a file handle reads: the start address of the handle is in words,
and the offset and the length are signed. -/
def dvdReadPrio (entries : List IndexedEntry) (extents : List PublishedExtent)
    (startWords length offset : BitVec 32) : Option FileRead :=
  let startBytes := startWords.toNat * 4
  match findPublishedExtentForByteOffset extents startBytes with
  | none => none
  | some extent =>
      match entries[extent.entryIndex]? with
      | none => none
      | some entry =>
          if offset.toInt < 0 ∨ length.toInt < 0 then none
          else
            let requestedOffset := startBytes - extent.startBytes + offset.toNat
            if entry.size.toNat ≤ requestedOffset then none
            else some ⟨extent.entryIndex, requestedOffset,
              min length.toNat (entry.size.toNat - requestedOffset)⟩

/-- What an absolute read reads.  The offset is tried in bytes and then in words. -/
def resolveAbsRead (entries : List IndexedEntry) (extents : List PublishedExtent)
    (offset length : BitVec 32) : Option FileRead :=
  let found := match findPublishedExtentForByteOffset extents offset.toNat with
    | some extent => some (extent, offset.toNat)
    | none =>
        (findPublishedExtentForByteOffset extents (offset.toNat * 4)).map
          fun extent => (extent, offset.toNat * 4)
  match found with
  | none => none
  | some (extent, effectiveOffset) =>
      match entries[extent.entryIndex]? with
      | none => none
      | some entry =>
          let fileOffset := BitVec.ofNat 32 (effectiveOffset - extent.startBytes)
          let readLength :=
            if length = 0 ∨ entry.size < fileOffset + length then entry.size - fileOffset
            else length
          some ⟨extent.entryIndex, fileOffset.toNat, readLength.toNat⟩

end Wiicompiled.Storage.DvdFst
