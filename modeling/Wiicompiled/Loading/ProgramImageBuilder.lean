import Wiicompiled.Disassembly.PpcDisassembler
import Wiicompiled.Parsing.DolFile
import Wiicompiled.Support.SegmentLayout

/-!
# The program image

The memory that a translation starts from: the zero-initialized sections of the executable,
then its sections with bytes, then the module, each copied to its address.
-/

namespace Wiicompiled.Loading

open ByteImage Parsing
open Disassembly (ProgramImage)

/-- A module at its address; the range must not wrap. -/
structure RelImage where
  data : List UInt8
  baseAddress : BitVec 32
  fits : baseAddress.toNat + data.length < 2 ^ 32

namespace ProgramImageBuilder

/-- Copies bytes to an address of the RAM window. -/
def copyTo (ramBase : BitVec 32) (ram : List UInt8) (piece : BitVec 32 × List UInt8) :
    Option (List UInt8) := do
  ensure (ramBase ≤ piece.1)
  let offset ← checkedInt (piece.1 - ramBase)
  ensure (offset + piece.2.length ≤ ram.length)
  some (splice ram offset piece.2)

def bssPieces (dol : DolFile) : List (BitVec 32 × List UInt8) :=
  (dol.sections.filter fun s => s.kind = .bss).map fun s =>
    (s.virtualAddress, List.replicate s.size.toNat 0)

def filePieces (dol : DolFile) : List (BitVec 32 × List UInt8) :=
  (dol.sections.filter fun s => s.size ≠ 0 && s.kind ≠ .bss).map fun s =>
    (s.virtualAddress, s.data)

def relPieces : Option RelImage → List (BitVec 32 × List UInt8)
  | none => []
  | some rel => [(rel.baseAddress, rel.data)]

/-- The zero-initialized sections come first, so that bytes of the file win. -/
def build (dol : DolFile) (rel : Option RelImage) (ramBase : BitVec 32) (ramSize : ℕ) :
    Option ProgramImage := do
  ensure (0 < ramSize)
  let ram ← (bssPieces dol ++ filePieces dol ++ relPieces rel).foldlM (copyTo ramBase)
    (List.replicate ramSize 0)
  some ⟨ram, UInt32.ofBitVec ramBase⟩

/-! ## Where the pieces end up -/

def placed (ramBase : BitVec 32) (piece : BitVec 32 × List UInt8) : ℕ × List UInt8 :=
  (piece.1.toNat - ramBase.toNat, piece.2)

def Inside (ramBase : BitVec 32) (ramSize : ℕ) (piece : BitVec 32 × List UInt8) : Prop :=
  ramBase.toNat ≤ piece.1.toNat ∧ piece.1.toNat - ramBase.toNat < 2 ^ 31 ∧
    piece.1.toNat - ramBase.toNat + piece.2.length ≤ ramSize

variable {ramBase : BitVec 32} {ram ram' : List UInt8} {piece : BitVec 32 × List UInt8}
  {pieces : List (BitVec 32 × List UInt8)}

theorem copyTo_eq_some :
    copyTo ramBase ram piece = some ram' ↔
      Inside ramBase ram.length piece ∧
        ram' = splice ram (placed ramBase piece).1 (placed ramBase piece).2 := by
  have hsub : ramBase ≤ piece.1 →
      (piece.1 - ramBase).toNat = piece.1.toNat - ramBase.toNat := by
    exact fun hle => BitVec.toNat_sub_of_le hle
  constructor
  · intro h
    obtain ⟨_, hbase, h⟩ := Option.bind_eq_some_iff.mp h
    obtain ⟨offset, hoffset, h⟩ := Option.bind_eq_some_iff.mp h
    obtain ⟨_, hinside, h⟩ := Option.bind_eq_some_iff.mp h
    have hbase := ensure_eq_some.mp hbase
    obtain ⟨hlt, rfl⟩ := checkedInt_eq_some.mp hoffset
    rw [hsub hbase] at hlt
    have hinside := ensure_eq_some.mp hinside
    rw [hsub hbase] at hinside h
    exact ⟨⟨hbase, hlt, hinside⟩, (Option.some.inj h).symm⟩
  · rintro ⟨⟨hbase, hlt, hinside⟩, rfl⟩
    have hbase' : ramBase ≤ piece.1 := hbase
    refine Option.bind_eq_some_iff.mpr ⟨(), ensure_eq_some.mpr hbase', ?_⟩
    refine Option.bind_eq_some_iff.mpr ⟨piece.1.toNat - ramBase.toNat, ?_, ?_⟩
    · rw [checkedInt_eq_some, hsub hbase']
      exact ⟨hlt, rfl⟩
    · exact Option.bind_eq_some_iff.mpr ⟨(), ensure_eq_some.mpr hinside, rfl⟩

theorem foldlM_copyTo_eq_some :
    pieces.foldlM (copyTo ramBase) ram = some ram' ↔
      (∀ piece ∈ pieces, Inside ramBase ram.length piece) ∧
        ram' = SegmentLayout.copyAll (pieces.map (placed ramBase)) ram := by
  induction pieces generalizing ram with
  | nil =>
      rw [List.foldlM_nil, List.map_nil, SegmentLayout.copyAll]
      refine ⟨fun h => ⟨fun piece hpiece => absurd hpiece List.not_mem_nil, ?_⟩, fun h => ?_⟩
      · exact (Option.some.inj h).symm
      · exact congrArg some h.2.symm
  | cons piece rest ih =>
      rw [List.foldlM_cons, List.map_cons, SegmentLayout.copyAll, List.forall_mem_cons]
      constructor
      · intro h
        obtain ⟨next, hnext, hrest⟩ := Option.bind_eq_some_iff.mp h
        obtain ⟨hinside, rfl⟩ := copyTo_eq_some.mp hnext
        obtain ⟨hall, rfl⟩ := ih.mp hrest
        have hlength : (splice ram (placed ramBase piece).1 (placed ramBase piece).2).length =
            ram.length := length_splice hinside.2.2
        rw [hlength] at hall
        exact ⟨⟨hinside, hall⟩, rfl⟩
      · rintro ⟨⟨hinside, hall⟩, rfl⟩
        have hlength : (splice ram (placed ramBase piece).1 (placed ramBase piece).2).length =
            ram.length := length_splice hinside.2.2
        refine Option.bind_eq_some_iff.mpr ⟨_, copyTo_eq_some.mpr ⟨hinside, rfl⟩, ih.mpr ?_⟩
        rw [hlength]
        exact ⟨hall, rfl⟩

variable {dol : DolFile} {rel : Option RelImage} {ramSize : ℕ} {image : ProgramImage}

theorem build_eq_some :
    build dol rel ramBase ramSize = some image ↔
      0 < ramSize ∧
      (∀ piece ∈ bssPieces dol ++ filePieces dol ++ relPieces rel,
        Inside ramBase ramSize piece) ∧
      image = ⟨SegmentLayout.copyAll
        ((bssPieces dol ++ filePieces dol ++ relPieces rel).map (placed ramBase))
        (List.replicate ramSize 0), UInt32.ofBitVec ramBase⟩ := by
  constructor
  · intro h
    obtain ⟨_, hpos, h⟩ := Option.bind_eq_some_iff.mp h
    obtain ⟨ram, hram, h⟩ := Option.bind_eq_some_iff.mp h
    obtain ⟨hinside, rfl⟩ := foldlM_copyTo_eq_some.mp hram
    rw [List.length_replicate] at hinside
    exact ⟨ensure_eq_some.mp hpos, hinside, (Option.some.inj h).symm⟩
  · rintro ⟨hpos, hinside, rfl⟩
    refine Option.bind_eq_some_iff.mpr ⟨(), ensure_eq_some.mpr hpos, ?_⟩
    refine Option.bind_eq_some_iff.mpr ⟨_, foldlM_copyTo_eq_some.mpr ⟨?_, rfl⟩, rfl⟩
    rw [List.length_replicate]
    exact hinside

/-- The memory before the module is copied there. -/
def executableMemory (dol : DolFile) (ramBase : BitVec 32) (ramSize : ℕ) : List UInt8 :=
  SegmentLayout.copyAll ((bssPieces dol ++ filePieces dol).map (placed ramBase))
    (List.replicate ramSize 0)

theorem memory_of_build {rel : RelImage} (h : build dol (some rel) ramBase ramSize = some image) :
    image.memory = splice (executableMemory dol ramBase ramSize)
        (rel.baseAddress.toNat - ramBase.toNat) rel.data ∧
      ramBase.toNat ≤ rel.baseAddress.toNat ∧
      rel.baseAddress.toNat - ramBase.toNat + rel.data.length ≤
        (executableMemory dol ramBase ramSize).length := by
  obtain ⟨-, hinside, rfl⟩ := build_eq_some.mp h
  have hfit : SegmentLayout.Fit ((bssPieces dol ++ filePieces dol).map (placed ramBase))
      (List.replicate ramSize (0 : UInt8)) := by
    intro piece hpiece
    obtain ⟨old, hold, rfl⟩ := List.mem_map.mp hpiece
    rw [List.length_replicate]
    exact (hinside old (List.mem_append_left _ hold)).2.2
  obtain ⟨hbase, -, hend⟩ := hinside (rel.baseAddress, rel.data)
    (List.mem_append_right _ (List.mem_singleton_self _))
  refine ⟨?_, hbase, ?_⟩
  · dsimp only
    rw [List.map_append, SegmentLayout.copyAll_append]
    rfl
  · rw [executableMemory, SegmentLayout.length_copyAll hfit, List.length_replicate]
    exact hend

theorem getElem?_memory_of_last (before : List (BitVec 32 × List UInt8))
    (piece : BitVec 32 × List UInt8) (after : List (BitVec 32 × List UInt8)) {i : ℕ}
    (h : build dol rel ramBase ramSize = some image)
    (hsplit : bssPieces dol ++ filePieces dol ++ relPieces rel = before ++ piece :: after)
    (hi : i < piece.2.length)
    (hafter : ∀ other ∈ after, piece.1.toNat + i < other.1.toNat ∨
      other.1.toNat + other.2.length ≤ piece.1.toNat + i) :
    ramBase.toNat ≤ piece.1.toNat ∧
      image.memory[piece.1.toNat - ramBase.toNat + i]? = piece.2[i]? := by
  obtain ⟨-, hinside, rfl⟩ := build_eq_some.mp h
  rw [hsplit] at hinside ⊢
  have hbase : ∀ other ∈ before ++ piece :: after, ramBase.toNat ≤ other.1.toNat :=
    fun other hother => (hinside other hother).1
  have hpiece := hbase piece (List.mem_append_right _ List.mem_cons_self)
  refine ⟨hpiece, ?_⟩
  rw [List.map_append, List.map_cons]
  refine SegmentLayout.getElem?_copyAll_of_last ?_ hi ?_
  · intro other hother
    rw [← List.map_cons, ← List.map_append] at hother
    obtain ⟨old, hold, rfl⟩ := List.mem_map.mp hother
    rw [List.length_replicate]
    exact (hinside old hold).2.2
  · intro other hother
    obtain ⟨old, hold, rfl⟩ := List.mem_map.mp hother
    have hle := hbase old (List.mem_append_right _ (List.mem_cons_of_mem _ hold))
    have := hafter old hold
    change piece.1.toNat - ramBase.toNat + i < old.1.toNat - ramBase.toNat ∨
      old.1.toNat - ramBase.toNat + old.2.length ≤ piece.1.toNat - ramBase.toNat + i
    omega

end ProgramImageBuilder

end Wiicompiled.Loading
