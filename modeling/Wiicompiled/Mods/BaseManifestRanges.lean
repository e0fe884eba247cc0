import Wiicompiled.Mods.BaseManifestBuilder

/-!
# Ranges of the base manifest

The starts of a section, in order, cut it into ranges that share no address, and the pieces of
an image file are found at the offsets that were recorded when they were written.
-/

namespace Wiicompiled.Mods.BaseManifestBuilder

open ByteImage Ir Parsing

/-! ## Image files -/

section WriteImage

variable {κ : Type} [DecidableEq κ] {pieces before after : List (κ × List UInt8)}
  {offsets offsets' : List (κ × BitVec 32)} {file file' bytes : List UInt8} {key : κ}

theorem offsetOf_cons_of_ne {entry : κ × BitVec 32} (h : entry.1 ≠ key) :
    offsetOf (entry :: offsets) key = offsetOf offsets key := by
  rw [offsetOf, offsetOf, List.find?_cons_of_neg (by simpa using h)]

theorem offsetOf_cons_self {value : BitVec 32} :
    offsetOf ((key, value) :: offsets) key = value := by
  rw [offsetOf, List.find?_cons_of_pos (by simp)]
  rfl

theorem foldlM_writeImage
    (h : pieces.foldlM
      (fun (offsets, file) (key, bytes) => do
        ensure (file.length < 2 ^ 32)
        some ((key, BitVec.ofNat 32 file.length) :: offsets, file ++ bytes))
      (offsets, file) = some (offsets', file')) :
    file' = file ++ (pieces.map Prod.snd).flatten ∧
      (∀ key, key ∉ pieces.map Prod.fst → offsetOf offsets' key = offsetOf offsets key) ∧
      ∀ before key bytes after, pieces = before ++ (key, bytes) :: after →
        key ∉ after.map Prod.fst →
        (offsetOf offsets' key).toNat = (file ++ (before.map Prod.snd).flatten).length := by
  induction pieces generalizing offsets file with
  | nil =>
      obtain ⟨rfl, rfl⟩ := Prod.mk.inj (Option.some.inj h)
      refine ⟨by simp, fun _ _ => rfl, fun before key bytes after hsplit => ?_⟩
      exact absurd hsplit.symm (by simp)
  | cons piece rest ih =>
      obtain ⟨key, bytes⟩ := piece
      obtain ⟨state, hstate, hrest⟩ := Option.bind_eq_some_iff.mp h
      obtain ⟨_, hlength, hstate⟩ := Option.bind_eq_some_iff.mp hstate
      obtain rfl := Option.some.inj hstate
      obtain ⟨hfile, hkeep, hsplit⟩ := ih hrest
      refine ⟨by rw [hfile]; simp, fun other hother => ?_, fun before other bytes' after heq => ?_⟩
      · rw [List.map_cons, List.mem_cons, not_or] at hother
        rw [hkeep other hother.2, offsetOf_cons_of_ne (Ne.symm hother.1)]
      · rcases before with _ | ⟨first, before⟩
        · obtain ⟨hpiece, rfl⟩ := List.cons.inj heq
          obtain ⟨rfl, rfl⟩ := Prod.mk.inj hpiece
          intro hafter
          rw [hkeep key hafter, offsetOf_cons_self, BitVec.toNat_ofNat,
            Nat.mod_eq_of_lt (ensure_eq_some.mp hlength)]
          simp
        · obtain ⟨rfl, hrestSplit⟩ := List.cons.inj heq
          intro hafter
          rw [hsplit before other bytes' after hrestSplit hafter]
          simp

theorem getElem?_writeImage (h : writeImage pieces = some (offsets, file))
    (hkeys : (pieces.map Prod.fst).Nodup) (hmem : (key, bytes) ∈ pieces) :
    (offsetOf offsets key).toNat + bytes.length ≤ file.length ∧
      ∀ i < bytes.length, file[(offsetOf offsets key).toNat + i]? = bytes[i]? := by
  obtain ⟨before, after, rfl⟩ := List.append_of_mem hmem
  have hafter : key ∉ after.map Prod.fst := by
    rw [List.map_append, List.map_cons, List.nodup_append] at hkeys
    exact (List.nodup_cons.mp hkeys.2.1).1
  obtain ⟨hfile, -, hsplit⟩ := foldlM_writeImage h
  rw [hsplit before key bytes after rfl hafter, hfile, List.nil_append, List.nil_append,
    List.map_append, List.map_cons, List.flatten_append, List.flatten_cons]
  refine ⟨by simp, fun i hi => ?_⟩
  rw [List.getElem?_append_right (by omega), Nat.add_sub_cancel_left,
    List.getElem?_append_left hi]

/-- Whether pieces can be written, and where, depends on their lengths only. -/
theorem writeImage_congr {α : Type} {keys : α → κ} {contents contents' : α → List UInt8}
    {l : List α} (hlength : ∀ a ∈ l, (contents a).length = (contents' a).length)
    (h : writeImage (l.map fun a => (keys a, contents a)) = some (offsets, file)) :
    ∃ file', writeImage (l.map fun a => (keys a, contents' a)) = some (offsets, file') := by
  have hstep : ∀ (l : List α) (start : List (κ × BitVec 32)) (bytes bytes' : List UInt8)
      (stop : List (κ × BitVec 32) × List UInt8),
      (∀ a ∈ l, (contents a).length = (contents' a).length) → bytes.length = bytes'.length →
      (l.map fun a => (keys a, contents a)).foldlM
        (fun (offsets, file) (key, bytes) => do
          ensure (file.length < 2 ^ 32)
          some ((key, BitVec.ofNat 32 file.length) :: offsets, file ++ bytes))
        (start, bytes) = some stop →
      ∃ file', (l.map fun a => (keys a, contents' a)).foldlM
        (fun (offsets, file) (key, bytes) => do
          ensure (file.length < 2 ^ 32)
          some ((key, BitVec.ofNat 32 file.length) :: offsets, file ++ bytes))
        (start, bytes') = some (stop.1, file') := by
    intro l
    induction l with
    | nil =>
        intro start bytes bytes' stop _ _ hfold
        obtain rfl := Option.some.inj hfold
        exact ⟨bytes', rfl⟩
    | cons a rest ih =>
        intro start bytes bytes' stop hall hbytes hfold
        obtain ⟨state, hstate, hrest⟩ := Option.bind_eq_some_iff.mp hfold
        obtain ⟨_, hsmall, hstate⟩ := Option.bind_eq_some_iff.mp hstate
        obtain rfl := Option.some.inj hstate
        have hnext : (bytes ++ contents a).length = (bytes' ++ contents' a).length := by
          rw [List.length_append, List.length_append, hbytes, hall a List.mem_cons_self]
        obtain ⟨file', hfile'⟩ := ih _ _ _ stop (fun b hb => hall b (List.mem_cons_of_mem _ hb))
          hnext hrest
        refine ⟨file', Option.bind_eq_some_iff.mpr ⟨_, ?_, hfile'⟩⟩
        rw [hbytes] at hsmall ⊢
        exact Option.bind_eq_some_iff.mpr ⟨(), hsmall, rfl⟩
  exact hstep l [] [] [] (offsets, file) hlength rfl h

end WriteImage

/-! ## The ranges of one section -/

variable {s : BaseSection} {l : List (BitVec 32)} {ranges : List BaseFunctionRange}

theorem contains_iff {s : BaseSection} {address : BitVec 32} :
    s.contains address = true ↔
      s.guestStart.toNat ≤ address.toNat ∧ address.toNat < s.guestEnd.toNat := by
  rw [BaseSection.contains, Bool.and_eq_true, decide_eq_true_iff, decide_eq_true_iff]
  rfl

structure RangeOf (s : BaseSection) (l : List (BitVec 32)) (f : BaseFunctionRange) : Prop where
  start_mem : f.start ∈ l
  start_lt : f.start.toNat < f.stop.toNat
  stop_le : f.stop.toNat ≤ s.guestEnd.toNat
  name : f.sourceSection = s.name
  offset : f.sourceImageOffset.toNat =
    s.imageOffset.toNat + (f.start.toNat - s.guestStart.toNat)
  alone : ∀ x ∈ l, f.start.toNat < x.toNat → f.stop.toNat ≤ x.toNat

theorem sectionRanges_spec (h : sectionRanges s l = some ranges)
    (hsorted : l.Pairwise fun a b => a.toNat < b.toNat) (hin : ∀ x ∈ l, s.contains x = true) :
    ranges.Pairwise (fun f g => f.stop.toNat ≤ g.start.toNat) ∧
      ranges.map BaseFunctionRange.start = l ∧ ∀ f ∈ ranges, RangeOf s l f := by
  induction l generalizing ranges with
  | nil =>
      obtain rfl := Option.some.inj h
      exact ⟨List.Pairwise.nil, rfl, fun f hf => absurd hf List.not_mem_nil⟩
  | cons start rest ih =>
      rw [List.pairwise_cons] at hsorted
      obtain ⟨hfrom, hbelow⟩ := contains_iff.mp (hin start List.mem_cons_self)
      have hrestIn : ∀ x ∈ rest, s.contains x = true :=
        fun x hx => hin x (List.mem_cons_of_mem _ hx)
      have hstop : start.toNat < (rest.headD s.guestEnd).toNat ∧
          (rest.headD s.guestEnd).toNat ≤ s.guestEnd.toNat ∧
          ∀ x ∈ rest, (rest.headD s.guestEnd).toNat ≤ x.toNat := by
        cases rest with
        | nil => exact ⟨hbelow, le_rfl, fun x hx => absurd hx List.not_mem_nil⟩
        | cons next rest =>
            refine ⟨hsorted.1 next List.mem_cons_self,
              (contains_iff.mp (hrestIn next List.mem_cons_self)).2.le, fun x hx => ?_⟩
            rcases List.mem_cons.mp hx with rfl | hx
            · exact le_rfl
            · exact ((List.pairwise_cons.mp hsorted.2).1 x hx).le
      have hnle : ¬ rest.headD s.guestEnd ≤ start := not_le.mpr hstop.1
      rw [sectionRanges, if_neg hnle] at h
      obtain ⟨offset, hoffset, h⟩ := Option.bind_eq_some_iff.mp h
      obtain ⟨later, hlater, h⟩ := Option.bind_eq_some_iff.mp h
      obtain rfl := Option.some.inj h
      obtain ⟨hpairs, hstarts, hranges⟩ := ih hlater hsorted.2 hrestIn
      obtain ⟨hoffsetLt, rfl⟩ := checkedAdd_eq_some.mp hoffset
      have hsub : (start - s.guestStart).toNat = start.toNat - s.guestStart.toNat :=
        BitVec.toNat_sub_of_le hfrom
      refine ⟨List.pairwise_cons.mpr ⟨fun g hg => ?_, hpairs⟩, ?_, fun f hf => ?_⟩
      · exact hstop.2.2 g.start (hranges g hg).start_mem
      · rw [List.map_cons, hstarts]
      · rcases List.mem_cons.mp hf with rfl | hf
        · refine ⟨List.mem_cons_self, hstop.1, hstop.2.1, rfl, ?_, fun x hx hlt => ?_⟩
          · rw [BitVec.toNat_add, Nat.mod_eq_of_lt hoffsetLt, hsub]
          · rcases List.mem_cons.mp hx with rfl | hx
            · exact absurd hlt (lt_irrefl _)
            · exact hstop.2.2 x hx
        · obtain ⟨hmem, hlt, hle, hname, hoffset, halone⟩ := hranges f hf
          refine ⟨List.mem_cons_of_mem _ hmem, hlt, hle, hname, hoffset, fun x hx hxlt => ?_⟩
          rcases List.mem_cons.mp hx with rfl | hx
          · exact absurd (hsorted.1 f.start hmem) (by omega)
          · exact halone x hx hxlt

/-! ## All ranges -/

variable {sections : List BaseSection} {starts : List (BitVec 32)}

instance totalLe : Std.Total fun a b : BitVec 32 => a ≤ b :=
  ⟨fun a b => le_total a.toNat b.toNat⟩

instance transLe : IsTrans (BitVec 32) fun a b => a ≤ b :=
  ⟨fun a b c (hab : a.toNat ≤ b.toNat) (hbc : b.toNat ≤ c.toNat) => hab.trans hbc⟩

theorem mem_canonicalStarts {x : BitVec 32} :
    x ∈ canonicalStarts sections starts ↔
      x ∈ starts ∧ ∃ s ∈ sections, s.executable = true ∧ s.contains x = true := by
  rw [canonicalStarts, List.mem_insertionSort, List.mem_dedup, List.mem_filter, List.any_eq_true]
  simp only [Bool.and_eq_true]

theorem pairwise_canonicalStarts (sections : List BaseSection) (starts : List (BitVec 32)) :
    (canonicalStarts sections starts).Pairwise fun a b => a.toNat < b.toNat := by
  have hsorted : (canonicalStarts sections starts).Pairwise (· ≤ ·) :=
    List.pairwise_insertionSort _ _
  have hnodup : (canonicalStarts sections starts).Nodup :=
    (List.perm_insertionSort _ _).nodup_iff.mpr (List.nodup_dedup _)
  refine (hsorted.and hnodup).imp fun {a b} hab => ?_
  have hle : a.toNat ≤ b.toNat := hab.1
  exact lt_of_le_of_ne hle fun heq => hab.2 (BitVec.eq_of_toNat_eq heq)

/-- Two sections have no address in common. -/
def Apart (s t : BaseSection) : Prop :=
  s.guestEnd.toNat ≤ t.guestStart.toNat ∨ t.guestEnd.toNat ≤ s.guestStart.toNat

def startsIn (sections : List BaseSection) (starts : List (BitVec 32)) (s : BaseSection) :
    List (BitVec 32) :=
  (canonicalStarts sections starts).filter fun start => s.contains start

theorem sectionRanges_startsIn (h : sectionRanges s (startsIn sections starts s) = some ranges) :
    ranges.Pairwise (fun f g => f.stop.toNat ≤ g.start.toNat) ∧
      ranges.map BaseFunctionRange.start = startsIn sections starts s ∧
      ∀ f ∈ ranges, RangeOf s (startsIn sections starts s) f :=
  sectionRanges_spec h ((pairwise_canonicalStarts sections starts).filter _)
    fun _ hx => (List.mem_filter.mp hx).2

variable {functions : List BaseFunctionRange} {f : BaseFunctionRange}

theorem exists_section_of_mem (h : buildFunctionRanges sections starts = some functions)
    (hf : f ∈ functions) :
    ∃ s ∈ sections, s.executable = true ∧ RangeOf s (startsIn sections starts s) f := by
  obtain ⟨all, hall, rfl⟩ := Option.map_eq_some_iff.mp h
  obtain ⟨ranges, hranges, hmem⟩ := List.mem_flatten.mp hf
  obtain ⟨s, hs, hsection⟩ := PartialMaps.mem_of_mapM hall hranges
  rw [List.mem_insertionSort, List.mem_filter] at hs
  exact ⟨s, hs.1, hs.2, (sectionRanges_startsIn hsection).2.2 f hmem⟩

theorem exists_range_of_start (h : buildFunctionRanges sections starts = some functions)
    (hs : s ∈ sections) (hexecutable : s.executable = true) {x : BitVec 32} (hx : x ∈ starts)
    (hcontains : s.contains x = true) :
    ∃ f ∈ functions, f.start = x ∧ RangeOf s (startsIn sections starts s) f := by
  obtain ⟨all, hall, rfl⟩ := Option.map_eq_some_iff.mp h
  have hmem : s ∈ (sections.filter fun s => s.executable).insertionSort
      fun a b => a.guestStart ≤ b.guestStart := by
    rw [List.mem_insertionSort, List.mem_filter]
    exact ⟨hs, hexecutable⟩
  obtain ⟨ranges, hranges, hsection⟩ := PartialMaps.exists_of_mem_mapM hall hmem
  obtain ⟨-, hstarts, hrange⟩ := sectionRanges_startsIn hsection
  have hstart : x ∈ ranges.map BaseFunctionRange.start := by
    rw [hstarts]
    exact List.mem_filter.mpr
      ⟨mem_canonicalStarts.mpr ⟨hx, s, hs, hexecutable, hcontains⟩, hcontains⟩
  obtain ⟨f, hf, rfl⟩ := List.mem_map.mp hstart
  exact ⟨f, List.mem_flatten.mpr ⟨ranges, hranges, hf⟩, rfl, hrange f hf⟩

theorem RangeOf.alone_of_section (h : RangeOf s (startsIn sections starts s) f)
    (hs : s ∈ sections) (hexecutable : s.executable = true) {x : BitVec 32} (hx : x ∈ starts)
    (hle : f.start.toNat ≤ x.toNat) (hlt : x.toNat < f.stop.toNat) : x = f.start := by
  have hfrom := (contains_iff.mp (List.mem_filter.mp h.start_mem).2).1
  have hcontains : s.contains x = true :=
    contains_iff.mpr ⟨hfrom.trans hle, hlt.trans_le h.stop_le⟩
  have hmem : x ∈ startsIn sections starts s :=
    List.mem_filter.mpr ⟨mem_canonicalStarts.mpr ⟨hx, s, hs, hexecutable, hcontains⟩, hcontains⟩
  by_contra hne
  have hltStart : f.start.toNat < x.toNat :=
    lt_of_le_of_ne hle fun heq => hne (BitVec.eq_of_toNat_eq heq).symm
  exact absurd hlt (not_lt.mpr (h.alone x hmem hltStart))

/-- Ranges share no address when the executable sections share none. -/
theorem pairwise_functions (h : buildFunctionRanges sections starts = some functions)
    (hapart : (sections.filter fun s => s.executable).Pairwise Apart) :
    functions.Pairwise fun f g => f.stop.toNat ≤ g.start.toNat ∨ g.stop.toNat ≤ f.start.toNat := by
  obtain ⟨all, hall, rfl⟩ := Option.map_eq_some_iff.mp h
  have hsorted : ((sections.filter fun s => s.executable).insertionSort
      fun a b => a.guestStart ≤ b.guestStart).Pairwise Apart :=
    (List.perm_insertionSort _ _).symm.pairwise hapart fun hst => Or.symm hst
  rw [List.pairwise_flatten]
  constructor
  · intro ranges hranges
    obtain ⟨s, -, hsection⟩ := PartialMaps.mem_of_mapM hall hranges
    exact (sectionRanges_startsIn hsection).1.imp Or.inl
  · refine PartialMaps.pairwise_of_mapM hall hsorted fun s t left right hleft hright hst => ?_
    intro f hf g hg
    have hrangeF := (sectionRanges_startsIn hleft).2.2 f hf
    have hrangeG := (sectionRanges_startsIn hright).2.2 g hg
    have hfromF := (contains_iff.mp (List.mem_filter.mp hrangeF.start_mem).2).1
    have hfromG := (contains_iff.mp (List.mem_filter.mp hrangeG.start_mem).2).1
    exact hst.imp (fun hle => (hrangeF.stop_le.trans hle).trans hfromG)
      fun hle => (hrangeG.stop_le.trans hle).trans hfromF

end Wiicompiled.Mods.BaseManifestBuilder
