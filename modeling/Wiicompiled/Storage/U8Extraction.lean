import Wiicompiled.Storage.U8Archive
import Mathlib.Data.List.TakeWhile

/-!
# What the extraction from a U8 archive finds

A directory encloses the nodes behind it up to its end, and the path of a node leads
through the innermost directory that encloses it.  An extraction stays inside of the
archive exactly when its checks hold also for sums without wrap-around, and every name it
looks at has an end; what it extracts is the file of the first node with the name or path.
-/

namespace Wiicompiled.Storage.U8Archive

open ByteImage

/-! ## The nodes of an archive -/

namespace Archive

variable (archive : Archive)

def word (offset : ℕ) : ℕ :=
  fromBytes (window archive.data offset 4)

def node (i : ℕ) : ℕ :=
  archive.rootOffset + i * nodeBytes

def typeAndName (i : ℕ) : ℕ :=
  archive.word (archive.node i)

def dataOffset (i : ℕ) : ℕ :=
  archive.word (archive.node i + 4)

/-- The size of a file, or the end of a directory. -/
def size (i : ℕ) : ℕ :=
  archive.word (archive.node i + 8)

def IsDir (i : ℕ) : Prop :=
  archive.typeAndName i / 2 ^ 24 ≠ 0

def nameStart (i : ℕ) : ℕ :=
  archive.stringTableOffset + archive.typeAndName i % 2 ^ 24

def name (i : ℕ) : List UInt8 :=
  (archive.data.drop (archive.nameStart i)).takeWhile (· ≠ 0)

/-- The root encloses all nodes, and a directory those behind it up to its end. -/
def Encloses (d i : ℕ) : Prop :=
  d < i ∧ (d = 0 ∨ archive.IsDir d ∧ i < archive.size d)

open scoped Classical in
/-- The innermost directory that encloses a node. -/
noncomputable def parent (i : ℕ) : ℕ :=
  Nat.findGreatest (fun d => archive.Encloses d i) i

theorem parent_lt {i : ℕ} (hi : i ≠ 0) : archive.parent i < i := by
  classical
  have hroot : archive.Encloses 0 i := ⟨Nat.pos_of_ne_zero hi, Or.inl rfl⟩
  exact (Nat.findGreatest_spec (P := fun d => archive.Encloses d i) (Nat.zero_le i) hroot).1

/-- The path of a directory, with a slash at its end. -/
noncomputable def dirPath (d : ℕ) : List UInt8 :=
  if h : d = 0 then []
  else
    have := archive.parent_lt h
    dirPath (archive.parent d) ++ archive.name d ++ [47]
termination_by d

/-- The path of a node through the directories that enclose it. -/
noncomputable def path (i : ℕ) : List UInt8 :=
  archive.dirPath (archive.parent i) ++ archive.name i

/-- A file whose path or own name is the target. -/
def Matches (targetName : List UInt8) (i : ℕ) : Prop :=
  ¬archive.IsDir i ∧ (archive.path i = targetName ∨ archive.name i = targetName)

/-- The 32-bit check of a name fails. -/
def NameRejected (i : ℕ) : Prop :=
  archive.data.length ≤ archive.nameStart i % 2 ^ 32

/-- The scan looks at a node: no earlier one has a rejected name or is the target. -/
def Reached (targetName : List UInt8) (i : ℕ) : Prop :=
  1 ≤ i ∧ i < archive.nodeCount ∧
    ∀ j, 1 ≤ j → j < i → ¬archive.NameRejected j ∧ ¬archive.Matches targetName j

/-- The checks of a node hold without wrap-around, and its name has an end: its first word
is in the archive, and, unless its name is rejected, so are its name, its other words if it
is a directory or the target, and the range of the target unless that is rejected. -/
structure Inside (targetName : List UInt8) (i : ℕ) : Prop where
  first : archive.node i + 4 ≤ archive.data.length
  name : ¬archive.NameRejected i → 0 ∈ archive.data.drop (archive.nameStart i)
  words : ¬archive.NameRejected i → archive.IsDir i ∨ archive.Matches targetName i →
    archive.node i + 12 ≤ archive.data.length
  range : ¬archive.NameRejected i → archive.Matches targetName i →
    (archive.dataOffset i + archive.size i) % 2 ^ 32 ≤ archive.data.length →
      archive.dataOffset i + archive.size i ≤ archive.data.length

def FirstMatch (targetName bytes : List UInt8) : Prop :=
  ∃ i, 1 ≤ i ∧ i < archive.nodeCount ∧ archive.Matches targetName i ∧
    (∀ j, 1 ≤ j → j < i → ¬archive.Matches targetName j) ∧
    archive.dataOffset i + archive.size i ≤ archive.data.length ∧
    bytes = window archive.data (archive.dataOffset i) (archive.size i)

/-! ## The stack of open directories -/

noncomputable def frame (d : ℕ) : DirFrame :=
  ⟨archive.dirPath d, if d = 0 then archive.nodeCount else archive.size d⟩

/-- The stack in front of node `index`: directories from the inside out, down to the root.
A directory that is not on it has ended. -/
structure Open (index : ℕ) (dirs : List ℕ) : Prop where
  sorted : dirs.Pairwise (· > ·)
  root : 0 ∈ dirs
  before : ∀ d ∈ dirs, d < index ∧ (d = 0 ∨ archive.IsDir d)
  closed : ∀ d, d < index → d ≠ 0 → archive.IsDir d → d ∉ dirs → archive.size d ≤ index

variable {archive} {index : ℕ} {dirs : List ℕ} {targetName : List UInt8}

theorem parent_eq {d i : ℕ} (h : archive.Encloses d i)
    (hgreatest : ∀ d', d < d' → ¬archive.Encloses d' i) : archive.parent i = d := by
  classical
  refine Nat.findGreatest_eq_iff.mpr ⟨h.1.le, fun _ => h, ?_⟩
  intro d' hlt _
  exact hgreatest d' hlt

theorem open_root : archive.Open 1 [0] where
  sorted := List.pairwise_singleton _ 0
  root := List.mem_singleton.mpr rfl
  before d hd := by
    rw [List.mem_singleton.mp hd]
    exact ⟨Nat.one_pos, Or.inl rfl⟩
  closed d hd hne := absurd (Nat.lt_one_iff.mp hd) hne

/-- Without the directories that have ended, the first one is the parent of the node. -/
theorem Open.dropWhile (h : archive.Open index dirs) (hindex : index < archive.nodeCount) :
    ∃ top below, dirs.dropWhile (fun d => (archive.frame d).endIndex ≤ index) = top :: below ∧
      archive.parent index = top ∧ archive.Open index (top :: below) := by
  have hrootOpen : ¬(archive.frame 0).endIndex ≤ index := by
    rw [frame, if_pos rfl]
    exact not_le.mpr hindex
  -- the stack is `ended ++ top :: below`, and the root is not among the ended ones
  have hsplit := List.takeWhile_append_dropWhile
    (p := fun d => decide ((archive.frame d).endIndex ≤ index)) (l := dirs)
  have hended : ∀ d ∈ dirs.takeWhile fun d => decide ((archive.frame d).endIndex ≤ index),
      (archive.frame d).endIndex ≤ index := by
    intro d hd
    simpa using List.mem_takeWhile_imp hd
  rcases hrest : dirs.dropWhile fun d => decide ((archive.frame d).endIndex ≤ index) with
    _ | ⟨top, below⟩
  · rw [hrest, List.append_nil] at hsplit
    rw [← hsplit] at h
    exact absurd (hended 0 h.root) hrootOpen
  · have htop : ¬(archive.frame top).endIndex ≤ index := by
      have := List.head_dropWhile_not (fun d => decide ((archive.frame d).endIndex ≤ index))
        (l := dirs) (by rw [hrest]; exact List.cons_ne_nil _ _)
      simpa [hrest] using this
    rw [hrest] at hsplit
    have hsorted := h.sorted
    rw [← hsplit, List.pairwise_append] at hsorted
    have hmem : ∀ d ∈ top :: below, d ∈ dirs := by
      intro d hd
      rw [← hsplit]
      exact List.mem_append_right _ hd
    have hopen : archive.Open index (top :: below) :=
      { sorted := hsorted.2.1
        root := by
          have hroot := h.root
          rw [← hsplit, List.mem_append] at hroot
          rcases hroot with hroot | hroot
          · exact absurd (hended 0 hroot) hrootOpen
          · exact hroot
        before := fun d hd => h.before d (hmem d hd)
        closed := by
          intro d hd hne hdir hnot
          by_cases hin : d ∈ dirs
          · rw [← hsplit, List.mem_append] at hin
            have hle := hended d (hin.resolve_right hnot)
            rwa [frame, if_neg hne] at hle
          · exact h.closed d hd hne hdir hin }
    refine ⟨top, below, rfl, ?_, hopen⟩
    obtain ⟨htopLt, htopDir⟩ := hopen.before top List.mem_cons_self
    refine parent_eq ⟨htopLt, ?_⟩ ?_
    · by_cases hzero : top = 0
      · exact Or.inl hzero
      · rw [frame, if_neg hzero] at htop
        exact Or.inr ⟨htopDir.resolve_left hzero, not_le.mp htop⟩
    · -- a later directory is not on the stack, so it has ended
      rintro d hlt ⟨hd, hzero | ⟨hdir, hsize⟩⟩
      · omega
      · have hne : d ≠ 0 := by omega
        have hnot : d ∉ top :: below := by
          intro hmem
          rcases List.mem_cons.mp hmem with rfl | hbelow
          · exact lt_irrefl _ hlt
          · exact absurd ((List.pairwise_cons.mp hopen.sorted).1 d hbelow) (by omega)
        exact absurd (hopen.closed d hd hne hdir hnot) (not_le.mpr hsize)

theorem Open.file (h : archive.Open index dirs) (hdir : ¬archive.IsDir index) :
    archive.Open (index + 1) dirs where
  sorted := h.sorted
  root := h.root
  before d hd := ⟨Nat.lt_succ_of_lt (h.before d hd).1, (h.before d hd).2⟩
  closed d hd hne hisDir hnot := by
    rcases Nat.lt_succ_iff_lt_or_eq.mp hd with hlt | rfl
    · exact (h.closed d hlt hne hisDir hnot).trans (Nat.le_succ index)
    · exact absurd hisDir hdir

theorem Open.directory (h : archive.Open index dirs) (hdir : archive.IsDir index) :
    archive.Open (index + 1) (index :: dirs) where
  sorted := List.pairwise_cons.mpr ⟨fun d hd => (h.before d hd).1, h.sorted⟩
  root := List.mem_cons_of_mem _ h.root
  before d hd := by
    rcases List.mem_cons.mp hd with rfl | hd
    · exact ⟨Nat.lt_succ_self d, Or.inr hdir⟩
    · exact ⟨Nat.lt_succ_of_lt (h.before d hd).1, (h.before d hd).2⟩
  closed d hd hne hisDir hnot := by
    rw [List.mem_cons, not_or] at hnot
    rcases Nat.lt_succ_iff_lt_or_eq.mp hd with hlt | heq
    · exact (h.closed d hlt hne hisDir hnot.2).trans (Nat.le_succ index)
    · exact absurd heq hnot.1

/-! ## The scan -/

/-- Every node from `index` on that the scan looks at is inside of the archive. -/
def InsideFrom (archive : Archive) (targetName : List UInt8) (index : ℕ) : Prop :=
  ∀ i, index ≤ i → archive.Reached targetName i → archive.Inside targetName i

theorem insideFrom_iff (hreached : archive.Reached targetName index) :
    archive.InsideFrom targetName index ↔ archive.Inside targetName index ∧
      (¬archive.NameRejected index → ¬archive.Matches targetName index →
        archive.InsideFrom targetName (index + 1)) := by
  constructor
  · intro h
    exact ⟨h index le_rfl hreached, fun _ _ i hi => h i (Nat.le_of_succ_le hi)⟩
  · rintro ⟨hinside, hlater⟩ i hi hreachedI
    rcases Nat.eq_or_lt_of_le hi with rfl | hlt
    · exact hinside
    · obtain ⟨hname, hmatch⟩ := hreachedI.2.2 index hreached.1 hlt
      exact hlater hname hmatch i hlt hreachedI

theorem read_word {offset : ℕ} (h : offset + 4 ≤ archive.data.length) :
    read archive.data offset 4 = some (archive.word offset) :=
  read_eq_some_iff.mpr ⟨h, rfl⟩

theorem read_outside {offset : ℕ} (h : ¬offset + 4 ≤ archive.data.length) :
    read archive.data offset 4 = none :=
  if_neg h

theorem frame_of_parent (hindex : index ≠ 0) :
    archive.frame index =
      ⟨archive.dirPath (archive.parent index) ++ archive.name index ++ [47],
        archive.size index⟩ := by
  rw [frame, if_neg hindex, dirPath, dif_neg hindex]

open scoped Classical in
theorem scanNodes_node {left top : ℕ} {below : List ℕ}
    (hdrop : dirs.dropWhile (fun d => (archive.frame d).endIndex ≤ index) = top :: below)
    (hparent : archive.parent index = top) (hindex : index ≠ 0) :
    scanNodes archive targetName (left + 1) index (dirs.map archive.frame) =
      if archive.node index + 4 ≤ archive.data.length then
        if archive.NameRejected index then some none
        else if 0 ∈ archive.data.drop (archive.nameStart index) then
          if archive.IsDir index then
            if archive.node index + 12 ≤ archive.data.length then
              scanNodes archive targetName left (index + 1)
                ((index :: top :: below).map archive.frame)
            else none
          else if archive.Matches targetName index then
            if archive.node index + 12 ≤ archive.data.length then
              if archive.data.length <
                  (archive.dataOffset index + archive.size index) % 2 ^ 32 then some none
              else (readRange archive.data (archive.dataOffset index)
                (archive.size index)).map some
            else none
          else
            scanNodes archive targetName left (index + 1) ((top :: below).map archive.frame)
        else none
      else none := by
  have hstack : (dirs.map archive.frame).dropWhile (fun frame => frame.endIndex ≤ index) =
      archive.frame top :: below.map archive.frame := by
    rw [List.dropWhile_map]
    exact congrArg (List.map archive.frame) hdrop
  have htopPath : (archive.frame top).path = archive.dirPath (archive.parent index) := by
    rw [hparent, frame]
  rw [scanNodes, hstack]
  by_cases hfirst : archive.node index + 4 ≤ archive.data.length
  swap
  · rw [if_neg hfirst]
    exact congrArg (Option.bind · _) (read_outside hfirst)
  rw [if_pos hfirst]
  refine (congrArg (Option.bind · _) (read_word hfirst)).trans ?_
  rw [Option.bind_some]
  by_cases hrejected : archive.NameRejected index
  · rw [if_pos hrejected]
    exact if_pos hrejected
  rw [if_neg hrejected]
  refine (if_neg hrejected).trans ?_
  by_cases hend : 0 ∈ archive.data.drop (archive.nameStart index)
  swap
  · rw [if_neg hend]
    exact congrArg (Option.bind · _) (if_neg hend)
  rw [if_pos hend]
  refine (congrArg (Option.bind · _) (if_pos hend)).trans ?_
  rw [Option.bind_some, htopPath]
  by_cases hdir : archive.IsDir index
  · rw [if_pos hdir]
    refine (if_pos hdir).trans ?_
    by_cases hwords : archive.node index + 12 ≤ archive.data.length
    · rw [if_pos hwords, List.map_cons, frame_of_parent hindex]
      exact congrArg (Option.bind · _) (@read_word archive (archive.node index + 8) hwords)
    · rw [if_neg hwords]
      exact congrArg (Option.bind · _) (@read_outside archive (archive.node index + 8) hwords)
  rw [if_neg hdir]
  refine (if_neg hdir).trans ?_
  by_cases hmatch : archive.Matches targetName index
  swap
  · rw [if_neg hmatch]
    exact if_neg fun h => hmatch ⟨hdir, h⟩
  rw [if_pos hmatch]
  refine (if_pos hmatch.2).trans ?_
  by_cases hoffset : archive.node index + 4 + 4 ≤ archive.data.length
  swap
  · rw [if_neg (by omega)]
    exact congrArg (Option.bind · _) (read_outside hoffset)
  refine (congrArg (Option.bind · _) (read_word hoffset)).trans ?_
  rw [Option.bind_some]
  by_cases hwords : archive.node index + 12 ≤ archive.data.length
  · rw [if_pos hwords]
    exact congrArg (Option.bind · _) (@read_word archive (archive.node index + 8) hwords)
  · rw [if_neg hwords]
    exact congrArg (Option.bind · _) (@read_outside archive (archive.node index + 8) hwords)

/-- The scan from `index` on has a result exactly when the nodes it looks at are inside of
the archive, and the file it finds is that of the first match. -/
theorem scanNodes_spec {left : ℕ} (hindex : 1 ≤ index) (hleft : left = archive.nodeCount - index)
    (hopen : archive.Open index dirs)
    (hearlier : ∀ j, 1 ≤ j → j < index →
      ¬archive.NameRejected j ∧ ¬archive.Matches targetName j) :
    (scanNodes archive targetName left index (dirs.map archive.frame) ≠ none ↔
        archive.InsideFrom targetName index) ∧
      ∀ bytes, scanNodes archive targetName left index (dirs.map archive.frame) =
        some (some bytes) → archive.FirstMatch targetName bytes := by
  induction left generalizing index dirs with
  | zero =>
      refine ⟨⟨fun _ i hi hreached => ?_, fun _ => Option.some_ne_none none⟩, ?_⟩
      · have := hreached.2.1
        omega
      · intro bytes h
        cases Option.some.inj h
  | succ left ih =>
      have hlt : index < archive.nodeCount := by omega
      have hreached : archive.Reached targetName index := ⟨hindex, hlt, hearlier⟩
      obtain ⟨top, below, hdrop, hparent, hrest⟩ := hopen.dropWhile hlt
      have hearlier' : ¬archive.NameRejected index → ¬archive.Matches targetName index →
          ∀ j, 1 ≤ j → j < index + 1 → ¬archive.NameRejected j ∧ ¬archive.Matches targetName j := by
        intro hname hmatch j hj hjlt
        rcases Nat.lt_succ_iff_lt_or_eq.mp hjlt with hjlt | rfl
        · exact hearlier j hj hjlt
        · exact ⟨hname, hmatch⟩
      rw [insideFrom_iff hreached,
        scanNodes_node hdrop hparent (Nat.one_le_iff_ne_zero.mp hindex)]
      split_ifs with hfirst hname hend hdir hwords hmatch hwords hrange
      · -- a rejected name
        refine ⟨⟨fun _ => ⟨⟨hfirst, absurd hname, absurd hname, absurd hname⟩, absurd hname⟩,
          fun _ => Option.some_ne_none none⟩, fun _ h => ?_⟩
        cases Option.some.inj h
      · -- a directory
        have hmatch : ¬archive.Matches targetName index := fun h => h.1 hdir
        have hinside : archive.Inside targetName index :=
          ⟨hfirst, fun _ => hend, fun _ _ => hwords, fun _ h => absurd h hmatch⟩
        obtain ⟨hiff, hfile⟩ := ih (Nat.le_succ_of_le hindex) (by omega) (hrest.directory hdir)
          (hearlier' hname hmatch)
        refine ⟨hiff.trans ⟨fun h => ⟨hinside, fun _ _ => h⟩, fun h => h.2 hname hmatch⟩, hfile⟩
      · exact ⟨⟨fun h => absurd rfl h, fun h => absurd (h.1.words hname (Or.inl hdir)) hwords⟩,
          fun _ h => nomatch h⟩
      · -- the target, with a rejected range
        have hrange' : ¬(archive.dataOffset index + archive.size index) % 2 ^ 32 ≤
            archive.data.length := not_le.mpr hrange
        refine ⟨⟨fun _ => ⟨⟨hfirst, fun _ => hend, fun _ _ => hwords,
          fun _ _ => (absurd · hrange')⟩, fun _ => absurd hmatch⟩,
          fun _ => Option.some_ne_none none⟩, fun _ h => ?_⟩
        cases Option.some.inj h
      · -- the target
        by_cases hbound : archive.dataOffset index + archive.size index ≤ archive.data.length
        · rw [readRange, if_pos hbound, Option.map_some]
          refine ⟨⟨fun _ => ⟨⟨hfirst, fun _ => hend, fun _ _ => hwords, fun _ _ _ => hbound⟩,
            fun _ => absurd hmatch⟩, fun _ => Option.some_ne_none _⟩, fun bytes h => ?_⟩
          exact ⟨index, hindex, hlt, hmatch, fun j hj hjlt => (hearlier j hj hjlt).2, hbound,
            (Option.some.inj (Option.some.inj h)).symm⟩
        · rw [readRange, if_neg hbound, Option.map_none]
          exact ⟨⟨fun h => absurd rfl h,
            fun h => absurd (h.1.range hname hmatch (not_lt.mp hrange)) hbound⟩,
            fun _ h => nomatch h⟩
      · exact ⟨⟨fun h => absurd rfl h,
          fun h => absurd (h.1.words hname (Or.inr hmatch)) hwords⟩,
          fun _ h => nomatch h⟩
      · -- another file
        have hinside : archive.Inside targetName index :=
          ⟨hfirst, fun _ => hend, fun _ h => absurd h (not_or.mpr ⟨hdir, hmatch⟩),
            fun _ h => absurd h hmatch⟩
        obtain ⟨hiff, hfile⟩ := ih (Nat.le_succ_of_le hindex) (by omega) (hrest.file hdir)
          (hearlier' hname hmatch)
        refine ⟨hiff.trans ⟨fun h => ⟨hinside, fun _ _ => h⟩, fun h => h.2 hname hmatch⟩, hfile⟩
      · exact ⟨⟨fun h => absurd rfl h, fun h => absurd (h.1.name hname) hend⟩,
          fun _ h => nomatch h⟩
      · exact ⟨⟨fun h => absurd rfl h, fun h => absurd h.1.first hfirst⟩,
          fun _ h => nomatch h⟩

end Archive

/-! ## The extraction -/

section Extraction

variable (data targetName : List UInt8)

/-- The archive that the header of a file describes. -/
def archiveOf : Archive :=
  let rootOffset := fromBytes (window data 4 4)
  let nodeCount := fromBytes (window data (rootOffset + 8) 4)
  ⟨data, rootOffset, nodeCount, (rootOffset + nodeCount * nodeBytes % 2 ^ 32) % 2 ^ 32⟩

/-- A short file, another magic number or a root behind the end. -/
def HeaderRejected : Prop :=
  data.length < 0x20 ∨ fromBytes (window data 0 4) ≠ u8Magic ∨
    data.length < ((archiveOf data).rootOffset + 0x0C) % 2 ^ 32

/-- An accepted header has its root in the file without wrap-around, and unless its string
table is rejected every node that the scan looks at is inside of the archive. -/
def ChecksHoldExactly : Prop :=
  HeaderRejected data ∨
    (archiveOf data).rootOffset + 12 ≤ data.length ∧
      (data.length ≤ (archiveOf data).stringTableOffset ∨
        (archiveOf data).InsideFrom targetName 1)

/-- No byte outside of the file is read, and what is extracted is the first match. -/
def ExtractsFirstMatch : Prop :=
  extractFromU8 data targetName ≠ none ∧
    ∀ bytes, extractFromU8 data targetName = some (some bytes) →
      (archiveOf data).FirstMatch targetName bytes

variable {data targetName}

theorem extractFromU8_accepted (hheader : ¬HeaderRejected data) :
    extractFromU8 data targetName =
      if (archiveOf data).rootOffset + 12 ≤ data.length then
        if data.length ≤ (archiveOf data).stringTableOffset then some none
        else scanNodes (archiveOf data) targetName ((archiveOf data).nodeCount - 1) 1
          ([0].map (archiveOf data).frame)
      else none := by
  simp only [HeaderRejected, not_or, not_not] at hheader
  obtain ⟨hlength, hmagic, hroot⟩ := hheader
  rw [extractFromU8, if_neg hlength]
  refine (congrArg (Option.bind · _) (read_eq_some_iff.mpr ⟨by omega, hmagic⟩)).trans ?_
  rw [Option.bind_some]
  refine (if_neg (not_not.mpr rfl)).trans ?_
  refine (congrArg (Option.bind · _) (read_eq_some_iff.mpr ⟨by omega, rfl⟩)).trans ?_
  rw [Option.bind_some]
  refine (if_neg hroot).trans ?_
  by_cases hbound : (archiveOf data).rootOffset + 12 ≤ data.length
  · have hcount : read data ((archiveOf data).rootOffset + 8) 4 =
        some (archiveOf data).nodeCount := read_eq_some_iff.mpr ⟨hbound, rfl⟩
    rw [if_pos hbound]
    refine (congrArg (Option.bind · _) hcount).trans ?_
    rw [List.map_singleton, Archive.frame, if_pos rfl, Archive.dirPath, dif_pos rfl]
    rfl
  · have hcount : read data ((archiveOf data).rootOffset + 8) 4 = none := if_neg hbound
    rw [if_neg hbound]
    exact congrArg (Option.bind · _) hcount

theorem extractFromU8_rejected (hheader : HeaderRejected data) :
    extractFromU8 data targetName = some none := by
  rw [extractFromU8]
  by_cases hlength : data.length < 0x20
  · exact if_pos hlength
  rw [if_neg hlength]
  refine (congrArg (Option.bind · _) (read_eq_some_iff.mpr ⟨by omega, rfl⟩)).trans ?_
  rw [Option.bind_some]
  by_cases hmagic : fromBytes (window data 0 4) ≠ u8Magic
  · exact if_pos hmagic
  refine (if_neg hmagic).trans ?_
  refine (congrArg (Option.bind · _) (read_eq_some_iff.mpr ⟨by omega, rfl⟩)).trans ?_
  rw [Option.bind_some]
  exact if_pos ((hheader.resolve_left hlength).resolve_left hmagic)

/-- An extraction stays inside of the file exactly when its checks hold without
wrap-around, and what it extracts is the first match. -/
theorem extractsFirstMatch_iff (data targetName : List UInt8) :
    ExtractsFirstMatch data targetName ↔ ChecksHoldExactly data targetName := by
  by_cases hheader : HeaderRejected data
  · rw [ExtractsFirstMatch, extractFromU8_rejected hheader]
    refine ⟨fun _ => Or.inl hheader, fun _ => ⟨Option.some_ne_none none, fun bytes h => ?_⟩⟩
    cases Option.some.inj h
  obtain ⟨hinside, hfile⟩ := @Archive.scanNodes_spec (archiveOf data) 1 [0] targetName _
    le_rfl rfl Archive.open_root (fun j hj hlt => absurd hj (by omega))
  rw [ExtractsFirstMatch, extractFromU8_accepted hheader, ChecksHoldExactly,
    or_iff_right hheader]
  by_cases hroot : (archiveOf data).rootOffset + 12 ≤ data.length
  swap
  · rw [if_neg hroot]
    exact ⟨fun h => absurd rfl h.1, fun h => absurd h.1 hroot⟩
  rw [if_pos hroot, and_iff_right hroot]
  by_cases htable : data.length ≤ (archiveOf data).stringTableOffset
  · rw [if_pos htable]
    refine ⟨fun _ => Or.inl htable, fun _ => ⟨Option.some_ne_none none, fun bytes h => ?_⟩⟩
    cases Option.some.inj h
  · rw [if_neg htable, or_iff_right htable]
    exact ⟨fun h => hinside.mp h.1, fun h => ⟨hinside.mpr h, hfile⟩⟩

/-- A file whose root offset is 8 less than 2 ^ 32: its check sees the sum 4. -/
def wrappingRoot : List UInt8 :=
  [0x55, 0xAA, 0x38, 0x2D, 0xFF, 0xFF, 0xFF, 0xF8] ++ List.replicate 24 0

/-- The root is read behind the end of the file. -/
theorem wrappingRoot_readsOutside : ¬ExtractsFirstMatch wrappingRoot [82] := by
  intro h
  exact h.1 (by decide)

end Extraction

end Wiicompiled.Storage.U8Archive
