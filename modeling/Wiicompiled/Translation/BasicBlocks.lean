import Wiicompiled.Disassembly.ListedEnds
import Wiicompiled.Support.CutLists
import Wiicompiled.Translation.LinearIr

/-!
# Basic blocks partition the function

The leaders cut the listing of a function into blocks.  The blocks are the listing again,
an instruction after which control leaves the line ends its block, and a branch target in
the listing begins one.  A call ends no block and its target begins none.
-/

namespace Wiicompiled.Translation

open Disassembly

instance linearOrderUInt32 : LinearOrder UInt32 where
  le_refl := UInt32.le_refl
  le_trans _ _ _ := UInt32.le_trans
  le_antisymm _ _ := UInt32.le_antisymm
  le_total := UInt32.le_total
  lt_iff_le_not_ge a b := by
    simp only [UInt32.le_iff_toNat_le, UInt32.lt_iff_toNat_lt]
    omega
  toDecidableLE := inferInstance

namespace BasicBlockBuilder

/-! ## Partitions -/

/-- A branch in the function: conditional, or without return. -/
def IsBranch (ins : PpcInstruction) : Bool :=
  ins.isConditionalBranch || ins.isUnconditionalBranch

/-- Control leaves the line other than by a call without condition. -/
def LeavesLine (ins : PpcInstruction) : Bool :=
  ins.isReturn || IsBranch ins

def TransfersControl (ins : PpcInstruction) : Bool :=
  LeavesLine ins || ins.isCall

/-- The blocks contain every instruction once, in the order of the addresses; only their
last instructions are among the given transfers, and the listed targets of the given
branches begin blocks. -/
structure Partition (transfers branches : PpcInstruction → Bool)
    (instructions : List PpcInstruction) (blocks : List BasicBlock) : Prop where
  whole : blocks.flatMap BasicBlock.instructions = instructions
  ascending : (instructions.map PpcInstruction.address).Pairwise (· < ·)
  nonempty : ∀ block ∈ blocks, block.instructions ≠ []
  last : ∀ block ∈ blocks, ∀ ins ∈ block.instructions.dropLast, transfers ins = false
  target : ∀ ins ∈ instructions, branches ins = true → ∀ other ∈ instructions,
    other.address ∈ ins.branchTargets → ∃ block ∈ blocks,
      block.startAddress = other.address ∧ block.instructions.head? = some other

/-! ## Leaders -/

section Leaders

variable {instructions : List PpcInstruction} {leaders extraLeaders : List UInt32}
  {ins next : PpcInstruction}

def ownLeader (previous : Option PpcInstruction) (ins : PpcInstruction) :
    Except Failure (List UInt32) :=
  match previous with
  | none => .ok []
  | some p =>
      if p.isReturn || p.isUnconditionalBranch then .ok [ins.address]
      else p.endAddress.map fun next => if next ≠ ins.address then [ins.address] else []

/-- The leaders to which a branch goes. -/
def targetLeaders (ins : PpcInstruction) : Except Failure (List UInt32) :=
  if ins.isConditionalBranch then
    ins.endAddress.map fun next => ins.branchTargets ++ [next]
  else if ins.isUnconditionalBranch then .ok ins.branchTargets
  else .ok []

theorem leadersOf_eq_bind (previous : Option PpcInstruction) (ins : PpcInstruction) :
    leadersOf previous ins =
      (ownLeader previous ins).bind fun own => (targetLeaders ins).map (own ++ ·) := by
  rcases previous with _ | p
  · simp only [leadersOf, ownLeader, targetLeaders, bind, Except.bind]
    split_ifs
    · rcases ins.endAddress with e | n <;> rfl
    · rfl
    · rfl
  · simp only [leadersOf, ownLeader, targetLeaders, bind]
    rcases p.endAddress with e | m <;> rcases ins.endAddress with e' | n <;>
      split_ifs <;> rfl

/-- The leaders of an instruction are found when it and the one before have their ends:
itself behind a line that is left, its targets, and its end when it may go on there. -/
theorem exists_leadersOf {previous : Option PpcInstruction} (hins : HasEnd ins)
    (hprevious : ∀ p ∈ previous, HasEnd p) :
    ∃ found, leadersOf previous ins = .ok found ∧
      (∀ p ∈ previous, p.isReturn = true ∨ p.isUnconditionalBranch = true ∨
        p.endAddress ≠ .ok ins.address → ins.address ∈ found) ∧
      (IsBranch ins = true → ∀ target ∈ ins.branchTargets, target ∈ found) ∧
      (ins.isConditionalBranch = true → ∀ end', ins.endAddress = .ok end' → end' ∈ found) := by
  obtain ⟨own, hown, hself⟩ : ∃ own, ownLeader previous ins = .ok own ∧
      ∀ p ∈ previous, p.isReturn = true ∨ p.isUnconditionalBranch = true ∨
        p.endAddress ≠ .ok ins.address → ins.address ∈ own := by
    rcases previous with _ | p
    · exact ⟨[], rfl, fun _ hp => absurd hp.symm (Option.some_ne_none _)⟩
    · by_cases hleaves : (p.isReturn || p.isUnconditionalBranch) = true
      · exact ⟨[ins.address], if_pos hleaves, fun _ _ _ => List.mem_singleton_self _⟩
      · obtain ⟨hreturn, hjump⟩ :=
          Bool.or_eq_false_iff.mp (Bool.eq_false_of_not_eq_true hleaves)
        obtain ⟨m, hm⟩ := hprevious p rfl (Or.inr ⟨hjump, hreturn⟩)
        refine ⟨if m ≠ ins.address then [ins.address] else [], ?_, ?_⟩
        · rw [ownLeader, if_neg hleaves, hm]
          rfl
        · rintro p' ⟨⟩ (hreturn' | hjump' | hne)
          · exact absurd (hreturn.symm.trans hreturn') Bool.false_ne_true
          · exact absurd (hjump.symm.trans hjump') Bool.false_ne_true
          · rw [hm, ne_eq, Except.ok.injEq] at hne
            rw [if_pos hne]
            exact List.mem_singleton_self _
  obtain ⟨targets, htargets, hbranch, hend⟩ : ∃ targets, targetLeaders ins = .ok targets ∧
      (IsBranch ins = true → ∀ target ∈ ins.branchTargets, target ∈ targets) ∧
      (ins.isConditionalBranch = true →
        ∀ end', ins.endAddress = .ok end' → end' ∈ targets) := by
    rw [targetLeaders]
    split_ifs with hcond hjump
    · obtain ⟨n, hn⟩ := hins (Or.inl hcond)
      rw [hn]
      refine ⟨_, rfl, fun _ _ => List.mem_append_left _, fun _ end' hend => ?_⟩
      rw [← Except.ok.inj hend]
      exact List.mem_append_right _ (List.mem_singleton_self _)
    · exact ⟨_, rfl, fun _ _ htarget => htarget, fun hcond' => absurd hcond' hcond⟩
    · refine ⟨_, rfl, fun hbranch => ?_, fun hcond' => absurd hcond' hcond⟩
      exact ((Bool.or_eq_true_iff.mp hbranch).elim hcond hjump).elim
  refine ⟨own ++ targets, ?_, fun p hp h => List.mem_append_left _ (hself p hp h),
    fun h target ht => List.mem_append_right _ (hbranch h target ht),
    fun h end' he => List.mem_append_right _ (hend h end' he)⟩
  rw [leadersOf_eq_bind, hown, htargets]
  rfl

/-- The element behind another one in a list stands beside it as the one before. -/
theorem mem_zip_behind {α : Type*} (previous : Option α) (before after : List α) (a b : α) :
    (some a, b) ∈ (previous :: (before ++ a :: b :: after).map some).zip
      (before ++ a :: b :: after) := by
  induction before generalizing previous with
  | nil => exact List.mem_cons_of_mem _ List.mem_cons_self
  | cons x before ih => exact List.mem_cons_of_mem _ (ih (some x))

theorem exists_mem_zip {α : Type*} (previous : Option α) {xs : List α} {a : α}
    (ha : a ∈ xs) : ∃ p, (p, a) ∈ (previous :: xs.map some).zip xs := by
  induction xs generalizing previous with
  | nil => exact absurd ha List.not_mem_nil
  | cons x xs ih =>
      rcases List.mem_cons.mp ha with rfl | ha
      · exact ⟨previous, List.mem_cons_self⟩
      · obtain ⟨p, hp⟩ := ih (some x) ha
        exact ⟨p, List.mem_cons_of_mem _ hp⟩

theorem hasEnd_of_mem_zip {pair : Option PpcInstruction × PpcInstruction}
    (hends : ∀ ins ∈ instructions, HasEnd ins)
    (hpair : pair ∈ (none :: instructions.map some).zip instructions) :
    HasEnd pair.2 ∧ ∀ p ∈ pair.1, HasEnd p := by
  obtain ⟨hbefore, hins⟩ := List.of_mem_zip hpair
  refine ⟨hends _ hins, fun p hp => ?_⟩
  rw [Option.mem_def] at hp
  rw [hp, List.mem_cons] at hbefore
  obtain ⟨p', hp', heq⟩ := List.mem_map.mp (hbefore.resolve_left (Option.some_ne_none p))
  exact hends p (Option.some_inj.mp heq ▸ hp')

/-- The leaders of a listing: its first address, the address behind an instruction that
leaves the line, and the targets of branches. -/
structure Leads (leaders : List UInt32) (instructions : List PpcInstruction) : Prop where
  ascending : leaders.Pairwise (· < ·)
  first : ∀ ins ∈ instructions.head?, ins.address ∈ leaders
  behind : ∀ before ins next after, instructions = before ++ ins :: next :: after →
    LeavesLine ins = true → next.address ∈ leaders
  target : ∀ ins ∈ instructions, IsBranch ins = true →
    ∀ target ∈ ins.branchTargets, target ∈ leaders

theorem leads_of_mapM {first : PpcInstruction} {rest : List PpcInstruction}
    {found : List (List UInt32)} (hends : ∀ ins ∈ first :: rest, HasEnd ins)
    (hfound : ((none :: (first :: rest).map some).zip (first :: rest)).mapM
      (fun pair => leadersOf pair.1 pair.2) = .ok found) (requested : List UInt32) :
    Leads ((first.address :: (requested ++ found.flatten)).dedup.insertionSort (· ≤ ·))
      (first :: rest) := by
  have hmem : ∀ address, address ∈ first.address :: (requested ++ found.flatten) →
      address ∈ (first.address :: (requested ++ found.flatten)).dedup.insertionSort
        (· ≤ ·) := fun address h =>
    (List.mem_insertionSort _).mpr (List.mem_dedup.mpr h)
  have hpair : ∀ pair ∈ (none :: (first :: rest).map some).zip (first :: rest),
      ∃ own ∈ found, leadersOf pair.1 pair.2 = .ok own := fun pair hmem =>
    PartialMaps.exists_of_mapM_ok hfound hmem
  have hflat : ∀ own ∈ found, ∀ address ∈ own, address ∈
      (first.address :: (requested ++ found.flatten)).dedup.insertionSort (· ≤ ·) :=
    fun own hown address haddress => hmem address (List.mem_cons_of_mem _
      (List.mem_append_right _ (List.mem_flatten.mpr ⟨own, hown, haddress⟩)))
  have hprevious : ∀ pair ∈ (none :: (first :: rest).map some).zip (first :: rest),
      HasEnd pair.2 ∧ ∀ p ∈ pair.1, HasEnd p := fun pair hpair =>
    hasEnd_of_mem_zip hends hpair
  constructor
  · have hsorted := List.pairwise_insertionSort (fun a b : UInt32 => a ≤ b)
      (first.address :: (requested ++ found.flatten)).dedup
    have hnodup := (List.perm_insertionSort (fun a b : UInt32 => a ≤ b)
      (first.address :: (requested ++ found.flatten)).dedup).nodup_iff.mpr (List.nodup_dedup _)
    exact (hsorted.and hnodup).imp fun {a b} hab => UInt32.lt_of_le_of_ne hab.1 hab.2
  · rintro ins ⟨⟩
    exact hmem _ List.mem_cons_self
  · intro before ins next after hsplit hleaves
    have hzip : (some ins, next) ∈ (none :: (first :: rest).map some).zip (first :: rest) := by
      rw [hsplit]
      exact mem_zip_behind none before after ins next
    have hins : ins ∈ first :: rest := by
      rw [hsplit]
      exact List.mem_append_right _ List.mem_cons_self
    obtain ⟨own, hown, heq⟩ := hpair _ hzip
    obtain ⟨own', heq', hself, -, -⟩ :=
      exists_leadersOf (hprevious _ hzip).1 (hprevious _ hzip).2
    obtain rfl := Except.ok.inj (heq'.symm.trans heq)
    -- a conditional branch makes its end a leader, unless there is a gap behind it
    by_cases hend : ins.endAddress = .ok next.address
    · rw [LeavesLine, IsBranch, Bool.or_eq_true_iff, Bool.or_eq_true_iff] at hleaves
      rcases hleaves with hreturn | hcond | hjump
      · exact hflat own' hown _ (hself ins rfl (Or.inl hreturn))
      · obtain ⟨p, hp⟩ := exists_mem_zip none hins
        obtain ⟨own, hown, heq⟩ := hpair _ hp
        obtain ⟨own', heq', -, -, hends'⟩ :=
          exists_leadersOf (hprevious _ hp).1 (hprevious _ hp).2
        obtain rfl := Except.ok.inj (heq'.symm.trans heq)
        exact hflat own' hown _ (hends' hcond _ hend)
      · exact hflat own' hown _ (hself ins rfl (Or.inr (Or.inl hjump)))
    · exact hflat own' hown _ (hself ins rfl (Or.inr (Or.inr hend)))
  · intro ins hins hbranch target htarget
    obtain ⟨p, hp⟩ := exists_mem_zip none hins
    obtain ⟨own, hown, heq⟩ := hpair _ hp
    obtain ⟨own', heq', -, htargets, -⟩ :=
      exists_leadersOf (hprevious _ hp).1 (hprevious _ hp).2
    obtain rfl := Except.ok.inj (heq'.symm.trans heq)
    exact hflat own' hown _ (htargets hbranch target htarget)

end Leaders

/-! ## Blocks -/

section Blocks

variable {instructions : List PpcInstruction} {leaders extraLeaders : List UInt32}

theorem owner_eq (hleaders : leaders.Pairwise (· < ·)) (address : UInt32) :
    owner leaders address = SortedLookup.lastUpTo id address leaders := by
  have hsorted : leaders.Pairwise fun a b => id a ≤ id b := hleaders.imp le_of_lt
  rw [SortedLookup.lastUpTo, SortedLookup.takeWhile_eq_filter hsorted]
  rfl

theorem slice_eq (hleaders : leaders.Pairwise (· < ·))
    (hlow : ∀ ins ∈ instructions, ins.address ≠ 0xFFFFFFFF) :
    slice instructions leaders = (leaders.map fun leader =>
      (⟨leader, CutLists.piece PpcInstruction.address leaders instructions leader⟩ :
        BasicBlock)).filter fun block => !block.instructions.isEmpty := by
  rw [slice]
  congr 1
  refine List.map_congr_left fun leader _ => ?_
  congr 1
  rw [CutLists.piece]
  refine List.filter_congr fun ins hins => ?_
  rw [decide_eq_false (hlow ins hins), Bool.and_false, Bool.not_false, Bool.and_true,
    owner_eq hleaders]
  exact decide_eq_decide.mpr Iff.rfl

theorem exists_split_of_mem_dropLast {α : Type*} {xs : List α} {x : α}
    (h : x ∈ xs.dropLast) : ∃ before y after, xs = before ++ x :: y :: after := by
  have hne : xs ≠ [] := by
    rintro rfl
    exact absurd h List.not_mem_nil
  obtain ⟨before, after, hsplit⟩ := List.append_of_mem h
  obtain ⟨y, rest, hrest⟩ := List.exists_cons_of_ne_nil
    (List.append_ne_nil_of_right_ne_nil after (List.cons_ne_nil (xs.getLast hne) []))
  refine ⟨before, y, rest, ?_⟩
  calc xs = xs.dropLast ++ [xs.getLast hne] := (List.dropLast_append_getLast hne).symm
    _ = before ++ x :: (after ++ [xs.getLast hne]) := by
        rw [hsplit, List.append_assoc, List.cons_append]
    _ = before ++ x :: y :: rest := by rw [hrest]

theorem flatMap_filter_nonempty {blocks : List BasicBlock} :
    (blocks.filter fun block => !block.instructions.isEmpty).flatMap BasicBlock.instructions =
      blocks.flatMap BasicBlock.instructions := by
  induction blocks with
  | nil => rfl
  | cons block blocks ih =>
      by_cases hempty : block.instructions = []
      · rw [List.filter_cons_of_neg (by simp [hempty]), List.flatMap_cons, hempty,
          List.nil_append, ih]
      · rw [List.filter_cons_of_pos (by simp [hempty]), List.flatMap_cons, List.flatMap_cons,
          ih]

/-- **Leaders partition a listing.** -/
theorem partition_slice (hleads : Leads leaders instructions)
    (hascending : (instructions.map PpcInstruction.address).Pairwise (· < ·))
    (hlow : ∀ ins ∈ instructions, ins.address ≠ 0xFFFFFFFF) :
    Partition LeavesLine IsBranch instructions (slice instructions leaders) := by
  have hkeys : instructions.Pairwise fun x y => x.address < y.address :=
    List.pairwise_map.mp hascending
  have hslice := slice_eq hleads.ascending hlow
  have hfirst : ∀ ins ∈ instructions, ∃ leader ∈ leaders, leader ≤ ins.address := by
    intro ins hins
    rcases hlist : instructions with _ | ⟨head, rest⟩
    · rw [hlist] at hins
      exact absurd hins List.not_mem_nil
    · refine ⟨head.address, hleads.first head (by rw [hlist]; rfl), ?_⟩
      rw [hlist] at hins hkeys
      rcases List.mem_cons.mp hins with rfl | hrest
      · exact le_refl _
      · exact le_of_lt ((List.pairwise_cons.mp hkeys).1 ins hrest)
  have hwhole : (slice instructions leaders).flatMap BasicBlock.instructions = instructions := by
    rw [hslice, flatMap_filter_nonempty, List.flatMap_map]
    exact CutLists.flatMap_piece hleads.ascending hkeys hfirst
  have hblock : ∀ block ∈ slice instructions leaders, block.instructions ≠ [] ∧
      block.instructions = CutLists.piece PpcInstruction.address leaders instructions
        block.startAddress := by
    intro block hblock
    rw [hslice, List.mem_filter, List.mem_map] at hblock
    obtain ⟨⟨leader, -, rfl⟩, hne⟩ := hblock
    exact ⟨by simpa using hne, rfl⟩
  refine ⟨hwhole, hascending, fun block h => (hblock block h).1, ?_, ?_⟩
  · intro block hmem ins hins
    by_contra hleaves
    obtain ⟨before, next, after, hsplit⟩ := exists_split_of_mem_dropLast hins
    obtain ⟨blocks, blocks', hblocks⟩ := List.append_of_mem hmem
    -- the two instructions stand side by side in the listing too
    have hlisting : instructions = (blocks.flatMap BasicBlock.instructions ++ before) ++
        ins :: next :: (after ++ blocks'.flatMap BasicBlock.instructions) := by
      rw [← hwhole, hblocks, List.flatMap_append, List.flatMap_cons, hsplit]
      simp
    have hlt : ins.address < next.address := by
      rw [hlisting] at hkeys
      exact (List.pairwise_cons.mp (List.pairwise_append.mp hkeys).2.1).1 next
        List.mem_cons_self
    have hpiece := (hblock block hmem).2
    have hinsMem : ins ∈ block.instructions := by simp [hsplit]
    have hnextMem : next ∈ block.instructions := by simp [hsplit]
    rw [hpiece] at hinsMem hnextMem
    exact CutLists.not_mem_cuts_of_piece hleads.ascending hinsMem hnextMem hlt
      (hleads.behind _ ins next _ hlisting (Bool.eq_true_of_not_eq_false hleaves))
  · intro ins hins hbranch other hother htarget
    have hleader := hleads.target ins hins hbranch other.address htarget
    have hhead := CutLists.head?_piece hleads.ascending hkeys hother hleader
    refine ⟨⟨other.address, CutLists.piece PpcInstruction.address leaders instructions
      other.address⟩, ?_, rfl, hhead⟩
    rw [hslice, List.mem_filter]
    refine ⟨List.mem_map.mpr ⟨other.address, hleader, rfl⟩, ?_⟩
    rcases hpiece : CutLists.piece PpcInstruction.address leaders instructions other.address
      with _ | ⟨head, rest⟩
    · rw [hpiece] at hhead
      exact absurd hhead.symm (Option.some_ne_none _)
    · rfl

theorem terminatorEnd_isOk {block : BasicBlock}
    (hends : ∀ ins ∈ block.instructions, HasEnd ins) : ∃ u, terminatorEnd block = .ok u := by
  rw [terminatorEnd]
  rcases hlast : block.instructions.getLast? with _ | term
  · exact ⟨(), rfl⟩
  · have hend := hends term (List.mem_of_getLast? hlast)
    dsimp only
    split_ifs with hcond hother
    · obtain ⟨n, hn⟩ := hend (Or.inl hcond)
      exact ⟨(), by rw [hn]; rfl⟩
    · exact ⟨(), rfl⟩
    · rw [Bool.not_eq_true, Bool.or_eq_false_iff, Bool.or_eq_false_iff] at hother
      obtain ⟨n, hn⟩ := hend (Or.inr ⟨hother.1.1, hother.2⟩)
      exact ⟨(), by rw [hn]; rfl⟩

/-- **Blocks of a listing.**  Instructions in ascending order that have their ends are
partitioned into blocks, whatever further leaders are given. -/
theorem exists_build
    (hascending : (instructions.map PpcInstruction.address).Pairwise (· < ·))
    (hlow : ∀ ins ∈ instructions, ins.address ≠ 0xFFFFFFFF)
    (hends : ∀ ins ∈ instructions, HasEnd ins) :
    ∃ blocks, build instructions extraLeaders = .ok blocks ∧
      Partition LeavesLine IsBranch instructions blocks := by
  rcases instructions with _ | ⟨first, rest⟩
  · exact ⟨[], rfl, rfl, hascending, fun _ h => absurd h List.not_mem_nil,
      fun _ h => absurd h List.not_mem_nil, fun _ h => absurd h List.not_mem_nil⟩
  have hzip : ∀ pair ∈ (none :: (first :: rest).map some).zip (first :: rest),
      ∃ own, leadersOf pair.1 pair.2 = .ok own := by
    intro pair hpair
    obtain ⟨hins, hprevious⟩ := hasEnd_of_mem_zip hends hpair
    obtain ⟨own, hown, -⟩ := exists_leadersOf hins hprevious
    exact ⟨own, hown⟩
  obtain ⟨found, hfound⟩ := PartialMaps.mapM_ok_of_forall hzip
  have hleads := leads_of_mapM hends hfound
    (((first :: rest).map PpcInstruction.address).filter fun address => address ∈ extraLeaders)
  have hpartition := partition_slice hleads hascending hlow
  obtain ⟨units, hunits⟩ := PartialMaps.mapM_ok_of_forall fun block hblock =>
    terminatorEnd_isOk fun ins hins => hends ins (by
      rw [← hpartition.whole]
      exact List.mem_flatMap.mpr ⟨block, hblock, hins⟩)
  refine ⟨_, ?_, hpartition⟩
  simp only [build, hfound, hunits, bind, Except.bind]

end Blocks

/-! ## Blocks of disassembled functions -/

/-- **Basic blocks.**  The listing of a function, whatever further leaders are given, is
partitioned into blocks: an instruction that leaves the line other than by a call without
condition is the last of its block, and the listed targets of such branches begin blocks. -/
theorem partition_of_disassembleFunctionCore
    (plain : UInt32 → PlainInstruction)
    (tryRecognize : List PpcInstruction → UInt32 → UInt32 → UInt32 → ProgramImage →
      Except Failure (Option (List UInt32)))
    (image : ProgramImage) (entryPoint : UInt32) (maxInstructions maxBytes : Int)
    (throwOnBudget : Bool) (K : UInt32 → Bool) (log : List UInt32)
    (listing : List PpcInstruction)
    (h : (disassembleFunctionCore (ppcDecoder plain tryRecognize) image entryPoint
      maxInstructions maxBytes throwOnBudget K log).1 = .ok (some listing))
    (extraLeaders : List UInt32) :
    ∃ blocks, build listing extraLeaders = .ok blocks ∧
      Partition LeavesLine IsBranch listing blocks := by
  rw [disassembleFunctionCore] at h
  split_ifs at h with hcontains
  · have hwalked := walkedListing_of_loop keepsAddresses_ppcDecoder log h
    refine exists_build hwalked.ascending (fun ins hins heq => ?_)
      (hasEnd_of_loop keepsAddresses_ppcDecoder log h)
    -- nothing is behind the last address, so no window contains it
    have hlt := UInt32.lt_iff_toNat_lt.mp (heq ▸ (hwalked.window ins hins).2)
    have hend := UInt32.toNat_lt_size (windowEnd image entryPoint maxBytes)
    exact absurd (Nat.lt_of_le_of_lt (Nat.succ_le_of_lt hlt) hend) (by decide)
  · exact absurd h (by simp [Probing.done])

/-- The listing of two returns behind a conditional branch has three blocks. -/
theorem partition_returnsImage :
    ∃ blocks, build [branchOnlyDecoder.decode 0x80004000 0x41820008,
        branchOnlyDecoder.decode 0x80004004 0x4E800020,
        branchOnlyDecoder.decode 0x80004008 0x4E800020] [0x80004000] = .ok blocks ∧
      Partition LeavesLine IsBranch [branchOnlyDecoder.decode 0x80004000 0x41820008,
        branchOnlyDecoder.decode 0x80004004 0x4E800020,
        branchOnlyDecoder.decode 0x80004008 0x4E800020] blocks :=
  partition_of_disassembleFunctionCore (fun _ => ⟨"nop", [], false, by decide⟩)
    (fun _ _ _ _ _ => .ok none) returnsImage 0x80004000 16 64 true (fun _ => false) [] _
    (congrArg Prod.fst disassemble_returnsImage) _

/-! ## Calls -/

/-- A call to the third of four instructions. -/
def callImage : ProgramImage :=
  ⟨[0x48, 0x00, 0x00, 0x09, 0x60, 0x00, 0x00, 0x00, 0x60, 0x00, 0x00, 0x00,
    0x4E, 0x80, 0x00, 0x20], 0x80004000⟩

def callListing : List PpcInstruction :=
  [branchOnlyDecoder.decode 0x80004000 0x48000009,
    branchOnlyDecoder.decode 0x80004004 0x60000000,
    branchOnlyDecoder.decode 0x80004008 0x60000000,
    branchOnlyDecoder.decode 0x8000400C 0x4E800020]

theorem disassemble_callImage :
    disassembleFunctionCore branchOnlyDecoder callImage 0x80004000 16 64 true
        (fun _ => false) [] = (.ok (some callListing), []) := by
  rw [disassembleFunctionCore, if_pos (by decide)]
  apply Probing.loop_of_run _ _ (show Probing.run _ 16 _ _ _ = _ from ?_)
  decide +kernel

/-- The call stands in the middle of the only block, and its target does so too. -/
theorem not_partition_callListing :
    (disassembleFunctionCore branchOnlyDecoder callImage 0x80004000 16 64 true
        (fun _ => false) []).1 = .ok (some callListing) ∧
      build callListing [0x80004000] = .ok [⟨0x80004000, callListing⟩] ∧
      (¬ ∀ block ∈ ([⟨0x80004000, callListing⟩] : List BasicBlock),
        ∀ ins ∈ block.instructions.dropLast, TransfersControl ins = false) ∧
      ¬ ∀ ins ∈ callListing, ∀ other ∈ callListing, other.address ∈ ins.branchTargets →
        ∃ block ∈ ([⟨0x80004000, callListing⟩] : List BasicBlock),
          block.instructions.head? = some other :=
  ⟨congrArg Prod.fst disassemble_callImage, rfl, by decide +kernel,
    by decide +kernel⟩

end BasicBlockBuilder
end Wiicompiled.Translation
