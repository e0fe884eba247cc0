import Wiicompiled.Disassembly.PpcBranchDecoder
import Wiicompiled.Support.PartialMaps

/-!
# Disassembled functions are closed under control flow

The walk keeps an invariant: every place where control may go on behind a reachable
instruction is reachable itself, waits in the work list or under the cursor, or lies outside
the window or the image.  When the walk ends nothing waits, so the listing is closed.
-/

namespace Wiicompiled.Disassembly

open Ir

/-! ## What the walk follows -/

/-- The mnemonic of an unconditional jump through the count register. -/
def isCounterJump (ins : PpcInstruction) : Bool :=
  equalsIgnoreCase ins.mnemonic.toList "bctr".toList

/-- What the walk needs of a decoder. -/
structure Decoder.KeepsAddresses (d : Decoder) : Prop where
  address : ∀ address word, (d.decode address word).address = address
  counterJump : ∀ address word, isCounterJump (d.decode address word) = true →
    (d.decode address word).branchTargets = []

/-- An instruction as it is decoded, or with the targets of its jump table. -/
def IsDecoded (d : Decoder) (q : DecodeRequest) (address : UInt32)
    (ins : PpcInstruction) : Prop :=
  ins = d.decode address (q.image.readUInt32BigEndian address) ∨
    isCounterJump (d.decode address (q.image.readUInt32BigEndian address)) = true ∧
      ∃ targets, ins = { d.decode address (q.image.readUInt32BigEndian address) with
        branchTargets := targets, isReturn := false }

/-- The places where the walk goes on behind an instruction. -/
inductive Follows (q : DecodeRequest) (K : UInt32 → Bool) (ins : PpcInstruction) :
    UInt32 → Prop
  | next {target : UInt32}
      (hflow : ins.isConditionalBranch = true ∨
        ins.isUnconditionalBranch = false ∧ ins.isReturn = false)
      (hnext : ins.endAddress = .ok target) : Follows q K ins target
  | conditional {target : UInt32} (hcond : ins.isConditionalBranch = true)
      (htarget : target ∈ ins.branchTargets) : Follows q K ins target
  | unconditional {target : UInt32} (hjump : ins.isUnconditionalBranch = true)
      (htarget : target ∈ ins.branchTargets)
      (hlocal : isCounterJump ins = true ∨ target = q.entryPoint ∨ K target = false) :
      Follows q K ins target

/-- An address that is reachable, still waits, or need not be looked at. -/
def Covered (q : DecodeRequest) (s : DecodeState) (address : UInt32) : Prop :=
  address ∈ s.reachable ∨ address ∈ s.worklist ∨ s.cursor = some address ∨
    (address < q.entryPoint ∨ q.endAddress ≤ address) ∨
      q.image.contains address 4 = false

structure WalkInvariant (d : Decoder) (q : DecodeRequest) (K : UInt32 → Bool)
    (s : DecodeState) : Prop where
  decoded : ∀ address ∈ s.reachable, ∃ ins, s.instructionMap.lookup address = some ins ∧
    IsDecoded d q address ins ∧ ∀ target, Follows q K ins target → Covered q s target
  keys : ∀ address ins, s.instructionMap.lookup address = some ins → address ∈ s.reachable
  nodup : s.reachable.Nodup
  window : ∀ address ∈ s.reachable, q.entryPoint ≤ address ∧ address < q.endAddress
  budget : s.worklist = [] ∨ s.cursor.isSome = true →
    (s.reachable.length : Int) ≤ q.maxInstructions
  entry : Covered q s q.entryPoint

section Steps

variable {d : Decoder} {q : DecodeRequest} {K : UInt32 → Bool} {s s' : DecodeState}

theorem IsDecoded.address_eq (hd : d.KeepsAddresses) {address : UInt32}
    {ins : PpcInstruction} (h : IsDecoded d q address ins) : ins.address = address := by
  rcases h with rfl | ⟨-, targets, rfl⟩
  · exact hd.address _ _
  · exact hd.address _ _

theorem WalkInvariant.of_covered (h : WalkInvariant d q K s)
    (hmap : s'.instructionMap = s.instructionMap) (hreachable : s'.reachable = s.reachable)
    (hbudget : (s.reachable.length : Int) ≤ q.maxInstructions)
    (hcovered : ∀ address, Covered q s address → Covered q s' address) :
    WalkInvariant d q K s' where
  decoded := by
    intro address haddress
    obtain ⟨ins, hlookup, hdecoded, hfollows⟩ := h.decoded address (hreachable ▸ haddress)
    exact ⟨ins, by rw [hmap, hlookup], hdecoded,
      fun target htarget => hcovered target (hfollows target htarget)⟩
  keys := by
    rw [hmap, hreachable]
    exact h.keys
  nodup := hreachable ▸ h.nodup
  window := by
    rw [hreachable]
    exact h.window
  budget := fun _ => hreachable ▸ hbudget
  entry := hcovered _ h.entry

theorem WalkInvariant.dropCursor (h : WalkInvariant d q K s) {cursor : UInt32}
    (hcursor : s.cursor = some cursor)
    (hcovered : Covered q { s with cursor := none } cursor) :
    WalkInvariant d q K { s with cursor := none } := by
  refine h.of_covered rfl rfl (h.budget (Or.inr (by rw [hcursor]; rfl)))
    fun address haddress => ?_
  rcases haddress with hreachable | hwaits | hunder | hout
  · exact Or.inl hreachable
  · exact Or.inr (Or.inl hwaits)
  · rw [hcursor, Option.some_inj] at hunder
    exact hunder ▸ hcovered
  · exact Or.inr (Or.inr (Or.inr hout))

theorem isKnownExternalFunctionEntry_eq_false {target : UInt32} {log : List UInt32}
    (h : target = q.entryPoint ∨ K target = false) :
    (isKnownExternalFunctionEntry q s target K log).1 = false := by
  rw [isKnownExternalFunctionEntry]
  by_cases hlocal : target = q.entryPoint ∨ target ∈ s.localControlFlowTargets
  · rw [if_pos hlocal, Probing.done]
  · rw [if_neg hlocal, Probing.ask_of_absent (h.resolve_left fun heq => hlocal (Or.inl heq))]

theorem mem_ite_append {p : Prop} [Decidable p] {list : List UInt32} {a b : UInt32}
    (h : a ∈ list) : a ∈ if p then list ++ [b] else list := by
  split_ifs
  · exact List.mem_append_left _ h
  · exact h

/-- The targets of an unconditional branch that stay in the function wait or have been
reached; nothing leaves the work list. -/
theorem mem_enqueueTargets (recognized : Bool) (targets : List UInt32) (log : List UInt32) :
    (∀ target ∈ s.worklist, target ∈ (enqueueTargets q s recognized targets K log).1) ∧
      ∀ target ∈ targets,
        recognized = true ∨ target = q.entryPoint ∨ K target = false →
          target ∈ s.reachable ∨ target ∈ (enqueueTargets q s recognized targets K log).1 := by
  rw [enqueueTargets]
  generalize s.worklist = worklist
  induction targets generalizing worklist log with
  | nil => exact ⟨fun _ h => h, fun _ h => absurd h List.not_mem_nil⟩
  | cons first targets ih =>
      rw [Probing.fold, Probing.andThen]
      obtain ⟨hkept, hqueued⟩ := ih _ _
      refine ⟨fun target htarget => hkept target ?_, fun target htarget hlocal => ?_⟩
      · rw [Probing.andThen, Probing.done]
        exact mem_ite_append htarget
      · rcases List.mem_cons.mp htarget with rfl | hrest
        · by_cases hreached : target ∈ s.reachable
          · exact Or.inl hreached
          · refine Or.inr (hkept target ?_)
            have hexternal : ((if recognized then Probing.done false else
                isKnownExternalFunctionEntry q s target) K log).1 = false := by
              rcases hlocal with rfl | hlocal
              · rfl
              · split_ifs
                · rfl
                · exact isKnownExternalFunctionEntry_eq_false hlocal
            rw [Probing.andThen, hexternal, Probing.done, if_pos ⟨rfl, hreached⟩]
            exact List.mem_append_right _ (List.mem_singleton_self target)
        · exact hqueued target hrest hlocal

theorem fallThrough_eq {ins : PpcInstruction} {log : List UInt32}
    (h : (fallThrough s ins K log).1 = .inl s') :
    ∃ next, ins.endAddress = .ok next ∧ s' = { s with cursor := some next } := by
  rw [fallThrough] at h
  rcases hnext : ins.endAddress with e | next
  · rw [hnext] at h
    exact absurd h (by simp [Probing.done])
  · rw [hnext] at h
    exact ⟨next, rfl, (Sum.inl.inj h).symm⟩

theorem followInstruction_covers {ins : PpcInstruction} {recognized : Bool}
    {log : List UInt32}
    (hrecognized : isCounterJump ins = true → ins.isUnconditionalBranch = true →
      recognized = true)
    (h : (followInstruction q s ins recognized K log).1 = .inl s') :
    s'.instructionMap = s.instructionMap ∧ s'.reachable = s.reachable ∧
      (∀ address ∈ s.worklist, address ∈ s'.worklist) ∧
        ∀ target, Follows q K ins target → Covered q s' target := by
  rw [followInstruction] at h
  split_ifs at h with hcond hjump hreturn
  · obtain ⟨next, hnext, rfl⟩ := fallThrough_eq h
    refine ⟨rfl, rfl, fun address => List.mem_append_left _, ?_⟩
    rintro target (⟨-, htarget⟩ | ⟨-, htarget⟩ | ⟨hjump, -, -⟩)
    · rw [hnext, Except.ok.injEq] at htarget
      exact Or.inr (Or.inr (Or.inl (by rw [htarget])))
    · by_cases hreached : target ∈ s.reachable
      · exact Or.inl hreached
      · exact Or.inr (Or.inl (List.mem_append_right _
          (List.mem_filter.mpr ⟨htarget, decide_eq_true hreached⟩)))
    · rw [PpcInstruction.isUnconditionalBranch, hcond] at hjump
      simp at hjump
  · obtain ⟨hkept, hqueued⟩ :=
      mem_enqueueTargets (q := q) (s := s) (K := K) recognized ins.branchTargets log
    obtain rfl := Sum.inl.inj h
    refine ⟨rfl, rfl, hkept, ?_⟩
    rintro target (⟨hflow, -⟩ | ⟨hcond', -⟩ | ⟨-, htarget, hlocal⟩)
    · rcases hflow with hcond' | ⟨hjump', -⟩
      · exact absurd hcond' hcond
      · exact absurd (hjump.symm.trans hjump') Bool.true_eq_false_eq_False
    · exact absurd hcond' hcond
    · rcases hqueued target htarget
        (hlocal.imp (fun hcounter => hrecognized hcounter hjump) id) with hreached | hwaits
      · exact Or.inl hreached
      · exact Or.inr (Or.inl hwaits)
  · obtain rfl := Sum.inl.inj h
    refine ⟨rfl, rfl, fun _ hwaits => hwaits, ?_⟩
    rintro target (⟨hflow, -⟩ | ⟨hcond', -⟩ | ⟨hjump', -, -⟩)
    · rcases hflow with hcond' | ⟨-, hreturn'⟩
      · exact absurd hcond' hcond
      · exact absurd (hreturn.symm.trans hreturn') Bool.true_eq_false_eq_False
    · exact absurd hcond' hcond
    · exact absurd hjump' hjump
  · obtain ⟨next, hnext, rfl⟩ := fallThrough_eq h
    refine ⟨rfl, rfl, fun _ hwaits => hwaits, ?_⟩
    rintro target (⟨-, htarget⟩ | ⟨hcond', -⟩ | ⟨hjump', -, -⟩)
    · rw [hnext, Except.ok.injEq] at htarget
      exact Or.inr (Or.inr (Or.inl (by rw [htarget])))
    · exact absurd hcond' hcond
    · exact absurd hjump' hjump

/-- An instruction that is fetched was decoded before or is decoded now. -/
theorem fetch_eq {map map' : AList fun _ : UInt32 => PpcInstruction} {cursor : UInt32}
    {ins : PpcInstruction} (h : fetch d q map cursor = some (ins, map')) :
    map.lookup cursor = some ins ∧ map' = map ∨
      map.lookup cursor = none ∧
        ins = d.decode cursor (q.image.readUInt32BigEndian cursor) ∧
          map' = map.insert cursor ins := by
  rw [fetch] at h
  rcases hlookup : map.lookup cursor with _ | known
  · rw [hlookup] at h
    dsimp only at h
    split_ifs at h
    obtain ⟨rfl, rfl⟩ := Prod.mk.inj (Option.some_inj.mp h)
    exact Or.inr ⟨rfl, rfl, rfl⟩
  · rw [hlookup] at h
    obtain ⟨rfl, rfl⟩ := Prod.mk.inj (Option.some_inj.mp h)
    exact Or.inl ⟨rfl, rfl⟩

theorem contains_of_fetch {map : AList fun _ : UInt32 => PpcInstruction} {cursor : UInt32}
    (h : fetch d q map cursor = none) : q.image.contains cursor 4 = false := by
  rw [fetch] at h
  rcases hlookup : map.lookup cursor with _ | known
  · rw [hlookup] at h
    dsimp only at h
    split_ifs at h with hcontains
    exact Bool.eq_false_of_not_eq_true hcontains
  · rw [hlookup] at h
    exact absurd h (Option.some_ne_none _)

/-- A recognized jump table gives the instruction at the cursor its targets. -/
theorem withJumpTable_eq (hd : d.KeepsAddresses) {cursor : UInt32} {ins : PpcInstruction}
    {targets : Option (List UInt32)}
    (hins : ins = d.decode cursor (q.image.readUInt32BigEndian cursor))
    (hlookup : s.instructionMap.lookup cursor = some ins)
    (htargets : jumpTableTargets d q s ins = .ok targets) :
    IsDecoded d q cursor (withJumpTable s ins targets).1 ∧
      (withJumpTable s ins targets).2.instructionMap.lookup cursor =
        some (withJumpTable s ins targets).1 ∧
      (∀ address ≠ cursor, (withJumpTable s ins targets).2.instructionMap.lookup address =
        s.instructionMap.lookup address) ∧
      (withJumpTable s ins targets).2.worklist = s.worklist ∧
      (isCounterJump (withJumpTable s ins targets).1 = true →
        (withJumpTable s ins targets).1.isUnconditionalBranch = true →
          targets.isSome = true) := by
  have haddress : ins.address = cursor := by
    rw [hins]
    exact hd.address _ _
  rcases targets with _ | targets
  · refine ⟨Or.inl hins, hlookup, fun _ _ => rfl, rfl, fun hcounter hjump => ?_⟩
    rw [withJumpTable, hins] at hcounter hjump
    rw [PpcInstruction.isUnconditionalBranch, hd.counterJump _ _ hcounter] at hjump
    simp at hjump
  · refine ⟨Or.inr ⟨?_, targets, by rw [withJumpTable, hins]⟩, ?_, fun address hne => ?_, rfl,
      fun _ _ => rfl⟩
    · rw [jumpTableTargets] at htargets
      split_ifs at htargets with hcounter
      · rw [← hins]
        exact hcounter.2
      · exact absurd (Except.ok.inj htargets) (Option.some_ne_none _).symm
    · rw [withJumpTable]
      dsimp only
      rw [haddress, AList.lookup_insert]
    · rw [withJumpTable]
      dsimp only
      rw [haddress, AList.lookup_insert_ne hne]

theorem WalkInvariant.visitNew (hd : d.KeepsAddresses) (h : WalkInvariant d q K s)
    {cursor : UInt32} {log : List UInt32} (hcursor : s.cursor = some cursor)
    (hwindow : ¬ (cursor < q.entryPoint ∨ q.endAddress ≤ cursor))
    (hbudget : ¬ q.maxInstructions ≤ s.reachable.length)
    (hlookup : s.instructionMap.lookup cursor = none) {ins : PpcInstruction}
    (hins : ins = d.decode cursor (q.image.readUInt32BigEndian cursor))
    (hvisit : (visitInstruction d q
      { s with instructionMap := s.instructionMap.insert cursor ins } ins K log).1 =
        .inl s') : WalkInvariant d q K s' := by
  have haddress : ins.address = cursor := by
    rw [hins]
    exact hd.address _ _
  have hfresh : cursor ∉ s.reachable := by
    intro hreached
    obtain ⟨known, hknown, -⟩ := h.decoded cursor hreached
    rw [hlookup] at hknown
    exact absurd hknown.symm (Option.some_ne_none _)
  rw [visitInstruction, haddress, if_neg hfresh] at hvisit
  dsimp only at hvisit
  rcases htargets : jumpTableTargets d q
      { s with
        instructionMap := s.instructionMap.insert cursor ins
        reachable := cursor :: s.reachable } ins with e | targets
  · rw [htargets] at hvisit
    exact absurd hvisit (by simp [Probing.done])
  · rw [htargets] at hvisit
    obtain ⟨hdecoded, hself, hothers, hworklist, hrecognized⟩ :=
      withJumpTable_eq hd hins (AList.lookup_insert _) htargets
    obtain ⟨hmap, hreachable, hkept, hcovers⟩ := followInstruction_covers hrecognized hvisit
    rw [withJumpTable_reachable] at hreachable
    dsimp only at hreachable
    rw [hworklist] at hkept
    -- What was covered before is covered now; the cursor has become reachable.
    have hmono : ∀ address, Covered q s address → Covered q s' address := by
      rintro address (hreached | hwaits | hunder | hout)
      · exact Or.inl (hreachable ▸ List.mem_cons_of_mem _ hreached)
      · exact Or.inr (Or.inl (hkept address hwaits))
      · rw [hcursor, Option.some_inj] at hunder
        exact Or.inl (hreachable ▸ hunder ▸ List.mem_cons_self)
      · exact Or.inr (Or.inr (Or.inr hout))
    refine ⟨?_, ?_, ?_, ?_, ?_, hmono _ h.entry⟩
    · intro address hmem
      rw [hreachable] at hmem
      by_cases hne : address = cursor
      · subst hne
        exact ⟨_, by rw [hmap, hself], hdecoded, hcovers⟩
      · obtain ⟨other, hother, hdecoded', hfollows⟩ :=
          h.decoded address ((List.mem_cons.mp hmem).resolve_left hne)
        refine ⟨other, ?_, hdecoded', fun target htarget => hmono _ (hfollows target htarget)⟩
        rw [hmap, hothers address hne]
        dsimp only
        rw [AList.lookup_insert_ne hne, hother]
    · intro address other hother
      rw [hreachable]
      by_cases hne : address = cursor
      · exact hne ▸ List.mem_cons_self
      · rw [hmap, hothers address hne] at hother
        dsimp only at hother
        rw [AList.lookup_insert_ne hne] at hother
        exact List.mem_cons_of_mem _ (h.keys address other hother)
    · rw [hreachable]
      exact List.nodup_cons.mpr ⟨hfresh, h.nodup⟩
    · intro address hmem
      rw [hreachable] at hmem
      rcases List.mem_cons.mp hmem with rfl | hmem
      · rw [not_or] at hwindow
        exact ⟨UInt32.not_lt.mp hwindow.1, UInt32.not_le.mp hwindow.2⟩
      · exact h.window address hmem
    · intro _
      rw [hreachable, List.length_cons]
      omega

/-- **One step of the walk.**  The invariant is kept. -/
theorem WalkInvariant.step (hd : d.KeepsAddresses) (h : WalkInvariant d q K s)
    {log : List UInt32} (hstep : (decodeStep d q s K log).1 = .inl s') :
    WalkInvariant d q K s' := by
  rcases decodeStep_cases hstep with ⟨next, rest, hcursor, hworklist, hbudget, rfl⟩ |
    ⟨cursor, hcursor, ⟨hout, rfl⟩ | ⟨hwindow, hbudget, ins, map, hfetch, hvisit⟩⟩
  · refine h.of_covered rfl rfl (by omega) fun address haddress => ?_
    rcases haddress with hreached | hwaits | hunder | hout
    · exact Or.inl hreached
    · rw [hworklist] at hwaits
      rcases List.mem_cons.mp hwaits with rfl | hwaits
      · exact Or.inr (Or.inr (Or.inl rfl))
      · exact Or.inr (Or.inl hwaits)
    · rw [hcursor] at hunder
      exact absurd hunder.symm (Option.some_ne_none _)
    · exact Or.inr (Or.inr (Or.inr hout))
  · refine h.dropCursor hcursor (Or.inr (Or.inr (Or.inr ?_)))
    exact hout.imp_right contains_of_fetch
  · rcases fetch_eq hfetch with ⟨hlookup, rfl⟩ | ⟨hlookup, hins, rfl⟩
    · -- A known instruction has been reached: the walk along the cursor ends.
      have hreached := h.keys cursor ins hlookup
      obtain ⟨known, hknown, hdecoded, -⟩ := h.decoded cursor hreached
      obtain rfl := Option.some_inj.mp (hknown.symm.trans hlookup)
      rw [visitInstruction, hdecoded.address_eq hd, if_pos hreached] at hvisit
      obtain rfl := Sum.inl.inj hvisit
      exact h.dropCursor hcursor (Or.inl hreached)
    · exact h.visitNew hd hcursor hwindow hbudget hlookup hins hvisit

end Steps

/-! ## What the walk returns -/

/-- A listing that is closed under what the walk follows. -/
structure WalkedListing (d : Decoder) (q : DecodeRequest) (K : UInt32 → Bool)
    (listing : List PpcInstruction) : Prop where
  ascending : (listing.map PpcInstruction.address).Pairwise (· < ·)
  decoded : ∀ ins ∈ listing, IsDecoded d q ins.address ins
  window : ∀ ins ∈ listing, q.entryPoint ≤ ins.address ∧ ins.address < q.endAddress
  budget : (listing.length : Int) ≤ q.maxInstructions
  entry : q.entryPoint < q.endAddress → q.image.contains q.entryPoint 4 = true →
    ∃ ins ∈ listing, ins.address = q.entryPoint
  closed : ∀ ins ∈ listing, ∀ target, Follows q K ins target →
    q.entryPoint ≤ target → target < q.endAddress → q.image.contains target 4 = true →
      ∃ other ∈ listing, other.address = target

theorem exists_of_map_ok {α β ε : Type} {f : α → β} {x : Except ε α} {y : β}
    (h : x.map f = .ok y) : ∃ a, x = .ok a ∧ f a = y := by
  rcases x with e | a
  · exact absurd h (by simp [Except.map])
  · exact ⟨a, rfl, Except.ok.inj h⟩

section Results

variable {d : Decoder} {q : DecodeRequest} {K : UInt32 → Bool} {s : DecodeState}
  {listing : List PpcInstruction}

theorem collect_addresses (hd : d.KeepsAddresses) (h : WalkInvariant d q K s)
    (hlisting : collect s = .ok (some listing)) :
    listing.map PpcInstruction.address = s.reachable.insertionSort (· ≤ ·) ∧
      ∀ ins ∈ listing, ins.address ∈ s.reachable ∧
        s.instructionMap.lookup ins.address = some ins := by
  rw [collect] at hlisting
  obtain ⟨collected, hmapM, hcollected⟩ := exists_of_map_ok hlisting
  obtain rfl := Option.some_inj.mp hcollected
  have hpairs := PartialMaps.forall₂_of_mapM_ok hmapM
  have hsub : ∀ address ∈ s.reachable.insertionSort (· ≤ ·), address ∈ s.reachable :=
    fun address => (List.mem_insertionSort _).mp
  clear hlisting hmapM hcollected
  revert hsub hpairs
  generalize s.reachable.insertionSort (· ≤ ·) = sorted
  intro hpairs hsub
  induction hpairs with
  | nil => exact ⟨rfl, fun _ hmem => absurd hmem List.not_mem_nil⟩
  | @cons address ins sorted collected hins _ ih =>
      obtain ⟨haddresses, hlookups⟩ :=
        ih fun other hother => hsub other (List.mem_cons_of_mem _ hother)
      have hreached := hsub address List.mem_cons_self
      obtain ⟨known, hlookup, hdecoded, -⟩ := h.decoded address hreached
      rw [hlookup] at hins
      obtain rfl := Except.ok.inj hins
      have haddress := hdecoded.address_eq hd
      refine ⟨by rw [List.map_cons, haddresses, haddress], fun other hother => ?_⟩
      rcases List.mem_cons.mp hother with rfl | hother
      · rw [haddress]
        exact ⟨hreached, hlookup⟩
      · exact hlookups other hother

/-- At the end of the walk nothing waits, and the listing is closed. -/
theorem WalkInvariant.walkedListing (hd : d.KeepsAddresses) (h : WalkInvariant d q K s)
    (hworklist : s.worklist = []) (hcursor : s.cursor = none)
    (hlisting : collect s = .ok (some listing)) : WalkedListing d q K listing := by
  obtain ⟨haddresses, hlookups⟩ := collect_addresses hd h hlisting
  have hmem : ∀ address ∈ s.reachable, ∃ ins ∈ listing, ins.address = address := by
    intro address haddress
    have hsorted : address ∈ listing.map PpcInstruction.address := by
      rw [haddresses]
      exact (List.mem_insertionSort _).mpr haddress
    obtain ⟨ins, hins, rfl⟩ := List.mem_map.mp hsorted
    exact ⟨ins, hins, rfl⟩
  have hcovered : ∀ address, Covered q s address → q.entryPoint ≤ address →
      address < q.endAddress → q.image.contains address 4 = true →
        ∃ ins ∈ listing, ins.address = address := by
    intro address haddress hstart hend hcontains
    rcases haddress with hreached | hwaits | hunder | hout | habsent
    · exact hmem address hreached
    · rw [hworklist] at hwaits
      exact absurd hwaits List.not_mem_nil
    · rw [hcursor] at hunder
      exact absurd hunder.symm (Option.some_ne_none _)
    · rcases hout with hbefore | hbehind
      · exact absurd hbefore (UInt32.not_lt.mpr hstart)
      · exact absurd hend (UInt32.not_lt.mpr hbehind)
    · rw [hcontains] at habsent
      exact absurd habsent Bool.true_eq_false_eq_False
  have hlength : listing.length = s.reachable.length := by
    rw [← List.length_map PpcInstruction.address, haddresses, List.length_insertionSort]
  constructor
  · rw [haddresses]
    have hsorted := List.pairwise_insertionSort (fun a b : UInt32 => a ≤ b) s.reachable
    have hnodup := (List.perm_insertionSort (fun a b : UInt32 => a ≤ b) s.reachable
      ).nodup_iff.mpr h.nodup
    exact (hsorted.and hnodup).imp fun {a b} hab => UInt32.lt_of_le_of_ne hab.1 hab.2
  · intro ins hins
    obtain ⟨hreached, hlookup⟩ := hlookups ins hins
    obtain ⟨known, hknown, hdecoded, -⟩ := h.decoded ins.address hreached
    obtain rfl := Option.some_inj.mp (hknown.symm.trans hlookup)
    exact hdecoded
  · intro ins hins
    exact h.window ins.address (hlookups ins hins).1
  · rw [hlength]
    exact h.budget (Or.inl hworklist)
  · intro hstart hcontains
    exact hcovered _ h.entry (UInt32.le_refl _) hstart hcontains
  · intro ins hins target htarget
    obtain ⟨hreached, hlookup⟩ := hlookups ins hins
    obtain ⟨known, hknown, -, hfollows⟩ := h.decoded ins.address hreached
    obtain rfl := Option.some_inj.mp (hknown.symm.trans hlookup)
    exact hcovered target (hfollows target htarget)

theorem budgetExhausted_ne (q : DecodeRequest) (listing : List PpcInstruction) :
    budgetExhausted q ≠ .ok (some listing) := by
  rw [budgetExhausted]
  split_ifs <;> simp

theorem visitInstruction_ne_listing {log : List UInt32} (ins : PpcInstruction)
    (listing : List PpcInstruction) :
    (visitInstruction d q s ins K log).1 ≠ .inr (.ok (some listing)) := by
  have hnext : ∀ (s : DecodeState) (ins : PpcInstruction) (log : List UInt32),
      (fallThrough s ins K log).1 ≠ .inr (.ok (some listing)) := by
    intro s ins log
    rw [fallThrough]
    rcases ins.endAddress with e | next <;> simp [Probing.done]
  rw [visitInstruction]
  split_ifs
  · simp [Probing.done]
  · dsimp only
    rcases jumpTableTargets d q { s with reachable := ins.address :: s.reachable } ins
      with e | targets
    · simp [Probing.done]
    · dsimp only
      rw [followInstruction]
      split_ifs
      · exact hnext _ _ _
      · simp [Probing.andThen, Probing.done]
      · simp [Probing.done]
      · exact hnext _ _ _

theorem walkInvariant_start : WalkInvariant d q K ⟨∅, [], [], [q.entryPoint], none⟩ where
  decoded := fun _ h => absurd h List.not_mem_nil
  keys := fun _ _ h => absurd h.symm (Option.some_ne_none _)
  nodup := List.nodup_nil
  window := fun _ h => absurd h List.not_mem_nil
  budget := by
    rintro (hempty | hcursor)
    · exact absurd hempty (List.cons_ne_nil _ _)
    · exact absurd hcursor Bool.false_ne_true
  entry := Or.inr (Or.inl (List.mem_singleton_self _))

theorem collected_of_step {log : List UInt32}
    (hstep : (decodeStep d q s K log).1 = .inr (.ok (some listing))) :
    s.worklist = [] ∧ s.cursor = none ∧ collect s = .ok (some listing) := by
  rw [decodeStep] at hstep
  rcases hcursor : s.cursor with _ | cursor
  · rcases hworklist : s.worklist with _ | ⟨next, rest⟩
    · simp only [hcursor, hworklist, Probing.done] at hstep
      exact ⟨rfl, rfl, Sum.inr.inj hstep⟩
    · simp only [hcursor, hworklist] at hstep
      split_ifs at hstep
      · exact absurd (Sum.inr.inj hstep) (budgetExhausted_ne q listing)
      · exact absurd hstep (by simp [Probing.done])
  · simp only [hcursor] at hstep
    split_ifs at hstep
    · exact absurd hstep (by simp [Probing.done])
    · exact absurd (Sum.inr.inj hstep) (budgetExhausted_ne q listing)
    · rcases hfetch : fetch d q s.instructionMap cursor with _ | ⟨ins, map⟩
      · simp only [hfetch] at hstep
        exact absurd hstep (by simp [Probing.done])
      · simp only [hfetch] at hstep
        exact absurd hstep (visitInstruction_ne_listing ins listing)

/-- **The walk returns closed listings.** -/
theorem walkedListing_of_loop (hd : d.KeepsAddresses) (log : List UInt32)
    (h : (Probing.loop (decodeDescends_wf q) (decodeStep d q) (decodeStep_descends d)
      ⟨∅, [], [], [q.entryPoint], none⟩ K log).1 = .ok (some listing)) :
    WalkedListing d q K listing := by
  refine Probing.loop_invariant (decodeDescends_wf q) (decodeStep_descends d)
    (WalkInvariant d q K)
    (fun result => ∀ listing, result = .ok (some listing) → WalkedListing d q K listing)
    ?_ ?_ walkInvariant_start log listing h
  · intro s log s' hs hstep
    exact hs.step hd hstep
  · intro s log result hs hstep listing hlisting
    subst hlisting
    obtain ⟨hworklist, hcursor, hcollect⟩ := collected_of_step hstep
    exact hs.walkedListing hd hworklist hcursor hcollect

end Results

/-! ## Listings of PowerPC functions -/

namespace PpcDecoder

/-- Whether control may go on behind an instruction: not behind a branch without condition
and link, and not behind a return from an interrupt. -/
def fallsThrough (word : UInt32) : Bool :=
  match GetField word 26 6 with
  | 18 => GetField word 0 1 ≠ 0
  | 19 =>
      if GetField word 1 10 = 16 ∨ GetField word 1 10 = 528 then
        GetField word 21 5 ≠ 20 ∨ GetField word 0 1 ≠ 0
      else GetField word 1 10 ≠ 50
  | _ => true

end PpcDecoder

open PpcDecoder

/-- The translator's decoder.  The instructions without branch targets and the recognition
of jump tables may be any. -/
def ppcDecoder (plain : UInt32 → PlainInstruction)
    (tryRecognize : List PpcInstruction → UInt32 → UInt32 → UInt32 → ProgramImage →
      Except Failure (Option (List UInt32))) : Decoder :=
  ⟨Decode plain, tryRecognize⟩

/-- Where control may go on in the function behind a listed instruction.  The target of an
unconditional branch belongs to the function unless it is the entry point of another one
that no conditional branch or jump table of the listing leads to. -/
inductive LocalSuccessor (entryPoint : UInt32) (K : UInt32 → Bool)
    (listing : List PpcInstruction) (ins : PpcInstruction) : UInt32 → Prop
  | fallThrough {target : UInt32} (hfalls : fallsThrough ins.word = true)
      (htarget : target.toNat = ins.address.toNat + 4) :
      LocalSuccessor entryPoint K listing ins target
  | conditional (hprimary : GetField ins.word 26 6 = 16) :
      LocalSuccessor entryPoint K listing ins (bcTarget ins.address ins.word)
  | jump (hprimary : GetField ins.word 26 6 = 18) (hlk : GetField ins.word 0 1 = 0)
      (hlocal : bTarget ins.address ins.word = entryPoint ∨
        K (bTarget ins.address ins.word) = false ∨
          ∃ other ∈ listing, bTarget ins.address ins.word ∈ other.branchTargets ∧
            (GetField other.word 26 6 = 16 ∨ GetField other.word 26 6 = 19)) :
      LocalSuccessor entryPoint K listing ins (bTarget ins.address ins.word)
  | table {target : UInt32} (hprimary : GetField ins.word 26 6 = 19)
      (htarget : target ∈ ins.branchTargets) :
      LocalSuccessor entryPoint K listing ins target

section Decoding

variable {plain : UInt32 → PlainInstruction}
  {tryRecognize : List PpcInstruction → UInt32 → UInt32 → UInt32 → ProgramImage →
    Except Failure (Option (List UInt32))}
  {address word : UInt32}

theorem decodePrimary19_fields (address word : UInt32) :
    (decodePrimary19 address word).address = address ∧
      (decodePrimary19 address word).word = word ∧
        (decodePrimary19 address word).branchTargets = [] := by
  unfold decodePrimary19
  dsimp only
  split_ifs
  · exact ⟨rfl, rfl, rfl⟩
  · exact ⟨rfl, rfl, rfl⟩
  · exact ⟨rfl, rfl, rfl⟩
  · exact ⟨rfl, rfl, rfl⟩
  · exact ⟨rfl, rfl, rfl⟩
  · split
    · exact ⟨rfl, rfl, rfl⟩
    · exact ⟨rfl, rfl, rfl⟩

theorem Decode_primary16 (h : GetField word 26 6 = 16) :
    Decode plain address word = decodePrimary16 address word := by
  unfold Decode
  rw [h]
  rfl

theorem Decode_primary18 (h : GetField word 26 6 = 18) :
    Decode plain address word = decodePrimary18 address word := by
  unfold Decode
  rw [h]
  rfl

theorem Decode_primary19 (h : GetField word 26 6 = 19) :
    Decode plain address word = decodePrimary19 address word := by
  unfold Decode
  rw [h]
  rfl

theorem Decode_fields (plain : UInt32 → PlainInstruction) (address word : UInt32) :
    (Decode plain address word).address = address ∧
      (Decode plain address word).word = word := by
  unfold Decode
  split
  · exact ⟨rfl, rfl⟩
  · exact ⟨rfl, rfl⟩
  · exact ⟨(decodePrimary19_fields address word).1, (decodePrimary19_fields address word).2.1⟩
  · exact ⟨rfl, rfl⟩

theorem mem_of_TryDecodeCrBranchMnemonic {bo bi : ℕ} {mnemonic : String}
    (h : TryDecodeCrBranchMnemonic bo bi = some mnemonic) :
    mnemonic ∈ TrueCrBranchMnemonics ++ FalseCrBranchMnemonics := by
  have hbit : bi % 4 = 0 ∨ bi % 4 = 1 ∨ bi % 4 = 2 ∨ bi % 4 = 3 := by omega
  rw [TryDecodeCrBranchMnemonic] at h
  split_ifs at h <;> obtain rfl := Option.some_inj.mp h <;>
    rcases hbit with hbit | hbit | hbit | hbit <;> rw [hbit] <;> decide

/-- No branch with a displacement has the mnemonic of a jump through the count register. -/
theorem bcMnemonic_ne (bo bi : ℕ) (lk : Bool) :
    equalsIgnoreCase (bcMnemonic bo bi lk).1.toList "bctr".toList = false := by
  have hcr : ∀ mnemonic ∈ TrueCrBranchMnemonics ++ FalseCrBranchMnemonics, ∀ lk : Bool,
      equalsIgnoreCase (if lk then mnemonic ++ "l" else mnemonic).toList
        "bctr".toList = false := by
    decide
  rw [bcMnemonic]
  rcases hmnemonic : TryDecodeCrBranchMnemonic bo bi with _ | mnemonic
  · have hcounter : ∀ mnemonic ∈ ["bdnzl", "bdnz", "bdzl", "bdz", "bcl", "bc"],
        equalsIgnoreCase mnemonic.toList "bctr".toList = false := by
      decide
    dsimp only
    split_ifs <;> exact hcounter _ (by simp)
  · exact hcr mnemonic (mem_of_TryDecodeCrBranchMnemonic hmnemonic) lk

theorem bclrMnemonic_ne (bo crBit : ℕ) (lk : Bool) :
    equalsIgnoreCase
      (if lk then bclrMnemonic bo crBit ++ "l" else bclrMnemonic bo crBit).toList
      "bctr".toList = false := by
  have hall : ∀ mnemonic ∈ ["bltlr", "bgtlr", "beqlr", "bsolr", "bgelr", "blelr", "bnelr",
      "bnslr", "bclr"], ∀ lk : Bool,
      equalsIgnoreCase (if lk then mnemonic ++ "l" else mnemonic).toList
        "bctr".toList = false := by
    decide
  refine hall _ ?_ lk
  unfold bclrMnemonic
  split <;> simp

theorem crLogicalMnemonic_ne {xo : ℕ} {mnemonic : String}
    (h : crLogicalMnemonic xo = some mnemonic) :
    equalsIgnoreCase mnemonic.toList "bctr".toList = false := by
  unfold crLogicalMnemonic at h
  split at h
  case h_9 => exact absurd h.symm (Option.some_ne_none _)
  all_goals
    obtain rfl := Option.some_inj.mp h
    decide

/-- A jump through the count register is the unconditional branch without link. -/
theorem word_of_isCounterJump (h : isCounterJump (Decode plain address word) = true) :
    GetField word 26 6 = 19 ∧ GetField word 1 10 = 528 ∧ GetField word 21 5 = 20 ∧
      GetField word 0 1 = 0 := by
  rw [isCounterJump] at h
  unfold Decode at h
  split at h
  case h_1 =>
    exact absurd h (by rw [decodePrimary16, bcMnemonic_ne]; exact Bool.false_ne_true)
  case h_2 =>
    rw [decodePrimary18] at h
    dsimp only at h
    split_ifs at h <;> exact absurd h (by decide)
  case h_4 =>
    rw [(plain word).mnemonic_ne] at h
    exact absurd h Bool.false_ne_true
  case h_3 hprimary =>
    refine ⟨hprimary, ?_⟩
    unfold decodePrimary19 at h
    dsimp only at h
    split_ifs at h with hbclr hbcctr hrfi hisync hmcrf
    · rw [decodeBclr, primary19] at h
      dsimp only at h
      split_ifs at h with halways hlink hlink
      · exact absurd h (by decide)
      · exact absurd h (by decide)
      · have hne := bclrMnemonic_ne (GetField word 21 5) (GetField word 16 5 % 4) true
        rw [if_pos rfl] at hne
        rw [hne] at h
        exact absurd h Bool.false_ne_true
      · have hne := bclrMnemonic_ne (GetField word 21 5) (GetField word 16 5 % 4) false
        rw [if_neg Bool.false_ne_true] at hne
        rw [hne] at h
        exact absurd h Bool.false_ne_true
    · rw [decodeBcctr, primary19] at h
      dsimp only at h
      split_ifs at h with halways hlink hlink
      · exact absurd h (by decide)
      · refine ⟨hbcctr, halways, ?_⟩
        simpa using hlink
      · exact absurd h (by decide)
      · exact absurd h (by decide)
    · dsimp only [primary19] at h
      exact absurd h (by decide)
    · dsimp only [primary19] at h
      exact absurd h (by decide)
    · dsimp only [primary19] at h
      exact absurd h (by decide)
    · split at h
      case h_1 mnemonic hmnemonic =>
        rw [primary19, crLogicalMnemonic_ne hmnemonic] at h
        exact absurd h Bool.false_ne_true
      case h_2 =>
        dsimp only [primary19] at h
        exact absurd h (by decide)

/-- The decoder keeps addresses, and a jump through the count register has no targets. -/
theorem keepsAddresses_ppcDecoder : (ppcDecoder plain tryRecognize).KeepsAddresses where
  address := fun address word => (Decode_fields plain address word).1
  counterJump := by
    intro address word h
    obtain ⟨hprimary, -⟩ := word_of_isCounterJump h
    rw [ppcDecoder]
    dsimp only
    unfold Decode
    rw [hprimary]
    exact (decodePrimary19_fields address word).2.2

/-- Behind an instruction after which control may go on, the walk goes on. -/
theorem flows_of_fallsThrough (h : fallsThrough word = true) :
    (Decode plain address word).isConditionalBranch = true ∨
      (Decode plain address word).isUnconditionalBranch = false ∧
        (Decode plain address word).isReturn = false := by
  unfold fallsThrough at h
  unfold Decode
  split
  case h_1 => exact Or.inl rfl
  case h_2 hprimary =>
    rw [hprimary] at h
    refine Or.inr ⟨?_, rfl⟩
    rw [PpcInstruction.isUnconditionalBranch, decodePrimary18]
    simp only at h ⊢
    rw [h]
    simp
  case h_4 => exact Or.inr ⟨rfl, rfl⟩
  case h_3 hprimary =>
    rw [hprimary] at h
    have htargets := (decodePrimary19_fields address word).2.2
    have hjump : (decodePrimary19 address word).isUnconditionalBranch = false := by
      rw [PpcInstruction.isUnconditionalBranch, htargets]
      rfl
    rw [hjump]
    simp only at h
    unfold decodePrimary19
    dsimp only
    split_ifs with hbclr hbcctr hrfi hisync hmcrf
    · rw [if_pos (Or.inl hbclr)] at h
      rw [decodeBclr, primary19]
      dsimp only
      rcases of_decide_eq_true h with hbo | hlk
      · exact Or.inl (decide_eq_true hbo)
      · exact Or.inr ⟨rfl, by simp [hlk]⟩
    · rw [if_pos (Or.inr hbcctr)] at h
      rw [decodeBcctr, primary19]
      dsimp only
      rcases of_decide_eq_true h with hbo | hlk
      · exact Or.inl (decide_eq_true hbo)
      · exact Or.inr ⟨rfl, by simp [hlk]⟩
    · rw [if_neg (not_or.mpr ⟨hbclr, hbcctr⟩)] at h
      exact absurd hrfi (of_decide_eq_true h)
    · exact Or.inr ⟨rfl, rfl⟩
    · exact Or.inr ⟨rfl, rfl⟩
    · split <;> exact Or.inr ⟨rfl, rfl⟩

end Decoding

section Closed

variable {plain : UInt32 → PlainInstruction}
  {tryRecognize : List PpcInstruction → UInt32 → UInt32 → UInt32 → ProgramImage →
    Except Failure (Option (List UInt32))}
  {q : DecodeRequest} {K : UInt32 → Bool} {listing : List PpcInstruction}
  {ins : PpcInstruction} {target : UInt32}

theorem IsDecoded.word_eq (h : IsDecoded (ppcDecoder plain tryRecognize) q ins.address ins) :
    ins.word = q.image.readUInt32BigEndian ins.address := by
  rcases h with h | ⟨-, targets, h⟩
  · rw [h]
    exact (Decode_fields plain _ _).2.trans (by rw [← h])
  · rw [h]
    exact (Decode_fields plain _ _).2.trans (by rw [← h])

/-- An instruction that is no jump through the count register is listed as decoded. -/
theorem IsDecoded.eq_decode (h : IsDecoded (ppcDecoder plain tryRecognize) q ins.address ins)
    (hword : ¬ (GetField ins.word 26 6 = 19 ∧ GetField ins.word 1 10 = 528 ∧
      GetField ins.word 21 5 = 20 ∧ GetField ins.word 0 1 = 0)) :
    ins = Decode plain ins.address ins.word := by
  have heq := h.word_eq
  rcases h with h | ⟨hcounter, -⟩
  · rw [heq]
    exact h
  · rw [heq] at hword
    exact absurd (word_of_isCounterJump hcounter) hword

theorem follows_conditional
    (h : IsDecoded (ppcDecoder plain tryRecognize) q ins.address ins)
    (hprimary : GetField ins.word 26 6 = 16) :
    ins.branchTargets = [bcTarget ins.address ins.word] ∧
      Follows q K ins (bcTarget ins.address ins.word) := by
  have hdecode := h.eq_decode (by rw [hprimary]; omega)
  rw [Decode_primary16 hprimary] at hdecode
  have htargets : ins.branchTargets = [bcTarget ins.address ins.word] :=
    congrArg PpcInstruction.branchTargets hdecode
  exact ⟨htargets, .conditional (congrArg PpcInstruction.isConditionalBranch hdecode)
    (by rw [htargets]; exact List.mem_singleton_self _)⟩

/-- A jump through the count register is followed to the targets of its table. -/
theorem follows_table (h : IsDecoded (ppcDecoder plain tryRecognize) q ins.address ins)
    (hprimary : GetField ins.word 26 6 = 19) (htarget : target ∈ ins.branchTargets) :
    Follows q K ins target := by
  have heq := h.word_eq
  rw [heq] at hprimary
  rcases h with h | ⟨hcounter, targets, h⟩
  · rw [h, ppcDecoder] at htarget
    dsimp only at htarget
    rw [Decode_primary19 hprimary, (decodePrimary19_fields _ _).2.2] at htarget
    exact absurd htarget List.not_mem_nil
  · obtain ⟨-, hxo, hbo, hlk⟩ := word_of_isCounterJump hcounter
    have hins : ins.isConditionalBranch = false ∧ ins.isCall = false ∧
        ins.isReturn = false := by
      rw [h, ppcDecoder]
      dsimp only
      rw [Decode_primary19 hprimary, decodePrimary19, hxo, decodeBcctr, primary19, hbo, hlk]
      exact ⟨rfl, rfl, rfl⟩
    refine .unconditional ?_ htarget (Or.inl ?_)
    · rw [PpcInstruction.isUnconditionalBranch, hins.1, hins.2.1, hins.2.2]
      rcases hlist : ins.branchTargets with _ | ⟨first, rest⟩
      · rw [hlist] at htarget
        exact absurd htarget List.not_mem_nil
      · rfl
    · rw [h]
      exact hcounter

theorem WalkedListing.localSuccessor
    (h : WalkedListing (ppcDecoder plain tryRecognize) q K listing) (hins : ins ∈ listing)
    (hsuccessor : LocalSuccessor q.entryPoint K listing ins target)
    (hstart : q.entryPoint ≤ target) (hend : target < q.endAddress)
    (hcontains : q.image.contains target 4 = true) :
    ∃ other ∈ listing, other.address = target := by
  have hdecoded := h.decoded ins hins
  rcases hsuccessor with ⟨hfalls, htarget⟩ | ⟨hprimary⟩ | ⟨hprimary, hlk, hlocal⟩ |
    ⟨hprimary, htarget⟩
  · refine h.closed ins hins target (.next ?_ ?_) hstart hend hcontains
    · have hdecode := hdecoded.eq_decode (by
        rintro ⟨hprimary, hxo, hbo, hlk⟩
        unfold fallsThrough at hfalls
        rw [hprimary, hxo, hbo, hlk] at hfalls
        exact absurd hfalls (by decide))
      rw [hdecode]
      exact flows_of_fallsThrough hfalls
    · have hbound : ins.address.toNat + 4 < UInt32.size := htarget ▸ target.toNat_lt_size
      rw [PpcInstruction.endAddress, if_pos hbound]
      congr 1
      apply UInt32.toNat_inj.mp
      rw [htarget, UInt32.toNat_add]
      exact Nat.mod_eq_of_lt hbound
  · exact h.closed ins hins _ (follows_conditional hdecoded hprimary).2 hstart hend hcontains
  · have hdecode := hdecoded.eq_decode (by rw [hprimary]; omega)
    rw [Decode_primary18 hprimary] at hdecode
    have htargets : ins.branchTargets = [bTarget ins.address ins.word] :=
      congrArg PpcInstruction.branchTargets hdecode
    have hjump : ins.isUnconditionalBranch = true := by
      rw [hdecode, PpcInstruction.isUnconditionalBranch, decodePrimary18]
      simp [hlk]
    have hmem : bTarget ins.address ins.word ∈ ins.branchTargets := by
      rw [htargets]
      exact List.mem_singleton_self _
    rcases hlocal with hentry | hK | ⟨other, hother, htarget, hkind⟩
    · exact h.closed ins hins _ (.unconditional hjump hmem (Or.inr (Or.inl hentry)))
        hstart hend hcontains
    · exact h.closed ins hins _ (.unconditional hjump hmem (Or.inr (Or.inr hK)))
        hstart hend hcontains
    · -- The target belongs to the function because another listed branch leads to it.
      have hdecoded' := h.decoded other hother
      rcases hkind with hprimary' | hprimary'
      · obtain ⟨htargets', hfollows⟩ :=
          follows_conditional (K := K) hdecoded' hprimary'
        rw [htargets', List.mem_singleton] at htarget
        exact h.closed other hother _ (htarget ▸ hfollows) hstart hend hcontains
      · exact h.closed other hother _ (follows_table hdecoded' hprimary' htarget)
          hstart hend hcontains
  · exact h.closed ins hins _ (follows_table hdecoded hprimary htarget) hstart hend hcontains

end Closed

/-! ## Disassembled functions -/

/-- The end of the window: the number of bytes is cut at the end of the image. -/
def windowEnd (image : ProgramImage) (entryPoint : UInt32) (maxBytes : Int) : UInt32 :=
  entryPoint + UInt32.ofInt (min maxBytes (image.memory.length - image.getOffset entryPoint))

/-- A listing of a function in its window. -/
structure ClosedDisassembly (image : ProgramImage) (entryPoint : UInt32)
    (maxInstructions maxBytes : Int) (K : UInt32 → Bool) (listing : List PpcInstruction) :
    Prop where
  ascending : (listing.map PpcInstruction.address).Pairwise (· < ·)
  words : ∀ ins ∈ listing, ins.word = image.readUInt32BigEndian ins.address
  instructions : (listing.length : Int) ≤ maxInstructions
  window : ∀ ins ∈ listing, entryPoint ≤ ins.address ∧
    ins.address < windowEnd image entryPoint maxBytes
  bytes : 0 ≤ maxBytes → ∀ ins ∈ listing,
    (ins.address.toNat : Int) < entryPoint.toNat + maxBytes
  start : entryPoint < windowEnd image entryPoint maxBytes →
    ∃ ins ∈ listing, ins.address = entryPoint
  closed : ∀ ins ∈ listing, ∀ target, LocalSuccessor entryPoint K listing ins target →
    entryPoint ≤ target → target < windowEnd image entryPoint maxBytes →
      image.contains target 4 = true → ∃ other ∈ listing, other.address = target

/-- A window of a positive number of bytes ends within that number. -/
theorem windowEnd_le {image : ProgramImage} {entryPoint : UInt32} {maxBytes : Int}
    (hcontains : image.contains entryPoint 4 = true) (hbytes : 0 ≤ maxBytes) :
    ((windowEnd image entryPoint maxBytes).toNat : Int) ≤ entryPoint.toNat + maxBytes := by
  simp only [ProgramImage.contains, Bool.and_eq_true, decide_eq_true_eq] at hcontains
  have hroom : (0 : Int) ≤ image.memory.length - image.getOffset entryPoint := by
    rw [ProgramImage.getOffset]
    omega
  have hsum : (windowEnd image entryPoint maxBytes).toNat ≤ entryPoint.toNat +
      (UInt32.ofInt (min maxBytes (image.memory.length - image.getOffset entryPoint))).toNat := by
    rw [windowEnd, UInt32.toNat_add]
    exact Nat.mod_le _ _
  have hword : ∀ n : Int, 0 ≤ n → ((UInt32.ofInt n).toNat : Int) ≤ n := by
    intro n hn
    rw [UInt32.ofInt, UInt32.toNat_ofNat']
    omega
  have hmin := hword (min maxBytes (image.memory.length - image.getOffset entryPoint))
    (le_min hbytes hroom)
  have hle : min maxBytes (image.memory.length - image.getOffset entryPoint) ≤ maxBytes :=
    min_le_left _ _
  omega

/-- **Disassembled functions.**  The listing is ascending, stays in its limits, begins at the
entry point of a window that is not empty, and contains every local successor. -/
theorem closedDisassembly_of_disassembleFunctionCore
    (plain : UInt32 → PlainInstruction)
    (tryRecognize : List PpcInstruction → UInt32 → UInt32 → UInt32 → ProgramImage →
      Except Failure (Option (List UInt32)))
    (image : ProgramImage) (entryPoint : UInt32) (maxInstructions maxBytes : Int)
    (throwOnBudget : Bool) (K : UInt32 → Bool) (log : List UInt32)
    (listing : List PpcInstruction)
    (h : (disassembleFunctionCore (ppcDecoder plain tryRecognize) image entryPoint
      maxInstructions maxBytes throwOnBudget K log).1 = .ok (some listing)) :
    ClosedDisassembly image entryPoint maxInstructions maxBytes K listing := by
  rw [disassembleFunctionCore] at h
  split_ifs at h with hcontains
  · have hwalked := walkedListing_of_loop keepsAddresses_ppcDecoder log h
    constructor
    · exact hwalked.ascending
    · exact fun ins hins => (hwalked.decoded ins hins).word_eq
    · exact hwalked.budget
    · exact hwalked.window
    · intro hbytes ins hins
      have hend : ins.address.toNat < (windowEnd image entryPoint maxBytes).toNat :=
        UInt32.lt_iff_toNat_lt.mp (hwalked.window ins hins).2
      have hle := windowEnd_le hcontains hbytes
      omega
    · exact fun hstart => hwalked.entry hstart hcontains
    · exact fun ins hins target hsuccessor => hwalked.localSuccessor hins hsuccessor
  · exact absurd h (by simp [Probing.done])

/-! ## Limits without a window -/

/-- The decoder when all other instructions are taken for `nop` and no jump table is
recognized. -/
def branchOnlyDecoder : Decoder :=
  ppcDecoder (fun _ => ⟨"nop", [], false, by decide⟩) fun _ _ _ _ _ => .ok none

/-- `beq` over a `blr` to another one. -/
def returnsImage : ProgramImage :=
  ⟨[0x41, 0x82, 0x00, 0x08, 0x4E, 0x80, 0x00, 0x20, 0x4E, 0x80, 0x00, 0x20], 0x80004000⟩

theorem disassemble_returnsImage :
    disassembleFunctionCore branchOnlyDecoder returnsImage 0x80004000 16 64 true
        (fun _ => false) [] =
      (.ok (some [branchOnlyDecoder.decode 0x80004000 0x41820008,
        branchOnlyDecoder.decode 0x80004004 0x4E800020,
        branchOnlyDecoder.decode 0x80004008 0x4E800020]), []) := by
  rw [disassembleFunctionCore, if_pos (by decide)]
  apply Probing.loop_of_run _ _ (show Probing.run _ 16 _ _ _ = _ from ?_)
  decide +kernel

/-- The three instructions are a closed listing. -/
theorem closedDisassembly_returnsImage :
    ClosedDisassembly returnsImage 0x80004000 16 64 (fun _ => false)
      [branchOnlyDecoder.decode 0x80004000 0x41820008,
        branchOnlyDecoder.decode 0x80004004 0x4E800020,
        branchOnlyDecoder.decode 0x80004008 0x4E800020] :=
  closedDisassembly_of_disassembleFunctionCore (fun _ => ⟨"nop", [], false, by decide⟩)
    (fun _ _ _ _ _ => .ok none) returnsImage 0x80004000 16 64 true (fun _ => false) [] _
    (congrArg Prod.fst disassemble_returnsImage)

/-- A `blr` at a given address. -/
def blrImage (memoryBase : UInt32) : ProgramImage :=
  ⟨[0x4E, 0x80, 0x00, 0x20], memoryBase⟩

theorem disassemble_noBytes :
    disassembleFunctionCore branchOnlyDecoder (blrImage 0x80004000) 0x80004000 16 0 true
        (fun _ => false) [] = (.ok (some []), []) := by
  rw [disassembleFunctionCore, if_pos (by decide)]
  apply Probing.loop_of_run _ _ (show Probing.run _ 4 _ _ _ = _ from ?_)
  decide +kernel

theorem disassemble_negativeBytes :
    disassembleFunctionCore branchOnlyDecoder (blrImage 0) 0 16 (-4) true
        (fun _ => false) [] =
      (.ok (some [branchOnlyDecoder.decode 0 0x4E800020]), []) := by
  rw [disassembleFunctionCore, if_pos (by decide)]
  apply Probing.loop_of_run _ _ (show Probing.run _ 4 _ _ _ = _ from ?_)
  decide +kernel

/-- Without a byte in the window the listing is empty, and a negative number of bytes wraps
around to a window that is not. -/
theorem not_listing_start_and_bytes :
    (¬ ∀ image entryPoint maxInstructions maxBytes listing,
      (disassembleFunctionCore branchOnlyDecoder image entryPoint maxInstructions maxBytes
        true (fun _ => false) []).1 = .ok (some listing) →
          ∃ ins ∈ listing, ins.address = entryPoint) ∧
      ¬ ∀ image entryPoint maxInstructions maxBytes listing,
        (disassembleFunctionCore branchOnlyDecoder image entryPoint maxInstructions maxBytes
          true (fun _ => false) []).1 = .ok (some listing) →
            ∀ ins ∈ listing, (ins.address.toNat : Int) < entryPoint.toNat + maxBytes := by
  constructor
  · intro h
    obtain ⟨ins, hins, -⟩ := h _ _ _ _ _ (congrArg Prod.fst disassemble_noBytes)
    exact absurd hins List.not_mem_nil
  · intro h
    have hbytes := h _ _ _ _ _ (congrArg Prod.fst disassemble_negativeBytes) _
      (List.mem_singleton_self _)
    exact absurd hbytes (by decide)

end Wiicompiled.Disassembly
