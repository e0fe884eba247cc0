import Wiicompiled.Disassembly.DisassemblyClosed

/-!
# Listed instructions are reached

The listing is closed under control flow; here is the other half.  Nothing comes to the
work list, under the cursor or among the local targets that control does not reach from the
entry point, so what is listed is exactly what control reaches inside the window.
-/

namespace Wiicompiled.Disassembly

open Ir PpcDecoder

/-! ## What the walk comes across -/

/-- Control reaches an address from the entry point along the decoded instructions. -/
def Reaches (q : DecodeRequest) (K : UInt32 → Bool)
    (map : AList fun _ : UInt32 => PpcInstruction) : UInt32 → Prop :=
  Relation.ReflTransGen (fun address target =>
    ∃ ins, map.lookup address = some ins ∧ Follows q K ins target) q.entryPoint

/-- The addresses at which the walk may go on. -/
def DecodeState.Noted (s : DecodeState) (address : UInt32) : Prop :=
  address ∈ s.worklist ∨ s.cursor = some address ∨ address ∈ s.localControlFlowTargets

/-- The walk comes across nothing that control does not reach. -/
structure ReachedInvariant (q : DecodeRequest) (K : UInt32 → Bool) (s : DecodeState) :
    Prop where
  noted : ∀ address, s.Noted address → Reaches q K s.instructionMap address
  listed : ∀ address ∈ s.reachable,
    Reaches q K s.instructionMap address ∧ q.image.contains address 4 = true

/-- A decoder whose jumps through the count register are no calls. -/
def Decoder.JumpsDirectly (d : Decoder) : Prop :=
  ∀ address word, isCounterJump (d.decode address word) = true →
    (d.decode address word).isCall = false

theorem jumpsDirectly_ppcDecoder (plain : UInt32 → PlainInstruction)
    (tryRecognize : List PpcInstruction → UInt32 → UInt32 → UInt32 → ProgramImage →
      Except Failure (Option (List UInt32))) :
    (ppcDecoder plain tryRecognize).JumpsDirectly := by
  intro address word h
  obtain ⟨hprimary, hxo, hbo, hlk⟩ := word_of_isCounterJump h
  rw [ppcDecoder]
  dsimp only
  rw [Decode_primary19 hprimary, decodePrimary19, hxo, decodeBcctr, primary19, hbo, hlk]
  rfl

section Steps

variable {d : Decoder} {q : DecodeRequest} {K : UInt32 → Bool} {s s' : DecodeState}
  {ins : PpcInstruction} {log : List UInt32} {P : UInt32 → Prop}

theorem ReachedInvariant.of_noted (h : ReachedInvariant q K s)
    (hmap : s'.instructionMap = s.instructionMap) (hreachable : s'.reachable = s.reachable)
    (hnoted : ∀ address, s'.Noted address → s.Noted address) : ReachedInvariant q K s' where
  noted := by
    intro address haddress
    rw [hmap]
    exact h.noted address (hnoted address haddress)
  listed := by
    rw [hmap, hreachable]
    exact h.listed

theorem noted_of_dropCursor {address : UInt32}
    (h : { s with cursor := none }.Noted address) : s.Noted address := by
  rcases h with hwaits | hunder | hlocal
  · exact Or.inl hwaits
  · exact absurd hunder.symm (Option.some_ne_none _)
  · exact Or.inr (Or.inr hlocal)

/-- A target that is not taken for another function's entry point belongs to this one. -/
theorem local_of_not_external {target : UInt32}
    (h : (isKnownExternalFunctionEntry q s target K log).1 = false) :
    target = q.entryPoint ∨ target ∈ s.localControlFlowTargets ∨ K target = false := by
  rw [isKnownExternalFunctionEntry] at h
  split_ifs at h with hlocal
  · exact hlocal.imp_right Or.inl
  · refine Or.inr (Or.inr (Bool.eq_false_of_not_eq_true fun hknown => ?_))
    rw [Probing.ask_of_mem hknown] at h
    exact absurd h Bool.true_eq_false_eq_False

/-- Only targets of the branch that belong to the function are queued. -/
theorem mem_of_mem_enqueueTargets {recognized : Bool} {targets : List UInt32}
    {target : UInt32} (h : target ∈ (enqueueTargets q s recognized targets K log).1) :
    target ∈ s.worklist ∨ target ∈ targets ∧ (recognized = true ∨ target = q.entryPoint ∨
      target ∈ s.localControlFlowTargets ∨ K target = false) := by
  rw [enqueueTargets] at h
  revert h
  generalize s.worklist = worklist
  induction targets generalizing worklist log with
  | nil => exact Or.inl
  | cons first targets ih =>
      intro h
      rw [Probing.fold, Probing.andThen] at h
      rcases ih _ h with hqueued | ⟨hrest, hlocal⟩
      · rw [Probing.andThen, Probing.done] at hqueued
        dsimp only at hqueued
        by_cases hold : target ∈ worklist
        · exact Or.inl hold
        · split_ifs at hqueued with hrecognized hkept hkept
          · obtain rfl := List.mem_singleton.mp
              ((List.mem_append.mp hqueued).resolve_left hold)
            exact Or.inr ⟨List.mem_cons_self, Or.inl hrecognized⟩
          · exact absurd hqueued hold
          · obtain rfl := List.mem_singleton.mp
              ((List.mem_append.mp hqueued).resolve_left hold)
            exact Or.inr ⟨List.mem_cons_self, Or.inr
              (local_of_not_external (by simpa using hkept.1))⟩
          · exact absurd hqueued hold
      · exact Or.inr ⟨List.mem_cons_of_mem _ hrest, hlocal⟩

/-- The walk goes on at places noted before and at places behind the instruction. -/
theorem noted_of_followInstruction {recognized : Bool}
    (hrecognized : recognized = true → isCounterJump ins = true)
    (h : (followInstruction q s ins recognized K log).1 = .inl s') (hentry : P q.entryPoint)
    (hnoted : ∀ address, s.Noted address → P address)
    (hbehind : ∀ address, Follows q K ins address → P address) :
    ∀ address, s'.Noted address → P address := by
  rw [followInstruction] at h
  split_ifs at h with hcond hjump hreturn
  · obtain ⟨next, hnext, rfl⟩ := fallThrough_eq h
    rintro address (hwaits | hunder | hlocal)
    · rcases List.mem_append.mp hwaits with hold | hnew
      · exact hnoted address (Or.inl hold)
      · exact hbehind address (.conditional hcond (List.mem_filter.mp hnew).1)
    · obtain rfl := Option.some_inj.mp hunder
      exact hbehind next (.next (Or.inl hcond) hnext)
    · rcases List.mem_append.mp hlocal with hnew | hold
      · exact hbehind address (.conditional hcond hnew)
      · exact hnoted address (Or.inr (Or.inr hold))
  · obtain rfl := Sum.inl.inj h
    rintro address (hwaits | hunder | hlocal)
    · rcases mem_of_mem_enqueueTargets hwaits with hold | ⟨htarget, hkind⟩
      · exact hnoted address (Or.inl hold)
      · rcases hkind with hcounter | rfl | hlocal | hknown
        · exact hbehind address (.unconditional hjump htarget (Or.inl (hrecognized hcounter)))
        · exact hentry
        · exact hnoted address (Or.inr (Or.inr hlocal))
        · exact hbehind address (.unconditional hjump htarget (Or.inr (Or.inr hknown)))
    · exact absurd hunder.symm (Option.some_ne_none _)
    · exact hnoted address (Or.inr (Or.inr hlocal))
  · obtain rfl := Sum.inl.inj h
    exact fun address hnew => hnoted address (noted_of_dropCursor hnew)
  · obtain ⟨next, hnext, rfl⟩ := fallThrough_eq h
    rintro address (hwaits | hunder | hlocal)
    · exact hnoted address (Or.inl hwaits)
    · obtain rfl := Option.some_inj.mp hunder
      exact hbehind next (.next (Or.inr ⟨Bool.eq_false_of_not_eq_true hjump,
        Bool.eq_false_of_not_eq_true hreturn⟩) hnext)
    · exact hnoted address (Or.inr (Or.inr hlocal))

/-- Only a jump through the count register has a table, and the walk follows its targets. -/
theorem follows_of_withJumpTable {targets : Option (List UInt32)}
    (hcall : isCounterJump ins = true → ins.isCall = false)
    (htargets : jumpTableTargets d q s ins = .ok targets) :
    (targets.isSome = true → isCounterJump (withJumpTable s ins targets).1 = true) ∧
      ∀ address, (withJumpTable s ins targets).2.Noted address →
        s.Noted address ∨ Follows q K (withJumpTable s ins targets).1 address := by
  rcases targets with _ | table
  · exact ⟨fun h => absurd h Bool.false_ne_true, fun _ => Or.inl⟩
  · have hcounter : isCounterJump ins = true := by
      rw [jumpTableTargets] at htargets
      split_ifs at htargets with hcounter
      · exact hcounter.2
      · exact absurd (Except.ok.inj htargets).symm (Option.some_ne_none _)
    refine ⟨fun _ => hcounter, ?_⟩
    rintro address (hwaits | hunder | hlocal)
    · exact Or.inl (Or.inl hwaits)
    · exact Or.inl (Or.inr (Or.inl hunder))
    · rcases List.mem_append.mp hlocal with hnew | hold
      · rcases hcond : ins.isConditionalBranch with _ | _
        · refine Or.inr (.unconditional ?_ hnew (Or.inl hcounter))
          have hne : table.isEmpty = false :=
            List.isEmpty_eq_false_iff.mpr (List.ne_nil_of_mem hnew)
          simp [withJumpTable, PpcInstruction.isUnconditionalBranch, hcond,
            hcall hcounter, hne]
        · exact Or.inr (.conditional hcond hnew)
      · exact Or.inl (Or.inr (Or.inr hold))

theorem ReachedInvariant.visitNew (hd : d.KeepsAddresses) (hdirect : d.JumpsDirectly)
    (h : ReachedInvariant q K s) {cursor : UInt32} (hcursor : s.cursor = some cursor)
    (hcontains : q.image.contains cursor 4 = true) (hfresh : cursor ∉ s.reachable)
    (hlookup : s.instructionMap.lookup cursor = none)
    (hins : ins = d.decode cursor (q.image.readUInt32BigEndian cursor))
    (hvisit : (visitInstruction d q
      { s with instructionMap := s.instructionMap.insert cursor ins } ins K log).1 =
        .inl s') : ReachedInvariant q K s' := by
  have haddress : ins.address = cursor := by
    rw [hins]
    exact hd.address _ _
  have hcall : isCounterJump ins = true → ins.isCall = false := by
    rw [hins]
    exact hdirect _ _
  rw [visitInstruction, haddress, if_neg hfresh] at hvisit
  dsimp only at hvisit
  rcases htargets : jumpTableTargets d q
      { s with
        instructionMap := s.instructionMap.insert cursor ins
        reachable := cursor :: s.reachable } ins with e | targets
  · rw [htargets] at hvisit
    exact absurd hvisit (by simp [Probing.done])
  · rw [htargets] at hvisit
    obtain ⟨-, hself, hothers, -, hrecognized⟩ :=
      withJumpTable_eq hd hins (AList.lookup_insert _) htargets
    obtain ⟨hmap, hreachable, -, -⟩ := followInstruction_covers hrecognized hvisit
    rw [withJumpTable_reachable] at hreachable
    obtain ⟨hcounter, htable⟩ := follows_of_withJumpTable (K := K) hcall htargets
    -- Only the instruction under the cursor is new among the decoded ones.
    have hmono : ∀ address, Reaches q K s.instructionMap address →
        Reaches q K s'.instructionMap address := by
      refine fun address => Relation.ReflTransGen.mono (fun other target hlead => ?_) _ _
      obtain ⟨known, hknown, hfollows⟩ := hlead
      have hne : other ≠ cursor := by
        rintro rfl
        rw [hlookup] at hknown
        exact absurd hknown.symm (Option.some_ne_none _)
      refine ⟨known, ?_, hfollows⟩
      rw [hmap, hothers other hne]
      dsimp only
      rw [AList.lookup_insert_ne hne, hknown]
    have hhere := hmono cursor (h.noted cursor (Or.inr (Or.inl hcursor)))
    have hbehind : ∀ address, Follows q K _ address → Reaches q K s'.instructionMap address :=
      fun address hfollows => hhere.tail ⟨_, by rw [hmap, hself], hfollows⟩
    constructor
    · refine noted_of_followInstruction hcounter hvisit Relation.ReflTransGen.refl
        (fun address hnoted => ?_) hbehind
      exact (htable address hnoted).elim (fun hold => hmono address (h.noted address hold))
        (hbehind address)
    · intro address hmem
      rw [hreachable] at hmem
      rcases List.mem_cons.mp hmem with rfl | hmem
      · exact ⟨hhere, hcontains⟩
      · exact (h.listed address hmem).imp_left (hmono address)

/-- **One step of the walk.**  It comes across nothing that control does not reach. -/
theorem ReachedInvariant.step (hd : d.KeepsAddresses) (hdirect : d.JumpsDirectly)
    (hw : WalkInvariant d q K s) (h : ReachedInvariant q K s)
    (hstep : (decodeStep d q s K log).1 = .inl s') : ReachedInvariant q K s' := by
  rcases decodeStep_cases hstep with ⟨next, rest, -, hworklist, -, rfl⟩ |
    ⟨cursor, hcursor, ⟨-, rfl⟩ | ⟨-, -, ins, map, hfetch, hvisit⟩⟩
  · refine h.of_noted rfl rfl fun address haddress => ?_
    rcases haddress with hwaits | hunder | hlocal
    · exact Or.inl (hworklist ▸ List.mem_cons_of_mem _ hwaits)
    · obtain rfl := Option.some_inj.mp hunder
      exact Or.inl (hworklist ▸ List.mem_cons_self)
    · exact Or.inr (Or.inr hlocal)
  · exact h.of_noted rfl rfl fun address haddress => noted_of_dropCursor haddress
  · rcases fetch_eq hfetch with ⟨hlookup, rfl⟩ | ⟨hlookup, hins, rfl⟩
    · -- A known instruction has been reached: the walk along the cursor ends.
      have hreached := hw.keys cursor ins hlookup
      obtain ⟨known, hknown, hdecoded, -⟩ := hw.decoded cursor hreached
      obtain rfl := Option.some_inj.mp (hknown.symm.trans hlookup)
      rw [visitInstruction, hdecoded.address_eq hd, if_pos hreached] at hvisit
      obtain rfl := Sum.inl.inj hvisit
      exact h.of_noted rfl rfl fun address haddress => noted_of_dropCursor haddress
    · have hfresh : cursor ∉ s.reachable := by
        intro hreached
        obtain ⟨known, hknown, -⟩ := hw.decoded cursor hreached
        rw [hlookup] at hknown
        exact absurd hknown.symm (Option.some_ne_none _)
      have hcontains : q.image.contains cursor 4 = true := by
        by_contra hout
        rw [fetch, hlookup] at hfetch
        dsimp only at hfetch
        rw [if_neg hout] at hfetch
        exact absurd hfetch.symm (Option.some_ne_none _)
      exact h.visitNew hd hdirect hcursor hcontains hfresh hlookup hins hvisit

end Steps

/-! ## What is listed -/

section Results

variable {d : Decoder} {q : DecodeRequest} {K : UInt32 → Bool} {s : DecodeState}
  {listing : List PpcInstruction}

theorem reachedInvariant_start :
    ReachedInvariant q K ⟨∅, [], [], [q.entryPoint], none⟩ where
  noted := by
    rintro address (hwaits | hunder | hlocal)
    · obtain rfl := List.mem_singleton.mp hwaits
      exact Relation.ReflTransGen.refl
    · exact absurd hunder.symm (Option.some_ne_none _)
    · exact absurd hlocal List.not_mem_nil
  listed := fun _ h => absurd h List.not_mem_nil

/-- Control goes from a listed instruction to a place where the walk goes on behind it. -/
def ControlStep (q : DecodeRequest) (K : UInt32 → Bool) (listing : List PpcInstruction)
    (address target : UInt32) : Prop :=
  ∃ ins ∈ listing, ins.address = address ∧ Follows q K ins target

theorem ReachedInvariant.controlStep (hd : d.KeepsAddresses) (hw : WalkInvariant d q K s)
    (h : ReachedInvariant q K s) (hlisting : collect s = .ok (some listing)) :
    ∀ ins ∈ listing, q.image.contains ins.address 4 = true ∧
      Relation.ReflTransGen (ControlStep q K listing) q.entryPoint ins.address := by
  obtain ⟨haddresses, hlookups⟩ := collect_addresses hd hw hlisting
  intro ins hins
  obtain ⟨hreaches, hcontains⟩ := h.listed ins.address (hlookups ins hins).1
  refine ⟨hcontains, Relation.ReflTransGen.mono (fun address target hlead => ?_) _ _ hreaches⟩
  obtain ⟨known, hknown, hfollows⟩ := hlead
  have hsorted : address ∈ listing.map PpcInstruction.address := by
    rw [haddresses]
    exact (List.mem_insertionSort _).mpr (hw.keys address known hknown)
  obtain ⟨other, hother, rfl⟩ := List.mem_map.mp hsorted
  obtain rfl := Option.some_inj.mp ((hlookups other hother).2.symm.trans hknown)
  exact ⟨other, hother, rfl, hfollows⟩

/-- **The walk lists what control reaches.** -/
theorem reached_of_loop (hd : d.KeepsAddresses) (hdirect : d.JumpsDirectly)
    (log : List UInt32)
    (h : (Probing.loop (decodeDescends_wf q) (decodeStep d q) (decodeStep_descends d)
      ⟨∅, [], [], [q.entryPoint], none⟩ K log).1 = .ok (some listing)) :
    ∀ ins ∈ listing, q.image.contains ins.address 4 = true ∧
      Relation.ReflTransGen (ControlStep q K listing) q.entryPoint ins.address := by
  refine Probing.loop_invariant (decodeDescends_wf q) (decodeStep_descends d)
    (fun s => WalkInvariant d q K s ∧ ReachedInvariant q K s)
    (fun result => ∀ listing, result = .ok (some listing) → ∀ ins ∈ listing,
      q.image.contains ins.address 4 = true ∧
        Relation.ReflTransGen (ControlStep q K listing) q.entryPoint ins.address)
    ?_ ?_ ⟨walkInvariant_start, reachedInvariant_start⟩ log listing h
  · intro s log s' hs hstep
    exact ⟨hs.1.step hd hstep, hs.2.step hd hdirect hs.1 hstep⟩
  · intro s log result hs hstep listing hlisting
    subst hlisting
    exact hs.2.controlStep hd hs.1 (collected_of_step hstep).2.2

end Results

/-- The walk that `disassembleFunctionCore` makes. -/
def decodeRequest (image : ProgramImage) (entryPoint : UInt32) (maxInstructions maxBytes : Int)
    (throwOnBudget : Bool) : DecodeRequest :=
  ⟨image, entryPoint, windowEnd image entryPoint maxBytes, maxInstructions, throwOnBudget⟩

/-- **Disassembly finds the reachable code.**  An address is listed exactly if it lies in the
window and in the image and control reaches it from the entry point. -/
theorem listed_iff_reached
    (plain : UInt32 → PlainInstruction)
    (tryRecognize : List PpcInstruction → UInt32 → UInt32 → UInt32 → ProgramImage →
      Except Failure (Option (List UInt32)))
    (image : ProgramImage) (entryPoint : UInt32) (maxInstructions maxBytes : Int)
    (throwOnBudget : Bool) (K : UInt32 → Bool) (log : List UInt32)
    (listing : List PpcInstruction)
    (h : (disassembleFunctionCore (ppcDecoder plain tryRecognize) image entryPoint
      maxInstructions maxBytes throwOnBudget K log).1 = .ok (some listing))
    (address : UInt32) :
    (∃ ins ∈ listing, ins.address = address) ↔
      Relation.ReflTransGen
          (ControlStep (decodeRequest image entryPoint maxInstructions maxBytes throwOnBudget) K
            listing) entryPoint address ∧
        (entryPoint ≤ address ∧ address < windowEnd image entryPoint maxBytes) ∧
          image.contains address 4 = true := by
  rw [disassembleFunctionCore] at h
  split_ifs at h with hentry
  · have hwalked := walkedListing_of_loop keepsAddresses_ppcDecoder log h
    have hreached := reached_of_loop keepsAddresses_ppcDecoder
      (jumpsDirectly_ppcDecoder plain tryRecognize) log h
    constructor
    · rintro ⟨ins, hins, rfl⟩
      obtain ⟨hcontains, hpath⟩ := hreached ins hins
      exact ⟨hpath, hwalked.window ins hins, hcontains⟩
    · rintro ⟨hpath, ⟨hstart, hend⟩, hcontains⟩
      rcases Relation.ReflTransGen.cases_tail hpath with rfl | ⟨before, -, hstep⟩
      · exact hwalked.entry hend hcontains
      · obtain ⟨ins, hins, -, hfollows⟩ := hstep
        exact hwalked.closed ins hins address hfollows hstart hend hcontains
  · exact absurd h (by simp [Probing.done])

/-- The second `blr` is listed because the branch over the first one leads to it. -/
theorem listed_iff_reached_returnsImage :
    Relation.ReflTransGen (ControlStep (decodeRequest returnsImage 0x80004000 16 64 true)
      (fun _ => false)
      [branchOnlyDecoder.decode 0x80004000 0x41820008,
        branchOnlyDecoder.decode 0x80004004 0x4E800020,
        branchOnlyDecoder.decode 0x80004008 0x4E800020]) 0x80004000 0x80004008 :=
  ((listed_iff_reached (fun _ => ⟨"nop", [], false, by decide⟩) (fun _ _ _ _ _ => .ok none)
    returnsImage 0x80004000 16 64 true (fun _ => false) [] _
    (congrArg Prod.fst disassemble_returnsImage) 0x80004008).mp
      ⟨_, List.mem_cons_of_mem _ (List.mem_cons_of_mem _ List.mem_cons_self), rfl⟩).1

end Wiicompiled.Disassembly
