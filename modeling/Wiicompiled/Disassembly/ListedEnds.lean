import Wiicompiled.Disassembly.DisassemblyClosed

/-!
# End addresses of listed instructions

The walk computes the end address of every instruction that it goes on behind, and throws
when there is none.  So every listed instruction that does not leave the line has one.
-/

namespace Wiicompiled.Disassembly

open Ir

/-- There is an end address where the walk goes on behind an instruction. -/
def HasEnd (ins : PpcInstruction) : Prop :=
  ins.isConditionalBranch = true ∨
      ins.isUnconditionalBranch = false ∧ ins.isReturn = false →
    ∃ next, ins.endAddress = .ok next

def AllHaveEnds (s : DecodeState) : Prop :=
  ∀ address ins, s.instructionMap.lookup address = some ins → HasEnd ins

section Steps

variable {d : Decoder} {q : DecodeRequest} {K : UInt32 → Bool} {s s' : DecodeState}
  {ins : PpcInstruction} {log : List UInt32}

theorem hasEnd_of_followInstruction {recognized : Bool}
    (h : (followInstruction q s ins recognized K log).1 = .inl s') : HasEnd ins := by
  rw [followInstruction] at h
  split_ifs at h with hcond hjump hreturn
  · obtain ⟨next, hnext, -⟩ := fallThrough_eq h
    exact fun _ => ⟨next, hnext⟩
  · rintro (hcond' | ⟨hjump', -⟩)
    · exact absurd hcond' hcond
    · rw [hjump'] at hjump
      exact absurd hjump Bool.false_ne_true
  · rintro (hcond' | ⟨-, hreturn'⟩)
    · exact absurd hcond' hcond
    · rw [hreturn'] at hreturn
      exact absurd hreturn Bool.false_ne_true
  · obtain ⟨next, hnext, -⟩ := fallThrough_eq h
    exact fun _ => ⟨next, hnext⟩

theorem AllHaveEnds.visitNew (hd : d.KeepsAddresses) (hends : AllHaveEnds s)
    {cursor : UInt32} (hfresh : cursor ∉ s.reachable)
    (hins : ins = d.decode cursor (q.image.readUInt32BigEndian cursor))
    (hvisit : (visitInstruction d q
      { s with instructionMap := s.instructionMap.insert cursor ins } ins K log).1 =
        .inl s') : AllHaveEnds s' := by
  have haddress : ins.address = cursor := by
    rw [hins]
    exact hd.address _ _
  rw [visitInstruction, haddress, if_neg hfresh] at hvisit
  dsimp only at hvisit
  rcases htargets : jumpTableTargets d q
      { s with
        instructionMap := s.instructionMap.insert cursor ins
        reachable := cursor :: s.reachable } ins with e | targets
  · rw [htargets] at hvisit
    exact absurd hvisit (by simp [Probing.done])
  · rw [htargets] at hvisit
    obtain ⟨-, hself, hothers, -, hrecognized⟩ :=
      withJumpTable_eq hd hins (AList.lookup_insert _) htargets
    obtain ⟨hmap, -⟩ := followInstruction_covers hrecognized hvisit
    intro address other hother
    rw [hmap] at hother
    by_cases hne : address = cursor
    · rw [hne, hself] at hother
      obtain rfl := Option.some_inj.mp hother
      exact hasEnd_of_followInstruction hvisit
    · rw [hothers address hne] at hother
      dsimp only at hother
      rw [AList.lookup_insert_ne hne] at hother
      exact hends address other hother

/-- **One step of the walk.**  Every decoded instruction keeps its end. -/
theorem AllHaveEnds.step (hd : d.KeepsAddresses) (h : WalkInvariant d q K s)
    (hends : AllHaveEnds s) (hstep : (decodeStep d q s K log).1 = .inl s') :
    AllHaveEnds s' := by
  rcases decodeStep_cases hstep with ⟨next, rest, -, -, -, rfl⟩ |
    ⟨cursor, hcursor, ⟨-, rfl⟩ | ⟨-, -, ins, map, hfetch, hvisit⟩⟩
  · exact hends
  · exact hends
  · rcases fetch_eq hfetch with ⟨hlookup, rfl⟩ | ⟨hlookup, hins, rfl⟩
    · -- A known instruction has been reached: the walk along the cursor ends.
      have hreached := h.keys cursor ins hlookup
      obtain ⟨known, hknown, hdecoded, -⟩ := h.decoded cursor hreached
      obtain rfl := Option.some_inj.mp (hknown.symm.trans hlookup)
      rw [visitInstruction, hdecoded.address_eq hd, if_pos hreached] at hvisit
      obtain rfl := Sum.inl.inj hvisit
      exact hends
    · have hfresh : cursor ∉ s.reachable := by
        intro hreached
        obtain ⟨known, hknown, -⟩ := h.decoded cursor hreached
        rw [hlookup] at hknown
        exact absurd hknown.symm (Option.some_ne_none _)
      exact hends.visitNew hd hfresh hins hvisit

end Steps

/-- **The walk lists instructions with ends.** -/
theorem hasEnd_of_loop {d : Decoder} {q : DecodeRequest} {K : UInt32 → Bool}
    {listing : List PpcInstruction} (hd : d.KeepsAddresses) (log : List UInt32)
    (h : (Probing.loop (decodeDescends_wf q) (decodeStep d q) (decodeStep_descends d)
      ⟨∅, [], [], [q.entryPoint], none⟩ K log).1 = .ok (some listing)) :
    ∀ ins ∈ listing, HasEnd ins := by
  refine Probing.loop_invariant (decodeDescends_wf q) (decodeStep_descends d)
    (fun s => WalkInvariant d q K s ∧ AllHaveEnds s)
    (fun result => ∀ listing, result = .ok (some listing) → ∀ ins ∈ listing, HasEnd ins)
    ?_ ?_ ⟨walkInvariant_start, fun _ _ hnone => absurd hnone.symm (Option.some_ne_none _)⟩
    log listing h
  · intro s log s' hs hstep
    exact ⟨hs.1.step hd hstep, hs.2.step hd hs.1 hstep⟩
  · intro s log result hs hstep listing hlisting
    subst hlisting
    obtain ⟨-, -, hlisting⟩ := collected_of_step hstep
    intro ins hins
    exact hs.2 _ ins ((collect_addresses hd hs.1 hlisting).2 ins hins).2

end Wiicompiled.Disassembly
