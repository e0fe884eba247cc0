import Wiicompiled.Disassembly.DisassemblyClosed

/-!
# Listings do not depend on the budget

The budget only stops the walk: two walks that differ in it, and in what they do when it is
exhausted, take the same steps until one of them stops.
-/

namespace Wiicompiled.Disassembly

section Walks

variable {d : Decoder} {q : DecodeRequest} {K : UInt32 → Bool} {s s' : DecodeState}
  {log log' : List UInt32} {listing : List PpcInstruction} {n : Int} {throws : Bool}

/-- The same walk with another budget. -/
def DecodeRequest.withBudget (q : DecodeRequest) (n : Int) (throws : Bool) : DecodeRequest :=
  { q with maxInstructions := n, throwOnBudget := throws }

theorem reachable_length_le (h : (decodeStep d q s K log).1 = .inl s') :
    s.reachable.length ≤ s'.reachable.length := by
  rcases decodeStep_cases h with ⟨_, _, -, -, -, rfl⟩ |
    ⟨_, -, ⟨-, rfl⟩ | ⟨-, -, ins, map, -, hvisit⟩⟩
  · exact le_rfl
  · exact le_rfl
  · rw [visitInstruction] at hvisit
    split_ifs at hvisit
    · obtain rfl := Sum.inl.inj hvisit
      exact le_rfl
    · dsimp only at hvisit
      rcases htargets : jumpTableTargets d q
        { s with instructionMap := map, reachable := ins.address :: s.reachable } ins
        with e | targets
      · rw [htargets] at hvisit
        exact absurd hvisit (by simp [Probing.done])
      · rw [htargets] at hvisit
        rw [followInstruction_reachable hvisit, withJumpTable_reachable, List.length_cons]
        exact Nat.le_succ _

theorem length_of_collect (h : collect s = .ok (some listing)) :
    listing.length = s.reachable.length := by
  rw [collect] at h
  obtain ⟨collected, hmapM, hcollected⟩ := exists_of_map_ok h
  obtain rfl := Option.some_inj.mp hcollected
  rw [← (PartialMaps.forall₂_of_mapM_ok hmapM).length_eq, List.length_insertionSort]

/-- A step that does not exhaust the budget is the same with every budget that is left. -/
theorem decodeStep_withBudget
    (h : ∀ result, (decodeStep d q s K log).1 = .inr result → ∃ listing,
      result = .ok (some listing))
    (hn : (s.reachable.length : Int) < q.maxInstructions → (s.reachable.length : Int) < n) :
    decodeStep d (q.withBudget n throws) s K log = decodeStep d q s K log := by
  have hleft : ∀ step : Probing UInt32 (DecodeState ⊕ Decoded),
      (∀ result, ((if q.maxInstructions ≤ s.reachable.length then
        .done (.inr (budgetExhausted q)) else step) K log).1 = .inr result → ∃ listing,
          result = .ok (some listing)) →
      (if n ≤ s.reachable.length then
        .done (.inr (budgetExhausted (q.withBudget n throws))) else step) =
      if q.maxInstructions ≤ s.reachable.length then .done (.inr (budgetExhausted q))
        else step := by
    intro step hstep
    by_cases hspent : q.maxInstructions ≤ s.reachable.length
    · rw [if_pos hspent] at hstep
      obtain ⟨listing, hlisting⟩ := hstep _ rfl
      exact absurd hlisting (budgetExhausted_ne q listing)
    · rw [if_neg hspent, if_neg (by omega)]
  rw [decodeStep] at h
  rw [decodeStep, decodeStep]
  rcases hcursor : s.cursor with _ | cursor <;> simp only [hcursor] at h ⊢
  · rcases hworklist : s.worklist with _ | ⟨next, rest⟩ <;> simp only [hworklist] at h ⊢
    exact congrFun (congrFun (hleft _ h) K) log
  · by_cases hwindow : cursor < q.entryPoint ∨ q.endAddress ≤ cursor
    · rw [if_pos hwindow]
      exact congrFun (congrFun (if_pos hwindow) K) log
    · rw [if_neg hwindow] at h ⊢
      refine (congrFun (congrFun (if_neg hwindow) K) log).trans ?_
      exact congrFun (congrFun (hleft _ h) K) log

/-- A walk that ends with a listing takes the same steps with every budget that the listing
leaves. -/
theorem loop_withBudget (hn : (listing.length : Int) < n ∨ q.maxInstructions ≤ n)
    (h : Probing.loop (decodeDescends_wf q) (decodeStep d q) (decodeStep_descends d) s K log =
      (.ok (some listing), log')) :
    s.reachable.length ≤ listing.length ∧
      Probing.loop (decodeDescends_wf (q.withBudget n throws))
        (decodeStep d (q.withBudget n throws)) (decodeStep_descends d) s K log =
          (.ok (some listing), log') := by
  induction s using (decodeDescends_wf q).induction generalizing log with
  | h s ih =>
      rw [Probing.loop_eq, Probing.andThen] at h
      rw [Probing.loop_eq, Probing.andThen]
      rcases hnext : (decodeStep d q s K log).1 with s' | result
      · rw [hnext] at h
        obtain ⟨hlength, hloop⟩ := ih s' (decodeStep_descends d s K log s' hnext) h
        have hle := (reachable_length_le hnext).trans hlength
        refine ⟨hle, ?_⟩
        rw [decodeStep_withBudget (fun result hresult => ?_) (by omega), hnext]
        · exact hloop
        · rw [hnext] at hresult
          exact absurd hresult (by simp)
      · rw [hnext] at h
        obtain ⟨rfl, hlog⟩ := Prod.mk.inj h
        have hle := (length_of_collect (collected_of_step hnext).2.2).ge
        refine ⟨hle, ?_⟩
        rw [decodeStep_withBudget (fun result hresult => ?_) (by omega), hnext]
        · exact h
        · rw [hnext] at hresult
          exact ⟨listing, (Sum.inr.inj hresult).symm⟩

end Walks

/-- **Listings do not depend on the budget.**  What one walk lists, every walk of the window
lists with the same log when its budget is not smaller or above the length of the listing,
whether it throws when the budget is exhausted or not. -/
theorem disassembleFunctionCore_of_budget (d : Decoder) (image : ProgramImage)
    (entryPoint : UInt32) (maxInstructions n maxBytes : Int) (throwOnBudget throws : Bool)
    (K : UInt32 → Bool) (log log' : List UInt32) (listing : List PpcInstruction)
    (h : disassembleFunctionCore d image entryPoint maxInstructions maxBytes throwOnBudget K
      log = (.ok (some listing), log'))
    (hn : (listing.length : Int) < n ∨ maxInstructions ≤ n) :
    disassembleFunctionCore d image entryPoint n maxBytes throws K log =
      (.ok (some listing), log') := by
  rw [disassembleFunctionCore] at h ⊢
  split_ifs at h ⊢ with hcontains
  · exact (loop_withBudget hn h).2
  · exact absurd (congrArg Prod.fst h) (by simp [Probing.done])

/-- Four instructions are enough for three, also when nothing is thrown. -/
theorem disassembleFunctionCore_of_budget_returnsImage :
    (disassembleFunctionCore branchOnlyDecoder returnsImage 0x80004000 4 64 false
      (fun _ => false) []).1 =
      .ok (some [branchOnlyDecoder.decode 0x80004000 0x41820008,
        branchOnlyDecoder.decode 0x80004004 0x4E800020,
        branchOnlyDecoder.decode 0x80004008 0x4E800020]) :=
  congrArg Prod.fst (disassembleFunctionCore_of_budget branchOnlyDecoder returnsImage
    0x80004000 16 4 64 true false (fun _ => false) [] [] _ disassemble_returnsImage
    (Or.inl (by decide)))
end Wiicompiled.Disassembly
