import Wiicompiled.Translation.GqrCompactAgreement
import Wiicompiled.Translation.GqrInterproceduralFixpoint

/-!
# Closed-world runs

Executions of a whole program: roots are entered with any quantization registers, other
functions only by direct calls of functions that are running, and code that is not under
analysis may leave any values behind.  On these runs the write masks bound what a call
changes, and the entry constants hold whenever a function is entered.
-/

namespace Wiicompiled.Translation.GqrInterproceduralAnalysis

open Ir GqrConstantPropagation GqrFunctionSummary

/-- The functions of a program, by address. -/
abbrev Functions := AList fun _ : UInt32 => IrFunction

/-! ## Runs -/

/-- The steps that the runs under consideration may take inside functions, and the
instructions at which they may leave them. -/
structure RunRules where
  step : IrFunction → Config → Config → Prop
  leave : IrInstruction → Prop

def guestCallee (code : Functions) (target : String) : Option IrFunction :=
  (tryParseAddressOrDecimal target).bind fun address => code.lookup address

/-- The quantization registers with which an activation ends at an instruction; a jump
to a computed address goes on in other code before it returns. -/
def LeavesWith (i : IrInstruction) (m : Machine) (after : ℕ → UInt32) : Prop :=
  match i with
  | .ret _ => after = m.gqr
  | .indirectJump _ => True
  | _ => False

/-- The calls that come back, when the calls inside them are nested at most `depth`
deep. -/
def completes (code : Functions) (helpers : CallRuns) (rules : RunRules) : ℕ → CallRuns
  | 0 => fun target before after =>
      if isGuestCall target then guestCallee code target = none
      else helpers target before after
  | depth + 1 => fun target before after =>
      if isGuestCall target then
        ∀ function, guestCallee code target = some function →
          ∃ start c i rest, start.gqr = before ∧
            Reachable function (completes code helpers rules depth) (rules.step function)
              start c ∧
            c.remaining = i :: rest ∧ rules.leave i ∧ LeavesWith i c.machine after
      else helpers target before after

/-- The functions that runs enter, with the quantization registers they are entered
with. -/
inductive Enters (code : Functions) (roots : List UInt32) (helpers : CallRuns)
    (rules : RunRules) (depth : ℕ) : UInt32 → (ℕ → UInt32) → Prop
  | root {address : UInt32} {gqr : ℕ → UInt32} (hroot : address ∈ roots)
      (hknown : (code.lookup address).isSome) :
      Enters code roots helpers rules depth address gqr
  | call {caller callee : UInt32} {function : IrFunction} {start : Machine} {c : Config}
      {destination target : String} {arguments : List IrValue} {rest : List IrInstruction}
      (hcaller : Enters code roots helpers rules depth caller start.gqr)
      (hlookup : code.lookup caller = some function)
      (hrun : Reachable function (completes code helpers rules depth)
        (rules.step function) start c)
      (hremaining : c.remaining = .call destination target arguments :: rest)
      (hguest : isGuestCall target = true)
      (htarget : tryParseAddressOrDecimal target = some callee)
      (hknown : (code.lookup callee).isSome) :
      Enters code roots helpers rules depth callee c.machine.gqr

section Runs

variable {code : Functions} {roots : List UInt32} {helpers runs runs' : CallRuns}
  {rules : RunRules} {depth : ℕ} {function : IrFunction}

theorem completes_helper {target : String} {before after : ℕ → UInt32}
    (htarget : isGuestCall target = false) :
    completes code helpers rules depth target before after ↔
      helpers target before after := by
  cases depth <;> simp [completes, htarget]

theorem completes_guest {target : String} {before after : ℕ → UInt32}
    (htarget : isGuestCall target = true) :
    completes code helpers rules (depth + 1) target before after ↔
      ∀ function, guestCallee code target = some function →
        ∃ start c i rest, start.gqr = before ∧
          Reachable function (completes code helpers rules depth) (rules.step function)
            start c ∧
          c.remaining = i :: rest ∧ rules.leave i ∧ LeavesWith i c.machine after := by
  simp only [completes, htarget, if_true]

theorem executes_mono (hruns : ∀ target before after, runs target before after →
      runs' target before after) {source : Option ℕ} {entered m m' : Machine}
    {i : IrInstruction} (h : Executes function runs source entered i m m') :
    Executes function runs' source entered i m m' := by
  cases h with
  | assign hvalue => exact .assign hvalue
  | binary hleft hright hword => exact .binary hleft hright hword
  | phi hword => exact .phi hword
  | guestCall htarget hrun hdefines => exact .guestCall htarget (hruns _ _ _ hrun) hdefines
  | helperCall htarget hrun hdefines => exact .helperCall htarget (hruns _ _ _ hrun) hdefines
  | indirectCall => exact .indirectCall
  | setCrField => exact .setCrField
  | other hdefines h => exact .other hdefines h

/-- More calls that come back and more steps make more positions reachable. -/
theorem reachable_mono (hruns : ∀ target before after, runs target before after →
      runs' target before after) {allowed allowed' : Config → Config → Prop}
    (hallowed : ∀ c d, allowed c d → allowed' c d) {start : Machine} {c : Config}
    (h : Reachable function runs allowed start c) :
    Reachable function runs' allowed' start c := by
  induction h with
  | entry hentry => exact .entry hentry
  | tail _ hstep hstepAllowed ih =>
      refine ih.tail ?_ (hallowed _ _ hstepAllowed)
      cases hstep with
      | instruction htransfers hstops hexecutes =>
          exact .instruction htransfers hstops (executes_mono hruns hexecutes)
      | transfer hlabel hnext => exact .transfer hlabel hnext
      | «continue» hnext => exact .continue hnext

theorem exists_front_of_reachable {allowed : Config → Config → Prop} {start : Machine}
    {c : Config} (h : Reachable function runs allowed start c) :
    ∃ front, (function.blockAt c.block).instructions = front ++ c.remaining := by
  induction h with
  | entry => exact ⟨[], rfl⟩
  | tail _ hstep _ ih =>
      cases hstep with
      | @instruction block source entered m m' i rest =>
          obtain ⟨front, hfront⟩ := ih
          exact ⟨front ++ [i], by simpa using hfront⟩
      | transfer => exact ⟨[], rfl⟩
      | «continue» => exact ⟨[], rfl⟩

end Runs

/-! ## The condition -/

/-- The runs to which soundness applies: inside a function they take the steps to which
that of the constant propagation applies, and they leave it by a return. -/
def soundRules (helpers : CallRuns) : RunRules where
  step function := Allowed function helpers
  leave i := ∃ value, i = .ret value

/-- The functions to which soundness applies. -/
structure Regular (function : IrFunction) : Prop where
  ssa : SsaForm function
  control : ControlAtEnds function
  plain : KeepsPlain function
  entry : (IrCfg.ordinal function function.entryLabel).isSome

def Summarizes (summaries : Summaries) (code : Functions) : Prop :=
  ∀ address, (code.lookup address).map create = (summaries.lookup address).map some

/-- Functions call through the rules of the closed world as through the helpers alone. -/
theorem allowed_completes {function : IrFunction} {helpers : CallRuns} {c d : Config}
    (h : Allowed function helpers c d) (code : Functions) (rules : RunRules) (depth : ℕ) :
    Allowed function (completes code helpers rules depth) c d := by
  rw [Allowed] at h ⊢
  rcases hremaining : c.remaining with _ | ⟨i, rest⟩ <;> simp only [hremaining] at h
  · exact h
  · dsimp only
    split_ifs at h ⊢
    · exact h
    · cases i with
      | call destination target arguments =>
          refine ⟨h.1, fun hhelper before after hrun => ?_⟩
          exact h.2 hhelper before after ((completes_helper hhelper).mp hrun)
      | _ => exact h

/-! ## Soundness of the write masks -/

section Masks

variable {summaries : Summaries} {code : Functions} {masks : UInt32 → WriteMask}
  {writeMasks : WriteMasks} {function : IrFunction} {summary : GqrFunctionSummary}
  {address : UInt32}

theorem maskTable_of_mem (h : address ∈ summaries) :
    maskTable summaries masks address = some (masks address).bits :=
  if_pos h

theorem maskTable_of_notMem (h : address ∉ summaries) :
    maskTable summaries masks address = none :=
  if_neg h

def instructionMask (writeMasks : WriteMasks) : IrInstruction → BitVec 8
  | .call _ target _ => if isGuestCall target then callWriteMask target writeMasks else 0
  | .indirectCall .. => 0xFF
  | i => assignedMask i

theorem define_gqr_of_ne {m : Machine} {name : List Char} {value : UInt32} {n : ℕ}
    (h : gqrKey name ≠ some n) : (m.define name value).gqr n = m.gqr n := by
  rcases hkey : gqrKey name with _ | k
  · simp [Machine.define, Machine.setRegister, hkey]
  · have hne : n ≠ k := by
      rintro rfl
      exact h hkey
    simp [Machine.define, Machine.setRegister, hkey, Function.update_of_ne hne]

/-- An instruction that is understood leaves the registers outside its mask alone. -/
theorem executes_frame {runs : CallRuns} (hruns : SoundMasks writeMasks runs)
    {source : Option ℕ} {entered m m' : Machine} {i : IrInstruction}
    (hunderstood : Understood function runs source i)
    (h : Executes function runs source entered i m m') {n : ℕ} (hn : n < 8)
    (hmask : (instructionMask writeMasks i).getLsbD n = false) : m'.gqr n = m.gqr n := by
  cases h with
  | @assign destination value word =>
      apply define_gqr_of_ne
      intro hkey
      change (assignedMask (.assign destination value)).getLsbD n = false at hmask
      rw [assignedMask, hkey] at hmask
      simp [hn] at hmask
  | @binary destination op left right =>
      apply define_gqr_of_ne
      rw [hunderstood.1 destination (by simp [IrInstruction.definitions])]
      simp
  | phi => rfl
  | @guestCall destination target arguments m m' registers gqr htarget hrun hdefines =>
      rw [(hdefines.frame hunderstood.1).1]
      rw [instructionMask, if_pos htarget] at hmask
      exact hruns target m.gqr gqr htarget hrun n hn hmask
  | @helperCall destination target arguments m m' gqr htarget hrun hdefines =>
      rw [(hdefines.frame hunderstood.1).1, hunderstood.2 htarget _ _ hrun]
  | indirectCall =>
      have hall : ∀ k < 8, (0xFF : BitVec 8).getLsbD k = true := by decide
      rw [instructionMask, hall n hn] at hmask
      cases hmask
  | setCrField => rfl
  | other hdefines hall =>
      have hwrites : WritesNoGqr i := by
        cases i <;> first | exact hunderstood | cases hdefines
      rw [(hall.frame hwrites).1]

theorem create_eq (hcreate : create function = some summary) :
    summary.localWriteMask =
        ((function.blocks.flatMap IrBasicBlock.instructions).map assignedMask).foldl
          (· ||| ·) 0 ∧
      summary.directGuestTargets =
        ((guestTargets function).filterMap id).dedup.insertionSort (· ≤ ·) ∧
      summary.hasUnknownGuestOrIndirectCall =
        ((guestTargets function).contains none ||
          (function.blocks.flatMap IrBasicBlock.instructions).any isIndirectCall) := by
  rw [create, Option.ite_none_right_eq_some] at hcreate
  obtain rfl := Option.some.inj hcreate.2
  exact ⟨rfl, rfl, rfl⟩

theorem getLsbD_foldl_or {l : List (BitVec 8)} {n : ℕ} {mask : BitVec 8}
    (hmask : mask ∈ l) (hn : mask.getLsbD n = true) :
    (l.foldl (· ||| ·) 0).getLsbD n = true := by
  have hfold : ∀ (l : List (BitVec 8)) (start : BitVec 8),
      (start.getLsbD n = true ∨ ∃ mask ∈ l, mask.getLsbD n = true) →
        (l.foldl (· ||| ·) start).getLsbD n = true := by
    intro l
    induction l with
    | nil => simp
    | cons mask l ih =>
        intro start h
        rw [List.foldl_cons]
        apply ih
        rw [BitVec.getLsbD_or, Bool.or_eq_true]
        rcases h with hstart | ⟨other, hother, hbit⟩
        · exact .inl (.inl hstart)
        · rcases List.mem_cons.mp hother with rfl | hother
          · exact .inl (.inr hbit)
          · exact .inr ⟨other, hother, hbit⟩
  exact hfold l 0 (.inr ⟨mask, hmask, hn⟩)

theorem has_of_localMask (hmasks : masks ∈ WriteSolutions summaries)
    (hlookup : summaries.lookup address = some summary) {n : Fin 8}
    (h : (localMask summaries summary).has n = true) : (masks address).has n = true := by
  rw [← hmasks address, has_writeEquation, localMasks, hlookup]
  exact .inl h

theorem has_of_instructionMask (hmasks : masks ∈ WriteSolutions summaries)
    (hcreate : create function = some summary)
    (hlookup : summaries.lookup address = some summary) {i : IrInstruction}
    (hi : i ∈ function.blocks.flatMap IrBasicBlock.instructions) {n : Fin 8}
    (h : (instructionMask (maskTable summaries masks) i).getLsbD n = true) :
    (masks address).has n = true := by
  obtain ⟨hlocal, htargets, hunknown⟩ := create_eq hcreate
  have hwidened : summary.hasUnknownGuestOrIndirectCall = true ∨
      (∃ target ∈ summary.directGuestTargets, target ∉ summaries) →
      (masks address).has n = true := by
    intro hopen
    apply has_of_localMask hmasks hlookup
    rw [localMask, if_pos hopen, WriteMask.has_all]
  have hassigned : (assignedMask i).getLsbD n = true → (masks address).has n = true := by
    intro hbit
    by_cases hopen : summary.hasUnknownGuestOrIndirectCall = true ∨
        ∃ target ∈ summary.directGuestTargets, target ∉ summaries
    · exact hwidened hopen
    · apply has_of_localMask hmasks hlookup
      rw [localMask, if_neg hopen, WriteMask.has, hlocal]
      exact getLsbD_foldl_or (List.mem_map_of_mem hi) hbit
  cases i with
  | call destination target arguments =>
      rw [instructionMask] at h
      by_cases hguest : isGuestCall target = true
      · rw [if_pos hguest, callWriteMask] at h
        have hsite : tryParseAddressOrDecimal target ∈ guestTargets function :=
          List.mem_filterMap.mpr ⟨_, hi, if_pos hguest⟩
        rcases haddress : tryParseAddressOrDecimal target with _ | callee
        · apply hwidened
          left
          rw [hunknown, ← haddress, List.contains_iff_mem.mpr hsite, Bool.true_or]
        · have hdirect : callee ∈ summary.directGuestTargets := by
            rw [htargets, List.mem_insertionSort, List.mem_dedup]
            exact List.mem_filterMap.mpr ⟨_, hsite, haddress⟩
          by_cases hcallee : callee ∈ summaries
          · rw [haddress] at h
            dsimp only at h
            rw [maskTable_of_mem hcallee, Option.getD_some] at h
            rw [← hmasks address, has_writeEquation]
            refine .inr ⟨callee, ?_, h⟩
            rw [calleesOf, hlookup]
            exact List.mem_filter.mpr ⟨hdirect, by simpa using hcallee⟩
          · exact hwidened (.inr ⟨callee, hdirect, hcallee⟩)
      · rw [if_neg hguest] at h
        simp at h
  | indirectCall destination target arguments =>
      apply hwidened
      left
      rw [hunknown, Bool.or_eq_true]
      exact .inr (List.any_eq_true.mpr ⟨_, hi, rfl⟩)
  | _ => exact hassigned h

theorem reachable_frame (hmasks : masks ∈ WriteSolutions summaries)
    (hcreate : create function = some summary)
    (hlookup : summaries.lookup address = some summary) {runs : CallRuns}
    (hruns : SoundMasks (maskTable summaries masks) runs) {start : Machine} {c : Config}
    (h : Reachable function runs (Allowed function runs) start c) {n : Fin 8}
    (hn : (masks address).has n = false) : c.machine.gqr n = start.gqr n := by
  induction h with
  | entry => rfl
  | @tail c d hc hstep hallowed ih =>
      obtain ⟨front, hfront⟩ := exists_front_of_reachable hc
      cases hstep with
      | @instruction block source entered m m' i rest htransfers hstops hexecutes =>
          have hunderstood : Understood function runs source i := by
            simpa [Allowed, htransfers] using hallowed
          have hi : i ∈ (function.blockAt block).instructions := by
            rw [hfront]
            simp
          have hmem : i ∈ function.blocks.flatMap IrBasicBlock.instructions :=
            List.mem_flatMap.mpr
              ⟨_, IrFunction.blockAt_mem (IrFunction.lt_of_mem_blockAt hi), hi⟩
          rw [← ih]
          apply executes_frame hruns hunderstood hexecutes n.isLt
          rw [← Bool.not_eq_true]
          intro hbit
          rw [has_of_instructionMask hmasks hcreate hlookup hmem hbit] at hn
          cases hn
      | transfer => exact ih
      | «continue» => exact ih

theorem completes_soundMasks (hsummaries : Summarizes summaries code)
    (hmasks : masks ∈ WriteSolutions summaries) (helpers : CallRuns) (depth : ℕ) :
    SoundMasks (maskTable summaries masks)
      (completes code helpers (soundRules helpers) depth) := by
  -- a callee without a summary may write anything
  have houtside : ∀ target, guestCallee code target = none →
      ∀ n < 8, (callWriteMask target (maskTable summaries masks)).getLsbD n = true := by
    intro target hcallee
    have hall : callWriteMask target (maskTable summaries masks) = 0xFF := by
      rw [callWriteMask]
      rcases haddress : tryParseAddressOrDecimal target with _ | callee
      · rfl
      · have hnone : summaries.lookup callee = none := by
          have hsame := hsummaries callee
          rw [guestCallee, haddress, Option.bind_some] at hcallee
          rw [hcallee] at hsame
          simpa using hsame.symm
        have hnotMem : callee ∉ summaries := AList.lookup_eq_none.mp hnone
        dsimp only
        rw [maskTable_of_notMem hnotMem]
        rfl
    rw [hall]
    decide
  induction depth with
  | zero =>
      intro target before after hguest hrun n hn hmask
      rw [completes, if_pos hguest] at hrun
      rw [houtside target hrun n hn] at hmask
      cases hmask
  | succ depth ih =>
      intro target before after hguest hrun n hn hmask
      rw [completes_guest hguest] at hrun
      rcases hcallee : guestCallee code target with _ | function
      · rw [houtside target hcallee n hn] at hmask
        cases hmask
      · obtain ⟨start, c, i, rest, rfl, hreachable, -, ⟨value, rfl⟩, hleaves⟩ :=
          hrun function hcallee
        obtain ⟨callee, haddress, hlookup⟩ := Option.bind_eq_some_iff.mp hcallee
        have hsame := hsummaries callee
        rw [hlookup, Option.map_some] at hsame
        obtain ⟨summary, hsummary, hcreate⟩ := Option.map_eq_some_iff.mp hsame.symm
        have hmem : callee ∈ summaries := AList.lookup_isSome.mp (by rw [hsummary]; rfl)
        rw [callWriteMask, haddress] at hmask
        dsimp only at hmask
        rw [maskTable_of_mem hmem, Option.getD_some] at hmask
        rw [hleaves]
        have hframe : (masks callee).has ⟨n, hn⟩ = false := hmask
        exact reachable_frame hmasks hcreate.symm hsummary ih
          (reachable_mono (fun _ _ _ hrun => hrun)
            (fun _ _ hstep => allowed_completes hstep code _ depth) hreachable) hframe

end Masks

/-! ## Soundness of the entry constants -/

section Entries

variable {summaries : Summaries} {code : Functions} {roots reachable : List UInt32}
  {masks : UInt32 → WriteMask} {entries : UInt32 → Slots} {helpers : CallRuns}
  {depth : ℕ} {address : UInt32} {gqr : ℕ → UInt32}

/-- The quantization registers have the constants of the slots. -/
def HoldsSlots (slots : Slots) (gqr : ℕ → UInt32) : Prop :=
  ∀ (n : Fin 8) (value : UInt32), slots n = some value → gqr n = value

/-- The quantization registers have the constants of a dictionary. -/
def HoldsConstants (constants : NameMap) (gqr : ℕ → UInt32) : Prop :=
  ∀ n value, constants.lookup (gqrName n) = some value → gqr n = value

theorem exists_of_lookup_slotConstants {slots : Slots} {key : List Char} {value : UInt32}
    (h : (slotConstants slots).lookup key = some value) :
    ∃ n : Fin 8, key = gqrName n ∧ slots n = some value := by
  rw [slotConstants] at h
  by_cases hkey : ∃ n < 8, gqrName n = key
  · obtain ⟨n, hn, rfl⟩ := hkey
    rw [lookup_registerMap (fun _ _ _ _ => gqrName_injective) hn, slotAt, dif_pos hn] at h
    exact ⟨⟨n, hn⟩, rfl, h⟩
  · push Not at hkey
    rw [lookup_registerMap_of_ne hkey] at h
    cases h

theorem HoldsSlots.constants {slots : Slots} (h : HoldsSlots slots gqr) :
    HoldsConstants (slotConstants slots) gqr := by
  intro n value hlookup
  obtain ⟨k, hkey, hvalue⟩ := exists_of_lookup_slotConstants hlookup
  rw [gqrName_injective hkey]
  exact h k value hvalue

theorem HoldsSlots.soundEntryConstants {slots : Slots} {m : Machine}
    (h : HoldsSlots slots m.gqr) : SoundEntryConstants (slotConstants slots) m := by
  intro key value hlookup
  obtain ⟨n, hkey, hvalue⟩ := exists_of_lookup_slotConstants hlookup
  exact ⟨n, n.isLt, hkey, h n value hvalue⟩

theorem mem_fullSiteConstants {writeMasks : WriteMasks} {known : UInt32 → Bool}
    {front rest : List IrInstruction} {destination target : String}
    {arguments : List IrValue} {callee : UInt32} (hguest : isGuestCall target = true)
    (htarget : tryParseAddressOrDecimal target = some callee) (hknown : known callee = true)
    (state : NameMap) :
    (callee, fun n : Fin 8 =>
        (transferBlock (fun _ => none) writeMasks front state).lookup (gqrName n)) ∈
      fullSiteConstants writeMasks known
        (front ++ .call destination target arguments :: rest) state := by
  induction front generalizing state with
  | nil =>
      rw [List.nil_append, fullSiteConstants, if_pos hguest, htarget]
      simp only [hknown, if_true]
      exact List.mem_cons_self
  | cons i front ih =>
      have hrest := ih (transfer (fun _ => none) writeMasks i state)
      cases i with
      | call =>
          rw [List.cons_append, fullSiteConstants]
          split
          · split
            · exact List.mem_cons_of_mem _ hrest
            · exact hrest
          · exact hrest
      | _ => exact hrest

/-- A function that is reached from a running one has the registers that are merged at
its entry. -/
theorem holdsSlots_of_call (hsummaries : Summarizes summaries code)
    (hmasks : masks ∈ WriteSolutions summaries)
    (hreachable : ReachableList summaries roots reachable)
    (hfixed : recomputeEntries summaries roots reachable (maskTable summaries masks)
      entries = entries)
    {caller callee : UInt32} {function : IrFunction} (hregular : Regular function)
    {start : Machine} {c : Config} {destination target : String}
    {arguments : List IrValue} {rest : List IrInstruction}
    (hcaller : caller ∈ reachable) (hentry : HoldsSlots (entries caller) start.gqr)
    (hlookup : code.lookup caller = some function)
    (hrun : Reachable function (completes code helpers (soundRules helpers) depth)
      (Allowed function helpers) start c)
    (hremaining : c.remaining = .call destination target arguments :: rest)
    (hguest : isGuestCall target = true)
    (htarget : tryParseAddressOrDecimal target = some callee)
    (hknown : (code.lookup callee).isSome) :
    callee ∈ reachable ∧ HoldsSlots (entries callee) c.machine.gqr := by
  have hsame := hsummaries caller
  rw [hlookup, Option.map_some] at hsame
  obtain ⟨summary, hsummary, hcreate⟩ := Option.map_eq_some_iff.mp hsame.symm
  have hcreate := hcreate.symm
  obtain ⟨front, hblock⟩ := exists_front_of_reachable hrun
  rw [hremaining] at hblock
  have hcall : IrInstruction.call destination target arguments ∈
      (function.blockAt c.block).instructions := by
    rw [hblock]
    simp
  have hlt := IrFunction.lt_of_mem_blockAt hcall
  -- the callee is one of the targets of the caller
  have hcallee : callee ∈ reachable := by
    obtain ⟨-, htargets, -⟩ := create_eq hcreate
    have hsite : some callee ∈ guestTargets function := by
      rw [← htarget]
      exact List.mem_filterMap.mpr
        ⟨_, List.mem_flatMap.mpr ⟨_, IrFunction.blockAt_mem hlt, hcall⟩, if_pos hguest⟩
    have hdirect : callee ∈ summary.directGuestTargets := by
      rw [htargets, List.mem_insertionSort, List.mem_dedup]
      exact List.mem_filterMap.mpr ⟨_, hsite, rfl⟩
    have hmem : callee ∈ summaries := by
      have hsameCallee := congrArg Option.isSome (hsummaries callee)
      rw [Option.isSome_map, Option.isSome_map, hknown] at hsameCallee
      exact AList.lookup_isSome.mp hsameCallee.symm
    rw [hreachable.mem]
    refine .call ((hreachable.mem caller).mp hcaller) ?_
    rw [calleesOf, hsummary]
    exact List.mem_filter.mpr ⟨hdirect, by simpa using hmem⟩
  refine ⟨hcallee, fun n value hvalue => ?_⟩
  have hmerged : mergeEntry summaries roots reachable
      (fun caller => evaluateCaller summaries reachable (maskTable summaries masks) caller
        (entries caller)) callee n = some value := by
    rw [← hvalue]
    exact congrFun (congrFun hfixed callee) n
  rw [mergeEntry] at hmerged
  by_cases hroot : callee ∈ rootSet summaries roots
  · rw [if_pos hroot] at hmerged
    cases hmerged
  rw [if_neg hroot] at hmerged
  -- the call site of the caller has what the full analysis knows there
  let known : UInt32 → Bool := fun address => address ∈ reachable
  have hagree := evaluateCompactCaller_eq hregular.entry hregular.plain
    (slotAt (entries caller)) (maskTable summaries masks) known
  rw [hcreate, Option.map_some, directCallConstants] at hagree
  obtain ⟨flow, hflow, hsites⟩ := Option.map_eq_some_iff.mp hagree.symm
  have htracks := Reachable.tracks_specialize hregular.ssa hregular.control
    (completes_soundMasks hsummaries hmasks helpers depth) hentry.soundEntryConstants hflow
    (reachable_mono (fun _ _ _ hrun => hrun)
      (fun _ _ hstep => allowed_completes hstep code _ depth) hrun)
  obtain ⟨front', hblock', -, hsound⟩ := htracks
  rw [hremaining] at hblock'
  have hmem : (callee, fun n : Fin 8 => (transferBlock (fun _ => none)
      (maskTable summaries masks) front' (flow.getD c.block ∅)).lookup (gqrName n)) ∈
      evaluateCompactCaller summary (slotAt (entries caller)) (maskTable summaries masks)
        known := by
    rw [← hsites]
    have hlength := analyze_length hflow
    have hinput : flow.getD c.block ∅ = flow[c.block] := by simp [hlength, hlt]
    have hfound : function.blockAt c.block = function.blocks[c.block] := by
      simp [IrFunction.blockAt, hlt]
    refine List.mem_flatten.mpr ⟨fullSiteConstants (maskTable summaries masks) known
      (function.blockAt c.block).instructions (flow.getD c.block ∅), ?_, ?_⟩
    · rw [List.mem_iff_getElem]
      refine ⟨c.block, by simp [hlength, hlt], ?_⟩
      rw [List.getElem_zipWith, hinput, hfound]
    · rw [hblock']
      exact mem_fullSiteConstants hguest htarget (by simpa [known] using hcallee) _
  exact hsound.gqr_eq hregular.ssa
    (mergeSites_eq_some hmerged _ (mem_sitesTo hcaller hsummary hmem))

/-- Every function that a run enters is reachable, and has the constants on which its
call sites agree. -/
theorem Enters.holdsSlots (hsummaries : Summarizes summaries code)
    (hregular : ∀ address function, code.lookup address = some function → Regular function)
    (hmasks : masks ∈ WriteSolutions summaries)
    (hreachable : ReachableList summaries roots reachable)
    (hfixed : recomputeEntries summaries roots reachable (maskTable summaries masks)
      entries = entries)
    (h : Enters code roots helpers (soundRules helpers) depth address gqr) :
    address ∈ reachable ∧ HoldsSlots (entries address) gqr := by
  induction h with
  | @root address gqr hroot hknown =>
      have hmem : address ∈ summaries := by
        have hsame := congrArg Option.isSome (hsummaries address)
        rw [Option.isSome_map, Option.isSome_map, hknown] at hsame
        exact AList.lookup_isSome.mp hsame.symm
      have hrootSet : address ∈ rootSet summaries roots := mem_rootSet.mpr ⟨hroot, hmem⟩
      refine ⟨(hreachable.mem address).mpr (.root hrootSet), fun n value hvalue => ?_⟩
      have hmerged := congrFun (congrFun hfixed address) n
      rw [recomputeEntries, Worklist.recomputeAll, mergeEntry, if_pos hrootSet, hvalue]
        at hmerged
      cases hmerged
  | call _ hlookup hrun hremaining hguest htarget hknown ih =>
      exact holdsSlots_of_call hsummaries hmasks hreachable hfixed
        (hregular _ _ hlookup) ih.1 ih.2 hlookup hrun hremaining hguest htarget hknown

end Entries

/-! ## The analysis on closed-world runs -/

section Analysis

/-- Evaluating every function, from nothing known, stops changing the entry constants
within the limit. -/
def SettlesWithinLimit (functions : Summaries) (roots reachable : List UInt32)
    (writeMasks : WriteMasks) : Prop :=
  ∃ k < entryRoundLimit functions, ∃ entries,
    (recomputeEntries functions roots reachable writeMasks)^[k] (fun _ => noSlots) = entries ∧
      recomputeEntries functions roots reachable writeMasks entries = entries

/-- The dictionaries of the reachable functions. -/
def constantsAt (reachable : List UInt32) (entries : UInt32 → Slots) (address : UInt32) :
    NameMap :=
  if address ∈ reachable then slotConstants (entries address) else ∅

end Analysis

/-! ## Calls in loops -/

section Loops

/-- Any step, and any way to leave a function. -/
def anyRules : RunRules where
  step _ := anyStep
  leave _ := True

def returnsAtOnce : IrFunction :=
  ⟨"func_80002000", "entry", [⟨"entry", [.ret none]⟩]⟩

def callsOnce : IrFunction :=
  ⟨"func_80001000", "entry",
    [⟨"entry", [.assign "gqr2_1" (.imm 0x40004), .call "" "func_80002000" [], .ret none]⟩]⟩

theorem loopSources_nodup :
    ([("entry", "gqr2_1"), ("loop", "gqr2_3")].map Prod.fst).Nodup := by
  decide

/-- A caller of it in a loop of one block that changes a quantization register. -/
def callsInLoop : IrFunction :=
  ⟨"func_80001000", "entry",
    [⟨"entry", [.assign "gqr2_1" (.imm 0x40004), .jump "loop"]⟩,
      ⟨"loop", [.phi "gqr2_2" ⟨[("entry", "gqr2_1"), ("loop", "gqr2_3")], loopSources_nodup⟩,
        .call "" "func_80002000" [], .assign "gqr2_3" (.imm 0x50005),
        .branch "bdnz" "loop" "exit" ""]⟩,
      ⟨"exit", [.ret none]⟩]⟩

def programOf (caller : IrFunction) : Functions :=
  ((∅ : Functions).insert 0x80002000 returnsAtOnce).insert 0x80001000 caller

/-- The summaries of such a program. -/
def summariesOf (caller : IrFunction) (h : (create caller).isSome) : Summaries :=
  ((∅ : Summaries).insert 0x80002000 ((create returnsAtOnce).get (by decide))).insert
    0x80001000 ((create caller).get h)

theorem returnsAtOnce_regular : Regular returnsAtOnce :=
  ⟨⟨by decide, by decide, by decide⟩, by decide, by unfold KeepsPlain; decide, by decide⟩

theorem Summarizes.insert {summaries : Summaries} {code : Functions}
    (h : Summarizes summaries code) {function : IrFunction} {summary : GqrFunctionSummary}
    (hcreate : create function = some summary) (address : UInt32) :
    Summarizes (summaries.insert address summary) (code.insert address function) := by
  intro other
  by_cases hother : other = address
  · subst hother
    rw [AList.lookup_insert, AList.lookup_insert, Option.map_some, Option.map_some, hcreate]
  · rw [AList.lookup_insert_ne hother, AList.lookup_insert_ne hother, h]

theorem summarizes_programOf (caller : IrFunction) (h : (create caller).isSome) :
    Summarizes (summariesOf caller h) (programOf caller) := by
  have hempty : Summarizes (∅ : Summaries) (∅ : Functions) := fun _ => rfl
  exact (hempty.insert (Option.some_get _).symm _).insert (Option.some_get _).symm _

theorem completes_returnsAtOnce {caller : IrFunction} {helpers : CallRuns}
    {rules : RunRules} (hreturn : rules.leave (.ret none)) {gqr : ℕ → UInt32} :
    completes (programOf caller) helpers rules 1 "func_80002000" gqr gqr := by
  rw [completes_guest (by decide)]
  intro function hfunction
  have hcallee : guestCallee (programOf caller) "func_80002000" = some returnsAtOnce := by
    have hne : (0x80002000 : UInt32) ≠ 0x80001000 := by decide
    have htarget : tryParseAddressOrDecimal "func_80002000" = some 0x80002000 := by decide
    rw [guestCallee, htarget, Option.bind_some, programOf, AList.lookup_insert_ne hne,
      AList.lookup_insert]
  rw [hcallee] at hfunction
  obtain rfl := Option.some.inj hfunction
  have hentry : IrCfg.ordinal returnsAtOnce returnsAtOnce.entryLabel = some 0 := by decide
  exact ⟨⟨fun _ => 0, gqr⟩, _, _, _, rfl, .entry hentry, rfl, hreturn, rfl⟩

theorem executes_call {caller function : IrFunction} {helpers : CallRuns} {rules : RunRules}
    (hreturn : rules.leave (.ret none)) {source : Option ℕ} {entered m : Machine} :
    Executes function (completes (programOf caller) helpers rules 1) source entered
      (.call "" "func_80002000" []) m m :=
  .guestCall (by decide) (completes_returnsAtOnce hreturn) .nil

end Loops

end Wiicompiled.Translation.GqrInterproceduralAnalysis
