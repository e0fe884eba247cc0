import Wiicompiled.Translation.LinearIr

/-!
# The memo of leaf-inlining candidates

Speculative decoding of a callee, the memo that keeps its result with the boundary
questions behind it, and the proof that a kept result is the one that decoding would give
again, in every state that the memo can reach while entry points are discovered.  The
classification of a decoded callee never sees the entry points and is a parameter.
-/

namespace Wiicompiled.Translation

open Ir Disassembly Probing

/-! ## Candidates -/

structure LeafInliningPolicy where
  maxCalleeGuestInstructions : Int32
  blockedTargets : UInt32 → Bool
  maxCalleeBlocks : Int32
  allowAcyclicMultiBlockCallees : Bool
  maxCalleeAcyclicBlocks : Int32

/-- What speculative decoding depends on besides the callee and the entry points: the
image, the options of the caller and the policy, and the stages with the classification
of a decoded callee as a candidate or a rejection. -/
structure LeafInlineContext (Candidate Rejection : Type) where
  stages : Stages
  tryCreateCandidate : UInt32 → IrFunction → List PpcInstruction → LeafInliningPolicy →
    Except Failure (Except Rejection Candidate)
  image : ProgramImage
  options : TranslationOptions
  policy : LeafInliningPolicy

/-- The exceptions that make a callee no candidate; others end the translation. -/
def isSwallowed (failure : Failure) : Bool :=
  failure ≠ .other

/-- What decoding and classifying a callee gives: its code, nothing when it is over the
budget or no code could be made, and the verdict on the code. -/
structure Speculation (Candidate Rejection : Type) where
  decoded : Except Failure (Option (IrFunction × List PpcInstruction))
  verdict : Except Failure (Option (Except Rejection Candidate))

/-- The candidate that a verdict leaves. -/
def Speculation.candidate {Candidate Rejection : Type}
    (s : Speculation Candidate Rejection) : Except Failure (Option Candidate) :=
  match s.verdict with
  | .ok (some (.ok candidate)) => .ok (some candidate)
  | .ok _ => .ok none
  | .error e => if isSwallowed e then .ok none else .error e

structure LeafInlineMemoEntry (Candidate : Type) where
  candidate : Option Candidate
  probes : List UInt32

/-- Whether no question that was answered with no would be answered with yes. -/
def isStillValid (probes : List UInt32) (knownFunctionEntryPoints : UInt32 → Bool) : Bool :=
  probes.all fun address => !knownFunctionEntryPoints address

namespace LeafInlineContext

variable {Candidate Rejection : Type} (context : LeafInlineContext Candidate Rejection)

/-- The options for a callee: decoding stops one instruction past the admissible
size. -/
def calleeOptions : TranslationOptions :=
  let maximum := context.policy.maxCalleeGuestInstructions + 1
  let bytes := maximum * 4
  { preferredName := none
    maxInstructions :=
      if context.options.maxInstructions ≤ maximum then context.options.maxInstructions
      else maximum
    maxBytes := if context.options.maxBytes ≤ bytes then context.options.maxBytes else bytes
    allowUnsupportedInstructions := context.options.allowUnsupportedInstructions
    linkedCallFallthroughLrOverrides := ∅ }

def verdictOf (target : UInt32)
    (decoded : Except Failure (Option (IrFunction × List PpcInstruction))) :
    Except Failure (Option (Except Rejection Candidate)) :=
  match decoded with
  | .error e => .error e
  | .ok none => .ok none
  | .ok (some (calleeIr, calleeInstructions)) =>
      (context.tryCreateCandidate target calleeIr calleeInstructions context.policy).map some

/-- Decode and classify a callee. -/
def speculate (target : UInt32) : Probing UInt32 (Speculation Candidate Rejection) :=
  (buildLinearIr context.stages context.image target context.calleeOptions true).andThen
    fun decoded => .done ⟨decoded, context.verdictOf target decoded⟩

/-! ## The memo -/

/-- What the memo keeps for a callee that has been decoded; an exception that is not
swallowed leaves nothing. -/
def memoEntry (knownFunctionEntryPoints : UInt32 → Bool) (target : UInt32) :
    Except Failure (LeafInlineMemoEntry Candidate) :=
  let (speculation, probes) := context.speculate target knownFunctionEntryPoints []
  speculation.candidate.map fun candidate => ⟨candidate, probes⟩

/-- The candidate for a callee of the function at `entryPoint`, and the memo after. -/
def resolve (knownFunctionEntryPoints : UInt32 → Bool) (entryPoint : UInt32)
    (memo : UInt32 → Option (LeafInlineMemoEntry Candidate)) (target : UInt32) :
    Except Failure (Option Candidate) ×
      (UInt32 → Option (LeafInlineMemoEntry Candidate)) :=
  if target = entryPoint then (.ok none, memo)
  else
    match (memo target).filter fun cached =>
        isStillValid cached.probes knownFunctionEntryPoints with
    | some cached => (.ok cached.candidate, memo)
    | none =>
        match context.memoEntry knownFunctionEntryPoints target with
        | .ok entry => (.ok entry.candidate, Function.update memo target (some entry))
        | .error e => (.error e, memo)

/-- The candidate without a memo. -/
def resolveFresh (knownFunctionEntryPoints : UInt32 → Bool) (entryPoint target : UInt32) :
    Except Failure (Option Candidate) :=
  if target = entryPoint then .ok none
  else (context.memoEntry knownFunctionEntryPoints target).map
    LeafInlineMemoEntry.candidate

/-! ## Replaying -/

theorem replayable_speculate (target : UInt32) : Replayable (context.speculate target) :=
  (replayable_buildLinearIr _ _ _ _ _).andThen fun _ => replayable_done _

/-- Under more entry points, none of them logged as absent, the same is decoded, with
the same verdict and the same log. -/
theorem speculate_eq {K K' : UInt32 → Bool} {target : UInt32}
    (hsub : ∀ address, K address = true → K' address = true)
    (habsent : ∀ address ∈ (context.speculate target K []).2, K' address = false) :
    context.speculate target K' [] = context.speculate target K [] :=
  (context.replayable_speculate target).replays K K' [] hsub habsent

theorem memoEntry_eq {K K' : UInt32 → Bool} {target : UInt32}
    {entry : LeafInlineMemoEntry Candidate}
    (hsub : ∀ address, K address = true → K' address = true)
    (hentry : context.memoEntry K target = .ok entry)
    (hvalid : isStillValid entry.probes K' = true) :
    context.memoEntry K' target = .ok entry := by
  have hprobes : entry.probes = (context.speculate target K []).2 := by
    rw [memoEntry] at hentry
    dsimp only at hentry
    rcases hcandidate : (context.speculate target K []).1.candidate with e | candidate <;>
      rw [hcandidate] at hentry
    · cases hentry
    · obtain rfl := Except.ok.inj hentry
      rfl
  have hsame : context.speculate target K' [] = context.speculate target K [] := by
    apply context.speculate_eq hsub
    intro address haddress
    rw [← hprobes] at haddress
    simpa using List.all_eq_true.mp hvalid address haddress
  rw [← hentry, memoEntry, memoEntry, hsame]

/-! ## Runs -/

/-- The memos that callers can meet: entry points are only added, and each resolution
goes through the memo. -/
inductive MemoReachable :
    (UInt32 → Bool) → (UInt32 → Option (LeafInlineMemoEntry Candidate)) → Prop
  | start (K : UInt32 → Bool) : MemoReachable K fun _ => none
  | discover {K K' : UInt32 → Bool} {memo : UInt32 → Option (LeafInlineMemoEntry Candidate)}
      (h : MemoReachable K memo)
      (hsub : ∀ address, K address = true → K' address = true) : MemoReachable K' memo
  | resolve {K : UInt32 → Bool} {memo : UInt32 → Option (LeafInlineMemoEntry Candidate)}
      (h : MemoReachable K memo) (entryPoint target : UInt32) :
      MemoReachable K (context.resolve K entryPoint memo target).2

/-- Every entry was decoded under entry points that are all still known. -/
def MemoSound (K : UInt32 → Bool)
    (memo : UInt32 → Option (LeafInlineMemoEntry Candidate)) : Prop :=
  ∀ target entry, memo target = some entry →
    ∃ K₀ : UInt32 → Bool, (∀ address, K₀ address = true → K address = true) ∧
      context.memoEntry K₀ target = .ok entry

variable {context}

theorem MemoSound.resolve {K : UInt32 → Bool}
    {memo : UInt32 → Option (LeafInlineMemoEntry Candidate)}
    (h : context.MemoSound K memo) (entryPoint target : UInt32) :
    context.MemoSound K (context.resolve K entryPoint memo target).2 := by
  rw [LeafInlineContext.resolve]
  split_ifs
  · exact h
  · split
    · exact h
    · split
      · next entry hentry =>
          intro other found hfound
          change Function.update memo target (some entry) other = some found at hfound
          by_cases hother : other = target
          · subst hother
            rw [Function.update_self] at hfound
            obtain rfl := Option.some.inj hfound
            exact ⟨K, fun _ haddress => haddress, hentry⟩
          · rw [Function.update_of_ne hother] at hfound
            exact h other found hfound
      · exact h

theorem MemoReachable.sound {K : UInt32 → Bool}
    {memo : UInt32 → Option (LeafInlineMemoEntry Candidate)}
    (h : context.MemoReachable K memo) : context.MemoSound K memo := by
  induction h with
  | start K => exact fun _ _ hentry => by cases hentry
  | discover _ hsub ih =>
      intro target entry hentry
      obtain ⟨K₀, hold, hmemo⟩ := ih target entry hentry
      exact ⟨K₀, fun address haddress => hsub address (hold address haddress), hmemo⟩
  | resolve _ entryPoint target ih => exact ih.resolve entryPoint target

/-- Whatever has been resolved and discovered before, the memo changes no answer. -/
theorem MemoReachable.resolve_eq {K : UInt32 → Bool}
    {memo : UInt32 → Option (LeafInlineMemoEntry Candidate)}
    (h : context.MemoReachable K memo) (entryPoint target : UInt32) :
    (context.resolve K entryPoint memo target).1 =
      context.resolveFresh K entryPoint target := by
  rw [LeafInlineContext.resolve, resolveFresh]
  split_ifs
  · rfl
  · split
    · next cached hcached =>
        obtain ⟨hfound, hvalid⟩ := Option.filter_eq_some_iff.mp hcached
        obtain ⟨K₀, hsub, hentry⟩ := h.sound target cached hfound
        rw [context.memoEntry_eq hsub hentry hvalid]
        rfl
    · split
      · next entry hentry =>
          rw [hentry]
          rfl
      · next e hentry =>
          rw [hentry]
          rfl

/-- When the known entry points grow by none that decoding has logged as absent, decoding
gives the same code, the same verdict and the same log, and a memo with the old result
answers what decoding would. -/
theorem leafInlineMemo_transparent (context : LeafInlineContext Candidate Rejection)
    (target : UInt32) (K K' : UInt32 → Bool)
    (hsub : ∀ address, K address = true → K' address = true)
    (habsent : ∀ address ∈ (context.speculate target K []).2, K' address = false) :
    context.speculate target K' [] = context.speculate target K [] ∧
      context.memoEntry K' target = context.memoEntry K target ∧
      ∀ entryPoint memo entry, context.memoEntry K target = .ok entry →
        memo target = some entry →
        (context.resolve K' entryPoint memo target).1 =
          context.resolveFresh K' entryPoint target := by
  have hsame := context.speculate_eq hsub habsent
  have hmemo : context.memoEntry K' target = context.memoEntry K target := by
    rw [memoEntry, memoEntry, hsame]
  refine ⟨hsame, hmemo, fun entryPoint memo entry hentry hfound => ?_⟩
  rw [LeafInlineContext.resolve, resolveFresh, hmemo, hentry]
  split_ifs
  · rfl
  · split
    · next cached hcached =>
        obtain ⟨hcached, -⟩ := Option.filter_eq_some_iff.mp hcached
        rw [hfound] at hcached
        obtain rfl := Option.some.inj hcached
        rfl
    · rfl

/-! ## A tail call -/

def branchDecoder : Decoder where
  decode address word :=
    ⟨address, word, "b", [.branchTarget 0x80003000], [0x80003000], false, false, false⟩
  tryRecognize _ _ _ _ _ := .ok none

/-- A callee of one branch, which is refused as a candidate. -/
def branchContext : LeafInlineContext Unit Unit where
  stages :=
    { decoder := branchDecoder
      liftFloating := fun _ => .ok none
      liftOther := fun _ _ _ _ => .error .invalidOperation }
  tryCreateCandidate _ _ _ _ := .ok (.error ())
  image := ⟨[0x48, 0x00, 0x20, 0x00], 0x80001000⟩
  options := ⟨none, 256, 0x800, false, ∅⟩
  policy := ⟨56, fun _ => false, 4, true, 8⟩

def branchInstruction : PpcInstruction :=
  branchDecoder.decode 0x80001000 0x48002000

theorem branchContext_decoded :
    disassembleFunctionCore branchDecoder branchContext.image 0x80001000 57 0xE4 false
        (fun address => address = 0x80001000) [] =
      (.ok (some [branchInstruction]), [0x80003000]) := by
  rw [disassembleFunctionCore, if_pos (by decide)]
  apply loop_of_run _ _ (show Probing.run _ 5 _ _ _ = _ from ?_)
  decide +kernel

theorem branchContext_probes :
    (branchContext.speculate 0x80001000 (fun address => address = 0x80001000) []).2 =
      [0x80003000] := by
  have hdecoded :
      disassembleFunctionCore branchContext.stages.decoder branchContext.image 0x80001000
          branchContext.calleeOptions.maxInstructions.toInt
          branchContext.calleeOptions.maxBytes.toInt (!true)
          (fun address => address = 0x80001000) [] =
        (.ok (some [branchInstruction]), [0x80003000]) := branchContext_decoded
  rw [speculate, buildLinearIr]
  simp only [andThen, andThenOk, hdecoded]
  decide +kernel

/-- A new entry point other than the target of the branch keeps the result. -/
theorem branchContext_transparent :
    branchContext.speculate 0x80001000
        (fun address => address = 0x80001000 || address = 0x80004000) [] =
      branchContext.speculate 0x80001000 (fun address => address = 0x80001000) [] := by
  refine (leafInlineMemo_transparent branchContext 0x80001000
    (fun address => address = 0x80001000)
    (fun address => address = 0x80001000 || address = 0x80004000) ?_ ?_).1
  · intro address haddress
    simp only [haddress, Bool.true_or]
  · intro address haddress
    rw [branchContext_probes, List.mem_singleton] at haddress
    subst haddress
    decide

/-- The callee is resolved, another entry point is found, and the callee is resolved again. -/
theorem branchContext_resolvedAgain :
    (branchContext.resolve (fun address => address = 0x80001000 || address = 0x80004000)
        0x80005000
        (branchContext.resolve (fun address => address = 0x80001000) 0x80005000
          (fun _ => none) 0x80001000).2 0x80001000).1 =
      branchContext.resolveFresh (fun address => address = 0x80001000 || address = 0x80004000)
        0x80005000 0x80001000 := by
  refine MemoReachable.resolve_eq
    (.discover (.resolve (.start fun address => address = 0x80001000) _ _) ?_) _ _
  intro address haddress
  simp only [haddress, Bool.true_or]

end LeafInlineContext

end Wiicompiled.Translation
