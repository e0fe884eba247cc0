import Mathlib.Data.Fintype.Basic
import Wiicompiled.Support.Worklist
import Wiicompiled.Translation.GqrCompactFlow

/-!
# Interprocedural propagation of quantization registers

The closed-world analysis over the summaries of all functions: what a function may
write including its callees, the functions that the roots reach, and the constants on
which all direct calls of a function agree.  The first two are queues of functions; the
third goes on in rounds that evaluate again only the callers whose entry constants have
moved, up to a limit beyond which the analysis throws.
-/

namespace Wiicompiled.Translation.GqrInterproceduralAnalysis

open Ir GqrConstantPropagation GqrFunctionSummary

abbrev Summaries := AList fun _ : UInt32 => GqrFunctionSummary

/-- The constants of the eight registers. -/
abbrev Slots := Fin 8 → Option UInt32

/-- No register is known. -/
def noSlots : Slots :=
  fun _ => none

/-- The constant of a register, given by its number. -/
def slotAt (slots : Slots) (n : ℕ) : Option UInt32 :=
  if h : n < 8 then slots ⟨n, h⟩ else none

/-! ## Write masks -/

/-- A set of quantization registers, one bit for each. -/
structure WriteMask where
  bits : BitVec 8
deriving DecidableEq

namespace WriteMask

def union (a b : WriteMask) : WriteMask :=
  ⟨a.bits ||| b.bits⟩

def has (mask : WriteMask) (n : Fin 8) : Bool :=
  mask.bits.getLsbD n

end WriteMask

def knownTargets (functions : Summaries) (summary : GqrFunctionSummary) : List UInt32 :=
  summary.directGuestTargets.filter fun target => target ∈ functions

/-- What a function may write itself; anything, when it calls code that is not under
analysis. -/
def localMask (functions : Summaries) (summary : GqrFunctionSummary) : WriteMask :=
  if summary.hasUnknownGuestOrIndirectCall ∨
      ∃ target ∈ summary.directGuestTargets, target ∉ functions then ⟨0xFF⟩
  else ⟨summary.localWriteMask⟩

def localMasks (functions : Summaries) (address : UInt32) : WriteMask :=
  match functions.lookup address with
  | some summary => localMask functions summary
  | none => ⟨0⟩

def calleesOf (functions : Summaries) (address : UInt32) : List UInt32 :=
  match functions.lookup address with
  | some summary => knownTargets functions summary
  | none => []

/-- What a function may write when its callees may write the given registers. -/
def writeEquation (functions : Summaries) (address : UInt32)
    (masks : UInt32 → WriteMask) : WriteMask :=
  (calleesOf functions address).foldl (fun mask target => mask.union (masks target))
    (localMasks functions address)

def callersOf (functions : Summaries) (address : UInt32) : List UInt32 :=
  functions.keys.filter fun caller => address ∈ calleesOf functions caller

/-- The queue of functions whose mask is recomputed; no function waits in it twice, and
every function starts in it. -/
def computeCompactWriteMasks (functions : Summaries) : Option (UInt32 → WriteMask) :=
  let count := functions.keys.length
  Worklist.drain (writeEquation functions) (callersOf functions)
    (8 * count * (count + 1) + count) (localMasks functions) functions.keys

/-! ## Reachable functions -/

def rootSet (functions : Summaries) (roots : List UInt32) : List UInt32 :=
  (roots.filter fun root => root ∈ functions).eraseDups

def computeCompactReachable (functions : Summaries) (roots : List UInt32) :
    Option (List UInt32) :=
  let start := rootSet functions roots
  Worklist.search (calleesOf functions)
    (start.length + (functions.keys.map fun a => (calleesOf functions a).length).sum)
    start []

/-! ## Call sites -/

/-- The callee of a direct call to a reachable function. -/
def siteTarget (known : UInt32 → Bool) : GqrSummaryInstruction → Option UInt32
  | .guestCall (some target) => if known target then some target else none
  | _ => none

def buildCompactCallSites (summary : GqrFunctionSummary) (known : UInt32 → Bool) :
    List UInt32 :=
  summary.blocks.flatMap fun block => block.instructions.filterMap (siteTarget known)

section Propagation

variable (functions : Summaries) (roots reachable : List UInt32) (writeMasks : WriteMasks)

/-- The targets of the call sites of a reachable function. -/
def targetsOf (caller : UInt32) : List UInt32 :=
  if caller ∈ reachable then
    match functions.lookup caller with
    | some summary => buildCompactCallSites summary fun target => target ∈ reachable
    | none => []
  else []

/-- The constants at the call sites of a function that is entered with the given ones. -/
def evaluateCaller (caller : UInt32) (entry : Slots) : List Slots :=
  match functions.lookup caller with
  | some summary =>
      (evaluateCompactCaller summary (slotAt entry) writeMasks
        fun target => target ∈ reachable).map Prod.snd
  | none => []

/-- The constants at all call sites with the given target, in the order of the callers. -/
def sitesTo (contributions : UInt32 → List Slots) (target : UInt32) : List Slots :=
  reachable.flatMap fun caller =>
    ((targetsOf functions reachable caller).zip (contributions caller)).filterMap
      fun site => if site.1 = target then some site.2 else none

/-- The constants on which two call sites agree. -/
def meetSlots (merged site : Slots) : Slots :=
  fun n => if merged n = site n then merged n else none

/-- The constants on which all call sites agree. -/
def mergeSites : List Slots → Slots
  | [] => noSlots
  | first :: others => others.foldl meetSlots first

/-- What is known at the entry of a function; nothing at a root. -/
def mergeEntry (contributions : UInt32 → List Slots) (target : UInt32) : Slots :=
  if target ∈ rootSet functions roots then noSlots
  else mergeSites (sitesTo functions reachable contributions target)

/-! ## Rounds -/

/-- Nothing is known, and all callers are to be evaluated. -/
def startProgress : Worklist.Progress UInt32 Slots (List Slots) :=
  { facts := fun _ => noSlots
    contributions := fun caller => (targetsOf functions reachable caller).map fun _ => noSlots
    dirty := reachable.filter fun caller => !(targetsOf functions reachable caller).isEmpty }

def entryRoundLimit : ℕ :=
  max 256 (functions.keys.length * 2 + 16)

/-- The rounds over the callers whose entry constants have moved. -/
def propagateEntries : Option (UInt32 → Slots) :=
  Worklist.dirtyRounds (evaluateCaller functions reachable writeMasks)
    (mergeEntry functions roots reachable) (targetsOf functions reachable)
    (entryRoundLimit functions) (startProgress functions reachable)

end Propagation

/-! ## The analysis -/

structure GqrInterproceduralResult where
  entryConstants : UInt32 → NameMap
  writeMasks : WriteMasks
  reachableFunctions : List UInt32

def maskTable (functions : Summaries) (masks : UInt32 → WriteMask) : WriteMasks :=
  fun address => if address ∈ functions then some (masks address).bits else none

/-- The dictionary with the constants of the eight registers. -/
def slotConstants (slots : Slots) : NameMap :=
  registerMap gqrName (slotAt slots)

/-- The whole analysis; `none` is the exception for rounds beyond the limit. -/
def analyze (functions : Summaries) (roots : List UInt32) :
    Option GqrInterproceduralResult :=
  (computeCompactWriteMasks functions).bind fun masks =>
    (computeCompactReachable functions roots).bind fun found =>
      let reachable := found.insertionSort (· ≤ ·)
      let writeMasks := maskTable functions masks
      (propagateEntries functions roots reachable writeMasks).map fun entries =>
        { entryConstants := fun address =>
            if address ∈ reachable then slotConstants (entries address) else ∅
          writeMasks := writeMasks
          reachableFunctions := reachable }

end Wiicompiled.Translation.GqrInterproceduralAnalysis
