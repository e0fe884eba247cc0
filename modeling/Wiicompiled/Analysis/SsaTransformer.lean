import Wiicompiled.Ir.IrCfg
import Wiicompiled.Ir.RegisterDataFlow
import Wiicompiled.Support.Dominators

/-!
# Conversion to static single assignment

`SsaTransformer.Convert` computes the dominators of the control-flow graph, puts phis where
definitions meet, and renames the blocks that it reaches down the dominator tree.  Blocks are
identified by their ordinals.  The dominance frontiers, which only decide where phis go, are
an argument of the model.
-/

namespace Wiicompiled.Analysis.SsaTransformer

open Ir

/-! ## Dominators -/

def ordinals (function : IrFunction) : List ℕ :=
  List.range function.blocks.length

/-- The dominator set of every block; there is a sweep for each element that can go. -/
def ComputeDominators (function : IrFunction) (entry : ℕ) : Option (ℕ → Finset ℕ) :=
  Dominators.solve (IrCfg.predecessors function) entry (ordinals function)
    (function.blocks.length * function.blocks.length + 1)
    (Dominators.top entry (ordinals function))

/-- The strict dominators of a block in ascending order. -/
def candidates (function : IrFunction) (dominators : ℕ → Finset ℕ) (block : ℕ) : List ℕ :=
  (ordinals function).filter fun c => c ∈ dominators block ∧ c ≠ block

/-- The first candidate with the largest dominator set. -/
def bestCandidate (dominators : ℕ → Finset ℕ) (candidates : List ℕ) : Option ℕ :=
  candidates.foldl
    (fun best candidate =>
      match best with
      | none => some candidate
      | some b =>
          if (dominators b).card < (dominators candidate).card then some candidate else some b)
    none

def IsImmediateDominator (dominators : ℕ → Finset ℕ) (block : ℕ) (candidates : List ℕ)
    (best : ℕ) : Bool :=
  (dominators block).erase block = dominators best &&
    candidates.all fun candidate => candidate = best || best ∉ dominators candidate

def ResolveImmediateDominatorExhaustive (dominators : ℕ → Finset ℕ) (candidates : List ℕ) :
    Option ℕ :=
  candidates.find? fun candidate =>
    candidates.all fun other => other = candidate || candidate ∉ dominators other

/-- `ComputeImmediateDominators`, at one block. -/
def ImmediateDominator (function : IrFunction) (dominators : ℕ → Finset ℕ) (block : ℕ) :
    Option ℕ :=
  let candidates := candidates function dominators block
  match bestCandidate dominators candidates with
  | none => none
  | some best =>
      if IsImmediateDominator dominators block candidates best then some best
      else ResolveImmediateDominatorExhaustive dominators candidates

/-! ## Phis -/

def Base (name : String) : String :=
  stripNumericSuffix name

def destinationOf : IrInstruction → Option String
  | .assign destination _ | .binary destination _ _ _ | .load destination _ _
  | .phi destination _ => some destination
  | .call destination _ _ | .indirectCall destination _ _ =>
      if isNullOrWhiteSpace destination then none else some destination
  | _ => none

def DefinitionsIn (block : IrBasicBlock) : List String :=
  block.instructions.filterMap fun i => (destinationOf i).map Base

def IsBlockLocalTemp (name : String) : Bool :=
  startsWithIgnoreCase name.toList "addr_".toList &&
    equalsIgnoreCase (name.toList.drop (name.toList.length - 4)) "_loc".toList

/-- The blocks that define each variable; variables are told apart without their case. -/
abbrev DefSites := List (String × List ℕ)

def addSite (block : ℕ) (sites : DefSites) (name : String) : DefSites :=
  if sites.any fun site => folded site.1 = folded name then
    sites.map fun site =>
      if folded site.1 = folded name ∧ block ∉ site.2 then (site.1, site.2 ++ [block])
      else site
  else sites ++ [(name, [block])]

def defSites (function : IrFunction) : DefSites :=
  (ordinals function).foldl
    (fun sites block =>
      ((DefinitionsIn (function.blockAt block)).filter fun name => !IsBlockLocalTemp name).foldl
        (addSite block) sites)
    []

structure DominanceFrontier (function : IrFunction) where
  blocks : ℕ → List ℕ
  isBlock : ∀ x, ∀ y ∈ blocks x, y < function.blocks.length

/-- The blocks that get a phi of a variable, in the order of their insertion. -/
def placePhis (frontier : ℕ → List ℕ) (defBlocks : List ℕ) :
    ℕ → List ℕ → List ℕ → Option (List ℕ)
  | _, [], already => some already
  | 0, _ :: _, _ => none
  | fuel + 1, x :: worklist, already =>
      let added := ((frontier x).filter fun y => y ∉ already).dedup
      placePhis frontier defBlocks fuel (worklist ++ added.filter fun y => y ∉ defBlocks)
        (already ++ added)

/-- Where the phis of all variables go. -/
def placements (function : IrFunction) (frontier : DominanceFrontier function) :
    Option (List (String × List ℕ)) :=
  (defSites function).mapM fun site =>
    (placePhis frontier.blocks site.2 (site.2.length + function.blocks.length) site.2 []).map
      fun blocks => (site.1, blocks)

/-- Every phi is put in front of the ones that were inserted before it. -/
def phisAt (placed : List (String × List ℕ)) (block : ℕ) : List IrInstruction :=
  ((placed.filter fun site => block ∈ site.2).reverse).map fun site =>
    .phi site.1 ⟨[], List.nodup_nil⟩

def InsertPhiNodes (function : IrFunction) (frontier : DominanceFrontier function) :
    Option IrFunction :=
  (placements function frontier).map fun placed =>
    { function with
      blocks := function.blocks.mapIdx fun index block =>
        { block with instructions := phisAt placed index ++ block.instructions } }

/-! ## Versions -/

/-- The version stacks and counters, under names without their case, and the definitions
of the block that is being renamed. -/
structure RenameState where
  versionStacks : List Char → List String
  nextVersions : List Char → ℕ
  definedHere : List (String × String)

abbrev Renamer := StateM RenameState

def versionName (base : String) (id : ℕ) : String :=
  base ++ "_" ++ toString id

def NewVersion (original : String) : Renamer String := fun state =>
  let key := folded (Base original)
  let version := versionName (Base original) (state.nextVersions key)
  (version,
    { state with
      versionStacks := Function.update state.versionStacks key (version :: state.versionStacks key)
      nextVersions := Function.update state.nextVersions key (state.nextVersions key + 1) })

/-- A use before any definition is an implicit parameter. -/
def CurrentVersion (baseName : String) : Renamer String := fun state =>
  match state.versionStacks (folded baseName) with
  | [] => NewVersion baseName state
  | version :: _ => (version, state)

def define (variableName version : String) : Renamer Unit := fun state =>
  ((), { state with definedHere := state.definedHere ++ [(variableName, version)] })

def Register (name : String) : Renamer String := do
  define (Base name) name
  return name

/-! ## Instructions -/

def RenameValue (value : IrValue) : Renamer IrValue :=
  if value.kind = "register" then
    match value.registerName with
    | some name => do
        let current ← CurrentVersion (Base name)
        return { value with registerName := some current }
    | none => return value
  else return value

def RenameAddress (address : IrAddress) : Renamer IrAddress := do
  let renamedBase ← CurrentVersion (Base address.base)
  return ⟨renamedBase, address.offset⟩

def newDestination (destination : String) : Renamer String := do
  Register (← NewVersion destination)

def newCallDestination (destination : String) : Renamer String :=
  if isNullOrWhiteSpace destination then return "" else newDestination destination

def RenameInstruction : IrInstruction → Renamer IrInstruction
  | .assign destination value => do
      let value ← RenameValue value
      return .assign (← newDestination destination) value
  | .binary destination left right op => do
      let left ← RenameValue left
      let right ← RenameValue right
      return .binary (← newDestination destination) left right op
  | .load destination address sizeBytes => do
      let address ← RenameAddress address
      return .load (← newDestination destination) address sizeBytes
  | .store address source sizeBytes => do
      let address ← RenameAddress address
      return .store address (← RenameValue source) sizeBytes
  | .call destination target arguments => do
      let args ← arguments.mapM RenameValue
      return .call (← newCallDestination destination) target args
  | .indirectCall destination target arguments => do
      -- the target is renamed before the destination, which may be the same register
      let icallTarget ← RenameValue target
      let icallArgs ← arguments.mapM RenameValue
      return .indirectCall (← newCallDestination destination) icallTarget icallArgs
  | .setCrField fieldIndex left right isUnsigned => do
      let left ← RenameValue left
      return .setCrField fieldIndex left (← RenameValue right) isUnsigned
  | .branch condition trueLabel falseLabel conditionRegister =>
      if isRegisterName conditionRegister then do
        let current ← CurrentVersion (Base conditionRegister)
        return .branch condition trueLabel falseLabel current
      else return .branch condition trueLabel falseLabel conditionRegister
  | .indirectJump target => do
      return .indirectJump (← RenameValue target)
  | .jumpTable selector cases => do
      return .jumpTable (← CurrentVersion (Base selector)) cases
  | .ret (some value) => do
      return .ret (some (← RenameValue value))
  | ins => return ins

/-- The definitions of phis come first. -/
def renamePhi : IrInstruction → Renamer IrInstruction
  | .phi destination sources => do
      let newName ← NewVersion destination
      define (Base destination) newName
      return .phi newName sources
  | ins => return ins

/-- `sources[label] = name`. -/
def setSource (sources : PhiSources) (label name : String) : PhiSources where
  entries :=
    if label ∈ sources.entries.map Prod.fst then
      sources.entries.map fun entry => if entry.1 = label then (label, name) else entry
    else sources.entries ++ [(label, name)]
  nodup_keys := by
    by_cases h : label ∈ sources.entries.map Prod.fst
    · rw [if_pos h, List.map_map]
      have hkeys : ((Prod.fst : String × String → String) ∘ fun entry : String × String =>
          if entry.1 = label then (label, name) else entry) = Prod.fst := by
        funext entry
        by_cases hentry : entry.1 = label <;> simp [hentry]
      rw [hkeys]
      exact sources.nodup_keys
    · rw [if_neg h, List.map_append, List.nodup_append]
      refine ⟨sources.nodup_keys, by simp, ?_⟩
      intro key hkey other hother heq
      rw [List.map_singleton, List.mem_singleton] at hother
      rw [heq, hother] at hkey
      exact h hkey

/-- The version at the end of a predecessor flows into a phi. -/
def updateSources (label : String) : IrInstruction → Renamer IrInstruction
  | .phi destination sources => do
      let current ← CurrentVersion (Base destination)
      return .phi destination (setSource sources label current)
  | ins => return ins

/-! ## The walk -/

/-- A frame of the work stack: a block to visit, or the definitions to pop after its
children. -/
inductive Frame where
  | visit (block : ℕ)
  | leave (block : ℕ) (pops : List (String × String))

structure Walk where
  work : List Frame
  working : List (List IrInstruction)
  versions : RenameState
  renamed : List ℕ
  active : List ℕ

/-- Pop the definitions of a block; popping an empty stack throws. -/
def popVersions : List (String × String) → RenameState → Option RenameState
  | [], state => some state
  | (variableName, _) :: pops, state =>
      match state.versionStacks (folded variableName) with
      | [] => none
      | _ :: rest =>
          popVersions pops
            { state with versionStacks := Function.update state.versionStacks (folded variableName) rest }

def blockLabel (function : IrFunction) (entry block : ℕ) : String :=
  if block = entry then function.entryLabel else (function.blockAt block).label

/-- Rename a block in place, phis first. -/
def renameBlock (instructions : List IrInstruction) : Renamer (List IrInstruction) := do
  let instructions ← instructions.mapM renamePhi
  instructions.mapM RenameInstruction

def updateSuccessor (label : String) (working : List (List IrInstruction)) (succ : ℕ) :
    Renamer (List (List IrInstruction)) := do
  let succList ← (working.getD succ []).mapM (updateSources label)
  return working.set succ succList

def domChildren (function : IrFunction) (idom : ℕ → Option ℕ) (block : ℕ) : List ℕ :=
  (ordinals function).filter fun child => idom child = some block

/-- One turn of the work loop. -/
def step (function : IrFunction) (entry : ℕ) (idom : ℕ → Option ℕ) (walk : Walk) :
    Option Walk :=
  match walk.work with
  | [] => some walk
  | .leave block pops :: work =>
      (popVersions pops.reverse walk.versions).map fun versions =>
        { walk with work := work, versions := versions, active := walk.active.erase block }
  | .visit block :: work =>
      if block ∈ walk.active then none
      else
        let (instructions, versions) :=
          renameBlock (walk.working.getD block []) { walk.versions with definedHere := [] }
        let (working, versions') :=
          (IrCfg.successors function block).foldlM (updateSuccessor (blockLabel function entry block))
            (walk.working.set block instructions) versions
        some
          { work := (domChildren function idom block).map Frame.visit ++
              .leave block versions'.definedHere :: work
            working := working
            versions := versions'
            renamed := block :: walk.renamed
            active := block :: walk.active }

def run (function : IrFunction) (entry : ℕ) (idom : ℕ → Option ℕ) : ℕ → Walk → Option Walk
  | 0, walk => if walk.work.isEmpty then some walk else none
  | fuel + 1, walk =>
      if walk.work.isEmpty then some walk
      else (step function entry idom walk).bind (run function entry idom fuel)

def initialWalk (withPhis : IrFunction) (entry : ℕ) : Walk where
  work := [.visit entry]
  working := withPhis.blocks.map IrBasicBlock.instructions
  versions := ⟨fun _ => [], fun _ => 0, []⟩
  renamed := []
  active := []

/-- The blocks that were not visited keep their instructions. -/
def rebuild (withPhis : IrFunction) (walk : Walk) : IrFunction :=
  { withPhis with
    blocks := withPhis.blocks.mapIdx fun index block =>
      { block with
        instructions :=
          if index ∈ walk.renamed then walk.working.getD index [] else block.instructions } }

/-- The walk of `RenameToSsa` over the dominator tree; no block is visited or left twice. -/
def renameWalk (function withPhis : IrFunction) (entry : ℕ) (idom : ℕ → Option ℕ) :
    Option Walk :=
  run function entry idom (2 * function.blocks.length) (initialWalk withPhis entry)

/-! ## Conversion -/

/-- What `Convert` returns, with the blocks that it renamed. -/
structure SsaResult where
  function : IrFunction
  renamed : List ℕ
deriving DecidableEq

def Convert (function : IrFunction) (frontier : DominanceFrontier function) :
    Option SsaResult :=
  if IrCfg.DistinctLabels function then do
    let entry ← IrCfg.ordinal function function.entryLabel
    let dominators ← ComputeDominators function entry
    let withPhis ← InsertPhiNodes function frontier
    let walk ← renameWalk function withPhis entry (ImmediateDominator function dominators)
    return ⟨rebuild withPhis walk, walk.renamed⟩
  else none

end Wiicompiled.Analysis.SsaTransformer
