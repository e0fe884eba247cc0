import Wiicompiled.Analysis.GuestAbiInterprocedural
import Wiicompiled.Support.StrongComponents
import Wiicompiled.Support.Worklist

/-!
# Components of the call graph

The analyzer splits the functions of a program into components.  A depth-first search
with an explicit stack along direct calls finds an order in which the functions are
finished; a sweep against that order collects, from each new function, its direct and
indirect callers among those not collected before.
-/

namespace Wiicompiled.Analysis.GuestAbiInterproceduralAnalyzer

/-! ## The call graph -/

section Graph

variable (functions : GuestFunctions) (contracts : ContractMap)

/-- The addresses of the functions, in ascending order. -/
def addresses : List UInt32 :=
  functions.entries.map Prod.fst

def functionContract (address : UInt32) : Option GuestAbiContract :=
  if address ∈ addresses functions then contracts address else none

/-- The functions that a function calls directly, in ascending order. -/
def adjacency (address : UInt32) : List UInt32 :=
  match functionContract functions contracts address with
  | some contract =>
      (contract.directCallTargets.filter fun target =>
        target ∈ addresses functions).dedup.insertionSort (· ≤ ·)
  | none => []

/-- The functions that call a function directly, in ascending order. -/
def reverse (address : UInt32) : List UInt32 :=
  (addresses functions).filter fun caller => address ∈ adjacency functions contracts caller

/-- A function calls another function of the program directly. -/
def Calls (caller callee : UInt32) : Prop :=
  ∃ contract, functionContract functions contracts caller = some contract ∧
    callee ∈ contract.directCallTargets ∧ callee ∈ addresses functions

end Graph

/-! ## The finishing order -/

/-- The functions seen, those finished, and the stack of the traversal: functions with the
ordinals of their next targets. -/
structure FinishState where
  visited : List UInt32
  finishOrder : List UInt32
  traversal : List (UInt32 × ℕ)

section Finish

variable (adjacency : UInt32 → List UInt32)

/-- One turn of the traversal, with the top of the stack. -/
def visitNext (s : FinishState) (address : UInt32) (nextTarget : ℕ)
    (rest : List (UInt32 × ℕ)) : FinishState :=
  match (adjacency address)[nextTarget]? with
  | some target =>
      if target ∈ s.visited then
        { s with traversal := (address, nextTarget + 1) :: rest }
      else
        { s with
          visited := target :: s.visited
          traversal := (target, 0) :: (address, nextTarget + 1) :: rest }
  | none =>
      { s with
        finishOrder := s.finishOrder ++ [address]
        traversal := rest }

/-- The traversal from the functions on the stack, within the given number of turns. -/
def traverse : ℕ → FinishState → Option FinishState
  | 0, s => if s.traversal = [] then some s else none
  | fuel + 1, s =>
      match s.traversal with
      | [] => some s
      | (address, nextTarget) :: rest =>
          traverse fuel (visitNext adjacency s address nextTarget rest)

/-- The traversals from all roots that have not been seen. -/
def finishRoots (fuel : ℕ) : List UInt32 → FinishState → Option FinishState
  | [], s => some s
  | root :: roots, s =>
      if root ∈ s.visited then finishRoots fuel roots s
      else
        (traverse adjacency fuel
          { s with visited := root :: s.visited, traversal := [(root, 0)] }).bind
            (finishRoots fuel roots)

-- the search enters 2 from 1, and 3 when it is back in 1
example : (finishRoots (fun a => if a = 1 then [2, 3] else if a = 2 then [1] else []) 9
    [1, 2, 3] ⟨[], [], []⟩).map FinishState.finishOrder = some [2, 3, 1] := by decide

end Finish

/-! ## The sweep -/

def pushCallers (callers traversal visited : List UInt32) : List UInt32 × List UInt32 :=
  callers.foldl (fun s caller =>
    if caller ∈ s.2 then s else (caller :: s.1, caller :: s.2)) (traversal, visited)

/-- Collect a component from the functions on the stack, within the given number of turns. -/
def collect (reverse : UInt32 → List UInt32) :
    ℕ → List UInt32 → List UInt32 → List UInt32 → Option (List UInt32 × List UInt32)
  | _, [], visited, component => some (component, visited)
  | 0, _ :: _, _, _ => none
  | fuel + 1, address :: traversal, visited, component =>
      let pushed := pushCallers (reverse address) traversal visited
      collect reverse fuel pushed.1 pushed.2 (component ++ [address])

/-- Collect the components of the given roots. -/
def sweep (reverse : UInt32 → List UInt32) (fuel : ℕ) :
    List UInt32 → List UInt32 → List (List UInt32) → Option (List (List UInt32))
  | [], _, result => some result
  | root :: roots, visited, result =>
      if root ∈ visited then sweep reverse fuel roots visited result
      else
        (collect reverse fuel [root] (root :: visited) []).bind fun collected =>
          sweep reverse fuel roots collected.2
            (result ++ [collected.1.insertionSort (· ≤ ·)])

/-- The components of the call graph.  A function without a contract is an exception.  Every
target is taken once and every function left once, which bounds the turns. -/
def buildComponents (functions : GuestFunctions) (contracts : ContractMap) :
    Option (List (List UInt32)) :=
  let adjacency := adjacency functions contracts
  let turns := ((addresses functions).map fun address => (adjacency address).length + 1).sum
  if (addresses functions).all fun address => (contracts address).isSome then
    (finishRoots adjacency turns (addresses functions) ⟨[], [], []⟩).bind fun s =>
      (sweep (reverse functions contracts) turns s.finishOrder.reverse [] []).map fun result =>
        result.insertionSort fun left right => left.headD 0 ≤ right.headD 0
  else none

end Wiicompiled.Analysis.GuestAbiInterproceduralAnalyzer
