import Mathlib.Data.List.Basic

/-!
# Deferred writes to a stream

A program computes on private state and writes units to a stream that something outside
reacts to.  The units may be gathered and written together at the end.
-/

namespace DeferredWrites

variable {ρ ω β : Type*}

/-- Write units one after the other. -/
def pushAll (push : β → ω → ω) (units : List β) (outside : ω) : ω :=
  units.foldl (fun outside unit => push unit outside) outside

theorem pushAll_append (push : β → ω → ω) (front back : List β) (outside : ω) :
    pushAll push (front ++ back) outside = pushAll push back (pushAll push front outside) :=
  List.foldl_append

/-- A step that does not look outside. -/
inductive Step (ρ β : Type*) where
  | compute (f : ρ → ρ)
  | write (units : ρ → List β)

/-- The private state after a step. -/
def Step.state : Step ρ β → ρ → ρ
  | .compute f, state => f state
  | .write _, state => state

/-- The units that a step writes. -/
def Step.units : Step ρ β → ρ → List β
  | .compute _, _ => []
  | .write units, state => units state

/-- The private state after some steps. -/
def finalState (steps : List (Step ρ β)) (state : ρ) : ρ :=
  steps.foldl (fun state step => step.state state) state

/-- The units that some steps write, in order. -/
def gathered : List (Step ρ β) → ρ → List β
  | [], _ => []
  | step :: steps, state => step.units state ++ gathered steps (step.state state)

end DeferredWrites
