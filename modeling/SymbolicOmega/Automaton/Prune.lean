import SymbolicOmega.Automaton.Explore

/-!
# Removing states

A removed state takes with it its row and every edge that leads to it.
-/

namespace SymbolicOmega

namespace Automaton

variable {S : Type}

/-- The rows without the states that `gone` names and without edges to them. -/
def prunedRows (gone : S → Bool) (rows : List (S × Row S)) : List (S × Row S) :=
  (rows.filter fun entry => !gone entry.1).map fun entry =>
    (entry.1, entry.2.filter fun edge => !gone edge.1.successor)

def prunedLabels (gone : S → Bool) (rows : List (S × Row S)) : List LetterSet :=
  rows.flatMap fun entry =>
    if gone entry.1 then entry.2.labels
    else Row.labels (entry.2.filter fun edge => gone edge.1.successor)

/-- Remove the states for which `gone` holds; a built initial state among them is no
longer the initial state. -/
def removeIf (gone : S → Bool) : AutomatonM S Unit := do
  let a ← current
  inWorkspace (LetterSet.releaseAll (prunedLabels gone a.rows))
  change fun a =>
    { a with
      rows := prunedRows gone a.rows
      initial := if a.initial.state?.any gone then .resolved none else a.initial }

variable [DecidableEq S]

/-- Remove the given states.  If a built initial state is among them, nothing is left. -/
def remove (states : List S) : AutomatonM S Unit := do
  let a ← current
  if a.initial.state?.any states.contains then
    inWorkspace (a.rows.forM fun entry => entry.2.release)
    change fun a => { a with rows := [], initial := .resolved none }
  else removeIf states.contains

def removeUnreachableFrom (bound : Nat) (seeds : List S) : AutomatonM S Unit := do
  let reached ← reachable bound seeds
  removeIf (!reached.contains ·)

def removeUnreachable (bound : Nat) : AutomatonM S Unit := do
  removeUnreachableFrom bound (← initialState).toList

end Automaton

end SymbolicOmega
