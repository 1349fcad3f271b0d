import SymbolicOmega.Automaton.Basic

/-!
# Structural queries

Queries look at kept rows only: a state that is not explored has no edges here.
-/

namespace SymbolicOmega

namespace Automaton

open Workspace

variable {S : Type}

/-- Give `seen` back and say whether the labels are pairwise disjoint and disjoint from it. -/
def disjointFrom : (seen : LetterSet) → List LetterSet → WorkM Bool
  | seen, [] => do
      seen.release
      return true
  | seen, label :: rest => do
      if ← onFault (seen.intersects label) seen.release then
        seen.release
        return false
      else
        disjointFrom (← onFault (seen.addAll label) seen.release) rest

variable [DecidableEq S]

def isSink (a : Automaton S) (state : S) : Bool :=
  (a.row? state).all fun row =>
    row.all fun (edge, label) => edge.successor = state || label.isEmpty

def isTransient (a : Automaton S) (state : S) : Bool :=
  (a.row? state).all fun row =>
    row.all fun (edge, label) => edge.successor ≠ state || label.isEmpty

def isDeterministicAt (a : Automaton S) (state : S) : WorkM Bool :=
  match a.row? state with
  | none => return true
  | some row => do disjointFrom (← LetterSet.empty a.owner) row.labels

def isDeterministic (a : Automaton S) : WorkM Bool :=
  a.states.allM a.isDeterministicAt

/-- Whether no edge of the given states leads out of them. -/
def isClosed (a : Automaton S) (states : List S) : Bool :=
  states.all fun state =>
    (a.row? state).all fun row => row.targets.all states.contains

end Automaton

end SymbolicOmega
