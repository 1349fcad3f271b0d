import SymbolicOmega.Automaton.Row

/-!
# State spaces

A state space says what each state does on each letter, and how the row of a state
is made.  Unless it says otherwise, the row is found by trying every letter over the
propositions that the state looks at and collecting the letters with equal edges.
-/

namespace SymbolicOmega

structure StateSpace (S : Type) where
  row : (owner : Nat) → S → WorkM (Row S)

namespace StateSpace

open Workspace

variable {S : Type} [DecidableEq S]

/-- The propositions below `size` that a state looks at, all of them if it does not say. -/
def inspected (size : Nat) (sensitive : Option BitSet) : BitSet :=
  match sensitive with
  | some alphabet => alphabet.filter (· < size)
  | none => BitSet.full size

/-- Add what a state does on one letter over `alphabet` to its row.  The row is given
back if that fails. -/
def groupLetter (owner : Nat) (alphabet : BitSet) (step : BitSet → Option (Edge S))
    (row : Row S) (letter : BitSet) : WorkM (Row S) :=
  match step letter with
  | none => return row
  | some edge =>
      onFault
        (do
          let label ← LetterSet.restricted owner letter alphabet
          row.merge edge label)
        row.release

def groupLetters (owner : Nat) (sensitive : Option BitSet) (step : BitSet → Option (Edge S)) :
    WorkM (Row S) := do
  let size ← askFactory owner fun f => .ok f.alphabetSize
  let alphabet := inspected size sensitive
  (Subsets.of alphabet).toList.foldlM (groupLetter owner alphabet step) []

def ofStep (sensitive : S → Option BitSet) (step : S → BitSet → Option (Edge S)) :
    StateSpace S where
  row owner state := groupLetters owner (sensitive state) (step state)

end StateSpace

end SymbolicOmega
