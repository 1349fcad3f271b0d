import SymbolicOmega.Automaton.Edge
import SymbolicOmega.Letters.Label

/-!
# Rows

A row lists the edges that leave a state, each with the letters that take it.
Edges are pairwise distinct: letters for an edge that is there already are added to
its label.
-/

namespace SymbolicOmega

abbrev Row (S : Type) := List (Edge S × LetterSet)

namespace Row

open Workspace

variable {S : Type}

def labels (row : Row S) : List LetterSet :=
  row.map Prod.snd

def targets (row : Row S) : List S :=
  row.map (·.1.successor)

def release (row : Row S) : WorkM Unit :=
  LetterSet.releaseAll row.labels

variable [DecidableEq S]

/-- Let `edge` be taken on the letters of `label` too.  The row takes the label over. -/
def merge (edge : Edge S) (label : LetterSet) : Row S → WorkM (Row S)
  | [] => return [(edge, label)]
  | (e, own) :: rest =>
      if e = edge then return (e, ← own.absorb label) :: rest
      else return (e, own) :: (← merge edge label rest)

def edgeOn? (row : Row S) (letter : BitSet) : WorkM (Option (Edge S)) := do
  return (← row.findM? fun entry => entry.2.contains letter).map Prod.fst

/-- The states reached on `letter`, each once, in row order. -/
def targetsOn (row : Row S) (letter : BitSet) : WorkM (List S) := do
  let taken ← row.filterM fun entry => entry.2.contains letter
  return (targets taken).eraseDups

end Row

end SymbolicOmega
