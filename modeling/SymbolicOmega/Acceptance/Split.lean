import SymbolicOmega.Acceptance.Rabin

/-!
# Splitting labels by the numbered sets

For output an edge is cut into pieces so that each numbered set covers a piece
wholly or not at all; the numbers of the covering sets are then the piece's marks.
Every function here that is handed pieces takes them over: they are in its answer,
or given back, also when a later step fails.
-/

namespace SymbolicOmega

namespace Rabin

open Workspace

variable {S : Type}

def cut (covered piece : LetterSet) : WorkM (List LetterSet) := do
  let partly : WorkM Bool := do
    if ← covered.intersects piece then return !(← covered.containsAll piece)
    else return false
  if ← onFault partly piece.release then
    try
      let inside ← piece.intersection covered
      let outside ← onFault (piece.difference covered) inside.release
      pure [inside, outside]
    finally piece.release
  else return [piece]

/-- Cut each piece at one set. -/
def cutAll (covered : LetterSet) : List LetterSet → WorkM (List LetterSet)
  | [] => return []
  | piece :: rest => do
      let here ← onFault (cut covered piece) (LetterSet.releaseAll rest)
      let later ← onFault (cutAll covered rest) (LetterSet.releaseAll here)
      return here ++ later

section
variable [DecidableEq S]

/-- The coarsest pieces of `label` at `state` that every numbered set covers wholly or
not at all. -/
def pieces (r : Rabin S) (state : S) (label : LetterSet) : WorkM (List LetterSet) := do
  (r.numbered.filterMap (·.label? state)).foldlM (fun pieces covered => cutAll covered pieces)
    [← label.copy]

def covering (r : Rabin S) (state : S) (label : LetterSet) : WorkM BitSet := do
  let covering ← r.numbered.zipIdx.filterM fun (set, _) => set.containsAllAt state label
  return BitSet.ofList (covering.map Prod.snd)

def markPieces (r : Rabin S) (state : S) : List LetterSet → WorkM (List (LetterSet × BitSet))
  | [] => return []
  | piece :: rest => do
      let marks ← onFault (r.covering state piece) (LetterSet.releaseAll (piece :: rest))
      let later ← onFault (r.markPieces state rest) piece.release
      return (piece, marks) :: later

/-- The pieces of `label` at `state` with their marks. -/
def split (r : Rabin S) (state : S) (label : LetterSet) : WorkM (List (LetterSet × BitSet)) := do
  r.markPieces state (← r.pieces state label)

end

end Rabin

end SymbolicOmega
