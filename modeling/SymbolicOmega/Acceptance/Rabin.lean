import SymbolicOmega.Acceptance.TransitionSet

/-!
# Generalized Rabin conditions

A run is accepting if for some pair it takes transitions of `fin` only finitely often
and transitions of every set of `infs` infinitely often.  Sets are numbered for
output by first reference, from the first pair on; a set that several pairs share
has one number, and two sets with the same transitions have two.
-/

namespace SymbolicOmega

structure RabinPair (S : Type) where
  fin : TransitionSet S
  infs : List (TransitionSet S)

/-- The sets of a pair in order of reference. -/
def RabinPair.sets {S : Type} (pair : RabinPair S) : List (TransitionSet S) :=
  pair.fin :: pair.infs

/-- The pairs of a condition, and the sets that have a number, by number. -/
structure Rabin (S : Type) where
  pairs : List (RabinPair S)
  numbered : List (TransitionSet S)

namespace Rabin

variable {S : Type}

def ofPairs (pairs : List (RabinPair S)) : Rabin S :=
  ⟨pairs, []⟩

def sharePair (pair : RabinPair S) : WorkM Unit :=
  pair.sets.forM TransitionSet.share

def letGoPair (pair : RabinPair S) : WorkM Unit :=
  pair.sets.forM TransitionSet.letGo

def letGo (r : Rabin S) : WorkM Unit := do
  r.pairs.forM letGoPair
  r.numbered.forM TransitionSet.letGo

/-- Append pairs.  Equal pairs are not merged. -/
def addPairs (r : Rabin S) (pairs : List (RabinPair S)) : Rabin S :=
  { r with pairs := r.pairs ++ pairs }

/-- Each of the positions once, the greatest first. -/
def falling (positions : List Nat) : List Nat :=
  positions.eraseDups.mergeSort (· ≥ ·)

def removeAt (r : Rabin S) (p : Nat) : WorkM (Rabin S) := do
  r.pairs[p]?.forM letGoPair
  return { r with pairs := r.pairs.eraseIdx p }

/-- Remove the pairs at the given positions, of which some may not exist, from the last one on. -/
def removePositions (r : Rabin S) (positions : List Nat) : WorkM (Rabin S) :=
  (falling positions).foldlM removeAt r

def removeAll (r : Rabin S) : WorkM (Rabin S) := do
  r.pairs.forM letGoPair
  return { r with pairs := [] }

/-! ## Implication between pairs -/

def pairAt (r : Rabin S) (i : Nat) : WorkM (RabinPair S) :=
  match r.pairs[i]? with
  | some pair => return pair
  | none => throw .indexOutOfRange

/-- Whether the pair at `i` is seen to imply the pair at `j`: its `fin` covers the
other one's, and each of the other's `infs` covers one of its own. -/
def implies [DecidableEq S] (r : Rabin S) (i j : Nat) : WorkM Bool := do
  let premise ← r.pairAt i
  let conclusion ← r.pairAt j
  if ← premise.fin.containsAll conclusion.fin then
    conclusion.infs.allM fun covering =>
      premise.infs.anyM fun covered => covering.containsAll covered
  else return false

/-! ## Numbering -/

/-- Every set once, in order of first reference. -/
def distinctSets (r : Rabin S) : List (TransitionSet S) :=
  (r.pairs.flatMap RabinPair.sets).eraseDupsBy fun a b => a.ticket == b.ticket

def renumber (r : Rabin S) : WorkM (Rabin S) := do
  let numbered := r.distinctSets
  numbered.forM TransitionSet.share
  r.numbered.forM TransitionSet.letGo
  return { r with numbered }

def number (numbered : List (TransitionSet S)) (set : TransitionSet S) : Nat :=
  numbered.findIdx fun other => other.ticket == set.ticket

def formula (r : Rabin S) : Formula AcceptanceAtom :=
  let number := number r.distinctSets
  Formula.disjAll <| r.pairs.map fun pair =>
    Formula.conjAll <|
      Formula.atom (.fin (number pair.fin)) ::
        pair.infs.map fun set => Formula.atom (.inf (number set))

def setCount (r : Rabin S) : Nat :=
  (r.pairs.flatMap RabinPair.sets).length

/-- The number of pairs, then the number of `infs` of each. -/
def parameters (r : Rabin S) : List Nat :=
  r.pairs.length :: r.pairs.map fun pair => pair.infs.length

def describe [ToString S] (r : Rabin S) : WorkM String := do
  let pairs ← r.pairs.zipIdx.mapM fun (pair, i) => do
    let fin ← pair.fin.describe
    let infs ← pair.infs.zipIdx.mapM fun (set, j) =>
      return s!"\n\tInf {j}: {← set.describe}"
    return s!"\nPair {i}\n\tFin: {fin}" ++ "".intercalate infs
  return "GeneralizedRabinAcceptance" ++ "".intercalate pairs

end Rabin

end SymbolicOmega
