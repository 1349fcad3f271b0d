import SymbolicOmega.BitSet.Basic

/-!
# Subsets in counting order

The subsets of a base set are produced as a binary counter over the base: its
smallest member toggles fastest, the empty set comes first and the base last.
-/

namespace SymbolicOmega

namespace BitSet

/-- One step of the counter over `base`: the leading members of the set are
cleared and the first missing one is put in.  `none` when the counter is full. -/
def increment? : List Nat → BitSet → Option BitSet
  | [], _ => none
  | i :: rest, s => if s.contains i then increment? rest (s.erase i) else some (s.insert i)

end BitSet

/-- The subsets of a base that are still to come. -/
structure Subsets where
  base : List Nat
  current : Option BitSet

namespace Subsets

def of (base : BitSet) : Subsets :=
  ⟨base.toList, some BitSet.empty⟩

/-- The next subset and those after it. -/
def next? (subsets : Subsets) : Option (BitSet × Subsets) :=
  subsets.current.map fun s => (s, ⟨subsets.base, BitSet.increment? subsets.base s⟩)

/-- The first `n` subsets, or all if there are fewer. -/
def take : Nat → Subsets → List BitSet
  | 0, _ => []
  | n + 1, subsets =>
      match subsets.next? with
      | none => []
      | some (s, later) => s :: take n later

/-- All subsets that are still to come: never more than the base has in total. -/
def toList (subsets : Subsets) : List BitSet :=
  subsets.take (1 <<< subsets.base.length)

/-- The first `n` subsets for which `keep` holds, among the next `bound` ones. -/
def takeMatching (keep : BitSet → Bool) : (bound n : Nat) → Subsets → List BitSet
  | _, 0, _ => []
  | 0, _, _ => []
  | bound + 1, n + 1, subsets =>
      match subsets.next? with
      | none => []
      | some (s, later) =>
          if keep s then s :: takeMatching keep bound n later
          else takeMatching keep bound (n + 1) later

end Subsets

end SymbolicOmega
