import Std.Data.HashMap
import SymbolicOmega.Diagram.Evaluate

/-!
# Counting satisfying assignments

Over `n` variables a child that stands below a decision counts each assignment
twice, once for each value of the variable decided above it, so a decision counts
half of what its children count together.  A negated reference counts the rest of
the `2^n` assignments.
-/

namespace SymbolicOmega

namespace Manager

abbrev Counts := Std.HashMap Ref Nat

/-- Number of the `total` assignments that satisfy `r`, with the counts known afterwards. -/
def countWithin (m : Manager) (total : Nat) : (bound : Nat) → Ref → Counts →
    Except Fault (Nat × Counts)
  | 0, _, _ => .error .boundReached
  | bound + 1, r, known =>
      if r = Ref.zero then .ok (0, known)
      else if r = Ref.one then .ok (total, known)
      else
        match known[r]? with
        | some count => .ok (count, known)
        | none => do
            let node ← m.node r.index
            let (low, known) ← m.countWithin total bound node.low known
            let (high, known) ← m.countWithin total bound node.high known
            let half := (low + high) / 2
            let count := if r.negated then total - half else half
            return (count, known.insert r count)

def count (m : Manager) (r : Ref) (n : Nat) : Except Fault Nat :=
  return (← m.countWithin (1 <<< n) pathBound r ∅).1

end Manager

end SymbolicOmega
