import SymbolicOmega.Diagram.Manager

/-!
# The function of a reference

A reference denotes a function from assignments to truth values: follow the high
child where the decided variable holds and the low child elsewhere, negate at every
negated reference, and end at the terminal.
-/

namespace SymbolicOmega

namespace Manager

def evaluateWithin (m : Manager) (assignment : UInt32 → Bool) :
    (bound : Nat) → Ref → Except Fault Bool
  | 0, _ => .error .boundReached
  | bound + 1, r =>
      if r.isTerminal then .ok (r = Ref.one)
      else
        match m.node r.index with
        | .error fault => .error fault
        | .ok node =>
            m.evaluateWithin assignment bound
              ((if assignment node.var then node.high else node.low).negateIf r.negated)

/-- Decisions on a path, with the terminal: variables grow along it. -/
def pathBound : Nat := UInt32.size + 1

def evaluate (m : Manager) (r : Ref) (assignment : UInt32 → Bool) : Except Fault Bool :=
  m.evaluateWithin assignment pathBound r

end Manager

end SymbolicOmega
