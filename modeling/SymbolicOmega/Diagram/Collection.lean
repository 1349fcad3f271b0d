import Std.Data.HashSet
import SymbolicOmega.Diagram.Manager

/-!
# Collecting unreachable nodes

A collection keeps the nodes that can be reached from given roots through low and
high children, and the terminal.  Results computed before are forgotten, because
they may name nodes that are dropped.
-/

namespace SymbolicOmega

namespace Manager

def markWithin (m : Manager) : (bound : Nat) → List Ref → Std.HashSet Nat →
    Except Fault (Std.HashSet Nat)
  | _, [], marked => .ok marked
  | 0, _ :: _, _ => .error .boundReached
  | bound + 1, r :: rest, marked =>
      if marked.contains r.index then m.markWithin bound rest marked
      else
        match m.node r.index with
        | .error fault => .error fault
        | .ok node =>
            m.markWithin bound (node.low :: node.high :: rest) (marked.insert r.index)

/-- Indices of the nodes reachable from `roots`, the terminal always among them.
Each root and the two children of each cell are looked at once. -/
def descendants (m : Manager) (roots : List Ref) : Except Fault (Std.HashSet Nat) :=
  m.markWithin (roots.length + 2 * m.nodes.cells.size) roots (.ofList [Ref.one.index])

def nodeCount (m : Manager) (r : Ref) : Except Fault Nat :=
  return (← m.descendants [r]).size

def forgetComputed : ManagerM Unit :=
  onComputed fun computed => ((), computed.clear)

/-- Set the size above which the next collection is due: twice what survived this
one, at most seven eighths of the capacity, and never below the configured size. -/
def raiseThreshold (alive : Nat) : ManagerM Unit :=
  modify fun m =>
    { m with
      threshold := max (min (2 * alive) (m.nodes.capacity / 8 * 7)) m.sizing.collectAbove }

/-- Drop every node that cannot be reached from `roots`.  Answers how many were dropped. -/
def collect (roots : List Ref) : ManagerM Nat := do
  forgetComputed
  let alive ← ask (·.descendants roots)
  let sweep ← onNodes (UniqueTable.retain alive.contains)
  raiseThreshold alive.size
  return sweep.dropped

end Manager

end SymbolicOmega
