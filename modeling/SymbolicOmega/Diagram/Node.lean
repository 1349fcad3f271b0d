import SymbolicOmega.Diagram.Ref

/-!
# Decision nodes

A node decides one variable: its function is `high` where the variable holds and
`low` where it does not.  Variables count from 1; the terminal has variable 0.
-/

namespace SymbolicOmega

structure Node where
  var : UInt32
  low : Ref
  high : Ref
deriving DecidableEq, Repr

namespace Node

/-- What a fresh cell holds, and for good the terminal. -/
def blank : Node := ⟨0, Ref.invalid, Ref.invalid⟩

instance : Inhabited Node := ⟨blank⟩

instance : Hashable Node where
  hash node := Pairing.shell3 node.var.toUInt64 node.low.word node.high.word

end Node

end SymbolicOmega
