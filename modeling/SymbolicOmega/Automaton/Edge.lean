import SymbolicOmega.BitSet.Basic

/-!
# Edges

An edge is one class of outgoing transitions: where they lead and which acceptance
marks they carry.
-/

namespace SymbolicOmega

structure Edge (S : Type) where
  successor : S
  marks : BitSet
deriving DecidableEq, Repr

namespace Edge

variable {S : Type}

instance [Hashable S] : Hashable (Edge S) where
  hash edge := mixHash (hash edge.successor) (hash edge.marks)

def of (successor : S) : Edge S :=
  ⟨successor, BitSet.empty⟩

def marked (successor : S) (mark : Nat) : Edge S :=
  ⟨successor, BitSet.ofList [mark]⟩

def hasMark (edge : Edge S) (mark : Nat) : Bool :=
  edge.marks.contains mark

/-- The same marks, leading elsewhere. -/
def withSuccessor {T : Type} (edge : Edge S) (successor : T) : Edge T :=
  ⟨successor, edge.marks⟩

instance [ToString S] : ToString (Edge S) where
  toString edge :=
    if edge.marks.isEmpty then toString edge.successor
    else s!"{edge.successor} {edge.marks}"

end Edge

end SymbolicOmega
