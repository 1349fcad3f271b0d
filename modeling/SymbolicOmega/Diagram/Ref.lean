import SymbolicOmega.Pairing

/-!
# References to decision nodes

A reference names a node by its index and says whether the node's function is
meant or its negation, so negating costs nothing.  Node 1 is the terminal.
-/

namespace SymbolicOmega

/-- A decision node by index, possibly negated. -/
structure Ref where
  index : Nat
  negated : Bool
deriving DecidableEq, Repr

namespace Ref

/-- Indices from here on have no reference of their own. -/
def indexLimit : Nat := 0x7FFFFFFF

def one : Ref := ⟨1, false⟩

def zero : Ref := ⟨1, true⟩

/-- The reference of a node that was never filled in.  Its index lies outside every table. -/
def invalid : Ref := ⟨indexLimit, true⟩

instance : Inhabited Ref := ⟨invalid⟩

/-- The reference to a node, for an index below the limit. -/
def ofIndex? (index : Nat) (negated : Bool) : Option Ref :=
  if index < indexLimit then some ⟨index, negated⟩ else none

protected def neg (r : Ref) : Ref :=
  ⟨r.index, !r.negated⟩

instance : Neg Ref := ⟨Ref.neg⟩

def negateIf (r : Ref) (negate : Bool) : Ref :=
  if negate then -r else r

def regular (r : Ref) : Ref :=
  ⟨r.index, false⟩

def isTerminal (r : Ref) : Bool :=
  r = zero || r = one

/-- The reference as one number: the index doubled, plus one when negated. -/
def raw (r : Ref) : Nat :=
  2 * r.index + r.negated.toNat

def word (r : Ref) : UInt64 :=
  r.raw.toUInt64

instance : Hashable Ref where
  hash r := r.word

instance : ToString Ref where
  toString r :=
    if r = one then "⊤"
    else if r = zero then "⊥"
    else if r.negated then s!"~@{r.index}"
    else s!"@{r.index}"

@[simp] theorem neg_neg (r : Ref) : - -r = r := by
  cases r
  simp [Neg.neg, Ref.neg]

@[simp] theorem neg_one : -one = zero := rfl

@[simp] theorem neg_zero : -zero = one := rfl

end Ref

structure RefPair where
  first : Ref
  second : Ref
deriving DecidableEq, Repr

instance : Hashable RefPair where
  hash key := Pairing.shell key.first.word key.second.word

end SymbolicOmega
