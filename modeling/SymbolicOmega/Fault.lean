import SymbolicOmega.Diagram.Ref

/-!
# Causes of failure

Every operation that can fail says why by one of these causes; the wording of all
of them is in one function.
-/

namespace SymbolicOmega

/-- Why an operation failed. -/
inductive Fault where
  /-- A position outside a sequence was read or written. -/
  | indexOutOfRange
  /-- The sentry cell 0 was addressed. -/
  | sentryAddressed
  /-- A cell that holds no value was dropped. -/
  | cellNotOccupied (index : Nat)
  /-- The unique table has no free cell left. -/
  | storageFull
  /-- A unique table of more than `2^31` cells was asked for. -/
  | storageBitsTooLarge
  /-- A computed table of more than `2^31` slots was asked for. -/
  | computedBitsTooLarge
  /-- A node index has no reference. -/
  | nodeIndexTooLarge
  /-- The least signed number was to be negated.  Negation is checked, while a cast wraps. -/
  | arithmeticOverflow
  /-- Variable 0 was to be decided. -/
  | zeroVariable
  /-- A node was split at a variable below its own. -/
  | cofactorBelowTop
  /-- A node that is not the terminal decides no variable. -/
  | undecidedNode
  /-- A root was given back that no set holds. -/
  | rootNotHeld (root : Ref)
  /-- A proposition outside the alphabet was named. -/
  | propositionOutside (proposition alphabetSize : Nat)
  /-- Sets of two factories were combined. -/
  | foreignFactory
  /-- A set was asked for by a name that no set has. -/
  | unknownName (name : String)
  /-- A bounded walk was cut off at its bound. -/
  | boundReached
deriving DecidableEq, Repr

namespace Fault

/-- The text shown for a failure. -/
def message : Fault → String
  | indexOutOfRange => "index out of bounds"
  | sentryAddressed => "Index is 0"
  | cellNotOccupied index => s!"Index {index} is not occupied"
  | storageFull => "Storage is full"
  | storageBitsTooLarge => "Storage bits should be in the range 0..=31"
  | computedBitsTooLarge => "Bits should be in the range 0..=31"
  | nodeIndexTooLarge => "Node index out of range"
  | arithmeticOverflow => "attempt to negate with overflow"
  | zeroVariable => "Variable index should not be zero"
  | cofactorBelowTop => "assertion failed"
  | undecidedNode => "assertion failed"
  | rootNotHeld root => s!"Root {root} is not held by any valuation set"
  | propositionOutside proposition alphabetSize =>
      s!"Proposition {proposition} is outside the alphabet of size {alphabetSize}"
  | foreignFactory => "Valuation sets from different factories cannot be combined"
  | unknownName name => "unknown " ++ name
  | boundReached => "step bound reached"

end Fault

end SymbolicOmega
