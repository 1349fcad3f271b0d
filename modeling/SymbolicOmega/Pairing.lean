/-!
# Pairing of words

Tables choose a bucket from one word, and keys are made of several.  The pairing
walks the square shells of the plane: the pair `(a, b)` with larger component `m`
gets a code in `m², …, m² + 2m`.  Arithmetic is modulo `2^64`, so the code is
exact for components below `2^32` and only a hash beyond.
-/

namespace SymbolicOmega

namespace Pairing

/-- Code of a pair, counted along the square shell of its larger component. -/
def shell (a b : UInt64) : UInt64 :=
  if a < b then b * b + a else a * a + a + b

/-- Code of a triple: the first two components are paired first. -/
def shell3 (a b c : UInt64) : UInt64 :=
  shell (shell a b) c

end Pairing

structure WordPair where
  first : UInt64
  second : UInt64
deriving DecidableEq, Repr

instance : Hashable WordPair where
  hash key := Pairing.shell key.first key.second

structure WordTriple where
  first : UInt64
  second : UInt64
  third : UInt64
deriving DecidableEq, Repr

instance : Hashable WordTriple where
  hash key := Pairing.shell3 key.first key.second key.third

end SymbolicOmega
