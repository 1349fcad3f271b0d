/-!
# Sizes of a diagram manager
-/

namespace SymbolicOmega

structure Sizing where
  /-- The unique table holds at most `2^storageBits` cells. -/
  storageBits : Nat
  /-- The computed table has `2^computedBits` slots. -/
  computedBits : Nat
  /-- A collection is due when more nodes than this are stored. -/
  collectAbove : Nat
deriving DecidableEq, Repr

namespace Sizing

/-- Tables for `2^bits` nodes, collecting at three quarters of them. -/
def ofStorageBits (bits : Nat) : Sizing :=
  let bits := min bits 31
  ⟨bits, min bits 16, 1 <<< bits / 4 * 3⟩

instance : Inhabited Sizing := ⟨ofStorageBits 20⟩

def digits (n : Nat) : Nat :=
  if n = 0 then 0 else n.log2 + 1

/-- Room for about `1024 n² + 256` nodes over `n` propositions, between `2^14` and `2^24`. -/
def forAlphabet (n : Nat) : Sizing :=
  ofStorageBits (max 14 (min 24 (digits (1024 * n * n + 256))))

end Sizing

end SymbolicOmega
