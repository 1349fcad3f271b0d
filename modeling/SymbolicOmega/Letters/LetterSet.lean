import SymbolicOmega.BitSet.Subsets
import SymbolicOmega.Letters.Workspace

/-!
# Letter sets

A letter set is a handle on a root in its factory.  Each handle is made by one
operation and given back once; the operations that change a set answer the handle
to go on with.  A set stays as it was when an operation on it fails.
-/

namespace SymbolicOmega

structure LetterSet where
  owner : Nat
  root : Ref
deriving DecidableEq, Repr

instance : Hashable LetterSet where
  hash s := hash s.root

namespace LetterSet

open Workspace

def make (owner : Nat) (root : FactoryM Ref) : WorkM LetterSet :=
  return ⟨owner, ← inFactory owner root⟩

def empty (owner : Nat) : WorkM LetterSet :=
  make owner (Factory.holding (pure Ref.zero))

def all (owner : Nat) : WorkM LetterSet :=
  make owner (Factory.holding (pure Ref.one))

def singleton (owner : Nat) (letter : BitSet) : WorkM LetterSet :=
  make owner (Factory.singleton letter)

def restricted (owner : Nat) (letter alphabet : BitSet) : WorkM LetterSet :=
  make owner (Factory.restricted letter alphabet)

def proposition (owner p : Nat) : WorkM LetterSet :=
  make owner (Factory.proposition p)

def ofLetters (owner : Nat) (letters : List BitSet) : WorkM LetterSet :=
  make owner (Factory.ofLetters letters)

def copy (s : LetterSet) : WorkM LetterSet :=
  make s.owner (Factory.holding (pure s.root))

def release (s : LetterSet) : WorkM Unit :=
  inFactory s.owner (Factory.release s.root)

def releaseAll (sets : List LetterSet) : WorkM Unit :=
  sets.forM release

def isEmpty (s : LetterSet) : Bool :=
  s.root = Ref.zero

def isAll (s : LetterSet) : Bool :=
  s.root = Ref.one

/-- Whether `letter` belongs to the set of a root: variable `p + 1` is proposition `p`. -/
def holdsIn (m : Manager) (root : Ref) (letter : BitSet) : Except Fault Bool :=
  m.evaluate root fun v => letter.contains (v.toNat - 1)

def contains (s : LetterSet) (letter : BitSet) : WorkM Bool :=
  askFactory s.owner fun f => holdsIn f.manager s.root letter

def alphabetSize (s : LetterSet) : WorkM Nat :=
  askFactory s.owner fun f => .ok f.alphabetSize

def size (s : LetterSet) : WorkM Nat :=
  askFactory s.owner fun f => f.manager.count s.root f.alphabetSize

/-- The first `n` letters of the set, in counting order over the alphabet. -/
def letters (s : LetterSet) (n : Nat) : WorkM (List BitSet) :=
  askFactory s.owner fun f =>
    .ok ((Subsets.of (BitSet.full f.alphabetSize)).takeMatching
      (fun letter => holdsIn f.manager s.root letter matches .ok true) (1 <<< f.alphabetSize) n)

/-! ## Comparing -/

/-- Sets of different factories are not combined. -/
def checkOwner (s t : LetterSet) : WorkM Unit :=
  if s.owner = t.owner then return () else throw .foreignFactory

/-- Ask the manager about the roots of two sets of one factory, at a safe point. -/
def compare (s t : LetterSet) (x : ManagerM Bool) : WorkM Bool := do
  checkOwner s t
  inFactory s.owner do
    Factory.safePoint
    Factory.onManager x

def intersects (s t : LetterSet) : WorkM Bool := do
  return !(← compare s t (Manager.disjoint s.root t.root))

/-- Whether every letter of `t` belongs to `s`. -/
def containsAll (s t : LetterSet) : WorkM Bool :=
  compare s t (Manager.implies t.root s.root)

/-- Let the set go on with the root that the factory makes. -/
def update (s : LetterSet) (root : FactoryM Ref) : WorkM LetterSet :=
  inFactory s.owner do
    let new ← root
    Factory.replace s.root new
    return ⟨s.owner, new⟩

/-- Let the set go on with a combination of its root and that of a set of the same factory. -/
def merge (s t : LetterSet) (x : ManagerM Ref) : WorkM LetterSet := do
  checkOwner s t
  s.update do
    Factory.safePoint
    Factory.onManager x

def add (s : LetterSet) (letter : BitSet) : WorkM LetterSet :=
  s.update (Factory.withLetter s.root letter)

def addAll (s t : LetterSet) : WorkM LetterSet :=
  s.merge t (Manager.disj s.root t.root)

def removeAll (s t : LetterSet) : WorkM LetterSet :=
  s.merge t (Manager.diff s.root t.root)

def retainAll (s t : LetterSet) : WorkM LetterSet :=
  s.merge t (Manager.conj s.root t.root)

/-- Add the letters of `t` and give `t` back, also when adding fails. -/
def absorb (s t : LetterSet) : WorkM LetterSet :=
  try s.addAll t finally t.release

/-! ## New sets from old -/

def complement (s : LetterSet) : WorkM LetterSet :=
  make s.owner (Factory.holding (pure (-s.root)))

/-- A copy of `s` to which `change` is then done. -/
def changed (s : LetterSet) (change : LetterSet → WorkM LetterSet) : WorkM LetterSet := do
  let result ← s.copy
  onFault (change result) result.release

def intersection (s t : LetterSet) : WorkM LetterSet :=
  s.changed (·.retainAll t)

def difference (s t : LetterSet) : WorkM LetterSet :=
  s.changed (·.removeAll t)

def union (s t : LetterSet) : WorkM LetterSet :=
  s.changed (·.addAll t)

end LetterSet

end SymbolicOmega
