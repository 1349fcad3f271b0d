import SymbolicOmega.BitSet.Basic
import SymbolicOmega.Diagram.Collection
import SymbolicOmega.Diagram.Count
import SymbolicOmega.Diagram.IfThenElse
import SymbolicOmega.Letters.Roots

/-!
# Factories of letter sets

A factory fixes an alphabet of `k` propositions and keeps every set over it in one
diagram manager; proposition `p` is variable `p + 1`.  It knows the roots of the
live sets, so it can collect whenever no operation is under way.
-/

namespace SymbolicOmega

structure Factory where
  manager : Manager
  alphabetSize : Nat
  roots : Roots
deriving Inhabited

/-- Operations of a factory on roots; what they changed before a failure stays changed. -/
abbrev FactoryM := EStateM Fault Factory

namespace Factory

def ofSizing (alphabetSize : Nat) (sizing : Sizing) : Except Fault Factory :=
  return ⟨← Manager.ofSizing sizing, alphabetSize, Roots.none⟩

def live (f : Factory) : Nat :=
  f.roots.live

instance : ToString Factory where
  toString f :=
    "ValuationSetFactory \x7b alphabet_size: " ++ toString f.alphabetSize ++ ", live_sets: "
      ++ toString f.live ++ ", bdd: " ++ toString f.manager ++ " \x7d"

@[inline]
def onManager {β : Type} (x : ManagerM β) : FactoryM β := fun ⟨manager, alphabetSize, roots⟩ =>
  match x manager with
  | .ok b manager => .ok b ⟨manager, alphabetSize, roots⟩
  | .error fault manager => .error fault ⟨manager, alphabetSize, roots⟩

def retain (root : Ref) : FactoryM Unit := fun ⟨manager, alphabetSize, roots⟩ =>
  .ok () ⟨manager, alphabetSize, roots.retain root⟩

def forget (root : Ref) : FactoryM Unit := fun ⟨manager, alphabetSize, roots⟩ =>
  if root ∈ roots.keys then .ok () ⟨manager, alphabetSize, roots.forget root⟩
  else .error (.rootNotHeld root) ⟨manager, alphabetSize, roots⟩

/-- Count the live sets anew. -/
def recount (change : Nat → Nat) : FactoryM Unit := fun ⟨manager, alphabetSize, roots⟩ =>
  .ok () ⟨manager, alphabetSize, { roots with live := change roots.live }⟩

/-- A new set holds `root`. -/
def acquire (root : Ref) : FactoryM Unit := do
  retain root
  recount (· + 1)

/-- A set that held `root` is gone. -/
def release (root : Ref) : FactoryM Unit := do
  forget root
  recount (· - 1)

/-- A set that held `old` now holds `new`. -/
def replace (old new : Ref) : FactoryM Unit :=
  if new = old then return ()
  else do
    retain new
    forget old

def holding (make : FactoryM Ref) : FactoryM Ref := do
  let root ← make
  acquire root
  return root

/-! ## Collection -/

/-- Drop every node that no live set needs.  Answers how many were dropped. -/
def collect : FactoryM Nat := fun ⟨manager, alphabetSize, roots⟩ =>
  match Manager.collect roots.keys manager with
  | .ok dropped manager => .ok dropped ⟨manager, alphabetSize, roots⟩
  | .error fault manager => .error fault ⟨manager, alphabetSize, roots⟩

def collectionDue : FactoryM Bool := fun f =>
  .ok f.manager.needsCollection f

/-- Collect if it is due.  No node outside the live sets is needed at this point. -/
def safePoint : FactoryM Unit := do
  if ← collectionDue then discard collect

/-! ## Making sets -/

/-- The literal that fixes proposition `p` to its value in `letter`.  It goes through a
signed number of 32 bits. -/
def literal (letter : BitSet) (p : Nat) : Manager.Literal :=
  let v := Int32.ofNat (p + 1)
  ⟨if letter.contains p then v else -v⟩

/-- Whether the literal of proposition `p` would negate the least signed number. -/
def overflows (letter : BitSet) (p : Nat) : Bool :=
  !letter.contains p && Int32.ofNat (p + 1) == Int32.minValue

/-- The letters that agree with `letter` on those of the propositions that the alphabet has. -/
def cube (letter : BitSet) (propositions : List Nat) : FactoryM Ref := do
  let size ← modifyGet fun f => (f.alphabetSize, f)
  let fixed := propositions.filter (· < size)
  if fixed.any (overflows letter) then throw .arithmeticOverflow
  onManager (Manager.mkCube (fixed.map (literal letter)))

/-- The letters that agree with `letter` on the whole alphabet. -/
def fullCube (letter : BitSet) : FactoryM Ref := do
  let size ← modifyGet fun f => (f.alphabetSize, f)
  cube letter (List.range size)

def singleton (letter : BitSet) : FactoryM Ref := holding do
  safePoint
  fullCube letter

/-- The letters that agree with `letter` on `alphabet`. -/
def restricted (letter alphabet : BitSet) : FactoryM Ref := holding do
  safePoint
  cube letter alphabet.toList

def proposition (p : Nat) : FactoryM Ref := holding do
  let size ← modifyGet fun f => (f.alphabetSize, f)
  if size ≤ p then throw (.propositionOutside p size)
  safePoint
  onManager (Manager.mkVar (p + 1).toUInt32)

def ofLetters (letters : List BitSet) : FactoryM Ref := holding do
  safePoint
  let cubes ← letters.mapM fullCube
  onManager (Manager.disjAll cubes)

def withLetter (root : Ref) (letter : BitSet) : FactoryM Ref := do
  safePoint
  let cube ← fullCube letter
  onManager (Manager.disj root cube)

end Factory

end SymbolicOmega
