import SymbolicOmega.Diagram.ComputedTable
import SymbolicOmega.Diagram.Node
import SymbolicOmega.Diagram.Sizing
import SymbolicOmega.Diagram.UniqueTable

/-!
# The diagram manager

All nodes live in one unique table, so a function over ordered variables has one
reference.  Negation sits on references; to keep that unique, the high child of a
stored node is never negated.  A node whose children agree is never stored.
-/

namespace SymbolicOmega

/-- Three references `(f, g, h)`, read as "if `f` then `g` else `h`". -/
structure Triple where
  f : Ref
  g : Ref
  h : Ref
deriving DecidableEq, Repr

instance : Hashable Triple where
  hash t := Pairing.shell3 t.f.word t.g.word t.h.word

/-- The nodes, the results computed over them, and when to collect. -/
structure Manager where
  nodes : UniqueTable Node
  computed : ComputedTable Triple Ref
  sizing : Sizing
  /-- A collection is due when more nodes than this are stored. -/
  threshold : Nat
deriving Inhabited

/-- Operations on a manager; what they changed before a failure stays changed. -/
abbrev ManagerM := EStateM Fault Manager

namespace Manager

def ofSizing (sizing : Sizing) : Except Fault Manager := do
  let nodes ← UniqueTable.ofBits sizing.storageBits
  match UniqueTable.alloc nodes with
  | .error fault _ => throw fault
  | .ok _ nodes =>
      let computed ← ComputedTable.ofBits sizing.computedBits
      return ⟨nodes, computed, sizing, sizing.collectAbove⟩

def size (m : Manager) : Nat :=
  m.nodes.occupied

def needsCollection (m : Manager) : Bool :=
  m.threshold < m.size

def node (m : Manager) (index : Nat) : Except Fault Node :=
  m.nodes.value index

/-- The variable that a reference decides first, 0 for a constant. -/
def topVar (m : Manager) (r : Ref) : Except Fault UInt32 :=
  match m.node r.index with
  | .ok node => .ok node.var
  | .error fault => .error fault

def children (m : Manager) (r : Ref) : Except Fault (Ref × Ref) :=
  match m.node r.index with
  | .ok node => .ok (node.low.negateIf r.negated, node.high.negateIf r.negated)
  | .error fault => .error fault

/-- The two functions that `r` becomes on either value of variable `v`, for a
variable not below the top of `r`. -/
def cofactors (m : Manager) (r : Ref) (v : UInt32) : Except Fault (Ref × Ref) :=
  if v = 0 then .error .zeroVariable
  else if r.isTerminal then .ok (r, r)
  else
    match m.node r.index with
    | .error fault => .error fault
    | .ok node =>
        if v < node.var then .ok (r, r)
        else if v = node.var then
          .ok (node.low.negateIf r.negated, node.high.negateIf r.negated)
        else .error .cofactorBelowTop

instance : ToString Manager where
  toString m :=
    "Bdd \x7b capacity: " ++ toString m.nodes.capacity ++ ", size: " ++ toString m.nodes.lastIndex
      ++ ", real_size: " ++ toString m.nodes.occupied ++ " \x7d"

/-! ## Making nodes -/

@[inline]
def ask {β : Type} (question : Manager → Except Fault β) : ManagerM β := fun m =>
  match question m with
  | .ok answer => .ok answer m
  | .error fault => .error fault m

@[inline]
def onNodes {β : Type} (x : TableM Node β) : ManagerM β :=
  fun ⟨nodes, computed, sizing, threshold⟩ =>
    match x nodes with
    | .ok b nodes => .ok b ⟨nodes, computed, sizing, threshold⟩
    | .error fault nodes => .error fault ⟨nodes, computed, sizing, threshold⟩

@[inline]
def onComputed {β : Type} (x : ComputedTable Triple Ref → β × ComputedTable Triple Ref) :
    ManagerM β :=
  fun ⟨nodes, computed, sizing, threshold⟩ =>
    match x computed with
    | (b, computed) => .ok b ⟨nodes, computed, sizing, threshold⟩

/-- The reference of a node that is stored as given, unless its children agree. -/
def storeNode (v : UInt32) (low high : Ref) : ManagerM Ref :=
  if low = high then return low
  else do
    let index ← onNodes (UniqueTable.put ⟨v, low, high⟩)
    match Ref.ofIndex? index false with
    | some r => return r
    | none => throw .nodeIndexTooLarge

/-- The function `v ? high : low`.  A negated high child is kept out of the table
by storing the negated node instead. -/
def mkNode (v : UInt32) (low high : Ref) : ManagerM Ref :=
  if v = 0 then throw .zeroVariable
  else if high.negated then return -(← storeNode v (-low) (-high))
  else storeNode v low high

def mkVar (v : UInt32) : ManagerM Ref :=
  mkNode v Ref.zero Ref.one

/-- A variable that has to hold, or must not, as a signed number: `3` stands for variable 3,
`-3` for its negation. -/
structure Literal where
  number : Int32
deriving DecidableEq, Repr

namespace Literal

def ofSigned (n : Int) : Literal :=
  ⟨Int32.ofInt n⟩

def var (literal : Literal) : UInt32 :=
  literal.number.abs.toUInt32

def positive (literal : Literal) : Bool :=
  0 < literal.number

end Literal

def conjoinLiteral (literal : Literal) (rest : Ref) : ManagerM Ref :=
  if literal.positive then mkNode literal.var Ref.zero rest
  else mkNode literal.var rest Ref.zero

/-- Whether sorting the literals takes the absolute value of the least number, which has none.
Less than two literals are not sorted. -/
def Overflows (literals : List Literal) : Prop :=
  2 ≤ literals.length ∧ ⟨Int32.minValue⟩ ∈ literals

instance (literals : List Literal) : Decidable (Overflows literals) :=
  inferInstanceAs (Decidable (_ ∧ _))

def mkCube (literals : List Literal) : ManagerM Ref :=
  if Overflows literals then throw .arithmeticOverflow
  else (literals.mergeSort fun a b => a.number.abs ≤ b.number.abs).foldrM conjoinLiteral Ref.one

end Manager

end SymbolicOmega
