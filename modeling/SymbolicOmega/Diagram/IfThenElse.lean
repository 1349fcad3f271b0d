import SymbolicOmega.Diagram.Manager

/-!
# If-then-else

Every connective is one operation on three references.  A triple is first brought
to a standard form by rules that look at its references alone and then at the top
variables, so that triples with the same answer share one entry of the computed
table.  What is left is split at the top variable, the low half first.
-/

namespace SymbolicOmega

namespace Triple

def constant? (t : Triple) : Option Ref :=
  if t.f = Ref.one then some t.g
  else if t.f = Ref.zero then some t.h
  else if t.g = t.h then some t.g
  else if t.g = Ref.one ∧ t.h = Ref.zero then some t.f
  else if t.g = Ref.zero ∧ t.h = Ref.one then some (-t.f)
  else if t.g = Ref.one ∧ t.h = -t.f then some Ref.one
  else if t.g = t.f ∧ t.h = Ref.one then some Ref.one
  else if t.g = -t.f ∧ t.h = Ref.zero then some Ref.zero
  else if t.g = Ref.zero ∧ t.h = t.f then some Ref.zero
  else none

/-- A branch that repeats the condition is replaced by the constant it has there. -/
def simplify? (t : Triple) : Option Triple :=
  if t.g = t.f then some { t with g := Ref.one }
  else if t.h = t.f then some { t with h := Ref.zero }
  else if t.g = -t.f then some { t with g := Ref.zero }
  else if t.h = -t.f then some { t with h := Ref.one }
  else none

/-- With a constant branch the condition and the other branch can change places.
The one with the smaller top variable goes first; `i`, `j`, `k` are the top
variables of the three, 0 for a constant. -/
def exchange? (t : Triple) (i j k : UInt32) : Option Triple :=
  if t.g = Ref.one ∧ k ≠ 0 ∧ k < i then some ⟨t.h, Ref.one, t.f⟩
  else if t.h = Ref.zero ∧ j ≠ 0 ∧ j < i then some ⟨t.g, t.f, Ref.zero⟩
  else if t.h = Ref.one ∧ j ≠ 0 ∧ j < i then some ⟨-t.g, -t.f, Ref.one⟩
  else if t.g = Ref.zero ∧ k ≠ 0 ∧ k < i then some ⟨-t.h, Ref.zero, -t.f⟩
  else none

def positiveCondition (t : Triple) : Triple :=
  if t.f.negated then ⟨-t.f, t.h, t.g⟩ else t

/-- The triple with a positive condition and a positive first branch, and whether
its answer has to be negated to make up for that. -/
def regular (t : Triple) : Triple × Bool :=
  let t := t.positiveCondition
  if t.g.negated then (⟨t.f, -t.g, -t.h⟩, true) else (t, false)

end Triple

namespace Manager

/-- The smallest of three top variables, of which only the first is sure to be one. -/
def topmost (i j k : UInt32) : UInt32 :=
  let m := if j ≠ 0 then min i j else i
  if k ≠ 0 then min m k else m

/-- Split a triple at a variable not below any of its tops.  The halves are answered by
`answer`, the low one first, and the result is remembered. -/
@[inline]
def splitAt (answer : Triple → ManagerM Ref) (key : Triple) (v : UInt32) : ManagerM Ref := do
  let (f₀, f₁) ← ask (·.cofactors key.f v)
  let (g₀, g₁) ← ask (·.cofactors key.g v)
  let (h₀, h₁) ← ask (·.cofactors key.h v)
  let low ← answer ⟨f₀, g₀, h₀⟩
  let high ← answer ⟨f₁, g₁, h₁⟩
  let r ← mkNode v low high
  onComputed fun computed => ((), computed.insert key r)
  return r

def iteWithin : (bound : Nat) → Triple → ManagerM Ref
  | 0, _ => throw .boundReached
  | bound + 1, t =>
      match t.constant? with
      | some r => return r
      | none =>
      match t.simplify? with
      | some t => iteWithin bound t
      | none => do
        let i ← ask (·.topVar t.f)
        let j ← ask (·.topVar t.g)
        let k ← ask (·.topVar t.h)
        if i = 0 then throw .undecidedNode
        match t.exchange? i j k with
        | some t => iteWithin bound t
        | none =>
          let (key, negate) := t.regular
          match ← onComputed (ComputedTable.lookup key) with
          | some r => return r.negateIf negate
          | none => return (← splitAt (iteWithin bound) key (topmost i j k)).negateIf negate

/-- Nested steps that suffice: the top variable grows with every split, and before
a split at most two steps bring the triple to its standard form. -/
def stepBound : Nat := 4 * UInt32.size

/-- The function that is `g` where `f` holds and `h` elsewhere. -/
def ite (f g h : Ref) : ManagerM Ref :=
  iteWithin stepBound ⟨f, g, h⟩

def conj (u v : Ref) : ManagerM Ref :=
  ite u v Ref.zero

def disj (u v : Ref) : ManagerM Ref :=
  ite u Ref.one v

def diff (u v : Ref) : ManagerM Ref :=
  ite v Ref.zero u

def disjAll (rs : List Ref) : ManagerM Ref :=
  rs.foldlM disj Ref.zero

def implies (f g : Ref) : ManagerM Bool :=
  return (← diff f g) = Ref.zero

def disjoint (f g : Ref) : ManagerM Bool :=
  return (← conj f g) = Ref.zero

end Manager

end SymbolicOmega
