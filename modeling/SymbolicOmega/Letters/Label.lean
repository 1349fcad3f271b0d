import SymbolicOmega.Formula.Atom
import SymbolicOmega.Formula.Printer
import SymbolicOmega.Letters.LetterSet

/-!
# Label formulas

A letter set is shown as the formula that its diagram spells out: decide the top
proposition, show the half where it holds, then the other half.  The formula depends
on the letters alone, since a diagram does.
-/

namespace SymbolicOmega

namespace Manager

/-- The formula of a reference, `shown p` being the atom of proposition `p`, in at
most `bound` nested decisions. -/
def formulaWithin (m : Manager) (shown : Nat → LabelAtom) :
    (bound : Nat) → Ref → Except Fault (Formula LabelAtom)
  | 0, _ => .error .boundReached
  | bound + 1, r =>
      if r = Ref.one then .ok .top
      else if r = Ref.zero then .ok .bot
      else do
        let node ← m.node r.index
        let high := node.high.negateIf r.negated
        let low := node.low.negateIf r.negated
        let decided := Formula.atom (shown (node.var.toNat - 1))
        if high = Ref.one ∧ low = Ref.zero then return decided
        else if high = Ref.zero ∧ low = Ref.one then return decided.neg
        else
          let ifHolds ← m.formulaWithin shown bound high
          let otherwise ← m.formulaWithin shown bound low
          return (decided.conj ifHolds).disj (decided.neg.conj otherwise)

def formula (m : Manager) (shown : Nat → LabelAtom) (r : Ref) :
    Except Fault (Formula LabelAtom) :=
  m.formulaWithin shown pathBound r

end Manager

namespace LetterSet

open Workspace

def formulaWith (s : LetterSet) (shown : Nat → LabelAtom) : WorkM (Formula LabelAtom) :=
  askFactory s.owner fun f => f.manager.formula shown s.root

def formula (s : LetterSet) : WorkM (Formula LabelAtom) :=
  s.formulaWith .proposition

def describe (s : LetterSet) : WorkM String :=
  return toString (← s.formula)

/-- The text of the set that names it as one. -/
def inspect (s : LetterSet) : WorkM String :=
  return "ValuationSet(" ++ (← s.describe) ++ ")"

end LetterSet

end SymbolicOmega
