import SymbolicOmega.Formula.Basic

/-!
# Text of formulas

`!` binds tighter than `&`, and `&` tighter than `|`.  An operand is put in
parentheses exactly when its own operator binds looser than the one it stands under.
The text is made piece by piece, for a reader that takes names whole.
-/

namespace SymbolicOmega

namespace Formula

variable {α : Type}

/-- How tightly the outermost operator binds. -/
def precedence : Formula α → Nat
  | or _ _ => 1
  | and _ _ => 2
  | _ => 3

/-- The pieces of an operand, given how tightly the operator above it binds. -/
def enclose (parent : Nat) (operand : Formula α) (pieces : List String) : List String :=
  if operand.precedence < parent then "(" :: pieces ++ [")"] else pieces

/-- The text of a formula in pieces.  Each atom is a piece of its own, shown by `shown`. -/
def pieces (shown : α → String) : Formula α → List String
  | top => ["t"]
  | bot => ["f"]
  | atom a => [shown a]
  | not e => "!" :: enclose 3 e (e.pieces shown)
  | and lhs rhs =>
      enclose 2 lhs (lhs.pieces shown) ++ " & " :: enclose 2 rhs (rhs.pieces shown)
  | or lhs rhs =>
      enclose 1 lhs (lhs.pieces shown) ++ " | " :: enclose 1 rhs (rhs.pieces shown)

def render (shown : α → String) (e : Formula α) : String :=
  String.join (e.pieces shown)

instance [ToString α] : ToString (Formula α) where
  toString := render toString

end Formula

end SymbolicOmega
