/-!
# Atoms of labels and of acceptance conditions
-/

namespace SymbolicOmega

/-- An atom of an edge label: a proposition by index, or by the name of an alias. -/
inductive LabelAtom where
  | proposition (index : Nat)
  | alias (name : String)
deriving DecidableEq, Repr

instance : ToString LabelAtom where
  toString
    | .proposition index => toString index
    | .alias name => "@" ++ name

/-- An atom of an acceptance condition: a set of transitions is taken finitely or
infinitely often. -/
inductive AcceptanceAtom where
  | fin (set : Nat)
  | inf (set : Nat)
deriving DecidableEq, Repr

def AcceptanceAtom.set : AcceptanceAtom → Nat
  | .fin i => i
  | .inf i => i

instance : ToString AcceptanceAtom where
  toString
    | .fin i => s!"Fin({i})"
    | .inf i => s!"Inf({i})"

end SymbolicOmega
