import SymbolicOmega.Automaton.Basic
import SymbolicOmega.Text.Literal

/-!
# Automata at a glance
-/

namespace SymbolicOmega

def Initial.describe {S : Type} [ToString S] : Initial S → String
  | pending _ => "pending"
  | resolved none => "None"
  | resolved (some state) => s!"Some({state})"

/-- The initial state, the number of explored states and the factory of an automaton. -/
def Automaton.inspect {S : Type} [ToString S] (a : Automaton S) : WorkM String :=
  Workspace.askFactory a.owner fun factory =>
    .ok ("Automaton \x7b initial: " ++ Text.literal a.initial.describe ++ ", size: "
      ++ toString a.size ++ ", factory: " ++ toString factory ++ " \x7d")

end SymbolicOmega
