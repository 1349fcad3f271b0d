import SymbolicOmega.Acceptance.Basic
import SymbolicOmega.Automaton.StateSpace

/-!
# Automata on the fly

An automaton computes the row of a state when it is first asked for and keeps it.
States with a kept row are explored.  The initial state, too, may be built only on
demand.
-/

namespace SymbolicOmega

inductive Initial (S : Type) where
  /-- Not built yet; `state` is what building it gives. -/
  | pending (state : Option S)
  | resolved (state : Option S)

def Initial.state? {S : Type} : Initial S → Option S
  | pending _ => none
  | resolved state => state

structure Automaton (S : Type) where
  owner : Nat
  space : StateSpace S
  initial : Initial S
  /-- How often the initial state was built. -/
  builds : Nat
  /-- The explored states with their rows, in order of exploration. -/
  rows : List (S × Row S)
  acceptance : Acceptance S

/-- An automaton and the workspace it lives in. -/
structure Scene (S : Type) where
  automaton : Automaton S
  workspace : Workspace

/-- Operations on an automaton; what they changed before a failure stays changed. -/
abbrev AutomatonM (S : Type) := EStateM Fault (Scene S)

namespace Automaton

open Workspace

variable {S : Type}

def create (owner : Nat) (space : StateSpace S) (acceptance : Acceptance S)
    (initial : Initial S) : Automaton S :=
  ⟨owner, space, initial, 0, [], acceptance⟩

def size (a : Automaton S) : Nat :=
  a.rows.length

def states (a : Automaton S) : List S :=
  a.rows.map Prod.fst

section
variable [DecidableEq S]

def row? (a : Automaton S) (state : S) : Option (Row S) :=
  a.rows.lookup state

def isExplored (a : Automaton S) (state : S) : Bool :=
  (a.row? state).isSome

end

/-! ## Operations -/

def inWorkspace {β : Type} (x : WorkM β) : AutomatonM S β := fun ⟨automaton, workspace⟩ =>
  match x workspace with
  | .ok b workspace => .ok b ⟨automaton, workspace⟩
  | .error fault workspace => .error fault ⟨automaton, workspace⟩

def current : AutomatonM S (Automaton S) := fun scene =>
  .ok scene.automaton scene

def change (f : Automaton S → Automaton S) : AutomatonM S Unit := fun ⟨automaton, workspace⟩ =>
  .ok () ⟨f automaton, workspace⟩

/-- The initial state, built if that was not done before. -/
def initialState : AutomatonM S (Option S) := fun ⟨automaton, workspace⟩ =>
  match automaton.initial with
  | .resolved state => .ok state ⟨automaton, workspace⟩
  | .pending state =>
      .ok state
        ⟨{ automaton with initial := .resolved state, builds := automaton.builds + 1 }, workspace⟩

/-- Give every label back and let go of the acceptance condition. -/
def discard (a : Automaton S) : WorkM Unit := do
  a.rows.forM fun entry => entry.2.release
  a.acceptance.letGo

def labelCount (a : Automaton S) : Nat :=
  (a.rows.flatMap Prod.snd).length

end Automaton

end SymbolicOmega
