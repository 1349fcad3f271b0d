import SymbolicOmega.Automaton.Basic

/-!
# Exploring

Rows are computed on first access and kept.  The walks below visit states breadth
first; a state space may be infinite, so each walk is given a bound on the states it
takes from its queue.
-/

namespace SymbolicOmega

namespace Automaton

variable {S : Type} [DecidableEq S]

/-- The row of a state, computed and kept on first access. -/
def explore (state : S) : AutomatonM S (Row S) := do
  let a ← current
  match a.row? state with
  | some row => return row
  | none =>
      let row ← inWorkspace (a.space.row a.owner state)
      change fun a => { a with rows := a.rows ++ [(state, row)] }
      return row

def hasSuccessors (state : S) : AutomatonM S Bool :=
  return !(← explore state).isEmpty

def successor (state : S) (letter : BitSet) : AutomatonM S (Option (Edge S)) := do
  let row ← explore state
  inWorkspace (row.edgeOn? letter)

def successorsOn (state : S) (letter : BitSet) : AutomatonM S (List S) := do
  let row ← explore state
  inWorkspace (row.targetsOn letter)

/-- Explore the states of a queue and whatever unexplored states their rows lead to. -/
def exploreQueue : (bound : Nat) → (queue : List S) → AutomatonM S Unit
  | _, [] => return ()
  | 0, _ :: _ => throw .boundReached
  | bound + 1, state :: queue => do
      if (← current).isExplored state then exploreQueue bound queue
      else
        let row ← explore state
        let a ← current
        exploreQueue bound (queue ++ row.targets.filter (!a.isExplored ·))

/-- Explore everything that can be reached from `seed`.  Nothing is done for a seed
that is explored already. -/
def generateFrom (bound : Nat) (seed : Option S) : AutomatonM S Unit :=
  match seed with
  | none => return ()
  | some seed => do
      if (← current).isExplored seed then return ()
      exploreQueue bound [seed]

def generate (bound : Nat) : AutomatonM S Unit := do
  generateFrom bound (← initialState)

/-- The states of `targets` that are not in `reached`, each once. -/
def newStates (reached targets : List S) : List S :=
  targets.eraseDups.filter (!reached.contains ·)

/-- Close `reached` under successors; the queue holds those whose rows were not looked at. -/
def closeQueue : (bound : Nat) → (reached queue : List S) → AutomatonM S (List S)
  | _, reached, [] => return reached
  | 0, _, _ :: _ => throw .boundReached
  | bound + 1, reached, state :: queue => do
      let row ← explore state
      let found := newStates reached row.targets
      closeQueue bound (reached ++ found) (queue ++ found)

/-- The states that can be reached from `seeds`, exploring them all. -/
def reachable (bound : Nat) (seeds : List S) : AutomatonM S (List S) :=
  closeQueue bound seeds.eraseDups seeds.eraseDups

end Automaton

end SymbolicOmega
