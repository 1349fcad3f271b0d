import SymbolicOmega.Acceptance.Split
import SymbolicOmega.Automaton.Edge

/-!
# Acceptance conditions

A condition either reads the marks that edges carry, or is a generalized Rabin
condition over sets of transitions.  For output it has a name with parameters, a
number of acceptance sets, a formula over them, and a way to cut an edge into
marked pieces.
-/

namespace SymbolicOmega

/-- A condition on the marks that edges carry. -/
structure MarkCondition where
  name : String
  parameters : List Nat
  setCount : Nat
  formula : Formula AcceptanceAtom

namespace MarkCondition

/-- Every run is accepting. -/
def all : MarkCondition := ⟨"all", [], 0, .top⟩

/-- No run is accepting. -/
def none : MarkCondition := ⟨"none", [], 0, .bot⟩

/-- A run is accepting if it takes edges with mark 0 infinitely often. -/
def buchi : MarkCondition := ⟨"Buchi", [], 1, .atom (.inf 0)⟩

end MarkCondition

inductive Condition (S : Type) where
  | marks (condition : MarkCondition)
  | rabin (condition : Rabin S)

/-- A condition, with further facts about it that output has no other place for. -/
structure Acceptance (S : Type) where
  condition : Condition S
  annotations : List (String × List String)

namespace Acceptance

variable {S : Type}

def name (a : Acceptance S) : String :=
  match a.condition with
  | .marks c => c.name
  | .rabin _ => "generalized-Rabin"

def parameters (a : Acceptance S) : List Nat :=
  match a.condition with
  | .marks c => c.parameters
  | .rabin r => r.parameters

def setCount (a : Acceptance S) : Nat :=
  match a.condition with
  | .marks c => c.setCount
  | .rabin r => r.setCount

def formula (a : Acceptance S) : Formula AcceptanceAtom :=
  match a.condition with
  | .marks c => c.formula
  | .rabin r => r.formula

/-- Number the sets anew, so that marks of pieces agree with the formula. -/
def renumber (a : Acceptance S) : WorkM (Acceptance S) :=
  match a.condition with
  | .marks _ => return a
  | .rabin r => return { a with condition := .rabin (← r.renumber) }

/-- The pieces of `label` to write for an edge that leaves `state`, with their marks. -/
def split [DecidableEq S] (a : Acceptance S) (state : S) (edge : Edge S) (label : LetterSet) :
    WorkM (List (LetterSet × BitSet)) :=
  match a.condition with
  | .marks _ => return [(← label.copy, edge.marks)]
  | .rabin r => r.split state label

def letGo (a : Acceptance S) : WorkM Unit :=
  match a.condition with
  | .marks _ => return ()
  | .rabin r => r.letGo

end Acceptance

end SymbolicOmega
