import SymbolicOmega.Automaton.Basic
import SymbolicOmega.Hoa.Alias

/-!
# HOA documents

What is written about an automaton: a header, and for each explored state its edges,
each with a label formula, the number of the state it leads to and its marks.  States
are numbered by first mention, the initial state first.  An automaton without a built
initial state, or without explored states, has no body.
-/

namespace SymbolicOmega

namespace Hoa

/-- What the caller chooses about a document. -/
structure Style where
  tool : String
  version : Option String
  /-- Name of the automaton; if not given, it is named for its initial state. -/
  name : Option String
  aliases : Option Aliases

instance : Inhabited Style := ⟨⟨"omega-automata", some "0.1.0", none, none⟩⟩

/-- One line of the body, or a remark made while writing it. -/
inductive Item where
  | edge (label : Formula LabelAtom) (target : Nat) (marks : BitSet)
  /-- An edge leads to a state that is not explored. -/
  | unexplored (state target : String)

/-- A state of the body with its number. -/
structure StateBlock where
  number : Nat
  name : String
  items : List Item

structure Body where
  start : Nat
  blocks : List StateBlock

structure Document where
  tool : String
  version : Option String
  name : String
  stateCount : Nat
  acceptanceName : String
  acceptanceParameters : List Nat
  acceptanceSets : Nat
  acceptanceFormula : Formula AcceptanceAtom
  propositions : List String
  aliases : List (String × Nat)
  annotations : List (String × List String)
  body : Option Body

namespace Document

open Workspace

variable {S : Type} [DecidableEq S] [ToString S]

/-- The number of a state and the states numbered by then. -/
def numberOf (numbered : List S) (state : S) : Nat × List S :=
  match numbered.idxOf? state with
  | some number => (number, numbered)
  | none => (numbered.length, numbered ++ [state])

/-- The items for the pieces of one edge.  Pieces without letters are skipped. -/
def pieceItems (shown : Nat → LabelAtom) (target : S) :
    (numbered : List S) → List (LetterSet × BitSet) → WorkM (List Item × List S)
  | numbered, [] => return ([], numbered)
  | numbered, (piece, marks) :: rest =>
      if piece.isEmpty then pieceItems shown target numbered rest
      else do
        let (number, numbered) := numberOf numbered target
        let label ← piece.formulaWith shown
        let (items, numbered) ← pieceItems shown target numbered rest
        return (.edge label number marks :: items, numbered)

def rowItems (a : Automaton S) (shown : Nat → LabelAtom) (state : S) :
    (numbered : List S) → Row S → WorkM (List Item × List S)
  | numbered, [] => return ([], numbered)
  | numbered, (edge, label) :: rest => do
      let remarks :=
        if a.isExplored edge.successor then []
        else [Item.unexplored (toString state) (toString edge.successor)]
      let pieces ← a.acceptance.split state edge label
      let (items, numbered) ←
        try pieceItems shown edge.successor numbered pieces
        finally LetterSet.releaseAll (pieces.map Prod.fst)
      let (later, numbered) ← rowItems a shown state numbered rest
      return (remarks ++ items ++ later, numbered)

def blocks (a : Automaton S) (shown : Nat → LabelAtom) :
    (numbered : List S) → List (S × Row S) → WorkM (List StateBlock)
  | _, [] => return []
  | numbered, (state, row) :: rest => do
      let (number, numbered) := numberOf numbered state
      let (items, numbered) ← rowItems a shown state numbered row
      return ⟨number, toString state, items⟩ :: (← blocks a shown numbered rest)

def atom (aliases : Option Aliases) (p : Nat) : LabelAtom :=
  match aliases with
  | some aliases => aliases.atom p
  | none => .proposition p

/-- The name under which a proposition is declared. -/
def propositionName (aliases : Option Aliases) (p : Nat) : String :=
  ((aliases.bind (·.name? p)).getD (toString p))

def defaultName (initial : Option S) : String :=
  match initial with
  | some initial => s!"Automaton for {initial}"
  | none => "false"

/-- The header over a condition, which is that of the automaton only if there is a body. -/
def header (style : Style) (a : Automaton S) (alphabetSize : Nat) (condition : Acceptance S)
    (body : Option Body) : Document where
  tool := style.tool
  version := style.version
  name := style.name.getD (defaultName a.initial.state?)
  stateCount := a.size
  acceptanceName := condition.name
  acceptanceParameters := condition.parameters
  acceptanceSets := condition.setCount
  acceptanceFormula := condition.formula
  propositions := (List.range alphabetSize).map (propositionName style.aliases)
  aliases := (style.aliases.map (·.bindings)).getD []
  annotations := a.acceptance.annotations
  body := body

/-- The document of an automaton.  The acceptance sets are numbered anew for it. -/
def ofAutomaton (style : Style) : AutomatonM S Document := do
  let a ← Automaton.current
  let alphabetSize ← Automaton.inWorkspace
    (askFactory a.owner fun f => .ok f.alphabetSize)
  match if a.rows.isEmpty then none else a.initial.state? with
  | none => return header style a alphabetSize ⟨.marks .none, []⟩ none
  | some initial =>
      let acceptance ← Automaton.inWorkspace a.acceptance.renumber
      Automaton.change fun a => { a with acceptance }
      let a := { a with acceptance }
      let (start, numbered) := numberOf [] initial
      let blocks ← Automaton.inWorkspace (blocks a (atom style.aliases) numbered a.rows)
      return header style a alphabetSize acceptance (some ⟨start, blocks⟩)

end Document

end Hoa

end SymbolicOmega
