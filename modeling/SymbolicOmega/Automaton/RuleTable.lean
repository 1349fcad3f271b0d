import SymbolicOmega.Automaton.StateSpace
import SymbolicOmega.Letters.Term

/-!
# Rule tables

A finite description of a state space.  Each state has guarded rules, of which the
first that fits a letter decides, and may have entries that are written into its
row directly, in place of the rules or after them.
-/

namespace SymbolicOmega

/-- A rule for the letters that contain all of `positive` and none of `negative`.
Without a target the letter has no edge. -/
structure Rule (S : Type) where
  positive : List Nat
  negative : List Nat
  edge : Option (Edge S)

def Rule.fits {S : Type} (rule : Rule S) (letter : BitSet) : Bool :=
  rule.positive.all letter.contains && rule.negative.all (!letter.contains ·)

/-- An edge with a term for its letters, in which no set has a name. -/
structure RowEntry (S : Type) where
  edge : Edge S
  label : SetTerm

structure StateRules (S : Type) where
  /-- The propositions that the rules look at; all of them if it is not said. -/
  sensitive : Option BitSet
  rules : List (Rule S)
  entries : Option (List (RowEntry S))
  /-- Entries merged into the row that the rules give. -/
  extra : List (RowEntry S)

namespace StateRules

open Workspace

variable {S : Type}

def blank : StateRules S := ⟨none, [], none, []⟩

def step (state : StateRules S) (letter : BitSet) : Option (Edge S) :=
  (state.rules.find? (·.fits letter)).bind (·.edge)

variable [DecidableEq S]

def mergeEntry (owner : Nat) (row : Row S) (entry : RowEntry S) : WorkM (Row S) :=
  onFault
    (do
      let label ← entry.label.make (fun _ => none) owner
      row.merge entry.edge label)
    row.release

def row (state : StateRules S) (owner : Nat) : WorkM (Row S) :=
  match state.entries with
  | some entries => entries.foldlM (mergeEntry owner) []
  | none => do
      let grouped ← StateSpace.groupLetters owner state.sensitive state.step
      state.extra.foldlM (mergeEntry owner) grouped

end StateRules

/-- The rules of each listed state.  A state that is not listed has no edges. -/
abbrev RuleTable (S : Type) := List (S × StateRules S)

def RuleTable.space {S : Type} [DecidableEq S] (table : RuleTable S) : StateSpace S where
  row owner state := ((table.lookup state).getD StateRules.blank).row owner

end SymbolicOmega
