import SymbolicOmega.Letters.Label

/-!
# Sets of transitions

A set of transitions says for some states which letters it covers.  It has a ticket:
two sets with the same transitions are still two sets, and acceptance conditions
tell them apart by ticket.  Several holders may share a set; its labels are given
back when the last of them lets go.
-/

namespace SymbolicOmega

structure TransitionSet (S : Type) where
  ticket : Nat
  /-- Position of the factory that new labels are made in. -/
  owner : Nat
  /-- The covered letters of each state, in the order the states were added. -/
  labels : List (S × LetterSet)

namespace TransitionSet

open Workspace

variable {S : Type}

/-! ## Holders -/

/-- An empty set with one holder. -/
def create (owner : Nat) : WorkM (TransitionSet S) := do
  let ticket ← freshTicket
  hold ticket
  return ⟨ticket, owner, []⟩

def share (set : TransitionSet S) : WorkM Unit :=
  hold set.ticket

/-- One holder less; the last one gives the labels back. -/
def letGo (set : TransitionSet S) : WorkM Unit := do
  let left ← Workspace.letGo set.ticket
  if left = 0 then LetterSet.releaseAll (set.labels.map Prod.snd)

def copy (set : TransitionSet S) : WorkM (TransitionSet S) := do
  let labels ← set.labels.mapM fun (state, label) => return (state, ← label.copy)
  let ticket ← freshTicket
  hold ticket
  return ⟨ticket, set.owner, labels⟩

/-- The set itself if it has one holder, else a copy for the holder that lets go of it. -/
def unshared (set : TransitionSet S) : WorkM (TransitionSet S) := do
  if (← holderCount set.ticket) ≤ 1 then return set
  let own ← set.copy
  set.letGo
  return own

section
variable [DecidableEq S]

/-- The letters covered at a state, if any were added. -/
def label? (set : TransitionSet S) (state : S) : Option LetterSet :=
  set.labels.lookup state

def states (set : TransitionSet S) : List S :=
  set.labels.map Prod.fst

def isEmpty (set : TransitionSet S) : Bool :=
  set.labels.all (·.2.isEmpty)

def contains (set : TransitionSet S) (state : S) (letter : BitSet) : WorkM Bool :=
  match set.label? state with
  | some label => label.contains letter
  | none => return false

/-- Whether the transitions of `state` on all letters of `label` are in the set. -/
def containsAllAt (set : TransitionSet S) (state : S) (label : LetterSet) : WorkM Bool :=
  match set.label? state with
  | some own => own.containsAll label
  | none => return label.isEmpty

def containsAll (set other : TransitionSet S) : WorkM Bool :=
  other.labels.allM fun (state, label) => set.containsAllAt state label

/-! ## Adding -/

def setLabel (state : S) (label : LetterSet) : List (S × LetterSet) → List (S × LetterSet)
  | [] => []
  | (s, old) :: rest =>
      if s = state then (s, label) :: rest else (s, old) :: setLabel state label rest

/-- Add the transitions of `state` on the letters of `label`, which the set takes over. -/
def insert (set : TransitionSet S) (state : S) (label : LetterSet) : WorkM (TransitionSet S) :=
  match set.label? state with
  | some own => return { set with labels := setLabel state (← own.absorb label) set.labels }
  | none => return { set with labels := set.labels ++ [(state, label)] }

def insertAll (set : TransitionSet S) (state : S) : WorkM (TransitionSet S) := do
  set.insert state (← LetterSet.all set.owner)

end

/-- The states with their labels, each label shown by `shown`. -/
def render [ToString S] (set : TransitionSet S) (shown : LetterSet → WorkM String) :
    WorkM String := do
  let entries ← set.labels.mapM fun (state, label) => return s!"{state}: {← shown label}"
  return "\x7b" ++ ", ".intercalate entries ++ "\x7d"

def describe [ToString S] (set : TransitionSet S) : WorkM String :=
  set.render LetterSet.describe

def inspect [ToString S] (set : TransitionSet S) : WorkM String :=
  set.render LetterSet.inspect

end TransitionSet

end SymbolicOmega
