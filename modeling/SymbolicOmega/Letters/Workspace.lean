import SymbolicOmega.Letters.Factory

/-!
# Workspaces

A workspace holds several factories, told apart by position, and knows for every
set of transitions how many holders it has.  A set of transitions is named by a
ticket that is never used twice.
-/

namespace SymbolicOmega

structure Workspace where
  factories : Array Factory
  /-- One entry for each holder of a set of transitions, by ticket. -/
  holders : List Nat
  /-- No ticket from here on is in use. -/
  nextTicket : Nat
deriving Inhabited

/-- Operations in a workspace; what they changed before a failure stays changed. -/
abbrev WorkM := EStateM Fault Workspace

namespace Workspace

def ofFactories (factories : List Factory) : Workspace :=
  ⟨factories.toArray, [], 0⟩

def inFactory {β : Type} (id : Nat) (x : FactoryM β) : WorkM β :=
  fun ⟨factories, holders, nextTicket⟩ =>
    if h : id < factories.size then
      let (factory, rest) := factories.swapAt id default h
      match x factory with
      | .ok b factory => .ok b ⟨rest.setIfInBounds id factory, holders, nextTicket⟩
      | .error fault factory => .error fault ⟨rest.setIfInBounds id factory, holders, nextTicket⟩
    else .error .indexOutOfRange ⟨factories, holders, nextTicket⟩

def askFactory {β : Type} (id : Nat) (question : Factory → Except Fault β) : WorkM β := fun w =>
  match w.factories[id]? with
  | none => .error .indexOutOfRange w
  | some factory =>
      match question factory with
      | .ok b => .ok b w
      | .error fault => .error fault w

/-- A ticket of which there is no holder yet. -/
def freshTicket : WorkM Nat := fun ⟨factories, holders, nextTicket⟩ =>
  .ok nextTicket ⟨factories, holders, nextTicket + 1⟩

def hold (ticket : Nat) : WorkM Unit := fun ⟨factories, holders, nextTicket⟩ =>
  .ok () ⟨factories, ticket :: holders, nextTicket⟩

/-- One holder of a ticket less.  Answers how many are left. -/
def letGo (ticket : Nat) : WorkM Nat := fun ⟨factories, holders, nextTicket⟩ =>
  let holders := holders.erase ticket
  .ok (holders.count ticket) ⟨factories, holders, nextTicket⟩

def holderCount (ticket : Nat) : WorkM Nat := fun w =>
  .ok (w.holders.count ticket) w

/-- Do `cleanup` if the operation fails, which it then does all the same. -/
def onFault {β : Type} (x : WorkM β) (cleanup : WorkM Unit) : WorkM β :=
  try x catch fault => do
    cleanup
    throw fault

end Workspace

end SymbolicOmega
