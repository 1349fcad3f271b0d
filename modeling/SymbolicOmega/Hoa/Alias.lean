import SymbolicOmega.Formula.Atom

/-!
# Aliases

Names for propositions.  A name stands for one index and an index has one name; a
new binding replaces any binding of either.
-/

namespace SymbolicOmega

namespace Hoa

/-- The bindings in force, kept as two maps: from names, the most recently bound last, and
from indices. -/
structure Aliases where
  bindings : List (String × Nat)
  names : List (Nat × String)
deriving Repr

namespace Aliases

def empty : Aliases := ⟨[], []⟩

instance : Inhabited Aliases := ⟨empty⟩

def without {α β : Type} [BEq α] (map : List (α × β)) (key : α) : List (α × β) :=
  map.filter (·.1 != key)

/-- `inverse` without its entry for the value that `map` has at `key`. -/
def evict {α β : Type} [BEq α] [BEq β] (map : List (α × β)) (inverse : List (β × α)) (key : α) :
    List (β × α) :=
  match map.lookup key with
  | some value => without inverse value
  | none => inverse

/-- Bind `name` to `index` and drop what either was bound to before. -/
def insert (aliases : Aliases) (name : String) (index : Nat) : Aliases :=
  let names := evict aliases.bindings aliases.names name
  let bindings := evict names (without aliases.bindings name) index
  ⟨bindings ++ [(name, index)], (index, name) :: without names index⟩

def ofList (bindings : List (String × Nat)) : Aliases :=
  bindings.foldl (fun aliases b => aliases.insert b.1 b.2) empty

def index? (aliases : Aliases) (name : String) : Option Nat :=
  aliases.bindings.lookup name

def name? (aliases : Aliases) (index : Nat) : Option String :=
  aliases.names.lookup index

def size (aliases : Aliases) : Nat :=
  aliases.bindings.length

def isEmpty (aliases : Aliases) : Bool :=
  aliases.bindings.isEmpty

/-- How proposition `index` appears in a label: by its name if it has one. -/
def atom (aliases : Aliases) (index : Nat) : LabelAtom :=
  match aliases.name? index with
  | some name => .alias name
  | none => .proposition index

end Aliases

end Hoa

end SymbolicOmega
