import SymbolicOmega.Fault

/-!
# The computed table

A lossy memory of results.  Each key has one slot, which keeps the last key written
to it, so a look-up finds exactly what was stored or misses.
-/

namespace SymbolicOmega

structure ComputedTable (κ ν : Type) where
  slots : Array (Option (κ × ν))
  hits : Nat
  misses : Nat
deriving Inhabited

namespace ComputedTable

variable {κ ν : Type}

/-- An empty table of `2^bits` slots. -/
def ofBits (bits : Nat) : Except Fault (ComputedTable κ ν) :=
  if bits ≤ 31 then .ok ⟨Array.replicate (1 <<< bits) none, 0, 0⟩
  else .error .computedBitsTooLarge

/-- Forget every result.  The counters go on. -/
def clear (t : ComputedTable κ ν) : ComputedTable κ ν :=
  { t with slots := Array.replicate t.slots.size none }

def slotOf [Hashable κ] (t : ComputedTable κ ν) (key : κ) : Nat :=
  (hash key % t.slots.size.toUInt64).toNat

def find? [DecidableEq κ] [Hashable κ] (t : ComputedTable κ ν) (key : κ) : Option ν :=
  match t.slots[t.slotOf key]? with
  | some (some (stored, value)) => if stored = key then some value else none
  | _ => none

def lookup [DecidableEq κ] [Hashable κ] (key : κ) (t : ComputedTable κ ν) :
    Option ν × ComputedTable κ ν :=
  match t.find? key with
  | some value => (some value, { t with hits := t.hits + 1 })
  | none => (none, { t with misses := t.misses + 1 })

/-- Store a result in the slot of its key, whatever was there. -/
def insert [Hashable κ] (key : κ) (value : ν) (t : ComputedTable κ ν) : ComputedTable κ ν :=
  let slot := t.slotOf key
  { t with slots := t.slots.setIfInBounds slot (some (key, value)) }

end ComputedTable

end SymbolicOmega
