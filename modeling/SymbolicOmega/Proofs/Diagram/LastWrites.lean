import Mathlib.Algebra.Group.Nat.Defs
import SymbolicOmega.Diagram.ComputedTable

/-!
# Last writes

A computed table forgets, but it never mixes up.  Whatever was done with it, a slot holds
what was written to it last, unless the table was cleared since, and a look-up is answered
by this result exactly if it was written under the key that is looked up.  The counters
know the look-ups of a history and how many of them were answered.
-/

namespace SymbolicOmega

namespace ComputedTable

variable {κ ν : Type} [Hashable κ] {t : ComputedTable κ ν} {bits slot : Nat}
variable {key stored : κ} {value result : ν}

/-! ## One call -/

omit [Hashable κ] in
/-- A table that was cleared holds no result. -/
theorem slot_of_clear (t : ComputedTable κ ν) (slot : Nat) (stored : κ) (result : ν) :
    t.clear.slots[slot]? ≠ some (some (stored, result)) := by
  simp [clear, Array.getElem?_replicate]

omit [Hashable κ] in
/-- A table is made only of so many bits, and then it is empty. -/
theorem ofBits_eq_ok (hnew : ofBits bits = .ok t) :
    bits ≤ 31 ∧ t = ⟨Array.replicate (1 <<< bits) none, 0, 0⟩ := by
  by_cases hbits : bits ≤ 31
  · rw [ofBits, if_pos hbits] at hnew
    exact ⟨hbits, (Except.ok.inj hnew).symm⟩
  · rw [ofBits, if_neg hbits] at hnew
    cases hnew

omit [Hashable κ] in
/-- A new table holds no result. -/
theorem slot_of_ofBits (hnew : ofBits bits = .ok t) (slot : Nat) (stored : κ) (result : ν) :
    t.slots[slot]? ≠ some (some (stored, result)) := by
  obtain ⟨-, rfl⟩ := ofBits_eq_ok hnew
  simp [Array.getElem?_replicate]

theorem slot_of_insert :
    (t.insert key value).slots[slot]? = some (some (stored, result)) ↔
      if t.slotOf key = slot then slot < t.slots.size ∧ key = stored ∧ value = result
      else t.slots[slot]? = some (some (stored, result)) := by
  rw [insert, Array.getElem?_setIfInBounds]
  by_cases hslot : t.slotOf key = slot
  · by_cases hlt : slot < t.slots.size <;> simp [hslot, hlt]
  · simp [hslot]

section Lookup
variable [DecidableEq κ]

theorem lookup_slots : (lookup key t).2.slots = t.slots := by
  rw [lookup]
  split <;> rfl

theorem lookup_answer : (lookup key t).1 = t.find? key := by
  rw [lookup]
  split <;> simp_all

/-- A look-up counts as a hit if it is answered, and else as a miss. -/
theorem lookup_counters (t : ComputedTable κ ν) (key : κ) :
    (lookup key t).2.hits = t.hits + (if (t.find? key).isSome then 1 else 0) ∧
      (lookup key t).2.misses = t.misses + (if (t.find? key).isNone then 1 else 0) := by
  cases hfound : t.find? key <;> simp [lookup, hfound]

theorem find?_eq_some : t.find? key = some value ↔
    t.slots[t.slotOf key]? = some (some (key, value)) := by
  rw [find?]
  split
  · rename_i stored result hslot
    by_cases hkey : stored = key <;> simp [hslot, hkey]
  · rename_i hnone
    exact iff_of_false (by simp) (hnone key value)

end Lookup

/-! ## Histories -/

inductive Call (κ ν : Type) where
  | insert (key : κ) (value : ν)
  | get (key : κ)
  | clear

/-- The slot of a key in a table of `2^bits` slots. -/
def slotAt (bits : Nat) (key : κ) : Nat :=
  (hash key).toNat % 2 ^ bits

namespace Call

/-- Whether the call asks for a result. -/
def asks : Call κ ν → Bool
  | get _ => true
  | _ => false

/-- The call writes nothing to the slot and does not clear the table. -/
def Spares (bits slot : Nat) : Call κ ν → Prop
  | insert key _ => slotAt bits key ≠ slot
  | get _ => True
  | clear => False

variable [DecidableEq κ]

/-- The table after a call. -/
def perform : Call κ ν → ComputedTable κ ν → ComputedTable κ ν
  | insert key value, t => t.insert key value
  | get key, t => (lookup key t).2
  | clear, t => t.clear

end Call

/-- The calls wrote `result` to the slot under the key `stored`, and none of them wrote to the
slot or cleared the table after that. -/
def LastWrite (bits : Nat) (calls : List (Call κ ν)) (slot : Nat) (stored : κ) (result : ν) : Prop :=
  ∃ before later, calls = before ++ .insert stored result :: later ∧
    slotAt bits stored = slot ∧ ∀ call ∈ later, call.Spares bits slot

/-- The last call is the last write, or it spares the one before. -/
theorem lastWrite_concat {calls : List (Call κ ν)} {call : Call κ ν} :
    LastWrite bits (calls ++ [call]) slot stored result ↔
      call = .insert stored result ∧ slotAt bits stored = slot ∨
        call.Spares bits slot ∧ LastWrite bits calls slot stored result := by
  constructor
  · rintro ⟨before, later, hcalls, hslot, hspares⟩
    rcases later.eq_nil_or_concat with rfl | ⟨front, last, rfl⟩
    · have hlast := (List.append_inj' hcalls rfl).2
      exact .inl ⟨List.head_eq_of_cons_eq hlast, hslot⟩
    · have hsplit : calls ++ [call] = (before ++ .insert stored result :: front) ++ [last] := by
        simpa using hcalls
      obtain ⟨rfl, hlast⟩ := List.append_inj' hsplit rfl
      obtain rfl := List.head_eq_of_cons_eq hlast
      refine .inr ⟨hspares call (by simp), before, front, rfl, hslot, fun other hother => ?_⟩
      exact hspares other (by simp [hother])
  · rintro (⟨rfl, hslot⟩ | ⟨hspares, before, later, rfl, hslot, hlater⟩)
    · exact ⟨calls, [], rfl, hslot, by simp⟩
    · refine ⟨before, later ++ [call], by simp, hslot, fun other hother => ?_⟩
      rcases List.mem_append.1 hother with hother | hother
      · exact hlater other hother
      · exact List.mem_singleton.1 hother ▸ hspares

variable [DecidableEq κ]

/-- The table after the calls. -/
def after (t : ComputedTable κ ν) (calls : List (Call κ ν)) : ComputedTable κ ν :=
  calls.foldl (fun t call => call.perform t) t

/-- What the look-ups among the calls are answered. -/
def answers : ComputedTable κ ν → List (Call κ ν) → List (Option ν)
  | _, [] => []
  | t, .get key :: rest => (lookup key t).1 :: answers (lookup key t).2 rest
  | t, call :: rest => answers (call.perform t) rest

/-- A table of `2^bits` slots, of which each holds the last write to it. -/
structure Holds (t : ComputedTable κ ν) (bits : Nat) (calls : List (Call κ ν)) : Prop where
  bits_le : bits ≤ 31
  size : t.slots.size = 2 ^ bits
  slots : ∀ (slot : Nat) (stored : κ) (result : ν),
    t.slots[slot]? = some (some (stored, result)) ↔ LastWrite bits calls slot stored result

namespace Holds

variable {calls : List (Call κ ν)}

omit [DecidableEq κ] in
theorem new (hnew : ofBits bits = .ok t) : t.Holds bits [] := by
  obtain ⟨hbits, ht⟩ := ofBits_eq_ok hnew
  refine ⟨hbits, by simp [ht, Nat.one_shiftLeft], fun slot stored result => iff_of_false ?_ ?_⟩
  · exact slot_of_ofBits hnew slot stored result
  · rintro ⟨before, later, hcalls, -⟩
    simp at hcalls

omit [DecidableEq κ] in
theorem slotOf (h : t.Holds bits calls) (key : κ) : t.slotOf key = slotAt bits key := by
  have hlt : 2 ^ bits < UInt64.size :=
    Nat.lt_of_le_of_lt (Nat.pow_le_pow_right Nat.two_pos h.bits_le) (by decide)
  have hsize : (t.slots.size.toUInt64).toNat = 2 ^ bits := by
    rw [h.size]
    exact Nat.mod_eq_of_lt hlt
  rw [ComputedTable.slotOf, UInt64.toNat_mod, hsize, slotAt]

/-- One more call. -/
theorem perform (h : t.Holds bits calls) (call : Call κ ν) :
    (call.perform t).Holds bits (calls ++ [call]) := by
  cases call with
  | insert key value =>
      refine ⟨h.bits_le, by simp [Call.perform, insert, h.size], fun slot stored result => ?_⟩
      rw [lastWrite_concat, Call.perform, slot_of_insert, h.slotOf, h.slots, Call.insert.injEq]
      by_cases hslot : slotAt bits key = slot
      · have hlt : slot < t.slots.size := by
          rw [h.size, ← hslot]
          exact Nat.mod_lt _ (Nat.two_pow_pos bits)
        rw [if_pos hslot]
        constructor
        · rintro ⟨-, rfl, rfl⟩
          exact .inl ⟨⟨rfl, rfl⟩, hslot⟩
        · rintro (⟨⟨rfl, rfl⟩, -⟩ | ⟨hspares, -⟩)
          · exact ⟨hlt, rfl, rfl⟩
          · exact absurd hslot hspares
      · rw [if_neg hslot]
        constructor
        · exact fun hold => .inr ⟨hslot, hold⟩
        · rintro (⟨⟨rfl, rfl⟩, hslot'⟩ | ⟨-, hold⟩)
          · exact absurd hslot' hslot
          · exact hold
  | get key =>
      refine ⟨h.bits_le, by rw [Call.perform, lookup_slots, h.size], fun slot stored result => ?_⟩
      rw [lastWrite_concat, Call.perform, lookup_slots, h.slots]
      simp [Call.Spares]
  | clear =>
      refine ⟨h.bits_le, by simp [Call.perform, clear, h.size], fun slot stored result => ?_⟩
      rw [lastWrite_concat]
      exact iff_of_false (slot_of_clear t slot stored result) (by simp [Call.Spares])

theorem after (h : t.Holds bits calls) (more : List (Call κ ν)) :
    (t.after more).Holds bits (calls ++ more) := by
  induction more generalizing t calls with
  | nil => simpa [ComputedTable.after] using h
  | cons call rest ih => simpa [ComputedTable.after] using ih (h.perform call)

end Holds

/-- Every look-up of a history is answered or missed, and the counters tell how many of each there
were. -/
theorem after_counters (t : ComputedTable κ ν) (calls : List (Call κ ν)) :
    (t.after calls).hits = t.hits + (t.answers calls).countP Option.isSome ∧
      (t.after calls).misses = t.misses + (t.answers calls).countP Option.isNone := by
  induction calls generalizing t with
  | nil => exact ⟨rfl, rfl⟩
  | cons call rest ih =>
      obtain ⟨hhits, hmisses⟩ := ih (call.perform t)
      have hafter : t.after (call :: rest) = (call.perform t).after rest := rfl
      cases call with
      | insert key value => exact ⟨hhits, hmisses⟩
      | clear => exact ⟨hhits, hmisses⟩
      | get key =>
          have hanswers : t.answers (.get key :: rest) =
              t.find? key :: (Call.perform (.get key) t).answers rest := by
            rw [answers, lookup_answer]
            rfl
          obtain ⟨hhit, hmiss⟩ := t.lookup_counters key
          rw [hafter, hanswers, List.countP_cons, List.countP_cons, hhits, hmisses]
          constructor
          · rw [Call.perform, hhit]
            omega
          · rw [Call.perform, hmiss]
            omega

theorem length_answers (t : ComputedTable κ ν) (calls : List (Call κ ν)) :
    (t.answers calls).length = calls.countP Call.asks := by
  induction calls generalizing t with
  | nil => rfl
  | cons call rest ih =>
      cases call with
      | insert key value => exact ih (t.insert key value)
      | clear => exact ih t.clear
      | get key =>
          rw [List.countP_cons_of_pos rfl, ← ih (lookup key t).2]
          rfl

/-- What a table of `2^bits` slots does after a history. -/
structure Recalls (t : ComputedTable κ ν) (bits : Nat) (calls : List (Call κ ν)) : Prop where
  /-- A look-up is answered by the last write to the slot of the key if that was under the key. -/
  get : ∀ (key : κ) (value : ν), (lookup key (t.after calls)).1 = some value ↔
    LastWrite bits calls (slotAt bits key) key value
  hits : (t.after calls).hits = (t.answers calls).countP Option.isSome
  counters : (t.after calls).hits + (t.after calls).misses = calls.countP Call.asks
  clear : (t.after calls).clear.hits = (t.after calls).hits ∧
    (t.after calls).clear.misses = (t.after calls).misses

/-- A computed table answers with the last write or misses, whichever keys share a slot. -/
theorem ofBits_recalls (hnew : ofBits bits = .ok t) (calls : List (Call κ ν)) :
    t.Recalls bits calls := by
  have hholds : (t.after calls).Holds bits calls := (Holds.new hnew).after calls
  have hfresh : t.hits = 0 ∧ t.misses = 0 := by
    obtain ⟨-, rfl⟩ := ofBits_eq_ok hnew
    exact ⟨rfl, rfl⟩
  obtain ⟨hhits, hmisses⟩ := t.after_counters calls
  rw [hfresh.1, Nat.zero_add] at hhits
  rw [hfresh.2, Nat.zero_add] at hmisses
  refine ⟨fun key value => ?_, hhits, ?_, rfl, rfl⟩
  · rw [lookup_answer, find?_eq_some, hholds.slots, hholds.slotOf]
  · have hlength := List.length_eq_countP_add_countP Option.isSome (l := t.answers calls)
    rw [length_answers] at hlength
    have hmissed : (t.answers calls).countP Option.isNone =
        (t.answers calls).countP (fun answer => decide ¬ answer.isSome = true) :=
      List.countP_congr fun answer _ => by cases answer <;> simp
    rw [hhits, hmisses, hlength, hmissed]

/-- A table of one slot, to which all keys are written. -/
private def oneSlot : ComputedTable Nat Nat :=
  ⟨#[none], 0, 0⟩

/-- Writes under two keys, look-ups of both and a clearing. -/
private def collisions : List (Call Nat Nat) :=
  [.insert 12 3, .get 12, .insert 45 6, .get 12, .get 45, .clear, .get 45, .insert 12 7]

/-- The theorem where every key shares the one slot.  After the second write the first key is
missed, and after the clearing both are, until the first key is written again. -/
theorem oneSlot_recalls :
    ofBits 0 = .ok oneSlot ∧ oneSlot.Recalls 0 collisions ∧
      oneSlot.answers collisions = [some 3, none, some 6, none] ∧
      (lookup 12 (oneSlot.after collisions)).1 = some 7 ∧
      LastWrite 0 collisions (slotAt 0 12) 12 7 := by
  have hnew : ofBits 0 = .ok oneSlot := rfl
  have hrecalls := ofBits_recalls hnew collisions
  have hlookup : (lookup 12 (oneSlot.after collisions)).1 = some 7 := by decide
  exact ⟨hnew, hrecalls, by decide, hlookup, (hrecalls.get 12 7).1 hlookup⟩

end ComputedTable

end SymbolicOmega
