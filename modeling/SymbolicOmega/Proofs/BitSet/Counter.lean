import Mathlib.Data.Nat.Count
import Mathlib.Logic.Function.Iterate
import SymbolicOmega.Proofs.BitSet.Subsets

/-!
# The counter answers every subset once

The set that a call answers has the number of the call for its value, so its members are
the members of the base at the digits of that number.  The carry out of the last member
ends the counter, and a counter that has ended answers nothing any more.
-/

namespace SymbolicOmega

namespace BitSet

/-- The place of a member among those of a base. -/
def rank (base : BitSet) (i : Nat) : Nat :=
  Nat.count (fun j => base.contains j = true) i

/-- A member stands in the list behind the members below it. -/
theorem rank_of_getElem? {base : BitSet} {i place : Nat} (h : base.toList[place]? = some i) :
    base.rank i = place := by
  obtain ⟨hplace, hget⟩ := List.getElem?_eq_some_iff.1 h
  have hsplit : base.toList = base.toList.take place ++ i :: base.toList.drop (place + 1) := by
    rw [← hget, List.getElem_cons_drop, List.take_append_drop]
  have hsorted := base.pairwise_toList
  rw [hsplit, List.pairwise_append, List.pairwise_cons] at hsorted
  obtain ⟨hearlier, ⟨hlater, -⟩, hcross⟩ := hsorted
  have hbelow : (Finset.range i).filter (fun j => base.contains j = true) =
      (base.toList.take place).toFinset := by
    ext j
    have hmem : base.contains j = true ↔
        j ∈ base.toList.take place ∨ j = i ∨ j ∈ base.toList.drop (place + 1) := by
      rw [← mem_toList, hsplit, List.mem_append, List.mem_cons, ← hsplit]
    rw [Finset.mem_filter, Finset.mem_range, List.mem_toFinset, hmem]
    constructor
    · rintro ⟨hlt, hj | rfl | hj⟩
      · exact hj
      · exact absurd hlt (Nat.lt_irrefl j)
      · exact absurd (hlater j hj) (Nat.lt_asymm hlt)
    · intro hj
      exact ⟨hcross j hj i List.mem_cons_self, .inl hj⟩
  rw [rank, Nat.count_eq_card_filter_range, hbelow,
    List.toFinset_card_of_nodup (hearlier.imp Nat.ne_of_lt), List.length_take,
    Nat.min_eq_left (Nat.le_of_lt hplace)]

/-- The value of a set has its members for digits. -/
theorem testBit_value {base : List Nat} {place i : Nat} (h : base[place]? = some i) (s : BitSet) :
    (value base s).testBit place = s.contains i := by
  induction base generalizing place with
  | nil => simp at h
  | cons first rest ih =>
      rw [value]
      cases place with
      | zero =>
          obtain rfl := Option.some.inj h
          cases s.contains first <;> simp [Nat.testBit_zero]
      | succ place =>
          have hhalf : ((s.contains first).toNat + 2 * value rest s) / 2 = value rest s := by
            have := Bool.toNat_lt (s.contains first)
            omega
          rw [Nat.testBit_succ, hhalf]
          exact ih h

/-- The members of a set over a base are the digits of its value, by their place in the base. -/
theorem contains_of_value {base s : BitSet}
    (hwithin : ∀ i, s.contains i = true → base.contains i = true) (i : Nat) :
    s.contains i = (base.contains i && (value base.toList s).testBit (base.rank i)) := by
  cases hbase : base.contains i with
  | false =>
      rw [Bool.false_and]
      exact Bool.eq_false_iff.2 fun hi => Bool.false_ne_true (hbase ▸ hwithin i hi)
  | true =>
      obtain ⟨place, hget⟩ := List.mem_iff_getElem?.1 (mem_toList.2 hbase)
      rw [Bool.true_and, rank_of_getElem? hget, testBit_value hget]

/-- The greatest value is that of the whole base. -/
theorem value_of_forall {base : List Nat} {s : BitSet} (h : ∀ i ∈ base, s.contains i = true) :
    value base s + 1 = 2 ^ base.length := by
  induction base with
  | nil => rfl
  | cons i rest ih =>
      obtain ⟨hi, hrest⟩ := List.forall_mem_cons.1 h
      have hvalue := ih hrest
      rw [value, hi, Bool.toNat_true, List.length_cons, Nat.pow_succ]
      omega

end BitSet

namespace Subsets

open BitSet

/-! ## One call after the other -/

/-- What a call answers. -/
def answer? (subsets : Subsets) : Option BitSet :=
  subsets.next?.map Prod.fst

/-- The counter after a call.  One that has ended stays as it is. -/
def later (subsets : Subsets) : Subsets :=
  (subsets.next?.map Prod.snd).getD subsets

/-- What call number `i` of a new counter answers, counted from zero. -/
def answerAt (base : BitSet) (i : Nat) : Option BitSet :=
  (later^[i] (of base)).answer?

/-- The counter over `base` that has been called `i` times. -/
structure Stands (base : BitSet) (i : Nat) (subsets : Subsets) : Prop where
  base_eq : subsets.base = base.toList
  within : ∀ s, subsets.current = some s → ∀ x, s.contains x = true → base.contains x = true
  value_eq : ∀ s, subsets.current = some s → value base.toList s = i
  ended : subsets.current = none → 2 ^ base.size ≤ i

namespace Stands

variable {base : BitSet} {i : Nat} {subsets : Subsets}

theorem start (base : BitSet) : Stands base 0 (of base) where
  base_eq := rfl
  within s hs x hx := by
    obtain rfl := Option.some.inj hs
    simp at hx
  value_eq s hs := by
    obtain rfl := Option.some.inj hs
    exact value_empty base.toList
  ended h := nomatch h

theorem answer?_eq (subsets : Subsets) : subsets.answer? = subsets.current := by
  cases h : subsets.current <;> simp [answer?, next?, h]

/-- The call after a set whose value is the greatest ends the counter; any other adds one. -/
theorem later (h : Stands base i subsets) : Stands base (i + 1) subsets.later := by
  cases hcurrent : subsets.current with
  | none =>
      have hstays : subsets.later = subsets := by simp [Subsets.later, next?, hcurrent]
      rw [hstays]
      have hended := h.ended hcurrent
      exact {
        base_eq := h.base_eq
        within := fun s hs => absurd (hcurrent.symm.trans hs) nofun
        value_eq := fun s hs => absurd (hcurrent.symm.trans hs) nofun
        ended := fun _ => Nat.le_succ_of_le hended }
  | some s =>
      have hvalue := h.value_eq s hcurrent
      have hwithin := h.within s hcurrent
      have hstep := increment?_value base.nodup_toList s
      have hlater : subsets.later = ⟨base.toList, increment? base.toList s⟩ := by
        simp [Subsets.later, next?, hcurrent, h.base_eq]
      rw [hlater]
      cases hnext : increment? base.toList s with
      | none =>
          rw [hnext] at hstep
          simp only at hstep
          exact {
            base_eq := rfl
            within := nofun
            value_eq := nofun
            ended := fun _ => Nat.le_of_eq (by rw [BitSet.size, ← hstep, hvalue]) }
      | some t =>
          rw [hnext] at hstep
          obtain ⟨hadds, hsame⟩ := hstep
          refine ⟨rfl, fun u hu x hx => ?_, fun u hu => ?_, nofun⟩
          · obtain rfl := Option.some.inj hu
            by_contra hout
            rw [hsame x (mt BitSet.mem_toList.1 hout)] at hx
            exact hout (hwithin x hx)
          · obtain rfl := Option.some.inj hu
            rw [hadds, hvalue]

theorem iterate (base : BitSet) (i : Nat) : Stands base i (Subsets.later^[i] (of base)) := by
  induction i with
  | zero => exact start base
  | succ i ih =>
      rw [Function.iterate_succ_apply']
      exact ih.later

end Stands

/-! ## Every subset once -/

/-- The answers of a counter over `base`: as many sets as there are subsets, then nothing.  Set
number `i` has the members of the base whose place is a digit of `i`. -/
structure CountsThrough (base : BitSet) (answer : Nat → Option BitSet) : Prop where
  yields : ∀ i < 2 ^ base.size, ∃ s, answer i = some s ∧
    ∀ x, s.contains x = (base.contains x && i.testBit (base.rank x))
  ends : ∀ i, 2 ^ base.size ≤ i → answer i = none
  once : ∀ t : BitSet, (∀ x, t.contains x = true → base.contains x = true) →
    ∃! i, answer i = some t
  first : answer 0 = some .empty
  last : answer (2 ^ base.size - 1) = some base

theorem answerAt_eq_none_iff {base : BitSet} {i : Nat} :
    answerAt base i = none ↔ 2 ^ base.size ≤ i := by
  have hstands := Stands.iterate base i
  rw [answerAt, Stands.answer?_eq]
  constructor
  · exact hstands.ended
  · intro hend
    cases hcurrent : (later^[i] (of base)).current with
    | none => rfl
    | some s =>
        have hlt := value_lt base.toList s
        rw [hstands.value_eq s hcurrent] at hlt
        exact absurd hlt (Nat.not_lt.2 hend)

/-- Call number `i` answers the subset whose value is `i`. -/
theorem answerAt_eq_some_iff {base s : BitSet} {i : Nat} :
    answerAt base i = some s ↔
      (∀ x, s.contains x = true → base.contains x = true) ∧ value base.toList s = i := by
  have hstands := Stands.iterate base i
  constructor
  · intro hanswer
    rw [answerAt, Stands.answer?_eq] at hanswer
    exact ⟨hstands.within s hanswer, hstands.value_eq s hanswer⟩
  · intro ⟨hwithin, hvalue⟩
    cases hanswer : answerAt base i with
    | none =>
        have hlt := value_lt base.toList s
        rw [hvalue] at hlt
        exact absurd (answerAt_eq_none_iff.1 hanswer) (Nat.not_le.2 hlt)
    | some t =>
        rw [answerAt, Stands.answer?_eq] at hanswer
        congr 1
        apply ext_contains
        intro x
        rw [contains_of_value hwithin, contains_of_value (hstands.within t hanswer), hvalue,
          hstands.value_eq t hanswer]

/-- Every call of a new counter answers the next subset of its base, until all have come up, each
of them once. -/
theorem of_countsThrough (base : BitSet) : CountsThrough base (answerAt base) where
  yields i hi := by
    cases hanswer : answerAt base i with
    | none => exact absurd (answerAt_eq_none_iff.1 hanswer) (Nat.not_le.2 hi)
    | some s =>
        obtain ⟨hwithin, hvalue⟩ := answerAt_eq_some_iff.1 hanswer
        refine ⟨s, rfl, fun x => ?_⟩
        rw [contains_of_value hwithin, hvalue]
  ends i hi := answerAt_eq_none_iff.2 hi
  once t hwithin := by
    refine ⟨value base.toList t, answerAt_eq_some_iff.2 ⟨hwithin, rfl⟩, fun i hi => ?_⟩
    exact (answerAt_eq_some_iff.1 hi).2.symm
  first := answerAt_eq_some_iff.2 ⟨by simp, value_empty base.toList⟩
  last := by
    have hvalue : value base.toList base + 1 = 2 ^ base.toList.length :=
      value_of_forall fun i hi => BitSet.mem_toList.1 hi
    exact answerAt_eq_some_iff.2 ⟨fun x hx => hx, by rw [BitSet.size]; omega⟩

end Subsets

end SymbolicOmega
