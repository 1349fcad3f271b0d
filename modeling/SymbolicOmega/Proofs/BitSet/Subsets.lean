import Mathlib.Algebra.Group.Nat.Defs
import SymbolicOmega.BitSet.Subsets

/-!
# All subsets are counted

The counter over a base goes through the numbers that the members of a subset make as binary
digits, one by one, so every subset of the base comes up.
-/

namespace SymbolicOmega

namespace BitSet

/-- The number whose digits say which of the places belong to the set. -/
def value : List Nat → BitSet → Nat
  | [], _ => 0
  | i :: rest, s => (s.contains i).toNat + 2 * value rest s

/-- Only the places of the base matter. -/
theorem value_congr {base : List Nat} {s t : BitSet}
    (h : ∀ i ∈ base, s.contains i = t.contains i) : value base s = value base t := by
  induction base with
  | nil => rfl
  | cons i rest ih =>
      obtain ⟨hi, hrest⟩ := List.forall_mem_cons.1 h
      rw [value, value, hi, ih hrest]

theorem value_empty (base : List Nat) : value base empty = 0 := by
  induction base with
  | nil => rfl
  | cons i rest ih => simp [value, ih]

theorem value_lt (base : List Nat) (s : BitSet) : value base s < 2 ^ base.length := by
  induction base with
  | nil => exact Nat.one_pos
  | cons i rest ih =>
      have hdigit := Bool.toNat_lt (s.contains i)
      rw [value, List.length_cons, Nat.pow_succ]
      omega

theorem contains_eq_of_value_eq {base : List Nat} {s t : BitSet}
    (h : value base s = value base t) : ∀ i ∈ base, s.contains i = t.contains i := by
  induction base with
  | nil => simp
  | cons i rest ih =>
      rw [value, value] at h
      have hs := Bool.toNat_lt (s.contains i)
      have ht := Bool.toNat_lt (t.contains i)
      have hdigit : (s.contains i).toNat = (t.contains i).toNat := by omega
      refine List.forall_mem_cons.2 ⟨?_, ih (by omega)⟩
      revert hdigit
      cases s.contains i <;> cases t.contains i <;> decide

/-- A step of the counter adds one, and the full counter stops. -/
theorem increment?_value {base : List Nat} (hnodup : base.Nodup) (s : BitSet) :
    match increment? base s with
    | none => value base s + 1 = 2 ^ base.length
    | some s' => value base s' = value base s + 1 ∧
        ∀ i, i ∉ base → s'.contains i = s.contains i := by
  induction base generalizing s with
  | nil => rfl
  | cons i rest ih =>
      obtain ⟨hi, hrest⟩ := List.nodup_cons.1 hnodup
      have hother : ∀ j ∈ rest, i ≠ j := fun j hj hij => hi (hij ▸ hj)
      rw [increment?]
      cases hmem : s.contains i with
      | true =>
          rw [if_pos rfl]
          have herase : value rest (s.erase i) = value rest s :=
            value_congr fun j hj => by simp [hother j hj]
          have hnext := ih hrest (s.erase i)
          cases hrun : increment? rest (s.erase i) with
          | none =>
              rw [hrun] at hnext
              simp only [value, hmem, Bool.toNat_true, List.length_cons, Nat.pow_succ]
              omega
          | some s' =>
              rw [hrun] at hnext
              obtain ⟨hvalue, hsame⟩ := hnext
              have hout : s'.contains i = false := by simpa using hsame i hi
              refine ⟨?_, fun j hj => ?_⟩
              · simp only [value, hmem, hout, Bool.toNat_true, Bool.toNat_false]
                omega
              · obtain ⟨hij, hj⟩ := not_or.1 (mt List.mem_cons.2 hj)
                rw [hsame j hj]
                simp [Ne.symm hij]
      | false =>
          rw [if_neg (by simp)]
          have hinsert : value rest (s.insert i) = value rest s :=
            value_congr fun j hj => by simp [hother j hj]
          refine ⟨?_, fun j hj => ?_⟩
          · simp [value, hmem, hinsert, Nat.add_comm]
          · obtain ⟨hij, -⟩ := not_or.1 (mt List.mem_cons.2 hj)
            simp [Ne.symm hij]

end BitSet

namespace Subsets

open BitSet

/-- From a set on, the counter comes to every set that differs in the base only and has a greater
number. -/
theorem mem_take {base : List Nat} (hnodup : base.Nodup) {n : Nat} {s t : BitSet}
    (hsame : ∀ i, i ∉ base → t.contains i = s.contains i)
    (hle : value base s ≤ value base t) (hlt : value base t < value base s + n) :
    t ∈ take n ⟨base, some s⟩ := by
  induction n generalizing s with
  | zero => omega
  | succ n ih =>
      change t ∈ s :: take n ⟨base, increment? base s⟩
      by_cases heq : value base s = value base t
      · have hts : t = s := ext_contains fun i => by
          by_cases hi : i ∈ base
          · exact (contains_eq_of_value_eq heq i hi).symm
          · exact hsame i hi
        rw [hts]
        exact List.mem_cons_self
      · have hstep := increment?_value hnodup s
        have hbound := value_lt base t
        cases hrun : increment? base s with
        | none =>
            rw [hrun] at hstep
            simp only at hstep
            omega
        | some s' =>
            rw [hrun] at hstep
            obtain ⟨hvalue, hsame'⟩ := hstep
            exact List.mem_cons_of_mem _ (ih (fun i hi => (hsame i hi).trans (hsame' i hi).symm)
              (by omega) (by omega))

/-- The counter changes places of the base only. -/
theorem contains_of_mem_take {base : List Nat} (hnodup : base.Nodup) {n : Nat} {s t : BitSet}
    (h : t ∈ take n ⟨base, some s⟩) : ∀ i, i ∉ base → t.contains i = s.contains i := by
  induction n generalizing s with
  | zero => cases h
  | succ n ih =>
      obtain rfl | h := List.mem_cons.1 (show t ∈ s :: take n ⟨base, increment? base s⟩ from h)
      · exact fun _ _ => rfl
      · have hstep := increment?_value hnodup s
        cases hrun : increment? base s with
        | none =>
            rw [hrun] at h
            cases n <;> cases h
        | some s' =>
            rw [hrun] at h hstep
            exact fun i hi => (ih h i hi).trans (hstep.2 i hi)

/-- The subsets of the base come up, and nothing else. -/
theorem mem_toList {base t : BitSet} :
    t ∈ (Subsets.of base).toList ↔ ∀ i, t.contains i = true → base.contains i = true := by
  have hnodup := base.nodup_toList
  constructor
  · intro h i ht
    refine Decidable.byContradiction fun hi => ?_
    have hout := contains_of_mem_take hnodup h i (mt BitSet.mem_toList.1 hi)
    rw [ht, contains_empty] at hout
    cases hout
  · intro h
    have hempty := value_empty base.toList
    refine mem_take hnodup (fun i hi => ?_) (by omega) ?_
    · rw [contains_empty]
      exact Bool.eq_false_iff.2 fun ht => hi (BitSet.mem_toList.2 (h i ht))
    · rw [hempty, Nat.one_shiftLeft, Nat.zero_add]
      exact value_lt base.toList t

/-! ## The order -/

/-- The counter goes through consecutive numbers. -/
theorem map_value_take {base : List Nat} (hnodup : base.Nodup) (n : Nat) (s : BitSet) :
    (take n ⟨base, some s⟩).map (value base) =
      List.range' (value base s) (min n (2 ^ base.length - value base s)) := by
  induction n generalizing s with
  | zero => simp [take]
  | succ n ih =>
      change value base s :: (take n ⟨base, increment? base s⟩).map (value base) = _
      have hstep := increment?_value hnodup s
      have hlt := value_lt base s
      cases hrun : increment? base s with
      | none =>
          rw [hrun] at hstep
          have hlast : min (n + 1) (2 ^ base.length - value base s) = 1 := by
            simp only at hstep
            omega
          rw [hlast]
          cases n <;> rfl
      | some s' =>
          rw [hrun] at hstep
          have hmore : min (n + 1) (2 ^ base.length - value base s) =
              min n (2 ^ base.length - value base s') + 1 := by omega
          rw [hmore, List.range'_succ, ih, hstep.1]

theorem map_value_toList (base : BitSet) :
    (Subsets.of base).toList.map (value base.toList) = List.range (2 ^ base.toList.length) := by
  have htake := map_value_take base.nodup_toList (1 <<< base.toList.length) BitSet.empty
  rw [value_empty, Nat.one_shiftLeft, Nat.sub_zero, Nat.min_self, ← List.range_eq_range'] at htake
  rw [← htake, ← Nat.one_shiftLeft]
  rfl

/-- Choosing some of the next subsets is filtering them. -/
theorem takeMatching_eq (keep : BitSet → Bool) (bound n : Nat) (subsets : Subsets) :
    takeMatching keep bound n subsets = ((take bound subsets).filter keep).take n := by
  induction bound generalizing n subsets with
  | zero => cases n <;> rfl
  | succ bound ih =>
      cases n with
      | zero => rfl
      | succ n =>
          rw [takeMatching, take]
          cases subsets.next? with
          | none => rfl
          | some step =>
              rcases step with ⟨s, later⟩
              dsimp only
              cases hkeep : keep s with
              | true => rw [if_pos rfl, ih, List.filter_cons_of_pos hkeep, List.take_succ_cons]
              | false =>
                  rw [if_neg Bool.false_ne_true, ih,
                    List.filter_cons_of_neg (by simp [hkeep])]

end Subsets

namespace BitSet

theorem toList_full (k : Nat) : (full k).toList = List.range k := by
  have hperm : (full k).toList.Perm (List.range k) := by
    rw [List.perm_ext_iff_of_nodup (nodup_toList _) List.nodup_range]
    simp [mem_toList]
  apply hperm.eq_of_pairwise _ (pairwise_toList _) List.pairwise_lt_range
  intro i j _ _ hij hji
  exact absurd hij (Nat.lt_asymm hji)

/-- With the number of all subsets of the first `k` places as its bound the choice misses none. -/
theorem takeMatching_full (keep : BitSet → Bool) (k n : Nat) :
    (Subsets.of (full k)).takeMatching keep (1 <<< k) n =
      ((Subsets.of (full k)).toList.filter keep).take n := by
  rw [Subsets.takeMatching_eq, Subsets.toList, Subsets.of, toList_full, List.length_range]

/-- Among consecutive places the number of a set is a stretch of the digits of its mask. -/
theorem value_range' (j k : Nat) (s : BitSet) :
    value (List.range' j k) s = s.mask / 2 ^ j % 2 ^ k := by
  induction k generalizing j with
  | zero => simp [value, Nat.mod_one]
  | succ k ih =>
      calc
        value (List.range' j (k + 1)) s =
            (s.contains j).toNat + 2 * (s.mask / 2 ^ (j + 1) % 2 ^ k) := by
          rw [List.range'_succ, value, ih]
        _ = s.mask / 2 ^ j % 2 + 2 * (s.mask / 2 ^ j / 2 % 2 ^ k) := by
          rw [contains, Nat.toNat_testBit, Nat.div_div_eq_div_mul, ← Nat.pow_succ]
        _ = s.mask / 2 ^ j % 2 ^ (k + 1) := by
          rw [Nat.pow_succ', Nat.mod_mul]

theorem mask_lt_of_subset_full {k : Nat} {s : BitSet}
    (h : ∀ i, s.contains i = true → i < k) : s.mask < 2 ^ k := by
  apply Nat.lt_pow_two_of_testBit
  intro i hi
  exact Bool.eq_false_iff.2 fun hmem => absurd (h i hmem) (Nat.not_lt.2 hi)

end BitSet

/-- The subsets of the first `k` naturals come up in the order of their masks, which are the
numbers below `2 ^ k`. -/
theorem Subsets.map_mask_full (k : Nat) :
    (Subsets.of (BitSet.full k)).toList.map BitSet.mask = List.range (2 ^ k) := by
  have hvalue := map_value_toList (BitSet.full k)
  rw [BitSet.toList_full, List.length_range] at hvalue
  rw [← hvalue]
  apply List.map_congr_left
  intro s hs
  have hlt : s.mask < 2 ^ k := BitSet.mask_lt_of_subset_full fun i hi => by
    simpa using Subsets.mem_toList.1 hs i hi
  rw [List.range_eq_range', BitSet.value_range', Nat.pow_zero, Nat.div_one, Nat.mod_eq_of_lt hlt]

end SymbolicOmega
