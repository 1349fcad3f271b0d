import Mathlib.Data.Nat.Bitwise
import Mathlib.Logic.Function.Iterate
import SymbolicOmega.Proofs.BitSet.Words

/-!
# Walks over packed sets

A walk clears the lowest digit of the word it stands on and passes over words without
digits.  What is still ahead of it therefore loses exactly its least member with every
call, and once nothing is ahead no call answers any more.
-/

namespace SymbolicOmega

namespace PackedSet

/-- Taking one from a number whose lowest digit is at `t` changes no digit above it. -/
theorem testBit_and_pred {n t : Nat} (hset : n.testBit t = true)
    (hbelow : ∀ k < t, n.testBit k = false) (k : Nat) :
    (n &&& (n - 1)).testBit k = (n.testBit k && decide (t ≠ k)) := by
  have hlow : n % 2 ^ (t + 1) = 2 ^ t := by
    apply Nat.eq_of_testBit_eq
    intro j
    rw [Nat.testBit_mod_two_pow, Nat.testBit_two_pow]
    rcases Nat.lt_trichotomy j t with hj | rfl | hj
    · simp [hbelow j hj, Nat.ne_of_gt hj]
    · simp [hset]
    · simp [Nat.not_lt.2 (Nat.succ_le_of_lt hj), Nat.ne_of_lt hj]
  have hsplit : n = 2 ^ (t + 1) * (n / 2 ^ (t + 1)) + 2 ^ t := by
    rw [← hlow, Nat.div_add_mod]
  have hpred : n - 1 = 2 ^ (t + 1) * (n / 2 ^ (t + 1)) + (2 ^ t - 1) := by
    have hpos := Nat.two_pow_pos t
    omega
  have hbound : 2 ^ t - 1 < 2 ^ (t + 1) := by
    rw [Nat.pow_succ]
    omega
  rw [Nat.testBit_and, hpred, Nat.testBit_two_pow_mul_add _ hbound]
  rcases Nat.lt_trichotomy k t with hk | rfl | hk
  · simp [hbelow k hk]
  · simp [Nat.testBit_two_pow_sub_one]
  · rw [if_neg (Nat.not_lt.2 (Nat.succ_le_of_lt hk)), Nat.testBit_div_two_pow,
      Nat.sub_add_cancel (Nat.succ_le_of_lt hk)]
    simp [Nat.ne_of_lt hk]

variable {w : UInt64}

theorem getLsbD_lowest (h : w ≠ 0) : w.toBitVec.getLsbD (lowest w) = true := by
  apply BitVec.getLsbD_true_ctz_of_ne_zero
  exact fun hzero => h (UInt64.toBitVec_inj.1 hzero)

theorem getLsbD_of_lt_lowest {place : Nat} (h : place < lowest w) :
    w.toBitVec.getLsbD place = false :=
  BitVec.getLsbD_false_of_lt_ctz h

theorem lowest_lt (h : w ≠ 0) : lowest w < 64 :=
  BitVec.lt_of_getLsbD (getLsbD_lowest h)

/-- The step of a walk clears the lowest digit and no other. -/
theorem getLsbD_clearLowest (h : w ≠ 0) (place : Nat) :
    (w &&& (w - 1)).toBitVec.getLsbD place =
      (w.toBitVec.getLsbD place && decide (lowest w ≠ place)) := by
  have hset := getLsbD_lowest h
  have hbelow : ∀ k < lowest w, w.toNat.testBit k = false := fun k hk =>
    getLsbD_of_lt_lowest hk
  simp only [BitVec.getLsbD, UInt64.toNat_toBitVec] at hset ⊢
  rw [UInt64.toNat_and, UInt64.toNat_sub_of_le _ _ (one_le_of_ne_zero h)]
  exact testBit_and_pred hset hbelow place

/-! ## What is ahead -/

namespace Walk

/-- `i` has not come up yet: it is left of the current word, or in a later one. -/
def Ahead (walk : Walk) (i : Nat) : Prop :=
  (walk.position = i / 64 ∧ walk.current.toBitVec.getLsbD (i % 64) = true) ∨
    (walk.position < i / 64 ∧ (walk.words.getD (i / 64) 0).toBitVec.getLsbD (i % 64) = true)

/-- A call answers the least member ahead, and no other leaves. -/
theorem next_ahead (walk : Walk) :
    match walk.next with
    | (none, _) => ∀ i, ¬ walk.Ahead i
    | (some i, later) =>
        (∀ j, walk.Ahead j ↔ j = i ∨ later.Ahead j) ∧ ∀ j, later.Ahead j → i < j := by
  fun_induction next walk with
  | case1 walk hcurrent =>
      have hne : walk.current ≠ 0 := bne_iff_ne.1 hcurrent
      have hlt := lowest_lt hne
      constructor
      · intro j
        have hj : j = 64 * walk.position + lowest walk.current ↔
            walk.position = j / 64 ∧ lowest walk.current = j % 64 := by omega
        rw [Ahead, Ahead, hj, getLsbD_clearLowest hne]
        by_cases hlow : lowest walk.current = j % 64
        · simp [← hlow, getLsbD_lowest hne]
        · simp [hlow]
      · intro j hahead
        rw [Ahead] at hahead
        dsimp only at hahead
        rcases hahead with ⟨hword, hdigit⟩ | ⟨hword, -⟩
        · rw [getLsbD_clearLowest hne, Bool.and_eq_true, decide_eq_true_eq] at hdigit
          have hnot : ¬ j % 64 < lowest walk.current := by
            intro hbelow
            rw [getLsbD_of_lt_lowest hbelow] at hdigit
            exact Bool.false_ne_true hdigit.1
          omega
        · omega
  | case2 walk hcurrent hmore ih =>
      have hzero : walk.current = 0 := by simpa using hcurrent
      have hsame : ∀ j, walk.Ahead j ↔
          (Walk.mk walk.words (walk.position + 1) walk.words[walk.position + 1]).Ahead j := by
        intro j
        rw [Ahead, Ahead, hzero]
        by_cases hword : walk.position + 1 = j / 64
        · simp [← hword, hmore]
        · have hlater : walk.position < j / 64 ↔ walk.position + 1 < j / 64 := by omega
          simp [hword, hlater]
      simpa only [hsame] using ih
  | case3 walk hcurrent hend =>
      have hzero : walk.current = 0 := by simpa using hcurrent
      intro j hahead
      rcases hahead with ⟨-, hdigit⟩ | ⟨hword, hdigit⟩
      · simp [hzero] at hdigit
      · have hout : walk.words.size ≤ j / 64 := by omega
        simp [Array.getD_eq_getD_getElem?, Array.getElem?_eq_none hout] at hdigit

theorem mem_toList {walk : Walk} {i : Nat} : i ∈ walk.toList ↔ walk.Ahead i := by
  fun_induction toList walk with
  | case1 walk later hnext =>
      have hahead := next_ahead walk
      rw [hnext] at hahead
      simpa using hahead i
  | case2 walk first later hnext ih =>
      have hahead := next_ahead walk
      rw [hnext] at hahead
      rw [List.mem_cons, ih, hahead.1]

theorem pairwise_toList (walk : Walk) : walk.toList.Pairwise (· < ·) := by
  fun_induction toList walk with
  | case1 => exact List.Pairwise.nil
  | case2 walk first later hnext ih =>
      have hahead := next_ahead walk
      rw [hnext] at hahead
      exact List.pairwise_cons.2 ⟨fun j hj => hahead.2 j (mem_toList.1 hj), ih⟩

/-! ## The end -/

/-- The walk after a call. -/
def step (walk : Walk) : Walk :=
  walk.next.2

/-- A walk that has answered nothing never answers again. -/
theorem next_step_of_none {walk : Walk} (h : walk.next.1 = none) : walk.step.next.1 = none := by
  unfold step
  fun_induction next walk with
  | case1 => cases h
  | case2 walk hcurrent hmore ih => exact ih h
  | case3 walk hcurrent hend =>
      have hzero : walk.current = 0 := by simpa using hcurrent
      have hend' : ¬ walk.position + 1 + 1 < walk.words.size := by omega
      rw [next, if_neg (by simp [hzero]), dif_neg hend']

theorem toList_eq (walk : Walk) :
    walk.toList = match walk.next.1 with
      | none => []
      | some i => i :: walk.step.toList := by
  rw [toList, step]
  split
  · next hnext => rw [hnext]
  · next hnext => rw [hnext]

/-- Call number `n` answers member number `n`, and every call after the last member nothing. -/
theorem answer_eq_getElem? (walk : Walk) (n : Nat) :
    (step^[n] walk).next.1 = walk.toList[n]? := by
  induction n generalizing walk with
  | zero =>
      rw [Function.iterate_zero_apply, toList_eq]
      cases walk.next.1 with
      | none => rfl
      | some i => rfl
  | succ n ih =>
      rw [Function.iterate_succ_apply, ih, toList_eq walk]
      cases hanswer : walk.next.1 with
      | none =>
          rw [toList_eq, next_step_of_none hanswer]
          rfl
      | some i => rw [List.getElem?_cons_succ]

end Walk

theorem walk_ahead (s : PackedSet) (i : Nat) : s.walk.Ahead i ↔ s.contains i = true := by
  rw [Walk.Ahead, contains_eq]
  cases hword : i / 64 with
  | zero => simp [walk, word]
  | succ position => simp [walk, word]

theorem mem_toList {s : PackedSet} {i : Nat} : i ∈ s.toList ↔ s.contains i = true :=
  Walk.mem_toList.trans (walk_ahead s i)

theorem pairwise_toList (s : PackedSet) : s.toList.Pairwise (· < ·) :=
  Walk.pairwise_toList s.walk

@[simp]
theorem contains_toBitSet (s : PackedSet) (i : Nat) : s.toBitSet.contains i = s.contains i := by
  rw [toBitSet, BitSet.contains_ofList, Bool.eq_iff_iff, decide_eq_true_eq, mem_toList]

end PackedSet

end SymbolicOmega
