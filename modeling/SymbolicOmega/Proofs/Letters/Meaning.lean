import Mathlib.Algebra.Group.Nat.Defs
import Mathlib.Data.Set.Image
import SymbolicOmega.Letters.LetterSet
import SymbolicOmega.Proofs.Diagram.Connectives

/-!
# Letters and their diagrams

A root means the set of the assignments at which it holds.  A letter over `k`
propositions is a subset of them, and an assignment reads as the letter of the
propositions whose variables hold.  Variables tell all propositions apart as long as
proposition numbers fit a signed number of 32 bits.
-/

namespace SymbolicOmega

open Manager

abbrev Assignment := UInt32 → Bool

/-- The reference `r` is not dangling and holds at exactly the assignments of `A`. -/
def Manager.Means (m : Manager) (r : Ref) (A : Set Assignment) : Prop :=
  m.Live r ∧ ∀ a, m.value r a = true ↔ a ∈ A

/-- The assignment that a letter is looked up with: variable `p + 1` is proposition `p`. -/
def BitSet.assignment (letter : BitSet) : Assignment :=
  fun v => letter.contains (v.toNat - 1)

/-- A letter over `k` propositions. -/
abbrev Letter (k : Nat) := Set (Fin k)

/-- The propositions of an alphabet that belong to a set of numbers. -/
def BitSet.over (s : BitSet) (k : Nat) : Letter k :=
  {p | s.contains p = true}

/-- The letter that an assignment reads as. -/
def letterAt (k : Nat) (a : Assignment) : Letter k :=
  {p | a (p.val + 1).toUInt32 = true}

/-- The letters that agree with `x` on some propositions. -/
def agreeing {k : Nat} (x on : Letter k) : Set (Letter k) :=
  {y | ∀ p ∈ on, (p ∈ y ↔ p ∈ x)}

theorem agreeing_univ {k : Nat} (x : Letter k) : agreeing x Set.univ = {x} := by
  ext y
  simp only [agreeing, Set.mem_ofPred_eq, Set.mem_univ, true_imp_iff, Set.mem_singleton_iff,
    Set.ext_iff]

namespace Manager

variable {m m' : Manager} {r s : Ref} {A B : Set Assignment}

theorem Denotes.means {F : Assignment → Bool} (h : m.Denotes r F)
    (hF : ∀ a, F a = true ↔ a ∈ A) : m.Means r A :=
  ⟨h.1, fun a => by rw [h.2, hF]⟩

theorem Means.extends (h : m.Means r A) (hm : m.Reduced) (hm' : m'.Reduced)
    (hextends : m.Extends m') : m'.Means r A :=
  ⟨hextends.live h.1, fun a => by rw [hextends.value hm hm' h.1, h.2]⟩

/-- A root that outlives a collection means what it meant. -/
theorem Means.collected (h : m.Means r A) (hm : m.Reduced) (hm' : m'.Reduced)
    (hextends : m'.Extends m) (hr : m'.Live r) : m'.Means r A :=
  ⟨hr, fun a => by rw [← hextends.value hm' hm hr, h.2]⟩

theorem means_one (hm : m.Reduced) : m.Means Ref.one Set.univ :=
  ⟨hm.live_one, fun a => by simp⟩

theorem means_zero (hm : m.Reduced) : m.Means Ref.zero ∅ :=
  ⟨hm.live_zero, fun a => by simp⟩

theorem Means.neg (h : m.Means r A) (hm : m.Reduced) : m.Means (-r) Aᶜ :=
  ⟨h.1, fun a => by rw [hm.value_neg h.1, Set.mem_compl_iff, ← h.2]; simp⟩

/-- Roots are equal exactly when they mean the same set. -/
theorem Means.eq_iff (hm : m.Reduced) (hr : m.Means r A) (hs : m.Means s B) :
    r = s ↔ A = B := by
  constructor
  · rintro rfl
    ext a
    rw [← hr.2, hs.2]
  · rintro rfl
    apply hm.eq_of_value_eq hr.1 hs.1
    intro a
    rw [Bool.eq_iff_iff, hr.2, hs.2]

/-- Whether a letter belongs to the set of a root is always answered, and rightly. -/
theorem Means.holdsIn (hm : m.Reduced) (hr : m.Means r A) (letter : BitSet) :
    ∃ b, LetterSet.holdsIn m r letter = .ok b ∧ (b = true ↔ letter.assignment ∈ A) :=
  ⟨_, hm.evaluate_eq hr.1 _, hr.2 _⟩

end Manager

/-! ## Variables -/

theorem toNat_variable {p : Nat} (hp : p + 1 < 2 ^ 32) : (p + 1).toUInt32.toNat = p + 1 :=
  Nat.mod_eq_of_lt hp

theorem variable_injective {p q : Nat} (hp : p + 1 < 2 ^ 32) (hq : q + 1 < 2 ^ 32)
    (h : (p + 1).toUInt32 = (q + 1).toUInt32) : p = q := by
  have hnat := congrArg UInt32.toNat h
  rw [toNat_variable hp, toNat_variable hq] at hnat
  omega

theorem Manager.Literal.toNat_var (literal : Manager.Literal) :
    literal.var.toNat = literal.number.toInt.natAbs := by
  have habs : literal.var.toNat = literal.number.toBitVec.abs.toNat := rfl
  have hlt := literal.number.toBitVec.isLt
  rw [habs, BitVec.toNat_abs, ← Int32.toInt_toBitVec, BitVec.toInt_eq_msb_cond]
  split <;> omega

section Literal
variable (letter : BitSet) {p : Nat} (hp : p + 1 < 2 ^ 31)
include hp

/-- The number of a proposition that fits a signed number of 32 bits is not changed. -/
private theorem toInt_literal :
    (Factory.literal letter p).number.toInt =
      if letter.contains p then ((p + 1 : Nat) : Int) else -(p + 1 : Nat) := by
  have hpos : (Int32.ofNat (p + 1)).toInt = (p + 1 : Nat) := Int32.toInt_ofNat_of_lt hp
  rw [Factory.literal]
  cases letter.contains p with
  | true => exact hpos
  | false =>
      have hneg : (-Int32.ofNat (p + 1)).toInt = -(p + 1 : Nat) := by
        rw [Int32.toInt_neg, hpos, Int.bmod_eq_of_le_mul_two (by omega) (by omega)]
      exact hneg

/-- A proposition whose number fits has a literal over its own variable. -/
theorem literal_var : (Factory.literal letter p).var = (p + 1).toUInt32 := by
  rw [← UInt32.toNat_inj, Manager.Literal.toNat_var, toInt_literal letter hp,
    toNat_variable (by omega)]
  split <;> omega

/-- This literal has to hold exactly if the proposition is in the letter. -/
theorem literal_positive : (Factory.literal letter p).positive = letter.contains p := by
  have hnumber := toInt_literal letter hp
  have hzero : (0 : Int32).toInt = 0 := rfl
  rw [Manager.Literal.positive]
  cases hmem : letter.contains p with
  | true =>
      rw [hmem, if_pos rfl] at hnumber
      exact decide_eq_true (Int32.lt_iff_toInt_lt.2 (by omega))
  | false =>
      rw [hmem, if_neg Bool.false_ne_true] at hnumber
      exact decide_eq_false (mt Int32.lt_iff_toInt_lt.1 (by omega))

/-- Neither making such literals nor sorting them overflows. -/
theorem literal_ne_minValue : (Factory.literal letter p).number ≠ Int32.minValue := by
  intro hmin
  have hnumber := toInt_literal letter hp
  rw [hmin, Int32.toInt_minValue] at hnumber
  split at hnumber <;> omega

theorem overflows_eq_false : Factory.overflows letter p = false := by
  have hpos : (Int32.ofNat (p + 1)).toInt = (p + 1 : Nat) := Int32.toInt_ofNat_of_lt hp
  have hne : Int32.ofNat (p + 1) ≠ Int32.minValue := by
    intro hmin
    rw [hmin, Int32.toInt_minValue] at hpos
    omega
  rw [Factory.overflows, beq_eq_false_iff_ne.2 hne, Bool.and_false]

end Literal

/-- The assignment of a letter reads as the letter, as far as numbers fit. -/
theorem mem_letterAt_assignment {k : Nat} {p : Fin k} (hp : p.val + 1 < 2 ^ 32) (letter : BitSet) :
    p ∈ letterAt k letter.assignment ↔ letter.contains p = true := by
  simp only [letterAt, BitSet.assignment, Set.mem_ofPred_eq, toNat_variable hp]
  rfl

/-! ## Readings of assignments -/

section Readings
variable {k : Nat} (hk : k < 2 ^ 31)
include hk

private theorem variable_lt (p : Fin k) : p.val + 1 < 2 ^ 32 := by omega

/-- Every letter is read off some assignment. -/
theorem exists_letterAt (x : Letter k) : ∃ a, letterAt k a = x := by
  classical
  refine ⟨fun v => decide (∃ p ∈ x, (p.val + 1).toUInt32 = v), ?_⟩
  ext p
  simp only [letterAt, Set.mem_ofPred_eq, decide_eq_true_eq]
  constructor
  · rintro ⟨q, hq, hsame⟩
    have hval := variable_injective (variable_lt hk q) (variable_lt hk p) hsame
    rwa [Fin.ext hval] at hq
  · exact fun hp => ⟨p, hp, rfl⟩

/-- Sets of letters are equal when the same assignments read as their letters. -/
theorem preimage_letterAt_inj {A B : Set (Letter k)} :
    Set.preimage (letterAt k) A = Set.preimage (letterAt k) B ↔ A = B :=
  (Set.preimage_injective.2 fun x => exists_letterAt hk x).eq_iff

theorem letterAt_assignment (letter : BitSet) : letterAt k letter.assignment = letter.over k := by
  ext p
  exact mem_letterAt_assignment (variable_lt hk p) letter

end Readings

section Literals
variable {k : Nat} {propositions : List Nat}

/-- The literals of propositions that are fixed to their values in a letter. -/
theorem satisfies_literals (hfit : ∀ p ∈ propositions, p < k → p + 1 < 2 ^ 31) (letter : BitSet)
    (a : Assignment) :
    satisfies ((propositions.filter (· < k)).map (Factory.literal letter)) a = true ↔
      letterAt k a ∈ agreeing (letter.over k) {p | p.val ∈ propositions} := by
  simp only [satisfies, List.all_eq_true, List.mem_map, List.mem_filter, decide_eq_true_eq,
    forall_exists_index, and_imp, agreeing, Set.mem_ofPred_eq]
  have hliteral : ∀ p : Fin k, p.val ∈ propositions →
      ((a (Factory.literal letter p).var == (Factory.literal letter p).positive) = true ↔
        (p ∈ letterAt k a ↔ p ∈ letter.over k)) := by
    intro p hp
    rw [literal_var letter (hfit p hp p.isLt), literal_positive letter (hfit p hp p.isLt)]
    simp only [letterAt, BitSet.over, Set.mem_ofPred_eq, beq_iff_eq]
    exact Bool.eq_iff_iff
  constructor
  · intro h p hp
    exact (hliteral p hp).1 (h _ p.val hp p.isLt rfl)
  · rintro h _ p hp hlt rfl
    exact (hliteral ⟨p, hlt⟩ hp).2 (h ⟨p, hlt⟩ hp)

theorem literals_distinct (hfit : ∀ p ∈ propositions, p < k → p + 1 < 2 ^ 31) (letter : BitSet)
    (hnodup : propositions.Nodup) :
    (((propositions.filter (· < k)).map (Factory.literal letter)).map (·.var)).Nodup := by
  rw [List.map_map]
  apply (hnodup.filter _).map_on
  simp only [List.mem_filter, decide_eq_true_eq, Function.comp_apply]
  rintro p ⟨hp, hpk⟩ q ⟨hq, hqk⟩ hsame
  have hpfit := hfit p hp hpk
  have hqfit := hfit q hq hqk
  rw [literal_var letter hpfit, literal_var letter hqfit] at hsame
  exact variable_injective (by omega) (by omega) hsame

end Literals

end SymbolicOmega
