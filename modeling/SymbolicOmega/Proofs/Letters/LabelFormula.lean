import SymbolicOmega.Letters.Label
import SymbolicOmega.Proofs.Letters.Ledger

/-!
# Label formulas

The formula of a letter set decides what its diagram decides, one variable after the
other, so it is true of the letters in the set and of no others.  A set that is not
empty has a letter: its diagram looks at variables of propositions alone.
-/

namespace SymbolicOmega

namespace Manager

/-- The assignment in which a variable holds if the atom of its proposition does. -/
def readAtoms (shown : Nat → LabelAtom) (valuation : LabelAtom → Bool) : Assignment :=
  fun v => valuation (shown (v.toNat - 1))

/-- Deciding an atom first and then going on with either half. -/
theorem evaluate_decision (atom : LabelAtom) (ifHolds otherwise : Formula LabelAtom)
    (valuation : LabelAtom → Bool) :
    ((Formula.conj (.atom atom) ifHolds).disj
        (Formula.conj (Formula.neg (.atom atom)) otherwise)).evaluate valuation =
      if valuation atom then ifHolds.evaluate valuation else otherwise.evaluate valuation := by
  cases hatom : valuation atom <;> simp [Formula.evaluate, hatom]

theorem bind_ok {α β : Type} (a : α) (f : α → Except Fault β) :
    (Except.ok a >>= f) = f a := rfl

variable {m : Manager} {r : Ref}

namespace Reduced

/-- A stored node decides its variable, and a negated reference negates what is below. -/
theorem value_split (hm : m.Reduced) {node : Node} (hindex : r.index ≠ 1)
    (hstored : m.nodes.stored? r.index = some node) (a : Assignment) :
    m.value r a = if a node.var then m.value (node.high.negateIf r.negated) a
      else m.value (node.low.negateIf r.negated) a := by
  rw [hm.value_node hindex hstored, hm.value_negateIf (hm.live_high hindex hstored),
    hm.value_negateIf (hm.live_low hindex hstored)]
  cases a node.var <;> rfl

/-- Within a bound beyond the number of variables left, a reference has a formula, and the
formula has its values. -/
theorem formulaWithin_eq (hm : m.Reduced) (shown : Nat → LabelAtom) (bound : Nat) :
    ∀ r : Ref, m.Live r → UInt32.size - m.rank r < bound →
      ∃ e, m.formulaWithin shown bound r = .ok e ∧
        ∀ valuation, e.evaluate valuation = m.value r (readAtoms shown valuation) := by
  induction bound with
  | zero => exact fun r _ hbound => absurd hbound (Nat.not_lt_zero _)
  | succ bound ih =>
      intro r hr hbound
      rw [formulaWithin]
      by_cases hone : r = Ref.one
      · subst hone
        exact ⟨.top, if_pos rfl, fun valuation => (value_one _).symm⟩
      by_cases hzero : r = Ref.zero
      · subst hzero
        exact ⟨.bot, by rw [if_neg hone, if_pos rfl], fun valuation => (value_zero _).symm⟩
      have hindex := Ref.index_ne_one hone hzero
      obtain ⟨node, hstored⟩ := hr
      have hvar := node.var.toNat_lt_size
      have hrank := rank_of_stored hindex hstored
      have hlow := hm.lt_rank_low hindex hstored
      have hhigh := hm.lt_rank_high hindex hstored
      have hvalue := hm.value_split hindex hstored
      rw [if_neg hone, if_neg hzero, node_of_stored hstored]
      simp only [bind_ok]
      by_cases hpositive : node.high.negateIf r.negated = Ref.one ∧
          node.low.negateIf r.negated = Ref.zero
      · rw [if_pos hpositive]
        refine ⟨_, rfl, fun valuation => ?_⟩
        rw [hvalue, hpositive.1, hpositive.2, value_one, value_zero]
        cases hatom : valuation (shown (node.var.toNat - 1)) <;>
          simp [Formula.evaluate, readAtoms, hatom]
      rw [if_neg hpositive]
      by_cases hnegative : node.high.negateIf r.negated = Ref.zero ∧
          node.low.negateIf r.negated = Ref.one
      · rw [if_pos hnegative]
        refine ⟨_, rfl, fun valuation => ?_⟩
        rw [hvalue, hnegative.1, hnegative.2, value_one, value_zero]
        cases hatom : valuation (shown (node.var.toNat - 1)) <;>
          simp [Formula.evaluate, readAtoms, hatom]
      rw [if_neg hnegative]
      obtain ⟨ifHolds, hifHolds, hholds⟩ := ih (node.high.negateIf r.negated)
        (live_negateIf.2 (hm.live_high hindex hstored)) (by rw [rank_negateIf]; omega)
      obtain ⟨otherwise, hotherwise, hnot⟩ := ih (node.low.negateIf r.negated)
        (live_negateIf.2 (hm.live_low hindex hstored)) (by rw [rank_negateIf]; omega)
      rw [hifHolds, hotherwise]
      refine ⟨_, rfl, fun valuation => ?_⟩
      rw [hvalue, evaluate_decision, hholds, hnot]
      rfl

/-- A reference to a stored node has a formula, and the formula has its values. -/
theorem formula_eq (hm : m.Reduced) (hr : m.Live r) (shown : Nat → LabelAtom) :
    ∃ e, m.formula shown r = .ok e ∧
      ∀ valuation, e.evaluate valuation = m.value r (readAtoms shown valuation) :=
  hm.formulaWithin_eq shown pathBound r hr (by unfold pathBound; omega)

end Reduced

/-- The letter of those of the first `k` propositions whose variables hold. -/
def letterOf (k : Nat) (a : Assignment) : BitSet :=
  .ofList ((List.range k).filter fun p => a (p + 1).toUInt32)

theorem lt_of_mem_letterOf {k p : Nat} {a : Assignment}
    (hp : (letterOf k a).contains p = true) : p < k := by
  rw [letterOf, BitSet.contains_ofList, decide_eq_true_eq, List.mem_filter, List.mem_range] at hp
  exact hp.1

theorem assignment_letterOf {k : Nat} (a : Assignment) {v : UInt32} (hv : 0 < v.toNat)
    (hk : v.toNat ≤ k) : (letterOf k a).assignment v = a v := by
  have hself : (v.toNat - 1 + 1).toUInt32 = v := by
    rw [Nat.sub_add_cancel hv]
    exact UInt32.ofNat_toNat
  have hmem : v.toNat - 1 < k := by omega
  simp only [BitSet.assignment, letterOf, BitSet.contains_ofList, List.mem_filter, List.mem_range,
    hmem, true_and, hself, Bool.decide_eq_true]

/-- A root that means some assignment means that of some letter. -/
theorem Means.exists_letter (hm : m.Reduced) {A : Set Assignment} (h : m.Means r A)
    (hA : A.Nonempty) : ∃ letter : BitSet, letter.assignment ∈ A := by
  obtain ⟨a, ha⟩ := hA
  refine ⟨letterOf UInt32.size a, (h.2 _).1 ?_⟩
  rw [← (h.2 a).2 ha]
  apply hm.value_congr h.1
  intro v hv
  exact assignment_letterOf a (lt_of_lt_of_le (hm.rank_pos h.1) hv) v.toNat_lt_size.le

end Manager

namespace LetterSet

open Workspace

variable {w : Workspace} {i k : Nat} {L : Ledger} {s : LetterSet} {A : Set Assignment}

/-- The formula of a set is true of its letters. -/
theorem formulaWith_run (h : w.Keeps i k L) (hs : (s, A) ∈ L) (shown : Nat → LabelAtom) :
    ∃ e, s.formulaWith shown w = .ok e w ∧
      ∀ (valuation : LabelAtom → Bool) (letter : BitSet),
        (∀ p, valuation (shown p) = letter.contains p) →
          (e.evaluate valuation = true ↔ letter.assignment ∈ A) := by
  have howner := h.owner _ hs
  dsimp only at howner
  subst howner
  obtain ⟨f, hf, hholds⟩ := h.holds
  have hmeans := means_of_mem hholds hs
  obtain ⟨e, he, hvalue⟩ := hholds.canonical.reduced.formula_eq hmeans.1 shown
  refine ⟨e, askFactory_run hf he, fun valuation letter hreads => ?_⟩
  have hletter : Manager.readAtoms shown valuation = letter.assignment :=
    funext fun v => hreads (v.toNat - 1)
  rw [hvalue, hletter, hmeans.2]

/-- A set that is not empty has a letter. -/
theorem exists_letter_mem (h : w.Keeps i k L) (hs : (s, A) ∈ L) (hne : A.Nonempty) :
    ∃ letter : BitSet, letter.assignment ∈ A := by
  obtain ⟨f, -, hholds⟩ := h.holds
  exact (means_of_mem hholds hs).exists_letter hholds.canonical.reduced hne

end LetterSet

end SymbolicOmega
