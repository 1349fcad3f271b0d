import SymbolicOmega.Letters.Label
import SymbolicOmega.Proofs.Letters.Ledger

/-!
# Propositions beyond signed numbers

A cube fixes a proposition by a signed number of 32 bits.  The number of proposition `2 ^ 31` is
that of proposition `2 ^ 31 - 2` with the opposite sign, so a cube over both decides one variable
twice.  It has no letters, but it is not the empty set, and it is counted as if it had some.
-/

namespace SymbolicOmega

namespace LetterSet

open Workspace

/-- Every list in increasing order is the list of an alphabet. -/
theorem exists_alphabet {members : List Nat} (h : members.Pairwise (· < ·)) :
    ∃ alphabet : BitSet, alphabet.toList = members := by
  have hnodup : members.Nodup := h.imp Nat.ne_of_lt
  have hperm : (BitSet.ofList members).toList.Perm members :=
    (List.perm_ext_iff_of_nodup (BitSet.nodup_toList _) hnodup).2 fun p => by
      rw [BitSet.mem_toList, BitSet.contains_ofList, decide_eq_true_eq]
  exact ⟨_, hperm.eq_of_pairwise (fun _ _ _ _ hlt hgt => absurd hlt (Nat.lt_asymm hgt))
    (BitSet.pairwise_toList _) h⟩

def smallManager : Manager :=
  match Manager.ofSizing ⟨3, 2, 5⟩ with
  | .ok m => m
  | .error _ => default

def factoryOver (k : Nat) : Factory := ⟨smallManager, k, Roots.none⟩

theorem ofSizing_small (k : Nat) : Factory.ofSizing k ⟨3, 2, 5⟩ = .ok (factoryOver k) := by
  have hm : Manager.ofSizing ⟨3, 2, 5⟩ = .ok smallManager := rfl
  simp [Factory.ofSizing, hm, factoryOver]

section Restricted
variable {k : Nat} {letter alphabet : BitSet} {literals : List Manager.Literal} {r : Ref}
variable {m : Manager}

/-- Where the literals make a cube, that cube is the set. -/
theorem restricted_run
    (hfixed : (alphabet.toList.filter (· < k)).any (Factory.overflows letter) = false)
    (hliterals : (alphabet.toList.filter (· < k)).map (Factory.literal letter) = literals)
    (hcube : Manager.mkCube literals smallManager = .ok r m) :
    ∃ roots w, restricted 0 letter alphabet (ofFactories [factoryOver k]) = .ok ⟨0, r⟩ w ∧
      w.factories[0]? = some ⟨m, k, roots⟩ := by
  have hsafe : Factory.safePoint (factoryOver k) = .ok () (factoryOver k) := rfl
  have hmake : Factory.cube letter alphabet.toList (factoryOver k) =
      .ok r ⟨m, k, Roots.none⟩ := by
    change (do
      if (alphabet.toList.filter (· < k)).any (Factory.overflows letter) then
        throw Fault.arithmeticOverflow
      Factory.onManager (Manager.mkCube
        ((alphabet.toList.filter (· < k)).map (Factory.literal letter))) : FactoryM Ref)
      (factoryOver k) = _
    simp only [hfixed, hliterals, Bool.false_eq_true, if_false]
    simp only [factoryOver, Factory.onManager, hcube]
  have hroot : (do Factory.safePoint; Factory.cube letter alphabet.toList) (factoryOver k) =
      .ok r ⟨m, k, Roots.none⟩ := by
    calc
      (do Factory.safePoint; Factory.cube letter alphabet.toList) (factoryOver k) =
          Factory.cube letter alphabet.toList (factoryOver k) := run_bind hsafe
      _ = .ok r ⟨m, k, Roots.none⟩ := hmake
  obtain ⟨roots, hacquire, -⟩ :=
    Factory.acquire_lists (f := ⟨m, k, Roots.none⟩) Roots.none_lists r
  have hrestricted : Factory.restricted letter alphabet (factoryOver k) =
      .ok r ⟨m, k, roots⟩ := by
    calc
      Factory.restricted letter alphabet (factoryOver k) =
          (do Factory.acquire r; return r) ⟨m, k, Roots.none⟩ := run_bind hroot
      _ = .ok r ⟨m, k, roots⟩ := run_bind hacquire
  have hfactory : (ofFactories [factoryOver k]).factories[0]? = some (factoryOver k) := rfl
  obtain ⟨w, hin, hw⟩ := inFactory_ok hfactory hrestricted
  exact ⟨roots, w, run_bind hin, hw⟩

end Restricted

/-- The literals of propositions `2 ^ 31 - 2` and `2 ^ 31` in the letter without both. -/
def opposite : List Manager.Literal := [.ofSigned (-2147483647), .ofSigned 2147483647]

theorem opposite_literals {k : Nat} (hk : 2 ^ 31 < k) {alphabet : BitSet}
    (hlist : alphabet.toList = [2147483646, 2147483648]) :
    (alphabet.toList.filter (· < k)).any (Factory.overflows BitSet.empty) = false ∧
      (alphabet.toList.filter (· < k)).map (Factory.literal BitSet.empty) = opposite := by
  have hinside : alphabet.toList.filter (· < k) = [2147483646, 2147483648] := by
    rw [hlist, List.filter_eq_self]
    intro p hp
    simp only [List.mem_cons, List.not_mem_nil, or_false] at hp
    rw [decide_eq_true_eq]
    omega
  rw [hinside]
  exact ⟨by decide, by decide⟩

/-- The diagram after both, in which one variable is decided twice. -/
def twisted : Manager :=
  match opposite.foldrM Manager.conjoinLiteral Ref.one smallManager with
  | .ok _ m => m
  | .error _ m => m

theorem opposite_run : Manager.mkCube opposite smallManager = .ok ⟨3, true⟩ twisted := by
  have hfits : ¬ Manager.Overflows opposite := by decide
  have hsorted : opposite.mergeSort (fun a b => a.number.abs ≤ b.number.abs) = opposite :=
    List.mergeSort_of_pairwise (by decide)
  have hanswer : (match opposite.foldrM Manager.conjoinLiteral Ref.one smallManager with
      | .ok r _ => some r
      | .error _ _ => none) = some ⟨3, true⟩ := by decide +kernel
  rw [Manager.mkCube, if_neg hfits, hsorted, twisted]
  cases hrun : opposite.foldrM Manager.conjoinLiteral Ref.one smallManager with
  | ok r m =>
      rw [hrun] at hanswer
      rw [Option.some.inj hanswer]
  | error fault m =>
      rw [hrun] at hanswer
      cases hanswer

theorem twisted_two : twisted.node 2 = .ok ⟨2147483647, Ref.zero, Ref.one⟩ := by
  decide +kernel

theorem twisted_three : twisted.node 3 = .ok ⟨2147483647, ⟨2, true⟩, Ref.one⟩ := by
  decide +kernel

private theorem exists_pathBound : ∃ bound, Manager.pathBound = bound + 3 :=
  ⟨UInt32.size - 2, rfl⟩

/-- No assignment satisfies both literals. -/
theorem twisted_evaluate (a : UInt32 → Bool) : twisted.evaluate ⟨3, true⟩ a = .ok false := by
  obtain ⟨bound, hbound⟩ := exists_pathBound
  have hthree : Ref.isTerminal ⟨3, true⟩ = false := by decide
  have htwo : Ref.isTerminal ⟨2, false⟩ = false := by decide
  rw [Manager.evaluate, hbound, Manager.evaluateWithin]
  simp only [hthree, Bool.false_eq_true, if_false, twisted_three]
  cases ha : a 2147483647 with
  | true => rfl
  | false =>
      change twisted.evaluateWithin a (bound + 2) ⟨2, false⟩ = .ok false
      rw [Manager.evaluateWithin]
      simp only [htwo, Bool.false_eq_true, if_false, twisted_two, ha]
      rfl

theorem twisted_formula (shown : Nat → LabelAtom) :
    twisted.formula shown ⟨3, true⟩ =
      .ok (.and (.not (.atom (shown 2147483646))) (.atom (shown 2147483646))) := by
  obtain ⟨bound, hbound⟩ := exists_pathBound
  rw [Manager.formula, hbound]
  simp [Manager.formulaWithin, twisted_two, twisted_three, Ref.negateIf, Ref.one, Ref.zero,
    Neg.neg, Ref.neg, Formula.conj, Formula.disj, Formula.neg, bind, Except.bind, pure, Except.pure]

/-- Counting takes the two decisions for independent ones. -/
theorem twisted_count (j : Nat) : twisted.count ⟨3, true⟩ (j + 2) = .ok (2 ^ j) := by
  obtain ⟨bound, hbound⟩ := exists_pathBound
  have htotal : 1 <<< (j + 2) = 4 * 2 ^ j := by
    rw [Nat.one_shiftLeft, Nat.pow_add, Nat.mul_comm]
  have hhalves : 4 * 2 ^ j - (4 * 2 ^ j - 4 * 2 ^ j / 2 + 4 * 2 ^ j) / 2 = 2 ^ j := by omega
  rw [Manager.count, hbound, htotal]
  simpa [Manager.countWithin, twisted_two, twisted_three, Ref.one, Ref.zero, bind, Except.bind,
    pure, Except.pure] using hhalves

/-- Over any alphabet that has both propositions, the letters without both are none.  The set of
them is not taken for empty, and it is spelled out and counted as if it had some. -/
theorem restricted_clash {k : Nat} (hk : 2 ^ 31 < k) {alphabet : BitSet}
    (hlist : alphabet.toList = [2147483646, 2147483648]) :
    ∃ s f w, restricted 0 BitSet.empty alphabet (ofFactories [factoryOver k]) = .ok s w ∧
      w.factories[s.owner]? = some f ∧ f.alphabetSize = k ∧ s.isEmpty = false ∧
      (∀ letter, holdsIn f.manager s.root letter = .ok false) ∧
      (∀ shown, s.formulaWith shown w =
        .ok (.and (.not (.atom (shown 2147483646))) (.atom (shown 2147483646))) w) ∧
      s.size w = .ok (2 ^ (k - 2)) w := by
  obtain ⟨hfixed, hliterals⟩ := opposite_literals hk hlist
  obtain ⟨roots, w, hrun, hw⟩ := restricted_run hfixed hliterals opposite_run
  obtain ⟨j, rfl⟩ : ∃ j, k = j + 2 := ⟨k - 2, by omega⟩
  -- of the diagram only this is needed
  have hevaluate := twisted_evaluate
  have hformula := twisted_formula
  have hcount := twisted_count j
  generalize twisted = m at hw hevaluate hformula hcount
  exact ⟨⟨0, ⟨3, true⟩⟩, ⟨m, j + 2, roots⟩, w, hrun, hw, rfl, rfl, fun _ => hevaluate _,
    fun shown => askFactory_run hw (hformula shown), askFactory_run hw hcount⟩

/-- The empty set of a new factory is what it should be. -/
theorem empty_run (k : Nat) :
    ∃ t w, empty 0 (ofFactories [factoryOver k]) = .ok t w ∧
      (∀ letter, t.contains letter w = .ok false w) ∧
      ∀ shown, t.formulaWith shown w = .ok .bot w := by
  obtain ⟨roots, hacquire, -⟩ :=
    Factory.acquire_lists (f := factoryOver k) Roots.none_lists Ref.zero
  have hempty : Factory.holding (pure Ref.zero) (factoryOver k) =
      .ok Ref.zero { factoryOver k with roots := roots } := by
    calc
      Factory.holding (pure Ref.zero) (factoryOver k) =
          (do Factory.acquire Ref.zero; return Ref.zero) (factoryOver k) := rfl
      _ = .ok Ref.zero { factoryOver k with roots := roots } := run_bind hacquire
  have hfactory : (ofFactories [factoryOver k]).factories[0]? = some (factoryOver k) := rfl
  obtain ⟨w, hin, hw⟩ := inFactory_ok hfactory hempty
  exact ⟨⟨0, Ref.zero⟩, w, run_bind hin, fun letter => askFactory_run hw rfl,
    fun shown => askFactory_run hw rfl⟩

end LetterSet

end SymbolicOmega
