import SymbolicOmega.Proofs.BitSet.Subsets
import SymbolicOmega.Proofs.Diagram.Counting
import SymbolicOmega.Proofs.Letters.Spelling

/-!
# Sizes and letters

The size of a set is counted in its diagram, and its letters are found by trying all letters of
the alphabet in the order of a binary counter.  Both come from the same values: a set has as many
letters as assignments of the variables of its propositions satisfy its root.
-/

namespace SymbolicOmega

open Manager

variable {m : Manager} {r : Ref} {k : Nat}

/-- Which of the propositions of an alphabet are in a letter. -/
def BitSet.bits (k : Nat) (letter : BitSet) : Fin k → Bool :=
  fun p => letter.contains p

/-- The letter of the propositions that are chosen. -/
def BitSet.ofBits {k : Nat} (x : Fin k → Bool) : BitSet :=
  .ofList (((List.finRange k).filter x).map Fin.val)

theorem BitSet.contains_ofBits (x : Fin k → Bool) (p : Nat) :
    (ofBits x).contains p = true ↔ ∃ h : p < k, x ⟨p, h⟩ = true := by
  simp only [ofBits, contains_ofList, decide_eq_true_eq, List.mem_map, List.mem_filter,
    List.mem_finRange, true_and]
  constructor
  · rintro ⟨q, hq, rfl⟩
    exact ⟨q.isLt, hq⟩
  · rintro ⟨h, hp⟩
    exact ⟨⟨p, h⟩, hp, rfl⟩

theorem BitSet.bits_ofBits (x : Fin k → Bool) : (ofBits x).bits k = x := by
  funext p
  rw [Bool.eq_iff_iff, bits, contains_ofBits]
  exact exists_prop_of_true p.isLt

/-- A letter over an alphabet is told by its propositions. -/
theorem BitSet.eq_of_bits_eq {s t : BitSet} (hs : ∀ p, s.contains p = true → p < k)
    (ht : ∀ p, t.contains p = true → p < k) (h : s.bits k = t.bits k) : s = t := by
  apply BitSet.ext_contains
  intro p
  by_cases hp : p < k
  · exact congrFun h ⟨p, hp⟩
  · rw [Bool.eq_false_iff.2 (mt (hs p) hp), Bool.eq_false_iff.2 (mt (ht p) hp)]

namespace Manager

/-- A letter and the assignment of its propositions give a reference the same value, if no other
variable matters. -/
theorem Within.value_bits (hm : m.Reduced) (hr : m.Live r) (h : m.Within k r) (letter : BitSet) :
    m.value r (assigning (letter.bits k)) = m.value r letter.assignment := by
  -- the variable 0 holds in a letter with the first proposition, and it never matters
  rw [← hm.value_update (v := 0) hr (hm.rank_pos hr) (letter.assignment 0)]
  apply h
  intro v hv
  by_cases hzero : v = 0
  · rw [hzero, Function.update_self]
  · have hpos : 0 < v.toNat := Nat.pos_of_ne_zero fun h => hzero (UInt32.toNat_inj.1 h)
    rw [Function.update_of_ne hzero, assigning_of_le hpos hv]
    rfl

/-! ## The letters of a root -/

/-- The letters over `k` propositions that belong to the set of a root, in counting order. -/
def lettersOf (m : Manager) (k : Nat) (r : Ref) : List BitSet :=
  (Subsets.of (BitSet.full k)).toList.filter fun letter =>
    LetterSet.holdsIn m r letter matches .ok true

theorem mem_lettersOf {letter : BitSet} : letter ∈ m.lettersOf k r ↔
    (∀ p, letter.contains p = true → p < k) ∧ LetterSet.holdsIn m r letter = .ok true := by
  rw [lettersOf, List.mem_filter, Subsets.mem_toList]
  apply and_congr
  · simp only [BitSet.contains_full, decide_eq_true_eq]
  · cases LetterSet.holdsIn m r letter with
    | ok b => cases b <;> simp
    | error fault => simp

theorem pairwise_lettersOf (m : Manager) (k : Nat) (r : Ref) :
    (m.lettersOf k r).Pairwise fun s t => s.mask < t.mask := by
  apply List.Pairwise.filter
  rw [← List.pairwise_map, Subsets.map_mask_full]
  exact List.pairwise_lt_range

/-- A root has as many letters as solutions. -/
theorem Within.solutions_eq (hm : m.Reduced) (hr : m.Live r) (h : m.Within k r) :
    m.solutions r k = (m.lettersOf k r).length := by
  have hnodup : ((m.lettersOf k r).map (BitSet.bits k)).Nodup := by
    apply List.Nodup.map_on
    · exact fun s hs t ht => BitSet.eq_of_bits_eq (mem_lettersOf.1 hs).1 (mem_lettersOf.1 ht).1
    · apply (pairwise_lettersOf m k r).imp
      rintro letter _ hlt rfl
      exact Nat.lt_irrefl _ hlt
  have hholds : ∀ letter : BitSet, m.evaluate r (assigning (letter.bits k)) =
      LetterSet.holdsIn m r letter := fun letter => by
    rw [LetterSet.holdsIn, hm.evaluate_eq hr, h.value_bits hm hr, hm.evaluate_eq hr]
    rfl
  calc
    m.solutions r k = ((m.lettersOf k r).map (BitSet.bits k)).toFinset.card := by
      apply Fintype.card_of_subtype
      intro x
      rw [List.mem_toFinset, List.mem_map]
      constructor
      · rintro ⟨letter, hmem, rfl⟩
        rw [hholds]
        exact (mem_lettersOf.1 hmem).2
      · intro hx
        refine ⟨.ofBits x, mem_lettersOf.2 ⟨fun p hp => ?_, ?_⟩, BitSet.bits_ofBits x⟩
        · exact ((BitSet.contains_ofBits x p).1 hp).1
        · rw [← hholds, BitSet.bits_ofBits, hx]
    _ = (m.lettersOf k r).length := by
      rw [List.toFinset_card_of_nodup hnodup, List.length_map]

theorem letterOf_congr {a b : Assignment} (h : ∀ v : UInt32, v.toNat ≤ k → a v = b v) :
    letterOf k a = letterOf k b := by
  have hsame : ∀ p ∈ List.range k, a (p + 1).toUInt32 = b (p + 1).toUInt32 := fun p hp => by
    have hlt := List.mem_range.1 hp
    have hle : (p + 1).toUInt32.toNat ≤ p + 1 := Nat.mod_le ..
    exact h _ (by omega)
  rw [letterOf, letterOf, List.filter_congr hsame]

end Manager

namespace LetterSet

open Workspace

variable {i n : Nat} {w : Workspace} {sets : List LetterSet} {s : LetterSet}

/-- A made set has its root in the diagram of its factory, and only the variables of the alphabet
matter to it. -/
theorem Made.exists_factory (h : Made k i sets w) (hs : s ∈ sets) :
    ∃ f, w.factories[s.owner]? = some f ∧ f.alphabetSize = k ∧ f.manager.Reduced ∧
      f.manager.Live s.root ∧ f.manager.Within k s.root := by
  obtain ⟨L, hkeeps, hletters⟩ := h.exists_ledger
  obtain ⟨M, hlisted⟩ := hletters s hs
  have howner : s.owner = i := hkeeps.owner _ hlisted
  subst howner
  obtain ⟨f, hf, hholds⟩ := hkeeps.holds
  have hmeans := means_of_mem hholds hlisted
  have hreduced := hholds.canonical.reduced
  refine ⟨f, hf, hholds.alphabet, hreduced, hmeans.1, fun a b hagree => ?_⟩
  rw [← hmeans.value_letterOf hreduced a, ← hmeans.value_letterOf hreduced b,
    letterOf_congr hagree]

/-- Enumerating goes through the letters of the root. -/
theorem letters_run {f : Factory} (hf : w.factories[s.owner]? = some f)
    (hk : f.alphabetSize = k) (n : Nat) :
    s.letters n w = .ok ((f.manager.lettersOf k s.root).take n) w := by
  subst hk
  exact askFactory_run hf (congrArg Except.ok (BitSet.takeMatching_full _ _ _))

/-- Counting.  In a reduced and ordered diagram the count of a reference that is not dangling,
over at least all variables that the nodes below it decide, is the number of assignments that
satisfy it; at every node below it half of what the children count together is a whole number and
no more than the number of all assignments.  Of a set that any history of a factory made in which
cubes name propositions by numbers that fit, all its letters over the alphabet, each once and no
others, come up in the order of their masks, and the size is their number. -/
theorem counting_exact (hm : m.Reduced) (hr : m.Live r)
    (hvars : ∀ index node, m.Reaches [r] index → index ≠ 1 →
      m.nodes.stored? index = some node → node.var.toNat ≤ n)
    (h : Made k i sets w) (hs : s ∈ sets) :
    (m.count r n = .ok (m.solutions r n) ∧
        ∀ index node, m.Reaches [r] index → index ≠ 1 → m.nodes.stored? index = some node →
          ∃ low high, m.count node.low n = .ok low ∧ m.count node.high n = .ok high ∧
            2 ∣ low + high ∧ (low + high) / 2 ≤ 2 ^ n) ∧
      ∃ letters : List BitSet,
        s.size w = .ok letters.length w ∧
          (∀ count, s.letters count w = .ok (letters.take count) w) ∧
          letters.Pairwise (fun letter later => letter.mask < later.mask) ∧
          ∀ letter, letter ∈ letters ↔
            (∀ p, letter.contains p = true → p < k) ∧ s.contains letter w = .ok true w := by
  have hwithin := hm.within hr hvars
  obtain ⟨f, hf, hk, hreduced, hlive, hroot⟩ := h.exists_factory hs
  refine ⟨⟨hwithin.count_eq hm hr, fun index node => hwithin.halving hm hr⟩,
    f.manager.lettersOf k s.root, ?_, letters_run hf hk, pairwise_lettersOf _ _ _,
    fun letter => ?_⟩
  · apply askFactory_run hf
    rw [hk, hroot.count_eq hreduced hlive, hroot.solutions_eq hreduced hlive]
  · have hholds : holdsIn f.manager s.root letter =
        .ok (f.manager.value s.root letter.assignment) := hreduced.evaluate_eq hlive _
    have hcontains : s.contains letter w = .ok (f.manager.value s.root letter.assignment) w :=
      askFactory_run hf hholds
    rw [mem_lettersOf, hholds, hcontains, Except.ok.injEq, EStateM.Result.ok.injEq,
      and_iff_left rfl]

/-- Over `2 ^ 31 + 1` propositions a set without letters has a size that is not zero. -/
theorem clash_miscounted :
    ∃ (f : Factory) (alphabet : BitSet) (s : LetterSet) (w : Workspace) (n : Nat),
      Factory.ofSizing (2 ^ 31 + 1) ⟨3, 2, 5⟩ = .ok f ∧
      restricted 0 BitSet.empty alphabet (ofFactories [f]) = .ok s w ∧
      (∀ letter, s.contains letter w = .ok false w) ∧
      (∀ count, s.letters count w = .ok [] w) ∧ s.size w = .ok n w ∧ 0 < n := by
  have hordered : [2147483646, 2147483648].Pairwise (· < ·) := by decide
  obtain ⟨alphabet, hlist⟩ := exists_alphabet hordered
  obtain ⟨s, f, w, hrun, hf, hk, -, hholds, -, hsize⟩ :=
    restricted_clash (Nat.lt_succ_self _) hlist
  have hnone : f.manager.lettersOf (2 ^ 31 + 1) s.root = [] := by
    rw [List.eq_nil_iff_forall_not_mem]
    intro letter hletter
    cases (hholds letter).symm.trans (mem_lettersOf.1 hletter).2
  refine ⟨_, alphabet, s, w, _, ofSizing_small _, hrun,
    fun letter => askFactory_run hf (hholds letter), fun count => ?_, hsize, Nat.two_pow_pos _⟩
  rw [letters_run hf hk, hnone, List.take_nil]

/-! ## A set that is counted -/

/-- A factory over two propositions. -/
private def smallFactory : Workspace :=
  .ofFactories [(Factory.ofSizing 2 ⟨3, 2, 5⟩).toOption.getD default]

/-- The letters with one of the propositions. -/
private def uniteBoth : List Call :=
  [.proposition 0, .proposition 1, .combine .union 0 1]

private def eitherOne : LetterSet := ⟨0, ⟨4, false⟩⟩

private theorem pair_reaches {negated : Bool} {index : Nat}
    (h : pair.Reaches [⟨2, negated⟩] index) :
    index = 2 ∨ index = 1 := by
  have hnode : pair.nodes.stored? 2 = some ⟨1, Ref.zero, Ref.one⟩ := by decide +kernel
  induction h with
  | root hroot =>
      rw [List.mem_singleton.1 hroot]
      exact Or.inl rfl
  | child _ hindex hstored hchild ih =>
      rcases ih with rfl | rfl
      · rw [hnode] at hstored
        cases hstored
        right
        simp only [List.mem_cons, List.not_mem_nil, or_false] at hchild
        rcases hchild with rfl | rfl <;> rfl
      · exact absurd rfl hindex

/-- The theorem at the first of two variables and at the union of two propositions, which has
three letters. -/
theorem pair_union_counted :
    pair.Reduced ∧ pair.Live ⟨2, false⟩ ∧
      Made 2 0 (setsOf 0 uniteBoth smallFactory) (after 0 uniteBoth smallFactory) ∧
      eitherOne ∈ setsOf 0 uniteBoth smallFactory ∧
      pair.count ⟨2, false⟩ 2 = .ok (pair.solutions ⟨2, false⟩ 2) ∧
      ∃ letters : List BitSet, letters.take 4 = [⟨1⟩, ⟨2⟩, ⟨3⟩] ∧
        eitherOne.size (after 0 uniteBoth smallFactory) =
          .ok letters.length (after 0 uniteBoth smallFactory) := by
  have hmem : eitherOne ∈ setsOf 0 uniteBoth smallFactory := by decide +kernel
  have hnew : Factory.ofSizing 2 ⟨3, 2, 5⟩ =
      .ok ((Factory.ofSizing 2 ⟨3, 2, 5⟩).toOption.getD default) := rfl
  have hmade := made_of_mem hnew rfl (fun call _ => call.signed_of_lt (by decide)) hmem
  have hvars : ∀ index node, pair.Reaches [⟨2, false⟩] index → index ≠ 1 →
      pair.nodes.stored? index = some node → node.var.toNat ≤ 2 := by
    intro index node hreached hindex hstored
    have hnode : pair.nodes.stored? 2 = some ⟨1, Ref.zero, Ref.one⟩ := by decide +kernel
    rcases pair_reaches hreached with rfl | rfl
    · rw [hnode] at hstored
      cases hstored
      decide
    · exact absurd rfl hindex
  have hthree : verdict (eitherOne.letters 4) (after 0 uniteBoth smallFactory) =
      .ok [⟨1⟩, ⟨2⟩, ⟨3⟩] := by decide +kernel
  obtain ⟨⟨hcount, -⟩, letters, hsize, hletters, -⟩ :=
    counting_exact pair_run.2 (pair_live false).1 hvars hmade hmem
  refine ⟨pair_run.2, (pair_live false).1, hmade, hmem, hcount, letters, ?_, hsize⟩
  simpa only [verdict, hletters, Except.ok.injEq] using hthree

end LetterSet

end SymbolicOmega
