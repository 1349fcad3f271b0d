import Mathlib.Logic.Function.Basic
import SymbolicOmega.Proofs.Letters.LabelFormula
import SymbolicOmega.Proofs.Letters.Making

/-!
# Label formulas are canonical

The formula of a set says of each letter what the set does, and it depends on the letters
alone.  Two references with the same values, each in a reduced diagram of its own, decide
the same variable first and leave the same halves, wherever their nodes are stored, and
so they are spelled out alike.
-/

namespace SymbolicOmega

namespace Manager

namespace Reduced

variable {m m' : Manager} {r r' : Ref}

/-- A reference comes no later than another one with its values. -/
private theorem rank_le_of_value_eq (hm : m.Reduced) (hm' : m'.Reduced) (hr : m.Live r)
    (hr' : m'.Live r') (hvalue : ∀ a, m.value r a = m'.value r' a) : m.rank r ≤ m'.rank r' := by
  apply Nat.le_of_not_lt
  intro hlt
  have hindex : r'.index ≠ 1 := fun hterminal => by
    rw [rank_of_index_one hterminal] at hlt
    have hconstant := rank_of_index_one (m := m) (index_of_size_le_rank hr hlt.le)
    omega
  obtain ⟨node, hstored⟩ := hr'
  have hrank := rank_of_stored hindex hstored
  -- the other reference would not depend on the variable that it decides
  have hbehind : node.var.toNat < m'.rank r' := by
    apply hm'.lt_rank ⟨node, hstored⟩
    intro a b hagree
    rw [← hvalue, ← hvalue]
    exact hm.value_congr hr fun v hv => hagree v (by omega)
  omega

theorem rank_eq_of_value_eq (hm : m.Reduced) (hm' : m'.Reduced) (hr : m.Live r)
    (hr' : m'.Live r') (hvalue : ∀ a, m.value r a = m'.value r' a) : m.rank r = m'.rank r' :=
  Nat.le_antisymm (hm.rank_le_of_value_eq hm' hr hr' hvalue)
    (hm'.rank_le_of_value_eq hm hr' hr fun a => (hvalue a).symm)

/-- A reference with the values of a constant is the constant, in any diagram. -/
theorem eq_iff_of_value_eq (hm : m.Reduced) (hm' : m'.Reduced) (hr : m.Live r)
    (hr' : m'.Live r') (hvalue : ∀ a, m.value r a = m'.value r' a) (constant : Ref)
    (hconstant : constant.index = 1) : r = constant ↔ r' = constant := by
  have hsame : ∀ a, m.value constant a = m'.value constant a := fun a => by
    rw [value_of_index_one hconstant, value_of_index_one hconstant]
  have hlive : m.Live constant ∧ m'.Live constant := by
    rw [Live, Live, hconstant]
    exact ⟨⟨_, hm.terminal⟩, ⟨_, hm'.terminal⟩⟩
  constructor
  · rintro rfl
    exact hm'.eq_of_value_eq hr' hlive.2 fun a => by rw [← hvalue, hsame]
  · rintro rfl
    exact hm.eq_of_value_eq hr hlive.1 fun a => by rw [hvalue, hsame]

/-- Nodes with the same values decide one variable and leave the same to either side. -/
theorem halves_of_value_eq (hm : m.Reduced) (hm' : m'.Reduced)
    (hvalue : ∀ a, m.value r a = m'.value r' a) {node node' : Node} (hindex : r.index ≠ 1)
    (hstored : m.nodes.stored? r.index = some node) (hindex' : r'.index ≠ 1)
    (hstored' : m'.nodes.stored? r'.index = some node') :
    node.var = node'.var ∧
      ∀ bit a, m.value (node.half r.negated bit) a = m'.value (node'.half r'.negated bit) a := by
  have hrank := hm.rank_eq_of_value_eq hm' ⟨node, hstored⟩ ⟨node', hstored'⟩ hvalue
  rw [rank_of_stored hindex hstored, rank_of_stored hindex' hstored'] at hrank
  have hvar : node.var = node'.var := UInt32.toNat_inj.1 hrank
  refine ⟨hvar, fun bit a => ?_⟩
  calc
    m.value (node.half r.negated bit) a = m.value r (Function.update a node.var bit) :=
      hm.value_half hindex hstored bit a
    _ = m'.value r' (Function.update a node'.var bit) := by rw [hvalue, hvar]
    _ = m'.value (node'.half r'.negated bit) a := (hm'.value_half hindex' hstored' bit a).symm

/-- References with the same values have the same formula. -/
theorem formulaWithin_congr (hm : m.Reduced) (hm' : m'.Reduced) (shown : Nat → LabelAtom)
    (bound : Nat) : ∀ {r r' : Ref}, m.Live r → m'.Live r' →
      (∀ a, m.value r a = m'.value r' a) →
        m.formulaWithin shown bound r = m'.formulaWithin shown bound r' := by
  induction bound with
  | zero => intros; rfl
  | succ bound ih =>
      intro r r' hr hr' hvalue
      have hterminal := hm.eq_iff_of_value_eq hm' hr hr' hvalue
      rw [formulaWithin, formulaWithin]
      apply ite_congr (propext (hterminal Ref.one rfl)) fun _ => rfl
      intro hone
      apply ite_congr (propext (hterminal Ref.zero rfl)) fun _ => rfl
      intro hzero
      -- neither reference is a constant, so both are references to stored nodes
      have hindex := Ref.index_ne_one (mt (hterminal _ rfl).1 hone) (mt (hterminal _ rfl).1 hzero)
      have hindex' := Ref.index_ne_one hone hzero
      obtain ⟨node, hstored⟩ := hr
      obtain ⟨node', hstored'⟩ := hr'
      have hlive := hm.live_half hindex hstored
      have hlive' := hm'.live_half hindex' hstored'
      obtain ⟨hvar, hhalf⟩ := hm.halves_of_value_eq hm' hvalue hindex hstored hindex' hstored'
      have hconstant : ∀ bit (constant : Ref), constant.index = 1 →
          (node.half r.negated bit = constant ↔ node'.half r'.negated bit = constant) := fun bit =>
        hm.eq_iff_of_value_eq hm' (hlive bit) (hlive' bit) (hhalf bit)
      rw [node_of_stored hstored, node_of_stored hstored', bind_ok, bind_ok, hvar]
      apply ite_congr (propext (and_congr (hconstant true _ rfl) (hconstant false _ rfl)))
        fun _ => rfl
      intro _
      apply ite_congr (propext (and_congr (hconstant true _ rfl) (hconstant false _ rfl)))
        fun _ => rfl
      intro _
      have hholds : m.formulaWithin shown bound (node.high.negateIf r.negated) =
          m'.formulaWithin shown bound (node'.high.negateIf r'.negated) :=
        ih (hlive true) (hlive' true) (hhalf true)
      have hotherwise : m.formulaWithin shown bound (node.low.negateIf r.negated) =
          m'.formulaWithin shown bound (node'.low.negateIf r'.negated) :=
        ih (hlive false) (hlive' false) (hhalf false)
      rw [hholds, hotherwise]

end Reduced

/-! ## Letters over the alphabet -/

variable {k : Nat}

/-- A root that means letters over the alphabet has at an assignment the value that it has at the
letter of the assignment. -/
theorem Means.value_letterOf {m : Manager} {r : Ref} (hm : m.Reduced) {M : Set (Letter k)}
    (h : m.Means r (Set.preimage (letterAt k) M)) (a : Assignment) :
    m.value r (letterOf k a).assignment = m.value r a := by
  -- no proposition has the variable 0, and no diagram decides it
  let a₀ := Function.update a 0 ((letterOf k a).assignment 0)
  have hsame : letterAt k (letterOf k a).assignment = letterAt k a₀ := by
    ext p
    have hle : (p.val + 1).toUInt32.toNat ≤ p.val + 1 := Nat.mod_le ..
    have hp := p.isLt
    by_cases hzero : (p.val + 1).toUInt32 = 0
    · simp only [letterAt, Set.mem_ofPred_eq, hzero, a₀, Function.update_self]
    · have hpos : 0 < (p.val + 1).toUInt32.toNat := by
        apply Nat.pos_of_ne_zero
        exact fun h => hzero (UInt32.toNat_inj.1 h)
      simp only [letterAt, Set.mem_ofPred_eq, a₀, Function.update_of_ne hzero]
      rw [assignment_letterOf a hpos (by omega)]
  calc
    m.value r (letterOf k a).assignment = m.value r a₀ := by
      rw [Bool.eq_iff_iff, h.2, h.2, Set.mem_preimage, Set.mem_preimage, hsame]
    _ = m.value r a := hm.value_update h.1 (v := 0) (hm.rank_pos h.1) _

/-- An assignment that reads the atoms of a letter's propositions has the letter. -/
theorem letterOf_readAtoms {naming : Nat → LabelAtom} {valuation : LabelAtom → Bool}
    {letter : BitSet} (hreads : ∀ p < k, valuation (naming p) = letter.contains p) :
    letterOf k (readAtoms naming valuation) = letterOf k letter.assignment := by
  have hsame : ∀ p ∈ List.range k, readAtoms naming valuation (p + 1).toUInt32 =
      letter.assignment (p + 1).toUInt32 := fun p hp => by
    apply hreads
    have hlt := List.mem_range.1 hp
    have hle : (p + 1).toUInt32.toNat ≤ p + 1 := Nat.mod_le ..
    omega
  rw [letterOf, letterOf, List.filter_congr hsame]

end Manager

namespace LetterSet

open Workspace Manager

variable {k i j : Nat} {w w' : Workspace} {sets sets' : List LetterSet} {s s' : LetterSet}

/-- The diagram that a set over `k` propositions is read from. -/
structure ReadFrom (k : Nat) (s : LetterSet) (w : Workspace) (m : Manager) : Prop where
  reduced : m.Reduced
  live : m.Live s.root
  letters : ∀ a, m.value s.root (letterOf k a).assignment = m.value s.root a
  contains : ∀ letter, s.contains letter w = .ok (m.value s.root letter.assignment) w
  formula : ∀ naming e, m.formula naming s.root = .ok e → s.formulaWith naming w = .ok e w

/-- A made set is read from the diagram of its factory. -/
theorem Made.exists_readFrom (h : Made k i sets w) (hs : s ∈ sets) : ∃ m, ReadFrom k s w m := by
  obtain ⟨L, hkeeps, hletters⟩ := h.exists_ledger
  obtain ⟨M, hlisted⟩ := hletters s hs
  have howner : s.owner = i := hkeeps.owner _ hlisted
  subst howner
  obtain ⟨f, hf, hholds⟩ := hkeeps.holds
  have hmeans := means_of_mem hholds hlisted
  have hreduced := hholds.canonical.reduced
  refine ⟨f.manager, hreduced, hmeans.1, hmeans.value_letterOf hreduced, fun letter => ?_,
    fun naming e he => askFactory_run hf he⟩
  exact askFactory_run hf (hreduced.evaluate_eq hmeans.1 letter.assignment)

namespace ReadFrom

variable {m m' : Manager}

/-- Sets that contain the same letters over the alphabet have the same values. -/
theorem value_eq (h : ReadFrom k s w m) (h' : ReadFrom k s' w' m')
    (hsame : ∀ letter : BitSet, (∀ p, letter.contains p = true → p < k) →
      (s.contains letter w = .ok true w ↔ s'.contains letter w' = .ok true w')) (a : Assignment) :
    m.value s.root a = m'.value s'.root a := by
  have hletter := hsame (letterOf k a) fun p => lt_of_mem_letterOf
  rw [h.contains, h'.contains, h.letters, h'.letters, EStateM.Result.ok.injEq,
    EStateM.Result.ok.injEq, and_iff_left rfl, and_iff_left rfl] at hletter
  exact Bool.eq_iff_iff.2 hletter

end ReadFrom

/-- The label formula is exact and canonical.  Take two sets, each made in any history of a factory
over `k` propositions in which cubes name propositions by numbers that fit: the factories may be
one or two, with tables of any sizes, with failures and collections anywhere.  Whatever atoms the propositions are named by, the first set has a
formula, and where the atoms of the propositions are true that are in a letter, the formula says
whether the set contains the letter.  If the sets contain the same letters over the alphabet, the
second one has the very same formula, and both are shown as the same text. -/
theorem formulaWith_exact_canonical (h : Made k i sets w) (hs : s ∈ sets)
    (h' : Made k j sets' w') (hs' : s' ∈ sets') (naming : Nat → LabelAtom) :
    ∃ e, s.formulaWith naming w = .ok e w ∧
      (∀ (letter : BitSet) (valuation : LabelAtom → Bool),
        (∀ p < k, valuation (naming p) = letter.contains p) →
          s.contains letter w = .ok (e.evaluate valuation) w) ∧
      ((∀ letter : BitSet, (∀ p, letter.contains p = true → p < k) →
          (s.contains letter w = .ok true w ↔ s'.contains letter w' = .ok true w')) →
        s'.formulaWith naming w' = .ok e w' ∧
          ∃ text, s.describe w = .ok text w ∧ s'.describe w' = .ok text w') := by
  obtain ⟨m, hm⟩ := h.exists_readFrom hs
  obtain ⟨m', hm'⟩ := h'.exists_readFrom hs'
  obtain ⟨e, he, hvalue⟩ := hm.reduced.formula_eq hm.live naming
  refine ⟨e, hm.formula naming e he, fun letter valuation hreads => ?_, fun hsame => ?_⟩
  · rw [hm.contains, hvalue]
    congr 1
    calc
      m.value s.root letter.assignment = m.value s.root (letterOf k letter.assignment).assignment :=
        (hm.letters _).symm
      _ = m.value s.root (letterOf k (readAtoms naming valuation)).assignment := by
        rw [letterOf_readAtoms hreads]
      _ = m.value s.root (readAtoms naming valuation) := hm.letters _
  · have hspelled : ∀ naming, m.formula naming s.root = m'.formula naming s'.root := fun naming =>
      hm.reduced.formulaWithin_congr hm'.reduced naming pathBound hm.live hm'.live
        (hm.value_eq hm' hsame)
    obtain ⟨shown, hshown, -⟩ := hm.reduced.formula_eq hm.live .proposition
    constructor
    · exact hm'.formula naming e (hspelled naming ▸ he)
    · refine ⟨toString shown, ?_, ?_⟩
      · exact run_bind (hm.formula _ shown hshown)
      · exact run_bind (hm'.formula _ shown (hspelled _ ▸ hshown))

/-- Over `2 ^ 31 + 1` propositions the letters do not tell the formula: two sets without letters
have different ones. -/
theorem clash_misspelled :
    ∃ (f : Factory) (alphabet : BitSet) (s t : LetterSet) (w w' : Workspace)
      (e e' : Formula LabelAtom),
      Factory.ofSizing (2 ^ 31 + 1) ⟨3, 2, 5⟩ = .ok f ∧
      restricted 0 BitSet.empty alphabet (ofFactories [f]) = .ok s w ∧
      empty 0 (ofFactories [f]) = .ok t w' ∧
      (∀ letter, s.contains letter w = .ok false w ∧ t.contains letter w' = .ok false w') ∧
      s.formulaWith .proposition w = .ok e w ∧ t.formulaWith .proposition w' = .ok e' w' ∧
      e ≠ e' := by
  have hordered : [2147483646, 2147483648].Pairwise (· < ·) := by decide
  obtain ⟨alphabet, hlist⟩ := exists_alphabet hordered
  obtain ⟨s, f, w, hrun, hf, -, -, hholds, hformula, -⟩ :=
    restricted_clash (Nat.lt_succ_self _) hlist
  obtain ⟨t, w', hrun', hcontains', hformula'⟩ := empty_run (2 ^ 31 + 1)
  have hcontains : ∀ letter, s.contains letter w = .ok false w := fun letter =>
    askFactory_run hf (hholds letter)
  exact ⟨_, alphabet, s, t, w, w', _, _, ofSizing_small _, hrun, hrun',
    fun letter => ⟨hcontains letter, hcontains' letter⟩, hformula _, hformula' _,
    nofun⟩

/-! ## One set made twice -/

/-- Two factories over two propositions, with tables of different sizes. -/
private def twoFactories : Workspace :=
  .ofFactories [(Factory.ofSizing 2 ⟨3, 2, 5⟩).toOption.getD default,
    (Factory.ofSizing 2 ⟨5, 3, 9⟩).toOption.getD default]

/-- The letters with one of the propositions, as a union. -/
private def unite : List Call :=
  [.proposition 0, .proposition 1, .combine .union 0 1]

/-- The same letters, as those that are not without both, from the other proposition on. -/
private def exclude : List Call :=
  [.proposition 1, .complement 0, .release 1, .proposition 0, .combine .difference 1 0,
    .complement 0]

/-- Where the union is made. -/
private def uniting : Workspace :=
  after 0 unite twoFactories

/-- Where the other set is made. -/
private def excluding : Workspace :=
  after 1 exclude twoFactories

private def united : LetterSet := ⟨0, ⟨4, false⟩⟩

private def excluded : LetterSet := ⟨1, ⟨4, false⟩⟩

private theorem unite_made (hmem : united ∈ setsOf 0 unite twoFactories) :
    Made 2 0 (setsOf 0 unite twoFactories) uniting := by
  have hnew : Factory.ofSizing 2 ⟨3, 2, 5⟩ =
      .ok ((Factory.ofSizing 2 ⟨3, 2, 5⟩).toOption.getD default) := rfl
  exact made_of_mem hnew rfl (fun call _ => call.signed_of_lt (by decide)) hmem

private theorem exclude_made (hmem : excluded ∈ setsOf 1 exclude twoFactories) :
    Made 2 1 (setsOf 1 exclude twoFactories) excluding := by
  have hnew : Factory.ofSizing 2 ⟨5, 3, 9⟩ =
      .ok ((Factory.ofSizing 2 ⟨5, 3, 9⟩).toOption.getD default) := rfl
  exact made_of_mem hnew rfl (fun call _ => call.signed_of_lt (by decide)) hmem

/-- Whether the answer is yes. -/
private def affirmed : EStateM.Result Fault Workspace Bool → Bool
  | .ok answer _ => answer
  | .error _ _ => false

private theorem same_letters (letter : BitSet) (hletter : ∀ p, letter.contains p = true → p < 2) :
    affirmed (united.contains letter uniting) =
      affirmed (excluded.contains letter excluding) := by
  have hlt : letter.mask < 2 ^ 2 := by
    apply Nat.lt_pow_two_of_testBit
    intro p hp
    rw [← Bool.not_eq_true]
    exact fun hmem => absurd (hletter p hmem) (Nat.not_lt.2 hp)
  have hfour : ∀ mask < 2 ^ 2, affirmed (united.contains ⟨mask⟩ uniting) =
      affirmed (excluded.contains ⟨mask⟩ excluding) := by decide +kernel
  exact hfour letter.mask hlt

private theorem contains_iff_affirmed {s : LetterSet} {w : Workspace} {m : Manager}
    (h : ReadFrom 2 s w m) (letter : BitSet) :
    s.contains letter w = .ok true w ↔ affirmed (s.contains letter w) = true := by
  rw [h.contains, EStateM.Result.ok.injEq, and_iff_left rfl, affirmed]

/-- The theorem at a set that two histories make, each in a factory of its own: both have one
formula, which is true of the letter with the second proposition alone. -/
theorem united_excluded_spelled :
    Made 2 0 (setsOf 0 unite twoFactories) uniting ∧ united ∈ setsOf 0 unite twoFactories ∧
      Made 2 1 (setsOf 1 exclude twoFactories) excluding ∧
      excluded ∈ setsOf 1 exclude twoFactories ∧
      ∃ e, united.formulaWith .proposition uniting = .ok e uniting ∧
        excluded.formulaWith .proposition excluding = .ok e excluding ∧
        e.evaluate (fun atom => atom == .proposition 1) = true := by
  have hunited : united ∈ setsOf 0 unite twoFactories := by decide +kernel
  have hexcluded : excluded ∈ setsOf 1 exclude twoFactories := by decide +kernel
  have hmade := unite_made hunited
  have hmade' := exclude_made hexcluded
  obtain ⟨m, hm⟩ := hmade.exists_readFrom hunited
  obtain ⟨m', hm'⟩ := hmade'.exists_readFrom hexcluded
  obtain ⟨e, he, hexact, hcanonical⟩ :=
    formulaWith_exact_canonical hmade hunited hmade' hexcluded .proposition
  refine ⟨hmade, hunited, hmade', hexcluded, e, he, ?_, ?_⟩
  · refine (hcanonical fun letter hletter => ?_).1
    rw [contains_iff_affirmed hm, contains_iff_affirmed hm', same_letters letter hletter]
  · have hreads : ∀ p < 2, (LabelAtom.proposition p == .proposition 1) =
        (⟨2⟩ : BitSet).contains p := by decide
    have hanswer : affirmed (united.contains ⟨2⟩ uniting) = true := by decide +kernel
    have hvalue := hexact ⟨2⟩ (fun atom => atom == .proposition 1) hreads
    rw [hvalue] at hanswer
    exact hanswer

end LetterSet

end SymbolicOmega
