import SymbolicOmega.Proofs.Diagram.Growth

/-!
# Connectives

If-then-else answers a reference to the function that its triple stands for.  The
rules that bring a triple to its standard form keep that function, a computed result
is taken as it is, and a split is answered half by half.  The other connectives are
triples with constants.
-/

namespace SymbolicOmega

namespace Manager

open Function

variable {m : Manager} {t : Triple}

section Rules
variable (hm : m.Reduced) (ht : m.Operands t)
include hm ht

private theorem constant?_denotes {r : Ref} (h : t.constant? = some r) :
    m.Denotes r (m.choice t) := by
  obtain ⟨f, g, h'⟩ := t
  have hf := hm.value_neg ht.f
  have hg := hm.value_neg ht.g
  have hh := hm.value_neg ht.h
  have hone := hm.live_one
  have hzero := hm.live_zero
  obtain ⟨hliveF, hliveG, hliveH⟩ := ht
  dsimp only at *
  rw [Triple.constant?] at h
  dsimp only at h
  split_ifs at h with h₁ h₂ h₃ h₄ h₅ h₆ h₇ h₈ h₉ <;> cases h
  · exact ⟨hliveG, fun a => by simp [choice, h₁]⟩
  · exact ⟨hliveH, fun a => by simp [choice, h₂]⟩
  · exact ⟨hliveG, fun a => by simp [choice, h₃]⟩
  · exact ⟨hliveF, fun a => by simp [choice, h₄]⟩
  · exact ⟨live_neg.2 hliveF, fun a => by simp [choice, h₅, hf]⟩
  · exact ⟨hone, fun a => by simp [choice, h₆, hf]⟩
  · exact ⟨hone, fun a => by simp [choice, h₇]⟩
  · exact ⟨hzero, fun a => by simp [choice, h₈, hf]⟩
  · exact ⟨hzero, fun a => by simp [choice, h₉]⟩

theorem simplify?_choice {t' : Triple} (h : t.simplify? = some t') :
    m.Operands t' ∧ m.choice t' = m.choice t := by
  obtain ⟨f, g, h'⟩ := t
  have hf := hm.value_neg ht.f
  have hone := hm.live_one
  have hzero := hm.live_zero
  obtain ⟨hliveF, hliveG, hliveH⟩ := ht
  dsimp only at *
  rw [Triple.simplify?] at h
  dsimp only at h
  split_ifs at h with h₁ h₂ h₃ h₄ <;> cases h
  · refine ⟨⟨hliveF, hone, hliveH⟩, funext fun a => ?_⟩
    cases hb : m.value f a <;> simp [choice, h₁, hb]
  · refine ⟨⟨hliveF, hliveG, hzero⟩, funext fun a => ?_⟩
    cases hb : m.value f a <;> simp [choice, h₂, hb]
  · refine ⟨⟨hliveF, hzero, hliveH⟩, funext fun a => ?_⟩
    cases hb : m.value f a <;> simp [choice, h₃, hf, hb]
  · refine ⟨⟨hliveF, hliveG, hone⟩, funext fun a => ?_⟩
    cases hb : m.value f a <;> simp [choice, h₄, hf, hb]

theorem exchange?_choice {t' : Triple} {i j k : UInt32}
    (h : t.exchange? i j k = some t') : m.Operands t' ∧ m.choice t' = m.choice t := by
  obtain ⟨f, g, h'⟩ := t
  have hf := hm.value_neg ht.f
  have hg := hm.value_neg ht.g
  have hh := hm.value_neg ht.h
  have hone := hm.live_one
  have hzero := hm.live_zero
  obtain ⟨hliveF, hliveG, hliveH⟩ := ht
  dsimp only at *
  rw [Triple.exchange?] at h
  dsimp only at h
  split_ifs at h with h₁ h₂ h₃ h₄ <;> cases h
  · refine ⟨⟨hliveH, hone, hliveF⟩, funext fun a => ?_⟩
    cases hb : m.value f a <;> simp [choice, h₁, hb]
  · refine ⟨⟨hliveG, hliveF, hzero⟩, funext fun a => ?_⟩
    cases hb : m.value f a <;> simp [choice, h₂, hb]
  · refine ⟨⟨live_neg.2 hliveG, live_neg.2 hliveF, hone⟩, funext fun a => ?_⟩
    cases hb : m.value f a <;> simp [choice, h₃, hf, hg, hb]
  · refine ⟨⟨live_neg.2 hliveH, hzero, live_neg.2 hliveF⟩, funext fun a => ?_⟩
    cases hb : m.value f a <;> simp [choice, h₄, hf, hh, hb]

private theorem positiveCondition_choice :
    m.Operands t.positiveCondition ∧ m.choice t.positiveCondition = m.choice t := by
  rw [Triple.positiveCondition]
  split
  · refine ⟨⟨live_neg.2 ht.f, ht.h, ht.g⟩, funext fun a => ?_⟩
    cases hb : m.value t.f a <;> simp [choice, hm.value_neg ht.f, hb]
  · exact ⟨ht, rfl⟩

/-- The standard form of a triple stands for its function up to the sign given with it. -/
theorem regular_choice :
    m.Operands t.regular.1 ∧ ∀ a, m.choice t a = (m.choice t.regular.1 a ^^ t.regular.2) := by
  obtain ⟨hlive, hchoice⟩ := positiveCondition_choice hm ht
  unfold Triple.regular
  dsimp only
  split
  · refine ⟨⟨hlive.f, live_neg.2 hlive.g, live_neg.2 hlive.h⟩, fun a => ?_⟩
    rw [← hchoice]
    simp only [choice, hm.value_neg hlive.g, hm.value_neg hlive.h]
    cases m.value t.positiveCondition.f a <;> simp
  · exact ⟨hlive, fun a => by simp [hchoice]⟩

end Rules

/-- The top variable of a constant is 0, and that of any other reference is its rank. -/
theorem topVar_of_live (hm : m.Reduced) {r : Ref} (hr : m.Live r) :
    ∃ i, m.topVar r = .ok i ∧ (i = 0 ∧ m.rank r = UInt32.size ∨ i ≠ 0 ∧ m.rank r = i.toNat) := by
  obtain ⟨node, hstored⟩ := hr
  refine ⟨node.var, by simp only [topVar, node_of_stored hstored], ?_⟩
  by_cases hindex : r.index = 1
  · rw [hindex, hm.terminal] at hstored
    cases hstored
    exact Or.inl ⟨rfl, rank_of_index_one hindex⟩
  · exact Or.inr ⟨(hm.proper _ _ hindex hstored).var_ne_zero, rank_of_stored hindex hstored⟩

/-- A variable that a triple may be split at: it comes after none of the three. -/
structure Splits (m : Manager) (t : Triple) (v : UInt32) : Prop where
  ne_zero : v ≠ 0
  f : v.toNat ≤ m.rank t.f
  g : v.toNat ≤ m.rank t.g
  h : v.toNat ≤ m.rank t.h

/-- The smallest of three top variables is the smallest rank. -/
theorem toNat_topmost {i j k : UInt32} (hf : m.rank t.f = i.toNat)
    (hg : j = 0 ∧ m.rank t.g = UInt32.size ∨ j ≠ 0 ∧ m.rank t.g = j.toNat)
    (hh : k = 0 ∧ m.rank t.h = UInt32.size ∨ k ≠ 0 ∧ m.rank t.h = k.toNat) :
    (topmost i j k).toNat = min (m.rank t.f) (min (m.rank t.g) (m.rank t.h)) := by
  have hmin : ∀ a b : UInt32, (min a b).toNat = min a.toNat b.toNat := fun a b => by
    change (if a ≤ b then a else b).toNat = _
    split <;> rename_i hle <;> rw [UInt32.le_iff_toNat_le] at hle <;> omega
  have hlt := i.toNat_lt_size
  rw [topmost]
  rcases hg with ⟨rfl, hg⟩ | ⟨hj, hg⟩ <;> rcases hh with ⟨rfl, hh⟩ | ⟨hk, hh⟩
  · simp only [ne_eq, not_true_eq_false, if_false, hf, hg, hh]
    omega
  · simp only [ne_eq, not_true_eq_false, not_false_eq_true, if_false, if_true, hk, hmin, hf, hg,
      hh]
    omega
  · simp only [ne_eq, not_true_eq_false, not_false_eq_true, if_false, if_true, hj, hmin, hf, hg,
      hh]
    omega
  · simp only [ne_eq, not_false_eq_true, if_true, hj, hk, hmin, hf, hg, hh]
    omega

theorem topmost_splits {i j k : UInt32} (hi : i ≠ 0) (hf : m.rank t.f = i.toNat)
    (hg : j = 0 ∧ m.rank t.g = UInt32.size ∨ j ≠ 0 ∧ m.rank t.g = j.toNat)
    (hh : k = 0 ∧ m.rank t.h = UInt32.size ∨ k ≠ 0 ∧ m.rank t.h = k.toNat) :
    Splits m t (topmost i j k) := by
  have hzero : ∀ a : UInt32, a ≠ 0 ↔ 0 < a.toNat := fun a => by
    rw [Ne, ← UInt32.toNat_inj, UInt32.toNat_zero]
    omega
  have hlt := i.toNat_lt_size
  have htop := toNat_topmost hf hg hh
  rw [hzero] at hi
  have hpos : 0 < m.rank t.g ∧ 0 < m.rank t.h := by
    rw [hzero] at hg hh
    omega
  exact ⟨(hzero _).2 (by omega), by omega, by omega, by omega⟩

private theorem Splits.extends {v : UInt32} {m' : Manager} (h : Splits m t v)
    (ht : m.Operands t) (hextends : m.Extends m') : Splits m' t v :=
  ⟨h.ne_zero, hextends.rank ht.f ▸ h.f, hextends.rank ht.g ▸ h.g, hextends.rank ht.h ▸ h.h⟩

theorem Splits.regular {v : UInt32} (h : Splits m t v) : Splits m t.regular.1 v := by
  obtain ⟨hv, hf, hg, hh⟩ := h
  unfold Triple.regular Triple.positiveCondition
  dsimp only
  split_ifs <;> constructor <;> simpa

/-- The two halves of a reference at a variable that it does not come before. -/
theorem cofactors_of_le_rank (hm : m.Reduced) {r : Ref} (hr : m.Live r) {v : UInt32}
    (hv : v ≠ 0) (hle : v.toNat ≤ m.rank r) :
    ∃ low high, m.cofactors r v = .ok (low, high) ∧ (m.Live low ∧ v.toNat < m.rank low) ∧
      (m.Live high ∧ v.toNat < m.rank high) ∧
      ∀ a, m.value r a = if a v then m.value high a else m.value low a := by
  rw [cofactors]
  rw [if_neg hv]
  by_cases hterminal : r.isTerminal = true
  · have hlt : v.toNat < m.rank r := by
      rw [rank_of_index_one (Ref.isTerminal_iff.1 hterminal)]
      exact v.toNat_lt_size
    exact ⟨r, r, if_pos hterminal, ⟨hr, hlt⟩, ⟨hr, hlt⟩, fun a => by simp⟩
  have hindex : r.index ≠ 1 := fun hone => hterminal (Ref.isTerminal_iff.2 hone)
  obtain ⟨node, hstored⟩ := hr
  have hrank := rank_of_stored hindex hstored
  simp only [hterminal, Bool.false_eq_true, if_false, node_of_stored hstored]
  by_cases hlt : v < node.var
  · have hltRank : v.toNat < m.rank r := by
      rw [hrank]
      exact UInt32.lt_iff_toNat_lt.1 hlt
    exact ⟨r, r, if_pos hlt, ⟨⟨node, hstored⟩, hltRank⟩, ⟨⟨node, hstored⟩, hltRank⟩,
      fun a => by simp⟩
  · have hvar : v = node.var := by
      rw [hrank] at hle
      rw [UInt32.lt_iff_toNat_lt] at hlt
      exact UInt32.toNat_inj.1 (by omega)
    subst hvar
    have hlow := hm.live_low hindex hstored
    have hhigh := hm.live_high hindex hstored
    refine ⟨_, _, by rw [if_neg hlt, if_pos rfl], ⟨by simpa using hlow, ?_⟩,
      ⟨by simpa using hhigh, ?_⟩, fun a => ?_⟩
    · simpa using hm.lt_rank_low hindex hstored
    · simpa using hm.lt_rank_high hindex hstored
    · rw [hm.value_node hindex hstored, hm.value_negateIf hlow, hm.value_negateIf hhigh]
      cases a node.var <;> simp

/-! ## Computed results -/

section ComputedResults
variable {computed : ComputedTable Triple Ref} {key : Triple} {r : Ref}

/-- A slot holds what was inserted last or what it held before. -/
theorem slot_of_insert {other : Triple} {s : Ref} {slot : Nat}
    (h : (computed.insert key r).slots[slot]? = some (some (other, s))) :
    other = key ∧ s = r ∨ computed.slots[slot]? = some (some (other, s)) := by
  rw [ComputedTable.slot_of_insert] at h
  split_ifs at h with hslot
  · exact .inl ⟨h.2.1.symm, h.2.2.symm⟩
  · exact .inr h

/-- A look-up leaves the results as they are, and what it finds is right. -/
theorem lookup_grows (hm : m.Canonical) (key : Triple) :
    m.Grows (onComputed (ComputedTable.lookup key)) fun found _ =>
      ∀ r, found = some r → m.Denotes r (m.choice key) := by
  have hslots : (ComputedTable.lookup key m.computed).2.slots = m.computed.slots :=
    ComputedTable.lookup_slots
  have hend : Canonical { m with computed := (ComputedTable.lookup key m.computed).2 } :=
    hm.of_nodes_eq rfl fun slot other r h => hm.computed slot other r (hslots ▸ h)
  refine Outcome.of_run (onComputed_run _ m) ⟨hend, Extends.of_nodes_eq rfl, fun r hr => ?_⟩
  rw [ComputedTable.lookup_answer] at hr
  exact (hm.computed _ key r (ComputedTable.find?_eq_some.1 hr)).2

/-- A right result may be remembered. -/
private theorem insert_grows (hm : m.Canonical) (hkey : m.Operands key)
    (hr : m.Denotes r (m.choice key)) :
    m.Grows (onComputed fun computed => ((), computed.insert key r)) fun _ _ => True := by
  have hend : Canonical { m with computed := m.computed.insert key r } := by
    refine hm.of_nodes_eq rfl fun slot other answer hslot => ?_
    rcases slot_of_insert hslot with ⟨rfl, rfl⟩ | hslot
    · exact ⟨hkey, hr⟩
    · exact hm.computed slot other answer hslot
  exact Outcome.of_run (onComputed_run _ m) ⟨hend, Extends.of_nodes_eq rfl, trivial⟩

end ComputedResults

/-- What stands for a triple over references behind a variable is behind it as well. -/
private theorem choice_lt_rank (hm : m.Reduced) (ht : m.Operands t) {v : UInt32}
    (hf : v.toNat < m.rank t.f) (hg : v.toNat < m.rank t.g) (hh : v.toNat < m.rank t.h)
    {m' : Manager} (hm' : m'.Reduced) {r : Ref} (hr : m'.Denotes r (m.choice t)) :
    v.toNat < m'.rank r := by
  apply hm'.lt_rank hr.1
  intro a b hagree
  have hbehind : ∀ r, m.Live r → v.toNat < m.rank r → m.value r a = m.value r b := fun r hr hlt =>
    hm.value_congr hr fun w hw => hagree w (Nat.lt_of_lt_of_le hlt hw)
  simp only [hr.2, choice, hbehind _ ht.f hf, hbehind _ ht.g hg, hbehind _ ht.h hh]

/-- A triple is answered by its halves, if they are answered rightly. -/
theorem splitAt_grows {answer : Triple → ManagerM Ref}
    (hanswer : ∀ {m : Manager} {t : Triple}, m.Canonical → m.Operands t →
      m.Grows (answer t) fun r m' => m'.Denotes r (m.choice t))
    (hm : m.Canonical) (ht : m.Operands t) {v : UInt32} (hv : Splits m t v) :
    m.Grows (splitAt answer t v) fun r m' => m'.Denotes r (m.choice t) := by
  obtain ⟨f₀, f₁, hf, ⟨hf₀, hltf₀⟩, ⟨hf₁, hltf₁⟩, hvalueF⟩ :=
    cofactors_of_le_rank hm.reduced ht.f hv.ne_zero hv.f
  obtain ⟨g₀, g₁, hg, ⟨hg₀, hltg₀⟩, ⟨hg₁, hltg₁⟩, hvalueG⟩ :=
    cofactors_of_le_rank hm.reduced ht.g hv.ne_zero hv.g
  obtain ⟨h₀, h₁, hh, ⟨hh₀, hlth₀⟩, ⟨hh₁, hlth₁⟩, hvalueH⟩ :=
    cofactors_of_le_rank hm.reduced ht.h hv.ne_zero hv.h
  have hchoice : ∀ a, m.choice t a =
      if a v then m.choice ⟨f₁, g₁, h₁⟩ a else m.choice ⟨f₀, g₀, h₀⟩ a := fun a => by
    simp only [choice, hvalueF, hvalueG, hvalueH]
    cases a v <;> simp
  rw [splitAt]
  refine Grows.ask_bind hf (Grows.ask_bind hg (Grows.ask_bind hh ?_))
  have hlow : m.Operands ⟨f₀, g₀, h₀⟩ := ⟨hf₀, hg₀, hh₀⟩
  have hhigh : m.Operands ⟨f₁, g₁, h₁⟩ := ⟨hf₁, hg₁, hh₁⟩
  apply Grows.bind (hanswer hm hlow)
  intro low m₁ hm₁ hextends₁ hlowDenotes
  refine Grows.bind (hanswer hm₁ (hhigh.extends hextends₁)) fun high m₂ hm₂ hextends₂
    hhighDenotes => ?_
  have hextends := hextends₁.trans hextends₂
  have hlowDenotes' := hextends₂.denotes hm₁.reduced hm₂.reduced hlowDenotes
  rw [hextends₁.choice hm.reduced hm₁.reduced hhigh] at hhighDenotes
  -- either half depends only on variables after `v`
  have hltLow : v.toNat < m₂.rank low :=
    choice_lt_rank hm.reduced hlow hltf₀ hltg₀ hlth₀ hm₂.reduced hlowDenotes'
  have hltHigh : v.toNat < m₂.rank high :=
    choice_lt_rank hm.reduced hhigh hltf₁ hltg₁ hlth₁ hm₂.reduced hhighDenotes
  refine Grows.bind (mkNode_grows hm₂ hlowDenotes'.1 hhighDenotes.1 hltLow hltHigh)
    fun r m₃ hm₃ hextends₃ hr => ?_
  have hrDenotes : m₃.Denotes r (m.choice t) := by
    refine ⟨hr.1, fun a => (hr.2 a).trans ?_⟩
    simp only [hchoice, hlowDenotes'.2, hhighDenotes.2]
  have hextends' := hextends.trans hextends₃
  have hchoice₃ := hextends'.choice hm.reduced hm₃.reduced ht
  refine Grows.bind (insert_grows hm₃ (ht.extends hextends') (hchoice₃.symm ▸ hrDenotes))
    fun _ m₄ hm₄ hextends₄ _ => Grows.pure hm₄ ?_
  exact hextends₄.denotes hm₃.reduced hm₄.reduced hrDenotes

/-! ## If-then-else -/

theorem iteWithin_grows (bound : Nat) : ∀ {m : Manager} {t : Triple}, m.Canonical →
    m.Operands t → m.Grows (iteWithin bound t) fun r m' => m'.Denotes r (m.choice t) := by
  induction bound with
  | zero => exact fun hm _ => Grows.throw hm
  | succ bound ih =>
      intro m t hm ht
      rw [iteWithin]
      cases hconstant : t.constant? with
      | some r => exact Grows.pure hm (constant?_denotes hm.reduced ht hconstant)
      | none =>
      cases hsimplify : t.simplify? with
      | some t' =>
          obtain ⟨ht', hchoice⟩ := simplify?_choice hm.reduced ht hsimplify
          exact hchoice ▸ ih hm ht'
      | none =>
      obtain ⟨i, hi, hrankI⟩ := topVar_of_live hm.reduced ht.f
      obtain ⟨j, hj, hrankJ⟩ := topVar_of_live hm.reduced ht.g
      obtain ⟨k, hk, hrankK⟩ := topVar_of_live hm.reduced ht.h
      refine Grows.ask_bind hi (Grows.ask_bind hj (Grows.ask_bind hk ?_))
      by_cases hzero : i = 0
      · simp only [hzero, if_true]
        exact Grows.throw_bind hm
      have hsplits := topmost_splits hzero
        (hrankI.elim (fun h => absurd h.1 hzero) And.right) hrankJ hrankK
      simp only [hzero, if_false]
      cases hexchange : t.exchange? i j k with
      | some t' =>
          obtain ⟨ht', hchoice⟩ := exchange?_choice hm.reduced ht hexchange
          exact hchoice ▸ ih hm ht'
      | none =>
      obtain ⟨hkey, hchoice⟩ := regular_choice hm.reduced ht
      apply Grows.bind (lookup_grows hm t.regular.1)
      intro found m₁ hm₁ hextends hfound
      have hkey₁ := hkey.extends hextends
      have hchoice₁ := hextends.choice hm.reduced hm₁.reduced hkey
      cases found with
      | some r =>
          have hr := hextends.denotes hm.reduced hm₁.reduced (hfound r rfl)
          refine Grows.pure hm₁ ⟨live_negateIf.2 hr.1, fun a => ?_⟩
          rw [hm₁.reduced.value_negateIf hr.1, hr.2, hchoice]
      | none =>
          have hsplits₁ := hsplits.regular.extends hkey hextends
          apply Grows.bind (splitAt_grows ih hm₁ hkey₁ hsplits₁)
          intro r m₂ hm₂ _ hr
          refine Grows.pure hm₂ ⟨live_negateIf.2 hr.1, fun a => ?_⟩
          rw [hm₂.reduced.value_negateIf hr.1, hr.2, hchoice₁, hchoice]

/-- If-then-else answers a reference to the function its operands make together. -/
theorem ite_grows (hm : m.Canonical) {f g h : Ref} (hf : m.Live f) (hg : m.Live g)
    (hh : m.Live h) : m.Grows (ite f g h) fun r m' => m'.Denotes r (m.choice ⟨f, g, h⟩) :=
  iteWithin_grows stepBound hm ⟨hf, hg, hh⟩

section Connectives
variable {u v : Ref}

theorem conj_grows (hm : m.Canonical) (hu : m.Live u) (hv : m.Live v) :
    m.Grows (conj u v) fun r m' => m'.Denotes r fun a => m.value u a && m.value v a := by
  apply (ite_grows hm hu hv hm.reduced.live_zero).denotes_congr
  intro a
  simp [choice]

theorem disj_grows (hm : m.Canonical) (hu : m.Live u) (hv : m.Live v) :
    m.Grows (disj u v) fun r m' => m'.Denotes r fun a => m.value u a || m.value v a := by
  apply (ite_grows hm hu hm.reduced.live_one hv).denotes_congr
  intro a
  simp [choice]

theorem diff_grows (hm : m.Canonical) (hu : m.Live u) (hv : m.Live v) :
    m.Grows (diff u v) fun r m' => m'.Denotes r fun a => m.value u a && !m.value v a := by
  apply (ite_grows hm hv hm.reduced.live_zero hu).denotes_congr
  intro a
  cases hb : m.value v a <;> simp [choice, hb]

/-- A disjunction of a list holds where one of its members does. -/
theorem disjAll_grows (hm : m.Canonical) {rs : List Ref} (hrs : ∀ r ∈ rs, m.Live r) :
    m.Grows (disjAll rs) fun r m' => m'.Denotes r fun a => rs.any fun r => m.value r a := by
  suffices hfold : ∀ {m : Manager} {start : Ref} (rs : List Ref), m.Canonical → m.Live start →
      (∀ r ∈ rs, m.Live r) → m.Grows (rs.foldlM disj start) fun r m' =>
        m'.Denotes r fun a => m.value start a || rs.any fun r => m.value r a by
    apply (hfold rs hm hm.reduced.live_zero hrs).denotes_congr
    intro a
    simp
  intro m start rs hm hstart hrs
  induction rs generalizing m start with
  | nil => exact Grows.pure hm ⟨hstart, fun a => by simp⟩
  | cons first rest ih =>
      obtain ⟨hfirst, hrest⟩ := List.forall_mem_cons.1 hrs
      rw [List.foldlM_cons]
      apply Grows.bind (disj_grows hm hstart hfirst)
      intro r m₁ hm₁ hextends hr
      apply (ih hm₁ hr.1 fun r hr => hextends.live (hrest r hr)).denotes_congr
      intro a
      have hsame : (rest.any fun r => m₁.value r a) = rest.any fun r => m.value r a := by
        rw [Bool.eq_iff_iff, List.any_eq_true, List.any_eq_true]
        refine exists_congr fun r => and_congr_right fun hr => ?_
        rw [hextends.value hm.reduced hm₁.reduced (hrest r hr)]
      simp only [hr.2, hsame, List.any_cons, Bool.or_assoc]

/-- Whether one function is below another is whether their difference is nowhere. -/
theorem implies_grows (hm : m.Canonical) (hu : m.Live u) (hv : m.Live v) :
    m.Grows (implies u v) fun b _ =>
      b = true ↔ ∀ a, m.value u a = true → m.value v a = true := by
  refine Grows.bind (diff_grows hm hu hv) fun r m' hm' _ hr => Grows.pure hm' ?_
  rw [decide_eq_true_iff, hm'.reduced.eq_iff_of_denotes hr hm'.reduced.denotes_zero]
  simp

/-- Whether two functions are disjoint is whether their conjunction is nowhere. -/
theorem disjoint_grows (hm : m.Canonical) (hu : m.Live u) (hv : m.Live v) :
    m.Grows (disjoint u v) fun b _ =>
      b = true ↔ ∀ a, ¬ (m.value u a = true ∧ m.value v a = true) := by
  refine Grows.bind (conj_grows hm hu hv) fun r m' hm' _ hr => Grows.pure hm' ?_
  rw [decide_eq_true_iff, hm'.reduced.eq_iff_of_denotes hr hm'.reduced.denotes_zero]
  simp

end Connectives

end Manager

end SymbolicOmega
