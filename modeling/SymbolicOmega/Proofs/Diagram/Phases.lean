import SymbolicOmega.Proofs.Diagram.Connectives

/-!
# Phases of if-then-else

A step of if-then-else answers, goes on with a simpler triple, or splits the triple at its
first variable.  Which of these it does depends on the stored nodes alone; only then is the
computed table asked.  Every step takes effort off the triple, and no triple over stored nodes
needs more effort than the bound that if-then-else starts with.
-/

namespace SymbolicOmega

namespace Manager

variable {m m' : Manager} {t t' : Triple} {r : Ref} {v : UInt32}

/-- What a step does before it asks the computed table. -/
inductive Phase where
  /-- The triple has this answer. -/
  | answer (r : Ref)
  /-- This triple has the same answer. -/
  | again (t : Triple)
  /-- The triple is split at this variable. -/
  | split (v : UInt32)

/-- The variable that a reference to a stored node decides, 0 for a constant. -/
def top (m : Manager) (r : Ref) : UInt32 :=
  ((m.nodes.stored? r.index).map (·.var)).getD 0

def phase (m : Manager) (t : Triple) : Phase :=
  match t.constant? with
  | some r => .answer r
  | none =>
  match t.simplify? with
  | some t => .again t
  | none =>
  match t.exchange? (m.top t.f) (m.top t.g) (m.top t.h) with
  | some t => .again t
  | none => .split (topmost (m.top t.f) (m.top t.g) (m.top t.h))

/-- The result for a triple in standard form: the one remembered, or one computed by halves. -/
def resolve (bound : Nat) (v : UInt32) (key : Triple) : ManagerM Ref := do
  match ← onComputed (ComputedTable.lookup key) with
  | some r => return r
  | none => splitAt (iteWithin bound) key v

/-- The first rank in a triple. -/
def firstRank (m : Manager) (t : Triple) : Nat :=
  min (m.rank t.f) (min (m.rank t.g) (m.rank t.h))

theorem topVar_eq_top (hm : m.Reduced) (hr : m.Live r) :
    m.topVar r = .ok (m.top r) ∧
      (m.top r = 0 ∧ m.rank r = UInt32.size ∨ m.top r ≠ 0 ∧ m.rank r = (m.top r).toNat) := by
  obtain ⟨i, hi, hrank⟩ := topVar_of_live hm hr
  have htop : m.top r = i := by
    obtain ⟨node, hstored⟩ := hr
    simp only [topVar, node_of_stored hstored, Except.ok.injEq] at hi
    simp [top, hstored, hi]
  rw [htop]
  exact ⟨hi, hrank⟩

/-- A condition without an answer of its own is not a constant. -/
theorem index_ne_one_of_constant? (h : t.constant? = none) : t.f.index ≠ 1 := by
  intro hindex
  obtain ⟨⟨index, negated⟩, g, h'⟩ := t
  dsimp only at hindex
  subst hindex
  cases negated <;> simp [Triple.constant?, Ref.one, Ref.zero] at h

theorem top_ne_zero (hm : m.Reduced) (hr : m.Live r) (hindex : r.index ≠ 1) : m.top r ≠ 0 := by
  obtain ⟨node, hstored⟩ := hr
  simpa [top, hstored] using (hm.proper _ _ hindex hstored).var_ne_zero

theorem rank_eq_top (hm : m.Reduced) (hr : m.Live r) (hindex : r.index ≠ 1) :
    m.rank r = (m.top r).toNat :=
  (topVar_eq_top hm hr).2.elim (fun h => absurd h.1 (top_ne_zero hm hr hindex)) And.right

/-- The phases of if-then-else, one equation for all of them. -/
theorem iteWithin_succ (hm : m.Reduced) (ht : m.Operands t) (bound : Nat) :
    iteWithin (bound + 1) t m = match m.phase t with
      | .answer r => .ok r m
      | .again t' => iteWithin bound t' m
      | .split v => ((·.negateIf t.regular.2) <$> resolve bound v t.regular.1) m := by
  rw [iteWithin]
  rw [phase]
  cases hconstant : t.constant? with
  | some r => rfl
  | none =>
  cases hsimplify : t.simplify? with
  | some t' => rfl
  | none =>
  have hi := (topVar_eq_top hm ht.f).1
  have hj := (topVar_eq_top hm ht.g).1
  have hk := (topVar_eq_top hm ht.h).1
  have hzero := top_ne_zero hm ht.f (index_ne_one_of_constant? hconstant)
  dsimp only
  rw [run_bind (ask_run hi), run_bind (ask_run hj), run_bind (ask_run hk)]
  simp only [hzero, if_false]
  cases hexchange : t.exchange? (m.top t.f) (m.top t.g) (m.top t.h) with
  | some t' => rfl
  | none =>
      simp only [resolve, map_eq_pure_bind, bind_assoc]
      rw [run_bind (onComputed_run _ m), run_bind (onComputed_run _ m)]
      cases (ComputedTable.lookup t.regular.1 m.computed).1 <;> rfl

/-! ## Effort -/

theorem firstRank_le_size (hm : m.Reduced) (hf : m.Live t.f) : m.firstRank t ≤ UInt32.size := by
  have hle : m.rank t.f ≤ UInt32.size := by
    by_cases hindex : t.f.index = 1
    · exact Nat.le_of_eq (rank_of_index_one hindex)
    · rw [rank_eq_top hm hf hindex]
      exact Nat.le_of_lt (m.top t.f).toNat_lt_size
  exact Nat.le_trans (Nat.min_le_left _ _) hle

theorem firstRank_pos (hm : m.Reduced) (ht : m.Operands t) : 0 < m.firstRank t :=
  Nat.lt_min.2 ⟨hm.rank_pos ht.f, Nat.lt_min.2 ⟨hm.rank_pos ht.g, hm.rank_pos ht.h⟩⟩

/-- A triple may be split at its first variable. -/
theorem Splits.of_firstRank (hm : m.Reduced) (ht : m.Operands t)
    (hfirst : v.toNat = m.firstRank t) : m.Splits t v := by
  have hpos := firstRank_pos hm ht
  have hne : v ≠ 0 := by
    rintro rfl
    rw [← hfirst, UInt32.toNat_zero] at hpos
    exact Nat.lt_irrefl 0 hpos
  rw [firstRank] at hfirst
  exact ⟨hne, by omega, by omega, by omega⟩

/-- Steps that a triple may still take: four for each variable from its first one on, one of
them for each branch that is not constant and one for a condition that is not first. -/
def effort (m : Manager) (t : Triple) : Nat :=
  4 * (UInt32.size - m.firstRank t) + (if t.g.index = 1 then 0 else 1) +
    (if t.h.index = 1 then 0 else 1) + (if m.rank t.f = m.firstRank t then 0 else 1) + 1

theorem effort_le_stepBound (hm : m.Reduced) (ht : m.Operands t) : m.effort t ≤ stepBound := by
  have hpos := firstRank_pos hm ht
  have hle := firstRank_le_size hm ht.f
  rw [effort, stepBound]
  split_ifs <;> omega

/-- A triple over references behind the first variable of another one takes less effort. -/
theorem effort_lt_of_firstRank_lt (hm : m.Reduced) (ht' : m.Operands t')
    (h : m.firstRank t < m.firstRank t') : m.effort t' < m.effort t := by
  have hle := firstRank_le_size hm ht'.f
  rw [effort, effort]
  split_ifs <;> omega

/-- A branch that repeats the condition is constant afterwards. -/
theorem simplify?_effort (hm : m.Reduced) (ht : m.Operands t) (hconstant : t.constant? = none)
    (h : t.simplify? = some t') : m.effort t' < m.effort t := by
  have hindex := index_ne_one_of_constant? hconstant
  have hle := firstRank_le_size hm ht.f
  obtain ⟨f, g, h'⟩ := t
  have hone : Ref.one.index = 1 ∧ m.rank Ref.one = UInt32.size := ⟨rfl, rank_of_index_one rfl⟩
  have hzero : Ref.zero.index = 1 ∧ m.rank Ref.zero = UInt32.size := ⟨rfl, rank_of_index_one rfl⟩
  simp only [firstRank] at hindex hle
  rw [Triple.simplify?] at h
  simp only at h
  split_ifs at h with h₁ h₂ h₃ h₄ <;> cases h
  · simp only [effort, firstRank, h₁, hindex, hone, if_true, if_false] at hle ⊢
    split_ifs <;> omega
  · simp only [effort, firstRank, h₂, hindex, hzero, if_true, if_false] at hle ⊢
    split_ifs <;> omega
  · simp only [effort, firstRank, h₃, hindex, hzero, rank_neg, Ref.index_neg, if_true,
      if_false] at hle ⊢
    split_ifs <;> omega
  · simp only [effort, firstRank, h₄, hindex, hone, rank_neg, Ref.index_neg, if_true,
      if_false] at hle ⊢
    split_ifs <;> omega

/-- A branch that comes before the condition becomes the condition, which is first then. -/
theorem exchange?_effort (hm : m.Reduced) (ht : m.Operands t) (hconstant : t.constant? = none)
    (h : t.exchange? (m.top t.f) (m.top t.g) (m.top t.h) = some t') :
    m.effort t' < m.effort t := by
  have hindex := index_ne_one_of_constant? hconstant
  have hrank := rank_eq_top hm ht.f hindex
  have hsize := (m.top t.f).toNat_lt_size
  have hbranch : ∀ b, m.Live b → m.top b ≠ 0 → m.top b < m.top t.f →
      b.index ≠ 1 ∧ m.rank b < m.rank t.f := by
    intro b hb hne hlt
    have hrankb : m.rank b = (m.top b).toNat :=
      (topVar_eq_top hm hb).2.elim (fun hz => absurd hz.1 hne) And.right
    rw [UInt32.lt_iff_toNat_lt] at hlt
    refine ⟨fun hone => ?_, by omega⟩
    have := rank_of_index_one (m := m) hone
    omega
  have hg := hbranch t.g ht.g
  have hh := hbranch t.h ht.h
  obtain ⟨f, g, h'⟩ := t
  have hone : Ref.one.index = 1 ∧ m.rank Ref.one = UInt32.size := ⟨rfl, rank_of_index_one rfl⟩
  have hzero : Ref.zero.index = 1 ∧ m.rank Ref.zero = UInt32.size := ⟨rfl, rank_of_index_one rfl⟩
  rw [← hrank] at hsize
  simp only at hindex hsize hg hh
  rw [Triple.exchange?] at h
  simp only at h
  split_ifs at h with h₁ h₂ h₃ h₄ <;> cases h
  · obtain ⟨hindexb, hlt⟩ := hh h₁.2.1 h₁.2.2
    simp only [effort, firstRank, h₁.1, hindex, hindexb, hone, if_true, if_false]
    split_ifs <;> omega
  · obtain ⟨hindexb, hlt⟩ := hg h₂.2.1 h₂.2.2
    simp only [effort, firstRank, h₂.1, hindex, hindexb, hzero, if_true, if_false]
    split_ifs <;> omega
  · obtain ⟨hindexb, hlt⟩ := hg h₃.2.1 h₃.2.2
    simp only [effort, firstRank, h₃.1, hindex, hindexb, hone, rank_neg, Ref.index_neg, if_true,
      if_false]
    split_ifs <;> omega
  · obtain ⟨hindexb, hlt⟩ := hh h₄.2.1 h₄.2.2
    simp only [effort, firstRank, h₄.1, hindex, hindexb, hzero, rank_neg, Ref.index_neg, if_true,
      if_false]
    split_ifs <;> omega

/-- A triple that takes the place of another one is over stored nodes and takes less effort. -/
theorem phase_again (hm : m.Reduced) (ht : m.Operands t) (h : m.phase t = .again t') :
    m.Operands t' ∧ m.effort t' < m.effort t := by
  rw [phase] at h
  cases hconstant : t.constant? with
  | some r => simp [hconstant] at h
  | none =>
  cases hsimplify : t.simplify? with
  | some u =>
      simp only [hconstant, hsimplify, Phase.again.injEq] at h
      subst h
      exact ⟨(simplify?_choice hm ht hsimplify).1, simplify?_effort hm ht hconstant hsimplify⟩
  | none =>
  cases hexchange : t.exchange? (m.top t.f) (m.top t.g) (m.top t.h) with
  | some u =>
      simp only [hconstant, hsimplify, hexchange, Phase.again.injEq] at h
      subst h
      exact ⟨(exchange?_choice hm ht hexchange).1, exchange?_effort hm ht hconstant hexchange⟩
  | none => simp [hconstant, hsimplify, hexchange] at h

/-- A triple is split at its first variable. -/
theorem phase_split (hm : m.Reduced) (ht : m.Operands t) (h : m.phase t = .split v) :
    v.toNat = m.firstRank t := by
  rw [phase] at h
  cases hconstant : t.constant? with
  | some r => simp [hconstant] at h
  | none =>
  cases hsimplify : t.simplify? with
  | some u => simp [hconstant, hsimplify] at h
  | none =>
  cases hexchange : t.exchange? (m.top t.f) (m.top t.g) (m.top t.h) with
  | some u => simp [hconstant, hsimplify, hexchange] at h
  | none =>
      simp only [hconstant, hsimplify, hexchange, Phase.split.injEq] at h
      subst h
      have hindex := index_ne_one_of_constant? hconstant
      have hf := rank_eq_top hm ht.f hindex
      have hg := (topVar_eq_top hm ht.g).2
      have hh := (topVar_eq_top hm ht.h).2
      exact toNat_topmost hf hg hh

/-- What `r` becomes on one value of a variable that it does not come before. -/
def half (m : Manager) (bit : Bool) (v : UInt32) (r : Ref) : Ref :=
  match m.cofactors r v with
  | .ok (low, high) => if bit then high else low
  | .error _ => r

def halves (m : Manager) (bit : Bool) (v : UInt32) (t : Triple) : Triple :=
  ⟨m.half bit v t.f, m.half bit v t.g, m.half bit v t.h⟩

theorem cofactors_eq_half (hm : m.Reduced) (hr : m.Live r) (hv : v ≠ 0)
    (hle : v.toNat ≤ m.rank r) :
    m.cofactors r v = .ok (m.half false v r, m.half true v r) := by
  obtain ⟨low, high, h, -⟩ := cofactors_of_le_rank hm hr hv hle
  simp [half, h]

theorem half_live (hm : m.Reduced) (hr : m.Live r) (hv : v ≠ 0) (hle : v.toNat ≤ m.rank r)
    (bit : Bool) : m.Live (m.half bit v r) ∧ v.toNat < m.rank (m.half bit v r) := by
  obtain ⟨low, high, h, hlow, hhigh, -⟩ := cofactors_of_le_rank hm hr hv hle
  cases bit <;> simpa [half, h]

/-- The halves at the first variable are over stored nodes and take less effort. -/
theorem halves_operands (hm : m.Reduced) (ht : m.Operands t) (hfirst : v.toNat = m.firstRank t)
    (bit : Bool) :
    m.Operands (m.halves bit v t) ∧ m.effort (m.halves bit v t) < m.effort t := by
  have hv := Splits.of_firstRank hm ht hfirst
  obtain ⟨hf, hltf⟩ := half_live hm ht.f hv.ne_zero hv.f bit
  obtain ⟨hg, hltg⟩ := half_live hm ht.g hv.ne_zero hv.g bit
  obtain ⟨hh, hlth⟩ := half_live hm ht.h hv.ne_zero hv.h bit
  have hoperands : m.Operands (m.halves bit v t) := ⟨hf, hg, hh⟩
  refine ⟨hoperands, effort_lt_of_firstRank_lt hm hoperands ?_⟩
  rw [← hfirst]
  exact Nat.lt_min.2 ⟨hltf, Nat.lt_min.2 ⟨hltg, hlth⟩⟩

theorem splitAt_eq (hm : m.Reduced) (ht : m.Operands t) (hfirst : v.toNat = m.firstRank t)
    (answer : Triple → ManagerM Ref) :
    splitAt answer t v m = (do
      let low ← answer (m.halves false v t)
      let high ← answer (m.halves true v t)
      let r ← mkNode v low high
      onComputed fun computed => ((), computed.insert t r)
      return r) m := by
  have hv := Splits.of_firstRank hm ht hfirst
  have hf : ask (·.cofactors t.f v) m = .ok (m.half false v t.f, m.half true v t.f) m :=
    ask_run (cofactors_eq_half hm ht.f hv.ne_zero hv.f)
  have hg : ask (·.cofactors t.g v) m = .ok (m.half false v t.g, m.half true v t.g) m :=
    ask_run (cofactors_eq_half hm ht.g hv.ne_zero hv.g)
  have hh : ask (·.cofactors t.h v) m = .ok (m.half false v t.h, m.half true v t.h) m :=
    ask_run (cofactors_eq_half hm ht.h hv.ne_zero hv.h)
  exact (run_bind hf).trans ((run_bind hg).trans (run_bind hh))

theorem firstRank_regular (t : Triple) : m.firstRank t.regular.1 = m.firstRank t := by
  unfold Triple.regular Triple.positiveCondition
  dsimp only
  split_ifs <;> simp only [firstRank, rank_neg] <;> omega

theorem effort_regular (t : Triple) : m.effort t.regular.1 = m.effort t := by
  have hswap : ∀ f g h, m.effort ⟨-f, h, g⟩ = m.effort ⟨f, g, h⟩ := by
    intro f g h
    have hfirst : m.firstRank ⟨-f, h, g⟩ = m.firstRank ⟨f, g, h⟩ :=
      congrArg (min (m.rank f)) (Nat.min_comm _ _)
    simp only [effort, hfirst, rank_neg]
    omega
  have hneg : ∀ f g h, m.effort ⟨f, -g, -h⟩ = m.effort ⟨f, g, h⟩ := fun _ _ _ => rfl
  unfold Triple.regular Triple.positiveCondition
  dsimp only
  split_ifs <;> simp only [hneg, hswap]

/-! ## More nodes -/

theorem Extends.top (h : m.Extends m') (hr : m.Live r) : m'.top r = m.top r := by
  obtain ⟨node, hstored⟩ := hr
  simp only [Manager.top, hstored, h _ _ hstored]

theorem Extends.phase (h : m.Extends m') (ht : m.Operands t) : m'.phase t = m.phase t := by
  simp only [Manager.phase, h.top ht.f, h.top ht.g, h.top ht.h]

theorem Extends.half (h : m.Extends m') (hr : m.Live r) (bit : Bool) :
    m'.half bit v r = m.half bit v r := by
  obtain ⟨node, hstored⟩ := hr
  simp only [Manager.half, cofactors, node_of_stored hstored, node_of_stored (h _ _ hstored)]

theorem Extends.halves (h : m.Extends m') (ht : m.Operands t) (bit : Bool) :
    m'.halves bit v t = m.halves bit v t := by
  simp only [Manager.halves, h.half ht.f, h.half ht.g, h.half ht.h]

theorem Extends.firstRank (h : m.Extends m') (ht : m.Operands t) :
    m'.firstRank t = m.firstRank t := by
  simp only [Manager.firstRank, h.rank ht.f, h.rank ht.g, h.rank ht.h]

theorem Extends.effort (h : m.Extends m') (ht : m.Operands t) : m'.effort t = m.effort t := by
  rw [Manager.effort, h.firstRank ht, h.rank ht.f, Manager.effort]

end Manager

end SymbolicOmega
