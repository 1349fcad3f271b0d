import SymbolicOmega.Proofs.Diagram.Exhaustion

/-!
# Cubes

A cube is built from its last variable up, each literal in front of what stands for the later
ones, and no conjunction is computed.  This comes to the conjunction of the literals exactly if
no variable is repeated: a node for a repeated variable is put above a node that decides the
same variable, and then the diagram is not ordered any more.
-/

namespace SymbolicOmega

namespace Manager

open Function

variable {m m' : Manager} {r s : Ref} {literal : Literal} {literals rest : List Literal}

/-- Each variable is decided by one of the literals at most. -/
def Distinct (literals : List Literal) : Prop :=
  (literals.map (·.var)).Nodup

/-- The reference of a literal. -/
def literalRef (literal : Literal) : ManagerM Ref :=
  (·.negateIf (!literal.positive)) <$> mkVar literal.var

/-- The conjunction of literals, computed one after the other. -/
def conjoinAll (literals : List Literal) : ManagerM Ref :=
  literals.foldlM (fun r literal => do conj r (← literalRef literal)) Ref.one

theorem literalRef_grows (hm : m.Canonical) (literal : Literal) :
    m.Grows (literalRef literal) fun r m' =>
      m'.Denotes r fun a => a literal.var == literal.positive := by
  apply Outcome.map
  apply (mkVar_grows hm literal.var).mono
  intro r m' hm' _ hr
  refine ⟨live_negateIf.2 hr.1, fun a => ?_⟩
  rw [hm'.reduced.value_negateIf hr.1, hr.2]
  cases literal.positive <;> simp

/-- The conjunction holds where all literals do, whichever of them share a variable. -/
theorem conjoinAll_grows (hm : m.Canonical) (literals : List Literal) :
    m.Grows (conjoinAll literals) fun r m' => m'.Denotes r (satisfies literals) := by
  suffices hfold : ∀ {m : Manager} {start : Ref} (literals : List Literal), m.Canonical →
      m.Live start → m.Grows
        (literals.foldlM (fun r literal => do conj r (← literalRef literal)) start) fun r m' =>
          m'.Denotes r fun a => m.value start a && satisfies literals a by
    apply (hfold literals hm hm.reduced.live_one).denotes_congr
    intro a
    simp
  intro m start literals hm hstart
  induction literals generalizing m start with
  | nil => exact Grows.pure hm ⟨hstart, fun a => by simp [satisfies]⟩
  | cons literal rest ih =>
      rw [List.foldlM_cons, bind_assoc]
      apply Grows.bind (literalRef_grows hm literal)
      intro l m₁ hm₁ hextends hl
      apply Grows.bind (conj_grows hm₁ (hextends.live hstart) hl.1)
      intro r m₂ hm₂ _ hr
      apply (ih hm₂ hr.1).denotes_congr
      intro a
      simp only [hr.2, hl.2, hextends.value hm.reduced hm₁.reduced hstart, satisfies,
        List.all_cons, Bool.and_assoc]

/-- No literal is over the number 0, which is no variable. -/
def Named (literals : List Literal) : Prop :=
  ∀ literal ∈ literals, literal.var ≠ 0

/-- Literals of variables are conjoined unless there is no cell for a node. -/
theorem conjoinAll_fails (hm : m.Canonical) (h : m.HasHistory) (hnamed : Named literals) :
    Outcome (conjoinAll literals) m (fun _ m' => m'.HasHistory) NoCell := by
  suffices hfold : ∀ {m : Manager} {start : Ref}, m.Canonical → m.HasHistory → m.Live start →
      Outcome (literals.foldlM (fun r literal => do conj r (← literalRef literal)) start) m
        (fun _ m' => m'.HasHistory) NoCell from hfold hm h hm.reduced.live_one
  intro m start hm h hstart
  induction literals generalizing m start with
  | nil => exact Outcome.pure h
  | cons literal rest ih =>
      obtain ⟨hvar, hrest⟩ := List.forall_mem_cons.1 hnamed
      rw [List.foldlM_cons, bind_assoc]
      have hliteral : Outcome (literalRef literal) m (fun _ m' => m'.HasHistory) NoCell :=
        Outcome.map (mkNode_fails h hvar Ref.zero Ref.one)
      apply Outcome.andThen (((literalRef_grows hm literal).and hliteral).mono
        (fun _ _ hend => hend) fun _ _ hend => hend.2)
      rintro l m₁ ⟨⟨hm₁, hextends, hl⟩, h₁⟩
      have hstart₁ := hextends.live hstart
      apply Outcome.andThen (((conj_grows hm₁ hstart₁ hl.1).and
        (conj_fails hm₁ h₁ hstart₁ hl.1)).mono (fun _ _ hend => hend) fun _ _ hend => hend.2)
      rintro r m₂ ⟨⟨hm₂, -, hr⟩, h₂⟩
      exact ih hrest hm₂ h₂ hr.1

/-- What conjoining literals comes to, in a diagram whose nodes have a history if no literal is
over the number 0. -/
theorem conjoinAll_outcome (hm : m.Canonical) (h : Named literals → m.HasHistory) :
    Outcome (conjoinAll literals) m
      (fun r m' => m'.Canonical ∧ m.Extends m' ∧ m'.Denotes r (satisfies literals) ∧
        (Named literals → m'.HasHistory))
      (fun fault m' => m'.Reduced ∧ (Named literals → m'.NoCell fault)) := by
  have hfails := Outcome.given fun hnamed => conjoinAll_fails hm (h hnamed) hnamed
  exact (Outcome.and (conjoinAll_grows hm literals) hfails).mono
    (fun _ _ hend => ⟨hend.1.1, hend.1.2.1, hend.1.2.2, hend.2⟩)
    fun _ _ hend => ⟨hend.1.1.reduced, hend.2⟩

theorem satisfies_congr {a b : UInt32 → Bool}
    (h : ∀ literal ∈ literals, a literal.var = b literal.var) :
    satisfies literals a = satisfies literals b := by
  rw [satisfies, satisfies, Bool.eq_iff_iff, List.all_eq_true, List.all_eq_true]
  apply forall₂_congr
  intro literal hmem
  rw [h literal hmem]

/-- Two of the literals are about one variable, which has to hold and must not. -/
def Opposed (literals : List Literal) : Prop :=
  ∃ l ∈ literals, ∃ l' ∈ literals, l.var = l'.var ∧ l.positive ≠ l'.positive

/-- All literals can hold together unless two of them are opposite. -/
theorem exists_satisfies_iff : (∃ a, satisfies literals a = true) ↔ ¬ Opposed literals := by
  simp only [satisfies, List.all_eq_true, beq_iff_eq]
  constructor
  · rintro ⟨a, ha⟩ ⟨l, hl, l', hl', hvar, hopposite⟩
    rw [← ha l hl, ← ha l' hl', hvar] at hopposite
    exact hopposite rfl
  · intro hopposite
    refine ⟨fun v => decide (∃ l ∈ literals, l.var = v ∧ l.positive = true), fun l hl => ?_⟩
    cases hpositive : l.positive with
    | true => exact decide_eq_true ⟨l, hl, rfl, hpositive⟩
    | false =>
        apply decide_eq_false
        rintro ⟨l', hl', hvar, htrue⟩
        exact hopposite ⟨l', hl', l, hl, hvar, by rw [htrue, hpositive]; decide⟩

/-- A conjunction is the constant false exactly if two of its literals are opposite. -/
theorem Denotes.eq_zero_iff (hm : m.Reduced) (hr : m.Denotes r (satisfies literals)) :
    r = Ref.zero ↔ Opposed literals := by
  rw [hm.eq_iff_of_denotes hr hm.denotes_zero, ← not_iff_not, ← exists_satisfies_iff]
  simp

theorem exists_satisfies (h : Distinct literals) :
    ∃ a, satisfies literals a = true := by
  apply exists_satisfies_iff.2
  rintro ⟨l, hl, l', hl', hvar, hopposite⟩
  exact hopposite (List.inj_on_of_nodup_map h hl hl' hvar ▸ rfl)

/-! ## Cubes over distinct variables -/

/-- Making a stored node again from what it leaves to either side finds it, unless its index has
no reference. -/
theorem Canonical.mkNode_halves (hm : m.Canonical) {node : Node} (hindex : r.index ≠ 1)
    (hstored : m.nodes.stored? r.index = some node) :
    mkNode node.var (node.half r.negated false) (node.half r.negated true) m =
      if r.index < Ref.indexLimit then .ok r m else .error .nodeIndexTooLarge m := by
  have hproper := hm.reduced.proper _ _ hindex hstored
  have hsign : (node.half r.negated true).negated = r.negated := by
    simp [Node.half, hproper.high_positive]
  have hhalf : ∀ bit, (node.half r.negated bit).negateIf r.negated =
      if bit then node.high else node.low := fun bit => Ref.negateIf_negateIf _ _
  have hne : node.half r.negated false ≠ node.half r.negated true :=
    mt Ref.negateIf_inj.1 hproper.low_ne_high
  have hput := UniqueTable.put_of_stored hm.consed hindex hstored
  rw [mkNode_of_put hproper.var_ne_zero hne (by rw [hsign, hhalf, hhalf]; exact hput), hsign]

/-- Every stored node has an index that references can name. -/
def Referable (m : Manager) : Prop :=
  ∀ index node, m.nodes.stored? index = some node → index < Ref.indexLimit

section Sorted
variable (hsorted : (literal :: rest).Pairwise fun l l' => l.var < l'.var)
include hsorted

private theorem satisfies_cons_update (a : UInt32 → Bool) (bit : Bool) :
    satisfies (literal :: rest) (update a literal.var bit) =
      ((bit == literal.positive) && satisfies rest a) := by
  have hlater : satisfies rest (update a literal.var bit) = satisfies rest a := by
    apply satisfies_congr
    intro later hmem
    exact update_of_ne (UInt32.ne_of_lt ((List.pairwise_cons.1 hsorted).1 later hmem)).symm _ _
  rw [← hlater, satisfies, List.all_cons, update_self]
  rfl

/-- A cube decides the variable of its first literal. -/
private theorem Denotes.rank_cube (hm : m.Reduced) (hr : m.Denotes r (satisfies (literal :: rest))) :
    m.rank r = literal.var.toNat := by
  obtain ⟨a, ha⟩ := exists_satisfies (List.pairwise_map.2
    ((List.pairwise_cons.1 hsorted).2.imp fun hlt => UInt32.ne_of_lt hlt))
  apply Nat.le_antisymm
  · -- otherwise the value would not depend on the first literal
    apply Nat.le_of_not_lt
    intro hlt
    have hholds := hr.2 (update a literal.var literal.positive)
    have hfails := hr.2 (update a literal.var !literal.positive)
    rw [satisfies_cons_update hsorted, hm.value_update hr.1 hlt, ha] at hholds hfails
    rw [hholds] at hfails
    cases literal.positive <;> simp at hfails
  · apply Nat.le_of_not_lt
    intro hlt
    have hindex : r.index ≠ 1 := fun hone => by
      have hvar := literal.var.toNat_lt_size
      rw [rank_of_index_one hone] at hlt
      omega
    obtain ⟨node, hstored⟩ := hr.1
    have hrank := rank_of_stored hindex hstored
    have hbehind : node.var.toNat < m.rank r := by
      apply hm.lt_rank hr.1
      intro a b hagree
      rw [hr.2, hr.2]
      apply satisfies_congr
      intro later hmem
      apply hagree
      rcases List.mem_cons.1 hmem with rfl | hmem
      · omega
      · have hle := UInt32.lt_iff_toNat_lt.1 ((List.pairwise_cons.1 hsorted).1 later hmem)
        omega
    omega

/-- The node of a cube leaves the later literals to one side and nothing to the other. -/
theorem Denotes.cube_node (hm : m.Reduced) (hr : m.Denotes r (satisfies (literal :: rest))) :
    ∃ node, r.index ≠ 1 ∧ m.nodes.stored? r.index = some node ∧ node.var = literal.var ∧
      node.half r.negated (!literal.positive) = Ref.zero ∧
      m.Denotes (node.half r.negated literal.positive) (satisfies rest) := by
  have hrank := hr.rank_cube hsorted hm
  have hindex : r.index ≠ 1 := fun hone => by
    have hvar := literal.var.toNat_lt_size
    rw [rank_of_index_one hone] at hrank
    omega
  obtain ⟨node, hstored⟩ := hr.1
  have hvar : node.var = literal.var := by
    rw [rank_of_stored hindex hstored] at hrank
    exact UInt32.toNat_inj.1 hrank
  have hlive := hm.live_half hindex hstored
  have hhalf : ∀ bit a, m.value (node.half r.negated bit) a =
      ((bit == literal.positive) && satisfies rest a) := fun bit a => by
    rw [hm.value_half hindex hstored, hr.2, hvar, satisfies_cons_update hsorted]
  refine ⟨node, hindex, hstored, hvar, ?_, hlive _, fun a => ?_⟩
  · apply hm.eq_of_value_eq (hlive _) hm.live_zero
    intro a
    rw [hhalf, Reduced.value_zero]
    cases literal.positive <;> rfl
  · rw [hhalf, beq_self_eq_true, Bool.true_and]

end Sorted

/-- Where a reference stands for the literals, building the cube comes to this reference and
stores nothing. -/
private theorem Denotes.conjoinLiterals_finds (hm : m.Canonical)
    (hsorted : literals.Pairwise fun l l' => l.var < l'.var)
    (hr : m.Denotes r (satisfies literals)) :
    Outcome (literals.foldrM conjoinLiteral Ref.one) m (fun c m' => c = r ∧ m' = m)
      (fun _ m' => m' = m ∧ ¬ m.Referable) := by
  induction literals generalizing r with
  | nil =>
      have hone : m.Denotes Ref.one (satisfies []) :=
        ⟨hm.reduced.live_one, fun a => Reduced.value_one a⟩
      exact Outcome.pure ⟨(hm.reduced.eq_iff_of_denotes hone hr).2 fun _ => rfl, rfl⟩
  | cons literal rest ih =>
      obtain ⟨node, hindex, hstored, hvar, hzero, hrest⟩ := hr.cube_node hsorted hm.reduced
      rw [List.foldrM_cons]
      apply Outcome.andThen (ih (List.pairwise_cons.1 hsorted).2 hrest)
      rintro s m' ⟨rfl, rfl⟩
      have hmake : conjoinLiteral literal (node.half r.negated literal.positive) m' =
          if r.index < Ref.indexLimit then .ok r m' else .error .nodeIndexTooLarge m' := by
        rw [conjoinLiteral, ← hm.mkNode_halves hindex hstored, ← hvar, ← hzero]
        cases literal.positive <;> rfl
      rw [Outcome, hmake]
      by_cases hlt : r.index < Ref.indexLimit
      · rw [if_pos hlt]
        exact ⟨rfl, rfl⟩
      · rw [if_neg hlt]
        exact ⟨rfl, fun hreferable => hlt (hreferable _ _ hstored)⟩

/-- A cube over distinct variables is found wherever their conjunction is stored, in whatever
order the literals are given, if they can be sorted. -/
theorem Denotes.mkCube_finds (hm : m.Canonical) (hdistinct : Distinct literals)
    (hr : m.Denotes r (satisfies literals)) :
    Outcome (mkCube literals) m (fun c m' => c = r ∧ m' = m)
      (fun _ m' => m' = m ∧ (¬ Overflows literals → ¬ m.Referable)) := by
  by_cases hoverflows : Overflows literals
  · rw [mkCube, if_pos hoverflows]
    exact Outcome.throw ⟨rfl, fun h => absurd hoverflows h⟩
  rw [mkCube_of_not_overflows hoverflows]
  have hsorted : m.Denotes r
      (satisfies (literals.mergeSort fun l l' => l.var ≤ l'.var)) :=
    ⟨hr.1, fun a => (hr.2 a).trans (literals.mergeSort_perm _).all_eq.symm⟩
  exact (Denotes.conjoinLiterals_finds hm (sorted_lt_iff.2 hdistinct) hsorted).mono
    (fun _ _ hend => hend) fun _ _ hend => ⟨hend.1, fun _ => hend.2⟩

/-! ## Cubes with a repeated variable -/

/-- A reference to a node for a variable, which has another reference below it. -/
structure Tops (m : Manager) (v : UInt32) (r c : Ref) : Prop where
  index_ne_one : c.index ≠ 1
  stored : ∃ node, m.nodes.stored? c.index = some node ∧ node.var = v ∧
    ∃ child ∈ [node.low, node.high], child.index = r.index

theorem Finds.tops {v : UInt32} {low high c : Ref} (h : m.Finds v low high c)
    (hne : low ≠ high) : m.Tops v low c ∧ m.Tops v high c := by
  cases h with
  | same hsame => exact absurd hsame hne
  | stored _ hindex _ hstored =>
      exact ⟨⟨hindex, _, hstored, rfl, _, List.mem_cons_self, Ref.index_negateIf _ _⟩,
        ⟨hindex, _, hstored, rfl, high.negateIf high.negated, by simp, Ref.index_negateIf _ _⟩⟩

theorem Tops.live {v : UInt32} {c : Ref} (h : m.Tops v r c) : m.Live c :=
  h.stored.imp fun _ hnode => hnode.1

theorem Tops.rank_eq {v : UInt32} {c : Ref} (h : m.Tops v r c) : m.rank c = v.toNat := by
  obtain ⟨node, hstored, hvar, -⟩ := h.stored
  rw [rank_of_stored h.index_ne_one hstored, hvar]

/-- In a reduced diagram, also one that is only a part of where the node was found, what is below
a node is stored and comes later. -/
theorem Tops.below {v : UInt32} {c : Ref} (h : m'.Tops v r c) (hm : m.Reduced)
    (hextends : m.Extends m') (hc : m.Live c) : m.Live r ∧ v.toNat < m.rank r := by
  obtain ⟨node, hstored, rfl, child, hchild, hindex⟩ := h.stored
  obtain ⟨node', hstored'⟩ := hc
  have hsame : node' = node := Option.some.inj ((hextends _ _ hstored').symm.trans hstored)
  subst hsame
  have hlive := (hm.proper _ _ h.index_ne_one hstored').live child hchild
  have hlt := hm.lt_rank_child h.index_ne_one hstored' hchild
  rw [Live, hindex] at hlive
  rw [rank, hindex] at hlt
  exact ⟨hlive, hlt⟩

theorem conjoinLiteral_tops (hm : m.Closed) (hr : m.Live r) (hzero : r ≠ Ref.zero) :
    m.Widens (conjoinLiteral literal r) fun c m' => m'.Tops literal.var r c := by
  have hmake : ∀ low high : Ref, m.Live low → m.Live high → low ≠ high →
      m.Widens (mkNode literal.var low high) fun c m' =>
        m'.Tops literal.var low c ∧ m'.Tops literal.var high c := by
    intro low high hlow hhigh hne
    by_cases hv : literal.var = 0
    · rw [mkNode, if_pos hv]
      exact Widens.throw hm
    · exact (Outcome.and (mkNode_widens hm literal.var hlow hhigh) (mkNode_finds hm.consed hv)).mono
        (fun c m' hend => ⟨hend.1.1, hend.1.2.1, hend.2.2.tops hne⟩) fun _ _ hend => hend.1
  rw [conjoinLiteral]
  cases literal.positive with
  | true =>
      exact Outcome.imp (hmake _ _ hm.live_zero hr hzero.symm) fun _ _ hend =>
        ⟨hend.1, hend.2.1, hend.2.2.2⟩
  | false =>
      exact Outcome.imp (hmake _ _ hr hm.live_zero hzero) fun _ _ hend =>
        ⟨hend.1, hend.2.1, hend.2.2.1⟩

/-- What conjoining literals from the last one up comes to, if they are in order but some may
share a variable.  A shared variable shows in the answer, which was not stored before, and in the
nodes, which are not ordered any more. -/
structure Stacks (m : Manager) (literals : List Literal) (c : Ref) (m' : Manager) : Prop where
  live : m'.Live c
  ne_zero : c ≠ Ref.zero
  rank : ∀ literal ∈ literals.head?, m'.rank c = literal.var.toNat
  repeats : ¬ (literals.Pairwise fun l l' => l.var < l'.var) → ¬ m.Live c ∧ ¬ m'.Reduced

/-- The order of literals is strict unless it is not behind the first one, or the next one
repeats the variable of the first. -/
private theorem pairwise_lt_cons (hsorted : (literal :: rest).Pairwise fun l l' => l.var ≤ l'.var)
    (hrest : rest.Pairwise fun l l' => l.var < l'.var)
    (hnext : ∀ next ∈ rest.head?, next.var ≠ literal.var) :
    (literal :: rest).Pairwise fun l l' => l.var < l'.var := by
  refine List.pairwise_cons.2 ⟨fun later hmem => ?_, hrest⟩
  cases rest with
  | nil => cases hmem
  | cons next others =>
      have hle := (List.pairwise_cons.1 hsorted).1 next List.mem_cons_self
      have hlt := UInt32.lt_of_le_of_ne hle (hnext next rfl).symm
      rcases List.mem_cons.1 hmem with rfl | hmem
      · exact hlt
      · exact UInt32.lt_trans hlt ((List.pairwise_cons.1 hrest).1 later hmem)

private theorem conjoinLiterals_stacks (hm : m.Canonical)
    (hsorted : literals.Pairwise fun l l' => l.var ≤ l'.var) :
    m.Widens (literals.foldrM conjoinLiteral Ref.one) fun c m' => m.Stacks literals c m' := by
  induction literals with
  | nil =>
      apply Widens.pure hm.closed
      refine ⟨hm.reduced.live_one, by decide, fun _ hnone => ?_, fun h => absurd .nil h⟩
      cases hnone
  | cons literal rest ih =>
      rw [List.foldrM_cons]
      apply Widens.bind (ih (List.pairwise_cons.1 hsorted).2)
      intro s m₁ hm₁ hextends hs
      apply Outcome.imp (conjoinLiteral_tops hm₁ hs.live hs.ne_zero)
      intro c m₂ ⟨hm₂, hextends₁, htops⟩
      have hextends₂ := hextends.trans hextends₁
      refine ⟨hm₂, hextends₁, htops.live, fun hzero => htops.index_ne_one (hzero ▸ rfl),
        fun first hfirst => ?_, fun hrepeats => ?_⟩
      · cases hfirst
        exact htops.rank_eq
      by_cases hstrict : rest.Pairwise fun l l' => l.var < l'.var
      · -- the next literal has the same variable, so the new node is not above what it stands on
        have hnext : m₁.rank s = literal.var.toNat := by
          apply Decidable.byContradiction
          intro hne
          apply hrepeats
          apply pairwise_lt_cons hsorted hstrict
          intro next hmem hsame
          exact hne (hsame ▸ hs.rank next hmem)
        constructor
        · intro hc
          have hbelow := htops.below hm.reduced hextends₂ hc
          rw [hextends.rank hbelow.1] at hnext
          omega
        · intro hreduced
          have hbelow := htops.below hreduced (Extends.refl m₂) htops.live
          rw [hextends₁.rank hs.live] at hbelow
          omega
      · obtain ⟨hnew, hbroken⟩ := hs.repeats hstrict
        exact ⟨fun hc => hnew (htops.below hm.reduced hextends₂ hc).1,
          fun hreduced => hbroken (hextends₁.reduced hm₁ hreduced)⟩

/-- A cube that repeats a variable is a new node, and leaves a diagram that is not ordered. -/
theorem mkCube_repeats (hm : m.Canonical) (hrepeats : ¬ Distinct literals) :
    m.Widens (mkCube literals) fun c m' => ¬ m.Live c ∧ ¬ m'.Reduced := by
  by_cases hoverflows : Overflows literals
  · rw [mkCube, if_pos hoverflows]
    exact Widens.throw hm.closed
  · rw [mkCube_of_not_overflows hoverflows]
    exact Outcome.imp (conjoinLiterals_stacks hm (sorted_le literals)) fun _ _ hend =>
      ⟨hend.1, hend.2.1, hend.2.2.repeats (mt sorted_lt_iff.1 hrepeats)⟩

/-- A cube asked for in a canonical diagram that has a reference for the conjunction of its
literals is this reference exactly if no variable is repeated. -/
theorem Denotes.mkCube_eq_iff (hm : m.Canonical) (hr : m.Denotes r (satisfies literals)) :
    Outcome (mkCube literals) m
      (fun c m' => (c = r ↔ Distinct literals) ∧ (m'.Reduced ↔ Distinct literals) ∧
        (Distinct literals → m' = m))
      (fun _ m' => Distinct literals → m' = m ∧ (¬ Overflows literals → ¬ m.Referable)) := by
  by_cases hdistinct : Distinct literals
  · apply (hr.mkCube_finds hm hdistinct).mono
    · rintro c m' ⟨rfl, rfl⟩
      simp only [hdistinct, hm.reduced, implies_true, and_self]
    · exact fun _ _ hend _ => hend
  · apply Outcome.mono (mkCube_repeats hm hdistinct)
    · rintro c m' ⟨-, -, hnew, hbroken⟩
      have hother : c ≠ r := fun hsame => hnew (hsame ▸ hr.1)
      simp only [hother, hbroken, hdistinct, false_imp_iff, and_self]
    · exact fun _ _ _ h => absurd h hdistinct

/-- Lists with the same literals stand for the same conjunction. -/
theorem satisfies_of_same {literals' : List Literal}
    (h : ∀ literal, literal ∈ literals' ↔ literal ∈ literals) :
    satisfies literals' = satisfies literals := by
  funext a
  rw [satisfies, satisfies, Bool.eq_iff_iff, List.all_eq_true, List.all_eq_true]
  exact forall_congr' fun literal => imp_congr_left (h literal)

/-- Cubes.  After any run that left a reduced and ordered diagram, conjoining literals one after
the other keeps it reduced and ordered and comes to the reference of their conjunction, which is
the constant false exactly if two of them are opposite.  A cube of the same literals, in any order
and number, then is the same reference exactly if no variable is repeated in it, and exactly then
the diagram is still reduced and ordered; such a cube stores nothing, and it is answered if every
stored node can be referred to and the literals can be sorted.  If the cube is asked for first, its
answer leaves the diagram reduced and ordered exactly if no variable is repeated, and then the
conjunction comes to this answer.  Literals of variables are conjoined, by either way, unless there
is no cell for a node or a cube is to be sorted by an absolute value that there is not. -/
theorem mkCube_conjoins_iff {sizing : Sizing} {faults : List Fault} (hrun : Run sizing faults m)
    (hm : m.Reduced) (literals : List Literal) :
    Outcome (conjoinAll literals) m
        (fun r m₁ => m₁.Reduced ∧ m₁.Denotes r (satisfies literals) ∧
          (r = Ref.zero ↔ Opposed literals) ∧
          ∀ literals', (∀ literal, literal ∈ literals' ↔ literal ∈ literals) →
            Outcome (mkCube literals') m₁
              (fun c m₂ => (c = r ↔ Distinct literals') ∧ (m₂.Reduced ↔ Distinct literals') ∧
                (Distinct literals' → m₂ = m₁))
              (fun fault m₂ =>
                (Distinct literals' → m₂ = m₁ ∧ (¬ Overflows literals' → ¬ m₁.Referable)) ∧
                (Named literals' → ¬ Overflows literals' → m₂.NoCell fault)))
        (fun fault m₁ => m₁.Reduced ∧ (Named literals → m₁.NoCell fault)) ∧
      Outcome (mkCube literals) m
        (fun c m₁ => (m₁.Reduced ↔ Distinct literals) ∧ (Distinct literals →
          m₁.Denotes c (satisfies literals) ∧
            Outcome (conjoinAll literals) m₁ (fun r _ => r = c)
              fun fault m₂ => m₂.Reduced ∧ (Named literals → m₂.NoCell fault)))
        (fun fault m₁ => (Distinct literals → m₁.Reduced) ∧
          (Named literals → ¬ Overflows literals → m₁.NoCell fault)) := by
  have hcanonical := hrun.sound.canonical hm
  have hhistory : m.HasHistory := hrun.lasting hasHistory_lasting fun _ => ofSizing_hasHistory
  constructor
  · apply (conjoinAll_outcome hcanonical fun _ => hhistory).imp
    rintro r m₁ ⟨hm₁, -, hr, h₁⟩
    refine ⟨hm₁.reduced, hr, hr.eq_zero_iff hm₁.reduced, fun literals' hsame => ?_⟩
    have hr' : m₁.Denotes r (satisfies literals') := (satisfies_of_same hsame).symm ▸ hr
    have hfails := Outcome.given fun hnamed : Named literals' =>
      mkCube_fails (h₁ fun literal hmem => hnamed literal ((hsame literal).2 hmem)) hnamed
    exact ((hr'.mkCube_eq_iff hm₁).and hfails).imp fun _ _ hend => hend.1
  have hfails := Outcome.given fun hnamed : Named literals => mkCube_fails hhistory hnamed
  by_cases hdistinct : Distinct literals
  · apply (Outcome.and (mkCube_grows hcanonical hdistinct) hfails).mono
    · rintro c m₁ ⟨⟨hm₁, hextends, hc⟩, h₁⟩
      refine ⟨iff_of_true hm₁.reduced hdistinct, fun _ => ⟨hc, ?_⟩⟩
      apply (conjoinAll_outcome hm₁ h₁).imp
      rintro r m₂ ⟨hm₂, hextends₂, hr, -⟩
      have hc₂ := hextends₂.denotes hm₁.reduced hm₂.reduced hc
      exact (hm₂.reduced.eq_iff_of_denotes hr hc₂).2 fun _ => rfl
    · exact fun _ _ hend => ⟨fun _ => hend.1.1.reduced, hend.2⟩
  · apply (Outcome.and (mkCube_repeats hcanonical hdistinct) hfails).mono
    · rintro c m₁ ⟨⟨-, -, -, hbroken⟩, -⟩
      exact ⟨iff_of_false hbroken hdistinct, fun h => absurd h hdistinct⟩
    · exact fun _ _ hend => ⟨fun h => absurd h hdistinct, hend.2⟩

/-- Literals that are in order are taken as they are. -/
theorem mkCube_of_sorted (hoverflows : ¬ Overflows literals)
    (hsorted : literals.Pairwise fun l l' => l.var ≤ l'.var) :
    mkCube literals = literals.foldrM conjoinLiteral Ref.one := by
  have hself := List.mergeSort_of_pairwise (hsorted.imp decide_eq_true)
  rw [mkCube_of_not_overflows hoverflows, hself]

/-- The theorem at a variable and its negation: their conjunction is the constant false, and
their cube is not. -/
theorem pair_cube :
    Run ⟨3, 2, 5⟩ [] pair ∧ pair.Reduced ∧
      ∃ m₁ c m₂, conjoinAll [⟨1⟩, ⟨-1⟩] pair = .ok Ref.zero m₁ ∧ m₁.Reduced ∧
        mkCube [⟨1⟩, ⟨-1⟩] m₁ = .ok c m₂ ∧ c ≠ Ref.zero ∧ ¬ m₂.Reduced := by
  obtain ⟨hrun, hreduced⟩ := pair_run
  have hrepeats : ¬ Distinct [⟨1⟩, ⟨-1⟩] := by
    rw [Distinct]
    decide
  have hconjunction : verdict (conjoinAll [⟨1⟩, ⟨-1⟩]) pair = .ok Ref.zero := by
    decide +kernel
  have hcube : verdict (conjoinAll [⟨1⟩, ⟨-1⟩] >>= fun _ => mkCube [⟨1⟩, ⟨-1⟩]) pair =
      .ok ⟨4, true⟩ := by
    rw [mkCube_of_sorted (by decide) (by decide)]
    decide +kernel
  obtain ⟨m₁, hconjunction⟩ := run_of_verdict hconjunction
  obtain ⟨m₂, hcube⟩ := run_of_verdict hcube
  rw [run_bind hconjunction] at hcube
  have htheorem := (mkCube_conjoins_iff hrun hreduced _).1.of_ok hconjunction
  have hend := (htheorem.2.2.2 _ fun _ => Iff.rfl).of_ok hcube
  exact ⟨hrun, hreduced, m₁, _, m₂, hconjunction, htheorem.1, hcube, mt hend.1.1 hrepeats,
    mt hend.2.1.1 hrepeats⟩

end Manager

end SymbolicOmega
