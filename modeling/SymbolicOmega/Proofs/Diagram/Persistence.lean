import SymbolicOmega.Proofs.Diagram.Collecting
import SymbolicOmega.Proofs.Diagram.Connectives

/-!
# Persistence

A node is stored together with everything below it.  Operations only add nodes, and a
collection keeps what its roots need, so what is read off a reference stays the same.
None of this asks for ordered or reduced diagrams, nor for the right numbers in them.
-/

namespace SymbolicOmega

namespace Manager

open Function

variable {m m' : Manager}

/-- Whatever a stored node or a computed result names is stored. -/
structure Closed (m : Manager) : Prop where
  consed : m.nodes.Consed (· = 1)
  terminal : m.nodes.stored? 1 = some Node.blank
  child : ∀ index node, index ≠ 1 → m.nodes.stored? index = some node →
    ∀ child ∈ [node.low, node.high], m.Live child
  computed : ∀ (slot : Nat) (key : Triple) (r : Ref),
    m.computed.slots[slot]? = some (some (key, r)) → m.Live r

theorem Canonical.closed (hm : m.Canonical) : m.Closed where
  consed := hm.consed
  terminal := hm.reduced.terminal
  child index node hindex hstored := (hm.reduced.proper index node hindex hstored).live
  computed slot key r hslot := (hm.computed slot key r hslot).2.1

theorem Closed.live_one (hm : m.Closed) : m.Live Ref.one := ⟨Node.blank, hm.terminal⟩

theorem Closed.live_zero (hm : m.Closed) : m.Live Ref.zero := ⟨Node.blank, hm.terminal⟩

/-- With the same nodes only the computed results have to be looked at. -/
theorem Closed.of_nodes_eq (hm : m.Closed) (h : m'.nodes = m.nodes)
    (hcomputed : ∀ (slot : Nat) (key : Triple) (r : Ref),
      m'.computed.slots[slot]? = some (some (key, r)) → m.Live r) : m'.Closed := by
  have hextends : m.Extends m' := Extends.of_nodes_eq h
  refine ⟨by rw [h]; exact hm.consed, by rw [h]; exact hm.terminal,
    fun index node hindex hstored child hchild => ?_,
    fun slot key r hslot => hextends.live (hcomputed slot key r hslot)⟩
  rw [h] at hstored
  exact hextends.live (hm.child index node hindex hstored child hchild)

/-- What is read off a reference to a stored node stays while the diagram grows. -/
theorem Extends.evaluate (h : m.Extends m') (hm : m.Closed) {r : Ref} (hr : m.Live r)
    (a : UInt32 → Bool) : m'.evaluate r a = m.evaluate r a := by
  have hwithin : ∀ (bound : Nat) (r : Ref), m.Live r →
      m'.evaluateWithin a bound r = m.evaluateWithin a bound r := by
    intro bound
    induction bound with
    | zero => exact fun _ _ => rfl
    | succ bound ih =>
        intro r hr
        rw [evaluateWithin, evaluateWithin]
        cases hterminal : r.isTerminal with
        | true => rfl
        | false =>
            have hindex : r.index ≠ 1 := fun hone => by
              simp [Ref.isTerminal_iff.2 hone] at hterminal
            obtain ⟨node, hstored⟩ := hr
            simp only [node_of_stored hstored, node_of_stored (h _ _ hstored)]
            apply ih
            rw [live_negateIf]
            have hchild := hm.child _ _ hindex hstored
            cases a node.var with
            | true => exact hchild node.high (by simp)
            | false => exact hchild node.low (by simp)
  exact hwithin pathBound r hr

/-- Both ends of an operation leave a closed manager with all the nodes there were; `good` says
what else holds at an answer. -/
def Widens {β : Type} (m : Manager) (x : ManagerM β) (good : β → Manager → Prop) : Prop :=
  Outcome x m (fun b m' => m'.Closed ∧ m.Extends m' ∧ good b m')
    (fun _ m' => m'.Closed ∧ m.Extends m')

namespace Widens

variable {β γ : Type} {x : ManagerM β} {good : β → Manager → Prop}

protected theorem pure (hm : m.Closed) {b : β} (h : good b m) : m.Widens (pure b) good :=
  Outcome.pure ⟨hm, Extends.refl m, h⟩

protected theorem throw (hm : m.Closed) {fault : Fault} :
    m.Widens (throw fault : ManagerM β) good :=
  Outcome.throw ⟨hm, Extends.refl m⟩

/-- What follows an operation starts from a closed manager with more nodes. -/
protected theorem bind {f : β → ManagerM γ} {good' : γ → Manager → Prop} (h : m.Widens x good)
    (hf : ∀ b m', m'.Closed → m.Extends m' → good b m' → m'.Widens (f b) good') :
    m.Widens (x >>= f) good' :=
  Outcome.andThen h fun b m' ⟨hm', hextends, hgood⟩ =>
    Outcome.mono (hf b m' hm' hextends hgood)
      (fun _ _ hend => ⟨hend.1, hextends.trans hend.2.1, hend.2.2⟩)
      fun _ _ hend => ⟨hend.1, hextends.trans hend.2⟩

/-- A question changes nothing. -/
theorem ask_bind {question : Manager → Except Fault β} {f : β → ManagerM γ}
    {good' : γ → Manager → Prop} (hm : m.Closed)
    (h : ∀ b, question m = .ok b → m.Widens (f b) good') :
    m.Widens (Manager.ask question >>= f) good' := by
  cases hanswer : question m with
  | ok b => exact Outcome.bind_ok (ask_run hanswer) (h b hanswer)
  | error fault =>
      apply Outcome.bind
      simp only [Outcome, Manager.ask, hanswer]
      exact ⟨hm, Extends.refl m⟩

end Widens

/-! ## Making nodes -/

theorem put_widens (hm : m.Closed) {node : Node}
    (hnode : ∀ child ∈ [node.low, node.high], m.Live child) :
    m.Widens (onNodes (UniqueTable.put node)) fun index m' =>
      m'.nodes.stored? index = some node := by
  have hput := UniqueTable.put_outcome (v := node) hm.consed
  unfold Widens Outcome onNodes
  simp only
  cases hrun : UniqueTable.put node m.nodes with
  | error fault u =>
      obtain ⟨hconsed, hcells⟩ := hput.of_error hrun
      have hstored : u.stored? = m.nodes.stored? :=
        funext fun _ => UniqueTable.stored?_congr (by rw [hcells.cells])
      have hextends : m.Extends { m with nodes := u } := fun index other h => by
        simpa only [hstored] using h
      refine ⟨⟨hconsed, by simpa only [hstored] using hm.terminal, ?_, ?_⟩, hextends⟩
      · intro index other hindex h child hchild
        simp only [hstored] at h
        exact hextends.live (hm.child index other hindex h child hchild)
      · exact fun slot key r hslot => hextends.live (hm.computed slot key r hslot)
  | ok index u =>
      obtain ⟨hconsed, -, hindex, hchange⟩ := hput.of_ok hrun
      have hextends : m.Extends { m with nodes := u } := by
        intro other otherNode h
        rcases hchange with rfl | ⟨hfree, hstored⟩
        · exact h
        · have hne : other ≠ index := fun heq => by simp [heq, hfree] at h
          simpa only [hstored, update_of_ne hne] using h
      refine ⟨⟨hconsed, hextends _ _ hm.terminal, ?_, ?_⟩, hextends, hindex⟩
      · intro other otherNode hne h child hchild
        apply hextends.live
        rcases hchange with rfl | ⟨hfree, hstored⟩
        · exact hm.child other otherNode hne h child hchild
        · by_cases heq : other = index
          · subst heq
            cases h.symm.trans hindex
            exact hnode child hchild
          · simp only [hstored, update_of_ne heq] at h
            exact hm.child other otherNode hne h child hchild
      · exact fun slot key r hslot => hextends.live (hm.computed slot key r hslot)

private theorem storeNode_widens (hm : m.Closed) (v : UInt32) {low high : Ref}
    (hlow : m.Live low) (hhigh : m.Live high) :
    m.Widens (storeNode v low high) fun r m' => m'.Live r := by
  rw [storeNode]
  by_cases hsame : low = high
  · rw [if_pos hsame]
    exact Widens.pure hm hlow
  · rw [if_neg hsame]
    apply Widens.bind (put_widens hm (by simp [hlow, hhigh]))
    intro index m' hm' _ hstored
    cases hof : Ref.ofIndex? index false with
    | none => exact Widens.throw hm'
    | some r =>
        have hr : r.index = index := by
          rw [Ref.ofIndex?] at hof
          split at hof
          · rw [← Option.some.inj hof]
          · cases hof
        exact Widens.pure hm' ⟨_, hr ▸ hstored⟩

theorem mkNode_widens (hm : m.Closed) (v : UInt32) {low high : Ref} (hlow : m.Live low)
    (hhigh : m.Live high) : m.Widens (mkNode v low high) fun r m' => m'.Live r := by
  rw [mkNode]
  by_cases hv : v = 0
  · rw [if_pos hv]
    exact Widens.throw hm
  rw [if_neg hv]
  by_cases hnegated : high.negated = true
  · rw [if_pos hnegated]
    exact Widens.bind (storeNode_widens hm v (live_neg.2 hlow) (live_neg.2 hhigh))
      fun r m' hm' _ hr => Widens.pure hm' (live_neg.2 hr)
  · rw [if_neg hnegated]
    exact storeNode_widens hm v hlow hhigh

theorem mkVar_widens (hm : m.Closed) (v : UInt32) :
    m.Widens (mkVar v) fun r m' => m'.Live r :=
  mkNode_widens hm v hm.live_zero hm.live_one

/-- A cube of any literals, also of several that decide one variable. -/
theorem mkCube_widens (hm : m.Closed) (literals : List Literal) :
    m.Widens (mkCube literals) fun r m' => m'.Live r := by
  rw [mkCube]
  split_ifs
  · exact Widens.throw hm
  generalize literals.mergeSort (fun l l' => l.number.abs ≤ l'.number.abs) = sorted
  induction sorted with
  | nil => exact Widens.pure hm hm.live_one
  | cons literal rest ih =>
      rw [List.foldrM_cons]
      apply Widens.bind ih
      intro r m' hm' _ hr
      rw [conjoinLiteral]
      cases literal.positive with
      | true => exact mkNode_widens hm' _ hm'.live_zero hr
      | false => exact mkNode_widens hm' _ hr hm'.live_zero

section Triples
variable {t : Triple}

private theorem constant?_live (hm : m.Closed) (ht : m.Operands t) {r : Ref}
    (h : t.constant? = some r) : m.Live r := by
  rw [Triple.constant?] at h
  split_ifs at h <;> cases h
  · exact ht.g
  · exact ht.h
  · exact ht.g
  · exact ht.f
  · exact live_neg.2 ht.f
  · exact hm.live_one
  · exact hm.live_one
  · exact hm.live_zero
  · exact hm.live_zero

private theorem simplify?_operands (hm : m.Closed) (ht : m.Operands t) {t' : Triple}
    (h : t.simplify? = some t') : m.Operands t' := by
  rw [Triple.simplify?] at h
  split_ifs at h <;> cases h
  · exact ⟨ht.f, hm.live_one, ht.h⟩
  · exact ⟨ht.f, ht.g, hm.live_zero⟩
  · exact ⟨ht.f, hm.live_zero, ht.h⟩
  · exact ⟨ht.f, ht.g, hm.live_one⟩

private theorem exchange?_operands (hm : m.Closed) (ht : m.Operands t) {t' : Triple}
    {i j k : UInt32} (h : t.exchange? i j k = some t') : m.Operands t' := by
  rw [Triple.exchange?] at h
  split_ifs at h <;> cases h
  · exact ⟨ht.h, hm.live_one, ht.f⟩
  · exact ⟨ht.g, ht.f, hm.live_zero⟩
  · exact ⟨live_neg.2 ht.g, live_neg.2 ht.f, hm.live_one⟩
  · exact ⟨live_neg.2 ht.h, hm.live_zero, live_neg.2 ht.f⟩

private theorem regular_operands (ht : m.Operands t) : m.Operands t.regular.1 := by
  have hpositive : m.Operands t.positiveCondition := by
    rw [Triple.positiveCondition]
    split
    · exact ⟨live_neg.2 ht.f, ht.h, ht.g⟩
    · exact ht
  unfold Triple.regular
  dsimp only
  split
  · exact ⟨hpositive.f, live_neg.2 hpositive.g, live_neg.2 hpositive.h⟩
  · exact hpositive

private theorem cofactors_live (hm : m.Closed) {r : Ref} (hr : m.Live r) {v : UInt32}
    {halves : Ref × Ref} (h : m.cofactors r v = .ok halves) :
    m.Live halves.1 ∧ m.Live halves.2 := by
  rw [cofactors] at h
  split_ifs at h with hv hterminal
  · cases h
    exact ⟨hr, hr⟩
  have hindex : r.index ≠ 1 := fun hone => hterminal (Ref.isTerminal_iff.2 hone)
  obtain ⟨node, hstored⟩ := hr
  have hchild := hm.child _ _ hindex hstored
  simp only [node_of_stored hstored] at h
  split_ifs at h
  · cases h
    exact ⟨⟨node, hstored⟩, ⟨node, hstored⟩⟩
  · cases h
    exact ⟨live_negateIf.2 (hchild node.low (by simp)),
      live_negateIf.2 (hchild node.high (by simp))⟩

private theorem lookup_widens (hm : m.Closed) (key : Triple) :
    m.Widens (onComputed (ComputedTable.lookup key)) fun found m' =>
      ∀ r, found = some r → m'.Live r := by
  have hslots : (ComputedTable.lookup key m.computed).2.slots = m.computed.slots :=
    ComputedTable.lookup_slots
  have hend : Closed { m with computed := (ComputedTable.lookup key m.computed).2 } :=
    hm.of_nodes_eq rfl fun slot other r h => hm.computed slot other r (hslots ▸ h)
  refine Outcome.of_run (onComputed_run _ m) ⟨hend, Extends.of_nodes_eq rfl, fun r hr => ?_⟩
  rw [ComputedTable.lookup_answer] at hr
  exact hm.computed _ key r (ComputedTable.find?_eq_some.1 hr)

private theorem insert_widens (hm : m.Closed) (key : Triple) {r : Ref} (hr : m.Live r) :
    m.Widens (onComputed fun computed => ((), computed.insert key r)) fun _ _ => True := by
  have hend : Closed { m with computed := m.computed.insert key r } := by
    refine hm.of_nodes_eq rfl fun slot other answer hslot => ?_
    rcases slot_of_insert hslot with ⟨-, rfl⟩ | hslot
    · exact hr
    · exact hm.computed slot other answer hslot
  exact Outcome.of_run (onComputed_run _ m) ⟨hend, Extends.of_nodes_eq rfl, trivial⟩

private theorem splitAt_widens {answer : Triple → ManagerM Ref}
    (hanswer : ∀ {m : Manager} {t : Triple}, m.Closed → m.Operands t →
      m.Widens (answer t) fun r m' => m'.Live r)
    (hm : m.Closed) (ht : m.Operands t) (v : UInt32) :
    m.Widens (splitAt answer t v) fun r m' => m'.Live r := by
  apply Widens.ask_bind hm
  intro f hf
  apply Widens.ask_bind hm
  intro g hg
  apply Widens.ask_bind hm
  intro h hh
  have hf := cofactors_live hm ht.f hf
  have hg := cofactors_live hm ht.g hg
  have hh := cofactors_live hm ht.h hh
  apply Widens.bind (hanswer hm ⟨hf.1, hg.1, hh.1⟩)
  intro low m₁ hm₁ hextends₁ hlow
  have hhigh : m₁.Operands ⟨f.2, g.2, h.2⟩ := Operands.extends ⟨hf.2, hg.2, hh.2⟩ hextends₁
  apply Widens.bind (hanswer hm₁ hhigh)
  intro high m₂ hm₂ hextends₂ hhigh
  apply Widens.bind (mkNode_widens hm₂ v (hextends₂.live hlow) hhigh)
  intro r m₃ hm₃ _ hr
  exact Widens.bind (insert_widens hm₃ t hr) fun _ m₄ hm₄ hextends₄ _ =>
    Widens.pure hm₄ (hextends₄.live hr)

end Triples

theorem iteWithin_widens (bound : Nat) : ∀ {m : Manager} {t : Triple}, m.Closed →
    m.Operands t → m.Widens (iteWithin bound t) fun r m' => m'.Live r := by
  induction bound with
  | zero => exact fun hm _ => Widens.throw hm
  | succ bound ih =>
      intro m t hm ht
      rw [iteWithin]
      cases hconstant : t.constant? with
      | some r => exact Widens.pure hm (constant?_live hm ht hconstant)
      | none =>
      cases hsimplify : t.simplify? with
      | some t' => exact ih hm (simplify?_operands hm ht hsimplify)
      | none =>
      apply Widens.ask_bind hm
      intro i _
      apply Widens.ask_bind hm
      intro j _
      apply Widens.ask_bind hm
      intro k _
      by_cases hzero : i = 0
      · simp only [hzero, if_true]
        exact Outcome.bind (Outcome.throw ⟨hm, Extends.refl m⟩)
      simp only [hzero, if_false]
      cases hexchange : t.exchange? i j k with
      | some t' => exact ih hm (exchange?_operands hm ht hexchange)
      | none =>
      apply Widens.bind (lookup_widens hm t.regular.1)
      intro found m₁ hm₁ hextends hfound
      cases found with
      | some r => exact Widens.pure hm₁ (live_negateIf.2 (hfound r rfl))
      | none =>
          exact Widens.bind (splitAt_widens ih hm₁ ((regular_operands ht).extends hextends) _)
            fun r m₂ hm₂ _ hr => Widens.pure hm₂ (live_negateIf.2 hr)

section Connectives
variable {u v : Ref}

theorem conj_widens (hm : m.Closed) (hu : m.Live u) (hv : m.Live v) :
    m.Widens (conj u v) fun r m' => m'.Live r :=
  iteWithin_widens stepBound hm ⟨hu, hv, hm.live_zero⟩

theorem disj_widens (hm : m.Closed) (hu : m.Live u) (hv : m.Live v) :
    m.Widens (disj u v) fun r m' => m'.Live r :=
  iteWithin_widens stepBound hm ⟨hu, hm.live_one, hv⟩

theorem diff_widens (hm : m.Closed) (hu : m.Live u) (hv : m.Live v) :
    m.Widens (diff u v) fun r m' => m'.Live r :=
  iteWithin_widens stepBound hm ⟨hv, hm.live_zero, hu⟩

theorem disjAll_widens (hm : m.Closed) {rs : List Ref} (hrs : ∀ r ∈ rs, m.Live r) :
    m.Widens (disjAll rs) fun r m' => m'.Live r := by
  suffices hfold : ∀ {m : Manager} {start : Ref} (rs : List Ref), m.Closed → m.Live start →
      (∀ r ∈ rs, m.Live r) → m.Widens (rs.foldlM disj start) fun r m' => m'.Live r from
    hfold rs hm hm.live_zero hrs
  intro m start rs hm hstart hrs
  induction rs generalizing m start with
  | nil => exact Widens.pure hm hstart
  | cons first rest ih =>
      obtain ⟨hfirst, hrest⟩ := List.forall_mem_cons.1 hrs
      rw [List.foldlM_cons]
      apply Widens.bind (disj_widens hm hstart hfirst)
      intro r m₁ hm₁ hextends hr
      exact ih hm₁ hr fun r hr => hextends.live (hrest r hr)

theorem implies_widens (hm : m.Closed) (hu : m.Live u) (hv : m.Live v) :
    m.Widens (implies u v) fun _ _ => True :=
  Widens.bind (diff_widens hm hu hv) fun _ _ hm' _ _ => Widens.pure hm' trivial

theorem disjoint_widens (hm : m.Closed) (hu : m.Live u) (hv : m.Live v) :
    m.Widens (disjoint u v) fun _ _ => True :=
  Widens.bind (conj_widens hm hu hv) fun _ _ hm' _ _ => Widens.pure hm' trivial

end Connectives

/-! ## Collecting -/

theorem Collected.closed_manager {marked : Std.HashSet Nat} {roots : List Ref}
    (h : m.Collected m' roots marked) (hm : m.Closed) : m'.Closed := by
  refine ⟨h.consed, h.terminal hm.terminal, fun index node hindex hstored child hmem => ?_,
    fun slot key r hslot => absurd hslot (h.forgotten slot key r)⟩
  obtain ⟨hold, hchild⟩ := h.origin hindex hstored
  exact h.live (hchild child hmem) (hm.child index node hindex hold child hmem)

/-- At either end of a collection the roots are there, and what is read off them is what was. -/
theorem collect_persists (hm : m.Closed) {roots : List Ref} (hroots : ∀ r ∈ roots, m.Live r) :
    Outcome (collect roots) m
      (fun _ m' => m'.Closed ∧ ∀ r ∈ roots, m'.Live r ∧ m'.evaluate r = m.evaluate r)
      (fun _ m' => m'.Closed ∧ ∀ r ∈ roots, m'.Live r ∧ m'.evaluate r = m.evaluate r) := by
  apply (collect_sweeps hm.consed roots).mono
  · rintro dropped m' ⟨marked, h⟩
    have hm' := h.closed_manager hm
    refine ⟨hm', fun r hr => ⟨h.live_root hr (hroots r hr), funext fun a => ?_⟩⟩
    exact (h.extends_left.evaluate hm' (h.live_root hr (hroots r hr)) a).symm
  · rintro fault m' ⟨hnodes, hempty⟩
    have hextends : m.Extends m' := Extends.of_nodes_eq hnodes
    exact ⟨hm.of_nodes_eq hnodes fun slot key r hslot => absurd hslot (hempty slot key r),
      fun r hr => ⟨hextends.live (hroots r hr),
        funext fun a => hextends.evaluate hm (hroots r hr) a⟩⟩

end Manager

end SymbolicOmega
