import SymbolicOmega.Proofs.Diagram.Phases

/-!
# Recomputing a result

A result leaves the computed table when another key takes its slot, and a later step computes
it again.  Every node that the first computation made is still stored then, because only a
collection drops nodes and a collection forgets all results.  So the second computation stores
nothing and comes to the same reference, whatever the table remembers meanwhile.
-/

namespace SymbolicOmega

namespace Manager

variable {m m' : Manager} {t key : Triple} {r s low high : Ref} {v : UInt32}

/-- Making a node finds it stored, with a positive high child. -/
inductive Finds (m : Manager) (v : UInt32) (low high : Ref) : Ref → Prop where
  | same (h : low = high) : Finds m v low high low
  | stored {index : Nat} (hne : low ≠ high) (hindex : index ≠ 1) (hlt : index < Ref.indexLimit)
      (h : m.nodes.stored? index =
        some ⟨v, low.negateIf high.negated, high.negateIf high.negated⟩) :
      Finds m v low high ⟨index, high.negated⟩

/-- If-then-else comes to `r` through nodes that are all stored, without asking the computed
table. -/
inductive Recalls (m : Manager) : Triple → Ref → Prop where
  | answer {t : Triple} {r : Ref} (h : m.phase t = .answer r) : Recalls m t r
  | again {t t' : Triple} {r : Ref} (h : m.phase t = .again t') (hnext : Recalls m t' r) :
      Recalls m t r
  | split {t : Triple} {v : UInt32} {low high r : Ref} (h : m.phase t = .split v)
      (hlow : Recalls m (m.halves false v t.regular.1) low)
      (hhigh : Recalls m (m.halves true v t.regular.1) high) (hr : m.Finds v low high r) :
      Recalls m t (r.negateIf t.regular.2)

/-- A split at `v` comes to `r` through nodes that are all stored. -/
def Retraces (m : Manager) (v : UInt32) (key : Triple) (r : Ref) : Prop :=
  ∃ low high, m.Recalls (m.halves false v key) low ∧ m.Recalls (m.halves true v key) high ∧
    m.Finds v low high r

theorem Retraces.recalls (hphase : m.phase t = .split v) (h : m.Retraces v t.regular.1 r) :
    m.Recalls t (r.negateIf t.regular.2) := by
  rcases h with ⟨low, high, hlow, hhigh, hr⟩
  exact .split hphase hlow hhigh hr

/-- Every remembered result can be computed again without storing a node. -/
def Remembers (m : Manager) : Prop :=
  ∀ (slot : Nat) (key : Triple) (r : Ref), m.computed.slots[slot]? = some (some (key, r)) →
    ∃ v : UInt32, v.toNat = m.firstRank key ∧ m.Retraces v key r

structure Faithful (m : Manager) : Prop where
  canonical : m.Canonical
  remembers : m.Remembers

theorem Finds.extends (h : m.Finds v low high r) (hextends : m.Extends m') :
    m'.Finds v low high r := by
  cases h with
  | same hsame => exact .same hsame
  | stored hne hindex hlt hstored => exact .stored hne hindex hlt (hextends _ _ hstored)

theorem Recalls.extends (hm : m.Reduced) (hextends : m.Extends m') (h : m.Recalls t r)
    (ht : m.Operands t) : m'.Recalls t r := by
  induction h with
  | answer hphase => exact .answer ((hextends.phase ht).trans hphase)
  | again hphase _ ih =>
      exact .again ((hextends.phase ht).trans hphase) (ih (phase_again hm ht hphase).1)
  | split hphase _ _ hr ihLow ihHigh =>
      have hkey := (regular_choice hm ht).1
      have hfirst := (phase_split hm ht hphase).trans (firstRank_regular _).symm
      have hhalves := fun bit => (halves_operands hm hkey hfirst bit).1
      apply Recalls.split ((hextends.phase ht).trans hphase) _ _ (hr.extends hextends)
      · exact hextends.halves hkey false ▸ ihLow (hhalves false)
      · exact hextends.halves hkey true ▸ ihHigh (hhalves true)

theorem Retraces.extends (hm : m.Reduced) (hextends : m.Extends m') (h : m.Retraces v key r)
    (hkey : m.Operands key) (hfirst : v.toNat = m.firstRank key) : m'.Retraces v key r := by
  rcases h with ⟨low, high, hlow, hhigh, hr⟩
  have hhalves := fun bit => (halves_operands hm hkey hfirst bit).1
  refine ⟨low, high, ?_, ?_, hr.extends hextends⟩
  · exact hextends.halves hkey false ▸ hlow.extends hm hextends (hhalves false)
  · exact hextends.halves hkey true ▸ hhigh.extends hm hextends (hhalves true)

theorem Finds.unique (hm : m.Reduced) (h : m.Finds v low high r) (h' : m.Finds v low high s) :
    r = s := by
  cases h with
  | same hsame =>
      cases h' with
      | same _ => rfl
      | stored hne _ _ _ => exact absurd hsame hne
  | stored hne _ _ hstored =>
      cases h' with
      | same hsame => exact absurd hsame hne
      | stored _ _ _ hstored' => rw [hm.unique _ _ _ hstored hstored']

theorem Recalls.unique (hm : m.Reduced) (h : m.Recalls t r) (h' : m.Recalls t s) : r = s := by
  induction h generalizing s with
  | answer hphase =>
      cases h' with
      | answer hphase' => simpa [hphase] using hphase'
      | again hphase' _ => simp [hphase] at hphase'
      | split hphase' _ _ _ => simp [hphase] at hphase'
  | again hphase _ ih =>
      cases h' with
      | answer hphase' => simp [hphase] at hphase'
      | again hphase' hnext =>
          simp only [hphase, Phase.again.injEq] at hphase'
          exact ih (hphase' ▸ hnext)
      | split hphase' _ _ _ => simp [hphase] at hphase'
  | split hphase _ _ hr ihLow ihHigh =>
      cases h' with
      | answer hphase' => simp [hphase] at hphase'
      | again hphase' _ => simp [hphase] at hphase'
      | split hphase' hlow hhigh hs =>
          simp only [hphase, Phase.split.injEq] at hphase'
          subst hphase'
          rw [← ihLow hlow, ← ihHigh hhigh] at hs
          rw [hr.unique hm hs]

theorem Retraces.unique (hm : m.Reduced) (h : m.Retraces v key r) (h' : m.Retraces v key s) :
    r = s := by
  rcases h with ⟨low, high, hlow, hhigh, hr⟩
  rcases h' with ⟨low', high', hlow', hhigh', hs⟩
  rw [← hlow.unique hm hlow', ← hhigh.unique hm hhigh'] at hs
  exact hr.unique hm hs

/-! ## Making a node -/

theorem mkNode_eq (hv : v ≠ 0) : mkNode v low high =
    (·.negateIf high.negated) <$>
      storeNode v (low.negateIf high.negated) (high.negateIf high.negated) := by
  rw [mkNode]
  rw [if_neg hv]
  cases hnegated : high.negated with
  | true =>
      simp only [if_true, Ref.negateIf, bind_pure_comp]
  | false => simp [Ref.negateIf]

theorem storeNode_of_ne (hne : low ≠ high) : storeNode v low high = (do
    let index ← onNodes (UniqueTable.put ⟨v, low, high⟩)
    match Ref.ofIndex? index false with
    | some r => return r
    | none => throw .nodeIndexTooLarge) :=
  if_neg hne

/-- Where the children agree nothing is decided, and nothing is stored. -/
theorem mkNode_of_same (hv : v ≠ 0) (hsame : low = high) (m : Manager) :
    mkNode v low high m = .ok low m := by
  subst hsame
  have hstore : storeNode v (low.negateIf low.negated) (low.negateIf low.negated) m =
      .ok (low.negateIf low.negated) m := by
    rw [storeNode, if_pos rfl]
    rfl
  rw [mkNode_eq hv, run_map hstore, Ref.negateIf_negateIf]

section Putting
variable {index : Nat} {u : UniqueTable Node} {fault : Fault}
variable (hv : v ≠ 0) (hne : low ≠ high)
include hv hne

/-- The answer has the index that the table gave the node, if a reference can name it. -/
theorem mkNode_of_put (hrun : UniqueTable.put
      ⟨v, low.negateIf high.negated, high.negateIf high.negated⟩ m.nodes = .ok index u) :
    mkNode v low high m =
      if index < Ref.indexLimit then .ok ⟨index, high.negated⟩ { m with nodes := u }
      else .error .nodeIndexTooLarge { m with nodes := u } := by
  rw [mkNode_eq hv, storeNode_of_ne (mt Ref.negateIf_inj.1 hne)]
  by_cases hlt : index < Ref.indexLimit
  · rw [if_pos hlt, map_bind, run_bind (onNodes_run hrun), Ref.ofIndex?, if_pos hlt]
    cases high.negated <;> rfl
  · rw [if_neg hlt, map_bind, run_bind (onNodes_run hrun), Ref.ofIndex?, if_neg hlt]
    rfl

/-- A node that the table refuses is not made. -/
theorem mkNode_of_refused (hrun : UniqueTable.put
      ⟨v, low.negateIf high.negated, high.negateIf high.negated⟩ m.nodes = .error fault u) :
    mkNode v low high m = .error fault { m with nodes := u } := by
  have hnodes : onNodes (UniqueTable.put
      ⟨v, low.negateIf high.negated, high.negateIf high.negated⟩) m =
        .error fault { m with nodes := u } := by
    simp only [onNodes, hrun]
  rw [mkNode_eq hv, storeNode_of_ne (mt Ref.negateIf_inj.1 hne), map_bind, run_bind_error hnodes]

end Putting

/-- A node that is stored already is found where it is. -/
theorem Finds.run (hm : m.Canonical) (hv : v ≠ 0) (h : m.Finds v low high r) :
    mkNode v low high m = .ok r m := by
  cases h with
  | same hsame => exact hsame ▸ mkNode_of_same hv hsame m
  | stored hne hindex hlt hstored =>
      rw [mkNode_of_put hv hne (UniqueTable.put_of_stored hm.consed hindex hstored), if_pos hlt]

/-- Putting a node adds it to the nodes there were, and touches nothing else. -/
private theorem put_adds (hm : m.nodes.Consed (· = 1)) (node : Node) :
    Outcome (onNodes (UniqueTable.put node)) m
      (fun index m' => (m.Extends m' ∧ m'.computed = m.computed) ∧ index ≠ 1 ∧
        m'.nodes.stored? index = some node)
      (fun _ m' => m.Extends m' ∧ m'.computed = m.computed) := by
  have hput := UniqueTable.put_outcome (v := node) hm
  unfold Outcome onNodes
  dsimp only
  cases hrun : UniqueTable.put node m.nodes with
  | error fault u =>
      have hcells := (hput.of_error hrun).2.cells
      refine ⟨fun index other hstored => ?_, rfl⟩
      rw [← hstored]
      exact UniqueTable.stored?_congr (by rw [hcells])
  | ok index u =>
      have hend := hput.of_ok hrun
      refine ⟨⟨fun other otherNode hstored => ?_, rfl⟩, hend.strict, hend.stored⟩
      rcases hend.change with hsame | ⟨hfree, hstored'⟩
      · exact hsame.symm ▸ hstored
      · have hne : other ≠ index := by
          rintro rfl
          simp [hfree] at hstored
        exact (congrFun hstored' other).trans ((Function.update_of_ne hne _ _).trans hstored)

/-- A made node is found afterwards. -/
theorem mkNode_finds (hm : m.nodes.Consed (· = 1)) (hv : v ≠ 0) :
    Outcome (mkNode v low high) m
      (fun r m' => (m.Extends m' ∧ m'.computed = m.computed) ∧ m'.Finds v low high r)
      (fun _ m' => m.Extends m' ∧ m'.computed = m.computed) := by
  rw [mkNode_eq hv]
  apply Outcome.map
  by_cases hsame : low = high
  · subst hsame
    rw [storeNode, if_pos rfl]
    apply Outcome.pure
    exact ⟨⟨Extends.refl m, rfl⟩, by simpa using .same rfl⟩
  · rw [storeNode_of_ne (by simpa [Ref.negateIf_inj] using hsame)]
    apply Outcome.andThen (put_adds hm _)
    intro index m' hend
    rw [Ref.ofIndex?]
    split_ifs with hlt
    · apply Outcome.pure
      have hsign : (⟨index, false⟩ : Ref).negateIf high.negated = ⟨index, high.negated⟩ := by
        cases high.negated <;> rfl
      exact ⟨hend.1, hsign ▸ Finds.stored hsame hend.2.1 hlt hend.2.2⟩
    · exact Outcome.throw hend.1

/-! ## Every answer can be found again -/

/-- A remembered result can still be computed again when nodes were added. -/
theorem Faithful.retraces (hm : m.Faithful) (hextends : m.Extends m') {slot : Nat}
    (hslot : m.computed.slots[slot]? = some (some (key, r))) :
    ∃ v : UInt32, v.toNat = m'.firstRank key ∧ m'.Retraces v key r := by
  rcases hm.remembers slot key r hslot with ⟨v, hfirst, hretraces⟩
  have hkey := (hm.canonical.computed slot key r hslot).1
  refine ⟨v, hfirst.trans (hextends.firstRank hkey).symm, ?_⟩
  exact hretraces.extends hm.canonical.reduced hextends hkey hfirst

theorem Faithful.remembers_extends (hm : m.Faithful) (hextends : m.Extends m')
    (hcomputed : m'.computed.slots = m.computed.slots) : m'.Remembers :=
  fun _ _ _ hslot => hm.retraces hextends (hcomputed ▸ hslot)

/-- What an operation with an answer for a triple leaves behind. -/
def Recollects (m : Manager) (t : Triple) (x : ManagerM Ref) : Prop :=
  Outcome x m (fun r m' => m'.Faithful ∧ m.Extends m' ∧ m'.Recalls t r)
    (fun _ m' => m'.Faithful ∧ m.Extends m')

/-- A split remembers what it made of its halves. -/
private theorem splitAt_remembers {answer : Triple → ManagerM Ref}
    (hanswer : ∀ {m : Manager} {t : Triple}, m.Faithful → m.Operands t →
      m.Recollects t (answer t))
    (hm : m.Faithful) (hkey : m.Operands key) (hfirst : v.toNat = m.firstRank key) :
    Outcome (splitAt answer key v) m
      (fun r m' => m'.Remembers ∧ m'.Retraces v key r) (fun _ m' => m'.Remembers) := by
  have hreduced := hm.canonical.reduced
  have hv := (Splits.of_firstRank hreduced hkey hfirst).ne_zero
  have hhalves := fun bit => (halves_operands hreduced hkey hfirst bit).1
  rw [Outcome, splitAt_eq hreduced hkey hfirst]
  apply Outcome.bind
  apply (hanswer hm (hhalves false)).mono _ fun _ _ hend => hend.1.remembers
  intro low m₁ hlow
  have hhalf₁ := (hhalves true).extends hlow.2.1
  apply Outcome.bind
  apply (hanswer hlow.1 hhalf₁).mono _ fun _ _ hend => hend.1.remembers
  intro high m₂ hhigh
  have hextends₂ := hlow.2.1.trans hhigh.2.1
  apply Outcome.bind
  apply (mkNode_finds hhigh.1.canonical.consed hv).mono _ fun _ m₃ hend =>
    hhigh.1.remembers_extends hend.1 (by rw [hend.2])
  intro r m₃ hr
  apply Outcome.bind_ok (onComputed_run _ m₃)
  apply Outcome.pure
  generalize hm₄ : ({ m₃ with computed := m₃.computed.insert key r } : Manager) = m₄
  have hlast : m₃.Extends m₄ := Extends.of_nodes_eq (by rw [← hm₄])
  have hextends₁ : m₁.Extends m₄ := hhigh.2.1.trans (hr.1.1.trans hlast)
  have hextends : m.Extends m₄ := hlow.2.1.trans hextends₁
  have hretraces : m₄.Retraces v key r := by
    refine ⟨low, high, ?_, ?_, hr.2.extends hlast⟩
    · rw [hextends.halves hkey]
      exact hlow.2.2.extends hlow.1.canonical.reduced hextends₁
        ((hhalves false).extends hlow.2.1)
    · rw [hextends.halves hkey]
      exact hhigh.2.2.extends hhigh.1.canonical.reduced (hr.1.1.trans hlast)
        ((hhalves true).extends hextends₂)
  refine ⟨fun slot other s hslot => ?_, hretraces⟩
  rw [← hm₄] at hslot
  rcases slot_of_insert hslot with ⟨rfl, rfl⟩ | hslot
  · exact ⟨v, hfirst.trans (hextends.firstRank hkey).symm, hretraces⟩
  · exact hhigh.1.retraces (hr.1.1.trans hlast) (hr.1.2 ▸ hslot)

/-- A result that is looked up is computed again as it was computed first. -/
theorem retraces_of_find? (hm : m.Faithful) (hfirst : v.toNat = m.firstRank key)
    (hfound : m.computed.find? key = some r) : m.Retraces v key r := by
  have hslot := ComputedTable.find?_eq_some.1 hfound
  rcases hm.remembers _ key r hslot with ⟨w, hfirst', hretraces⟩
  have hsame : v = w := UInt32.toNat_inj.1 (hfirst.trans hfirst'.symm)
  exact hsame ▸ hretraces

/-- A manager after a look-up of `key`. -/
def lookedUp (m : Manager) (key : Triple) : Manager :=
  { m with computed := (ComputedTable.lookup key m.computed).2 }

theorem Faithful.lookedUp (hm : m.Faithful) (key : Triple) : (m.lookedUp key).Faithful := by
  have hgrows := Outcome.of_ok (lookup_grows hm.canonical key) (onComputed_run _ m)
  exact ⟨hgrows.1, hm.remembers_extends hgrows.2.1 ComputedTable.lookup_slots⟩

theorem resolve_of_find? (bound : Nat) (hfound : m.computed.find? key = some r) :
    resolve bound v key m = .ok r (m.lookedUp key) := by
  rw [resolve, run_bind (onComputed_run _ m), ComputedTable.lookup_answer, hfound]
  rfl

theorem resolve_of_miss (bound : Nat) (hmiss : m.computed.find? key = none) :
    resolve bound v key m = splitAt (iteWithin bound) key v (m.lookedUp key) := by
  rw [resolve, run_bind (onComputed_run _ m), ComputedTable.lookup_answer, hmiss]
  rfl

/-- Whatever if-then-else answers, it would come to again without storing a node. -/
theorem iteWithin_recollects (bound : Nat) : ∀ {m : Manager} {t : Triple}, m.Faithful →
    m.Operands t → m.Recollects t (iteWithin bound t) := by
  induction bound with
  | zero => exact fun hm _ => Outcome.throw ⟨hm, Extends.refl _⟩
  | succ bound ih =>
      intro m t hm ht
      have hreduced := hm.canonical.reduced
      have hgrows := iteWithin_grows (bound + 1) hm.canonical ht
      suffices hcore : Outcome (iteWithin (bound + 1) t) m
          (fun r m' => m'.Remembers ∧ (m.Extends m' → m'.Recalls t r)) (fun _ m' => m'.Remembers) by
        exact (Outcome.and hgrows hcore).mono
          (fun r m' hend => ⟨⟨hend.1.1, hend.2.1⟩, hend.1.2.1, hend.2.2 hend.1.2.1⟩)
          (fun _ m' hend => ⟨⟨hend.1.1, hend.2⟩, hend.1.2⟩)
      rw [Outcome, iteWithin_succ hreduced ht]
      cases hphase : m.phase t with
      | answer r => exact ⟨hm.remembers, fun _ => .answer hphase⟩
      | again t' =>
          have hnext := ih hm (phase_again hreduced ht hphase).1
          exact hnext.mono
            (fun r m' hend => ⟨hend.1.remembers, fun hextends =>
              .again ((hextends.phase ht).trans hphase) hend.2.2⟩)
            fun _ _ hend => hend.1.remembers
      | split v =>
          have hkey := (regular_choice hreduced ht).1
          have hfirst := (phase_split hreduced ht hphase).trans (firstRank_regular t).symm
          have hextends : m.Extends (m.lookedUp t.regular.1) := Extends.of_nodes_eq rfl
          apply Outcome.map
          cases hfound : m.computed.find? t.regular.1 with
          | some r =>
              apply Outcome.of_run (resolve_of_find? bound hfound)
              refine ⟨(hm.lookedUp _).remembers, fun _ => ?_⟩
              have hretraces := retraces_of_find? hm hfirst hfound
              exact (hretraces.extends hreduced hextends hkey hfirst).recalls
                ((hextends.phase ht).trans hphase)
          | none =>
              rw [Outcome, resolve_of_miss bound hfound]
              apply (splitAt_remembers ih (hm.lookedUp _) (hkey.extends hextends)
                (hfirst.trans (hextends.firstRank hkey).symm)).imp
              intro r m' hend
              exact ⟨hend.1, fun h => hend.2.recalls ((h.phase ht).trans hphase)⟩

/-- A manager with other computed results. -/
def withComputed (m : Manager) (computed : ComputedTable Triple Ref) : Manager :=
  { m with computed }

/-- An operation that answers `r` and changes nothing but the computed results. -/
def Retrieves (m : Manager) (x : ManagerM Ref) (r : Ref) : Prop :=
  ∃ computed, x m = .ok r (m.withComputed computed)

theorem withComputed_faithful (hm : m.Faithful) (ht : m.Operands t) {bound : Nat}
    {computed : ComputedTable Triple Ref}
    (hrun : iteWithin bound t m = .ok r (m.withComputed computed)) :
    (m.withComputed computed).Faithful :=
  (Outcome.of_ok (iteWithin_recollects bound hm ht) hrun).1

/-- A split whose halves are found again is found again. -/
private theorem splitAt_retrieves {bound : Nat}
    (hanswer : ∀ {m : Manager} {t : Triple} {r : Ref}, m.Faithful → m.Operands t →
      m.effort t ≤ bound → m.Recalls t r → m.Retrieves (iteWithin bound t) r)
    (hm : m.Faithful) (hkey : m.Operands key) (hfirst : v.toNat = m.firstRank key)
    (hbound : m.effort key ≤ bound + 1) (h : m.Retraces v key r) :
    m.Retrieves (splitAt (iteWithin bound) key v) r := by
  have hreduced := hm.canonical.reduced
  have hv := (Splits.of_firstRank hreduced hkey hfirst).ne_zero
  have hhalves := fun bit => halves_operands hreduced hkey hfirst bit
  have hleft : ∀ bit, m.effort (m.halves bit v key) ≤ bound := fun bit =>
    Nat.le_of_lt_succ (Nat.lt_of_lt_of_le (hhalves bit).2 hbound)
  rcases h with ⟨low, high, hlow, hhigh, hr⟩
  rcases hanswer hm (hhalves false).1 (hleft false) hlow with ⟨computed₁, hrunLow⟩
  have hm₁ := withComputed_faithful hm (hhalves false).1 hrunLow
  have hextends₁ : m.Extends (m.withComputed computed₁) := Extends.of_nodes_eq rfl
  have hhalf₁ := (hhalves true).1.extends hextends₁
  rcases hanswer hm₁ hhalf₁ (hleft true) (hhigh.extends hreduced hextends₁ (hhalves true).1) with
    ⟨computed₂, hrunHigh⟩
  have hm₂ := withComputed_faithful hm₁ hhalf₁ hrunHigh
  have hrunNode := Finds.run hm₂.canonical hv (hr.extends (Extends.of_nodes_eq rfl))
  refine ⟨computed₂.insert key r, ?_⟩
  rw [splitAt_eq hreduced hkey hfirst, run_bind hrunLow, run_bind hrunHigh, run_bind hrunNode]
  rfl

private theorem resolve_retrieves {bound : Nat}
    (hanswer : ∀ {m : Manager} {t : Triple} {r : Ref}, m.Faithful → m.Operands t →
      m.effort t ≤ bound → m.Recalls t r → m.Retrieves (iteWithin bound t) r)
    (hm : m.Faithful) (hkey : m.Operands key) (hfirst : v.toNat = m.firstRank key)
    (hbound : m.effort key ≤ bound + 1) (h : m.Retraces v key r) :
    m.Retrieves (resolve bound v key) r := by
  cases hfound : m.computed.find? key with
  | some s =>
      have hsame := h.unique hm.canonical.reduced (retraces_of_find? hm hfirst hfound)
      exact ⟨_, hsame ▸ resolve_of_find? bound hfound⟩
  | none =>
      have hextends : m.Extends (m.lookedUp key) := Extends.of_nodes_eq rfl
      have hsplit := splitAt_retrieves hanswer (hm.lookedUp key) (hkey.extends hextends) hfirst
        hbound (h.extends hm.canonical.reduced hextends hkey hfirst)
      rw [Retrieves, resolve_of_miss bound hfound]
      exact hsplit

/-- What can be found among the stored nodes is found, whatever the computed table holds. -/
theorem Recalls.run (bound : Nat) : ∀ {m : Manager} {t : Triple} {r : Ref}, m.Faithful →
    m.Operands t → m.effort t ≤ bound → m.Recalls t r → m.Retrieves (iteWithin bound t) r := by
  induction bound with
  | zero => exact fun _ _ hbound _ => absurd hbound (Nat.not_succ_le_zero _)
  | succ bound ih =>
      intro m t r hm ht hbound h
      have hreduced := hm.canonical.reduced
      rw [Retrieves, iteWithin_succ hreduced ht]
      cases h with
      | answer hphase => exact ⟨m.computed, by rw [hphase]; rfl⟩
      | again hphase hnext =>
          rw [hphase]
          have hnext' := phase_again hreduced ht hphase
          exact ih hm hnext'.1 (Nat.le_of_lt_succ (Nat.lt_of_lt_of_le hnext'.2 hbound)) hnext
      | split hphase hlow hhigh hr =>
          rw [hphase]
          have hkey := (regular_choice hreduced ht).1
          have hfirst := (phase_split hreduced ht hphase).trans (firstRank_regular t).symm
          rw [← effort_regular] at hbound
          rcases resolve_retrieves ih hm hkey hfirst hbound ⟨_, _, hlow, hhigh, hr⟩ with
            ⟨computed, hrun⟩
          exact ⟨computed, run_map hrun⟩

/-- A result that can be computed again is answered, whether it is remembered or not. -/
theorem Retraces.run {bound : Nat} (hm : m.Faithful) (hkey : m.Operands key)
    (hfirst : v.toNat = m.firstRank key) (hbound : m.effort key ≤ bound + 1)
    (h : m.Retraces v key r) : m.Retrieves (resolve bound v key) r :=
  resolve_retrieves (Recalls.run bound) hm hkey hfirst hbound h

end Manager

end SymbolicOmega
