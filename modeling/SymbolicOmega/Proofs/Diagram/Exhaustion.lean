import Mathlib.Algebra.Group.Nat.Defs
import SymbolicOmega.Proofs.Diagram.Histories
import SymbolicOmega.Proofs.Diagram.Recall
import SymbolicOmega.Proofs.Diagram.Reclaiming

/-!
# Running out of nodes

An operation on references to stored nodes has one reason to fail: a node is to be stored for
which there is no cell.  If-then-else never runs into its bound, no node is split below its own
variable, and a collection for stored roots always comes to its end.
-/

namespace SymbolicOmega

namespace UniqueTable

variable {α : Type} [DecidableEq α] [Hashable α] [Inhabited α] {t : UniqueTable α} {bits : Nat}
variable {reserved : Bool} {contents : Nat → Option α}

/-- No table has more than `2 ^ 31` cells. -/
theorem Reached.capacity_le (h : Reached bits reserved contents t) : t.capacity ≤ 2 ^ 31 := by
  have hnew : ∀ {fresh : UniqueTable α}, ofBits bits = .ok fresh → fresh.capacity ≤ 2 ^ 31 := by
    intro fresh hfresh
    obtain ⟨hle, hcapacity⟩ := ofBits_capacity hfresh
    exact hcapacity ▸ Nat.pow_le_pow_right (by omega) hle
  induction h with
  | new hfresh => exact hnew hfresh
  | reserved hfresh hrun => exact (alloc_capacity _ rfl).of_ok hrun ▸ hnew hfresh
  | unreserved hfresh hrun => exact (alloc_capacity _ rfl).of_error hrun ▸ hnew hfresh
  | stored v _ hrun ih => exact (put_capacity v _ rfl).of_ok hrun ▸ ih
  | refused v _ hrun ih => exact (put_capacity v _ rfl).of_error hrun ▸ ih
  | swept keep _ hrun ih => exact (retain_capacity keep _ rfl).of_ok hrun ▸ ih

/-- A value is refused by a full table only. -/
theorem Reached.put_outcome (h : Reached bits reserved contents t) (v : α) :
    Outcome (put v) t
      (fun index u => (∃ contents', Reached bits reserved contents' u) ∧
        u.stored? index = some v)
      (fun _ u => (∃ contents', Reached bits reserved contents' u) ∧ u.Full) := by
  have haccounts := h.accounts
  have hput := UniqueTable.put_outcome (v := v) haccounts.consed
  apply Outcome.intro
  · exact fun index u hrun => ⟨⟨_, h.stored v hrun⟩, (hput.of_ok hrun).stored⟩
  · intro fault u hrun
    have hcells := (hput.of_error hrun).2
    have hfull := ((put_lowestFree haccounts.consed haccounts.packed v).of_error hrun).2.1
    have hcapacity := (put_capacity v t rfl).of_error hrun
    refine ⟨⟨_, h.refused v hrun⟩, fun index hpos hlt => ?_⟩
    obtain ⟨w, hw⟩ := hfull index hpos (hcapacity ▸ hlt)
    exact ⟨w, (stored?_congr (by rw [hcells.cells])).trans hw⟩

end UniqueTable

namespace Manager

variable {m m' : Manager} {t : Triple} {v : UInt32} {bound : Nat}

/-! ## Where if-then-else can fail -/

section Failing
variable {I : Manager → Prop} {bad : Fault → Manager → Prop}
variable (hcomputed : ∀ {m : Manager} computed, I m → I (m.withComputed computed))
variable (hmake : ∀ {m : Manager} {v : UInt32} {low high : Ref}, m.Canonical → I m → v ≠ 0 →
  Outcome (mkNode v low high) m (fun _ m' => I m') bad)
include hcomputed hmake

private theorem splitAt_fails
    (hanswer : ∀ {m : Manager} {t : Triple}, m.Canonical → I m → m.Operands t →
      m.effort t ≤ bound → Outcome (iteWithin bound t) m (fun _ m' => I m') bad)
    (hm : m.Canonical) (hI : I m) (ht : m.Operands t) (hfirst : v.toNat = m.firstRank t)
    (hbound : m.effort t ≤ bound + 1) :
    Outcome (splitAt (iteWithin bound) t v) m (fun _ m' => I m') bad := by
  have hsplits := Splits.of_firstRank hm.reduced ht hfirst
  have hhalf := halves_operands hm.reduced ht hfirst
  have hleft : ∀ bit, m.effort (m.halves bit v t) ≤ bound := fun bit =>
    Nat.le_of_lt_succ (Nat.lt_of_lt_of_le (hhalf bit).2 hbound)
  have hboth : ∀ {m : Manager} {t : Triple}, m.Canonical → I m → m.Operands t →
      m.effort t ≤ bound →
      Outcome (iteWithin bound t) m (fun _ m' => (m'.Canonical ∧ m.Extends m') ∧ I m') bad :=
    fun hm hI ht hle => ((iteWithin_grows bound hm ht).and (hanswer hm hI ht hle)).mono
      (fun _ _ hend => ⟨⟨hend.1.1, hend.1.2.1⟩, hend.2⟩) fun _ _ hend => hend.2
  rw [Outcome, splitAt_eq hm.reduced ht hfirst]
  apply Outcome.andThen (hboth hm hI (hhalf false).1 (hleft false))
  rintro low m₁ ⟨⟨hm₁, hextends⟩, hI₁⟩
  apply Outcome.andThen (hboth hm₁ hI₁ ((hhalf true).1.extends hextends)
    (by rw [hextends.effort (hhalf true).1]; exact hleft true))
  rintro high m₂ ⟨⟨hm₂, -⟩, hI₂⟩
  apply Outcome.andThen (hmake hm₂ hI₂ hsplits.ne_zero)
  intro r m₃ hI₃
  exact Outcome.bind_ok (onComputed_run _ m₃) (Outcome.pure (hcomputed _ hI₃))

/-- While the effort is within the bound, if-then-else fails only where storing a node does. -/
theorem iteWithin_fails (bound : Nat) : ∀ {m : Manager} {t : Triple}, m.Canonical → I m →
    m.Operands t → m.effort t ≤ bound →
      Outcome (iteWithin bound t) m (fun _ m' => I m') bad := by
  induction bound with
  | zero => exact fun _ _ _ hbound => absurd hbound (Nat.not_succ_le_zero _)
  | succ bound ih =>
      intro m t hm hI ht hbound
      rw [Outcome, iteWithin_succ hm.reduced ht]
      cases hphase : m.phase t with
      | answer r => exact hI
      | again t' =>
          have hnext := phase_again hm.reduced ht hphase
          exact ih hm hI hnext.1 (Nat.le_of_lt_succ (Nat.lt_of_lt_of_le hnext.2 hbound))
      | split v =>
          have hkey := (regular_choice hm.reduced ht).1
          have hfirst := (phase_split hm.reduced ht hphase).trans (firstRank_regular t).symm
          rw [← effort_regular] at hbound
          apply Outcome.map
          cases hfound : m.computed.find? t.regular.1 with
          | some r => exact Outcome.of_run (resolve_of_find? bound hfound) (hcomputed _ hI)
          | none =>
              have hlooked : m.Extends (m.lookedUp t.regular.1) := Extends.of_nodes_eq rfl
              have hm' := Outcome.of_ok (lookup_grows hm t.regular.1) (onComputed_run _ m)
              rw [Outcome, resolve_of_miss bound hfound]
              exact splitAt_fails hcomputed hmake ih hm'.1 (hcomputed _ hI) (hkey.extends hlooked)
                (hfirst.trans (hlooked.firstRank hkey).symm) (by rwa [hlooked.effort hkey])

/-- If-then-else of references to stored nodes fails only where storing a node does. -/
theorem ite_fails (hm : m.Canonical) (hI : I m) {f g h : Ref} (ht : m.Operands ⟨f, g, h⟩) :
    Outcome (ite f g h) m (fun _ m' => I m') bad :=
  iteWithin_fails hcomputed hmake stepBound hm hI ht (effort_le_stepBound hm.reduced ht)

end Failing

/-! ## The history of the nodes -/

/-- The nodes came to their table by being put there, and went by sweeps. -/
def HasHistory (m : Manager) : Prop :=
  ∃ bits contents, UniqueTable.Reached bits true contents m.nodes

/-- There is no cell for a node, or the one there was is the last of the largest table, which
no reference names. -/
def NoCell (fault : Fault) (m : Manager) : Prop :=
  m.nodes.Full ∨ fault = .nodeIndexTooLarge ∧ m.nodes.capacity = 2 ^ 31

/-- Whatever is done with a manager, its nodes have a history. -/
theorem hasHistory_lasting : Lasting HasHistory where
  put node := by
    have hput : Upholds (fun t => ∃ bits contents, UniqueTable.Reached bits true contents t)
        (UniqueTable.put node) := fun t ⟨bits, contents, h⟩ => Outcome.intro
      (fun _ _ hrun => ⟨bits, _, h.stored node hrun⟩) fun _ _ hrun => ⟨bits, _, h.refused node hrun⟩
    exact onNodes_upholds hput
  computed _ _ hm := hm
  collect := by
    have hretain : ∀ keep, Upholds
        (fun t => ∃ bits contents, UniqueTable.Reached bits true contents t)
        (UniqueTable.retain keep : TableM Node UniqueTable.Sweep) := by
      rintro keep t ⟨bits, contents, h⟩
      obtain ⟨sweep, u, hrun, -⟩ := h.accounts.retain keep
      exact Outcome.of_run hrun ⟨bits, _, h.swept keep hrun⟩
    exact collect_upholds hretain

theorem ofSizing_hasHistory {sizing : Sizing} (h : ofSizing sizing = .ok m) : m.HasHistory := by
  obtain ⟨t, u, index, computed, hbits, halloc, -, rfl⟩ := ofSizing_eq_ok h
  exact ⟨_, _, .reserved hbits halloc⟩

/-- A collection without roots leaves the terminal alone. -/
theorem collect_nothing (h : m.HasHistory) :
    ∃ dropped m', collect [] m = .ok dropped m' ∧ m'.size = 1 := by
  obtain ⟨bits, contents, h⟩ := h
  have hmark : m.descendants [] = .ok (.ofList [Ref.one.index]) := by
    rw [descendants]
    cases ([] : List Ref).length + 2 * m.nodes.cells.size <;> rfl
  obtain ⟨sweep, u, hretain, haccounts⟩ :=
    h.accounts.retain (Std.HashSet.ofList [Ref.one.index]).contains
  obtain ⟨threshold, hrun⟩ := collect_run hmark hretain
  refine ⟨_, _, hrun, ?_⟩
  have hswept := haccounts.hashConsed
  have hpopulation : u.population = {1} := by
    ext index
    rw [UniqueTable.mem_population, Finset.mem_singleton, hswept.occupied]
    refine ⟨?_, fun hone => .inr ⟨rfl, hone⟩⟩
    rintro (⟨v, hv⟩ | ⟨-, hone⟩)
    · obtain ⟨-, hkept⟩ := Option.filter_eq_some_iff.1 hv
      rw [Std.HashSet.contains_ofList, List.contains_iff_mem, List.mem_singleton] at hkept
      exact hkept
    · exact hone
  change u.occupied = 1
  rw [hswept.counted, hpopulation, Finset.card_singleton]

private theorem storeNode_fails (h : m.HasHistory) (v : UInt32) (low high : Ref) :
    Outcome (storeNode v low high) m (fun _ m' => m'.HasHistory) NoCell := by
  rw [storeNode]
  by_cases hsame : low = high
  · rw [if_pos hsame]
    exact Outcome.pure h
  rw [if_neg hsame]
  obtain ⟨bits, contents, hreached⟩ := h
  refine Outcome.bind ((onNodes_outcome (hreached.put_outcome ⟨v, low, high⟩)).mono ?_
    fun _ _ hend => Or.inl hend.2)
  rintro index m' ⟨⟨contents', hreached'⟩, hstored⟩
  cases hindex : Ref.ofIndex? index false with
  | some r => exact Outcome.pure ⟨bits, contents', hreached'⟩
  | none =>
      have hlimit : ¬ index < Ref.indexLimit := fun hlt => by simp [Ref.ofIndex?, hlt] at hindex
      have hsize := hreached'.accounts.consed.layout.size_le
      have hlt := UniqueTable.lt_size_of_stored hstored
      have hcapacity := hreached'.capacity_le
      rw [Ref.indexLimit] at hlimit
      exact Outcome.throw (Or.inr ⟨rfl, by omega⟩)

theorem mkNode_fails (h : m.HasHistory) (hv : v ≠ 0) (low high : Ref) :
    Outcome (mkNode v low high) m (fun _ m' => m'.HasHistory) NoCell := by
  rw [mkNode, if_neg hv]
  by_cases hnegated : high.negated = true
  · rw [if_pos hnegated]
    exact Outcome.andThen (storeNode_fails h v _ _) fun _ _ hend => Outcome.pure hend
  · rw [if_neg hnegated]
    exact storeNode_fails h v low high

/-- If-then-else of stored functions fails only for want of a cell. -/
theorem choice_fails (hm : m.Canonical) (h : m.HasHistory) {f g r : Ref}
    (ht : m.Operands ⟨f, g, r⟩) : Outcome (ite f g r) m (fun _ m' => m'.HasHistory) NoCell :=
  ite_fails (I := HasHistory) (fun _ h => h) (fun _ h hv => mkNode_fails h hv _ _) hm h ht

section Combining
variable (hm : m.Canonical) (h : m.HasHistory) {f g : Ref} (hf : m.Live f) (hg : m.Live g)
include hm h hf hg

theorem disj_fails : Outcome (disj f g) m (fun _ m' => m'.HasHistory) NoCell :=
  choice_fails hm h ⟨hf, hm.reduced.live_one, hg⟩

theorem diff_fails : Outcome (diff f g) m (fun _ m' => m'.HasHistory) NoCell :=
  choice_fails hm h ⟨hg, hm.reduced.live_zero, hf⟩

theorem conj_fails : Outcome (conj f g) m (fun _ m' => m'.HasHistory) NoCell :=
  choice_fails hm h ⟨hf, hg, hm.reduced.live_zero⟩

/-- Comparing two stored functions fails only for want of a cell. -/
theorem implies_fails : Outcome (implies f g) m (fun _ m' => m'.HasHistory) NoCell :=
  Outcome.andThen (diff_fails hm h hf hg) fun _ _ hend => Outcome.pure hend

theorem disjoint_fails : Outcome (disjoint f g) m (fun _ m' => m'.HasHistory) NoCell :=
  Outcome.andThen (conj_fails hm h hf hg) fun _ _ hend => Outcome.pure hend

end Combining

/-- A cube of literals of variables fails only for want of a cell, if its literals can be
sorted. -/
theorem mkCube_fails (h : m.HasHistory) {literals : List Literal}
    (hvars : ∀ literal ∈ literals, literal.var ≠ 0) :
    Outcome (mkCube literals) m (fun _ m' => m'.HasHistory)
      (fun fault m' => ¬ Overflows literals → m'.NoCell fault) := by
  have hcarries : Carries HasHistory (fun fault m' => ¬ Overflows literals → m'.NoCell fault)
      (mkCube literals) := by
    by_cases hoverflows : Overflows literals
    · rw [mkCube, if_pos hoverflows]
      exact Carries.throw fun _ _ h => absurd hoverflows h
    rw [mkCube, if_neg hoverflows]
    apply Carries.foldrM
    intro literal hliteral rest
    have hvar := hvars literal ((literals.mergeSort_perm _).mem_iff.1 hliteral)
    apply Carries.ite
    · exact fun _ hm => (mkNode_fails hm hvar _ _).mono (fun _ _ hend => hend) fun _ _ hend _ => hend
    · exact fun _ hm => (mkNode_fails hm hvar _ _).mono (fun _ _ hend => hend) fun _ _ hend _ => hend
  exact hcarries m h

/-- A collection for stored roots does not fail. -/
theorem collect_succeeds (hm : m.Canonical) (h : m.HasHistory) {roots : List Ref}
    (hroots : ∀ r ∈ roots, m.Live r) :
    ∃ dropped m', collect roots m = .ok dropped m' ∧ m'.HasHistory := by
  obtain ⟨alive, hmark, -⟩ := descendants_exact hm.reduced hroots
  obtain ⟨bits, contents, hreached⟩ := h
  obtain ⟨sweep, u, hretain, -⟩ := UniqueTable.retain_run hm.consed alive.contains
  obtain ⟨threshold, hrun⟩ := collect_run hmark hretain
  exact ⟨sweep.dropped, _, hrun, bits, _, hreached.swept alive.contains hretain⟩

end Manager

end SymbolicOmega
