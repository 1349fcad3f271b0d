import SymbolicOmega.Proofs.Diagram.Exhaustion
import SymbolicOmega.Proofs.Diagram.Runs

/-!
# If-then-else comes to an end

The steps of if-then-else take effort off the triple, so more nested steps than its effort make
no difference.  As long as no operation has failed a table has not refused a cell, and then the
one reason for which if-then-else fails is that the table is full.
-/

namespace SymbolicOmega

namespace UniqueTable

variable {α : Type} {t u : UniqueTable α} {index : Nat}

/-- The last cell that was asked for is the last one there is. -/
def Unrefused (t : UniqueTable α) : Prop :=
  t.lastIndex + 1 = t.cells.size

theorem updateCell_unrefused (index : Nat) (change : Cell α → Cell α) :
    Upholds Unrefused (updateCell index change) := by
  intro t ht
  unfold Outcome updateCell
  cases t.cell index with
  | error fault => exact ht
  | ok c => simpa [Unrefused] using ht

theorem setHead_unrefused (bucket index : Nat) :
    Upholds (Unrefused (α := α)) (setHead bucket index) := fun _ ht => ht

theorem drop_unrefused (index : Nat) : Upholds (Unrefused (α := α)) (drop index) := by
  intro t ht
  unfold Outcome drop
  cases t.cell index with
  | error fault => exact ht
  | ok c => cases hoccupied : c.occupied <;> simpa [hoccupied, Unrefused] using ht

/-- A sweep asks for no cell. -/
theorem retain_unrefused (keep : Nat → Bool) : Upholds (Unrefused (α := α)) (retain keep) :=
  retain_upholds drop_unrefused (fun index _ => updateCell_unrefused index _) setHead_unrefused keep

section Putting
variable [Inhabited α]

/-- The search for a free cell stays within the table, so it ends with a cell or with a refusal. -/
theorem alloc_unrefused :
    Carries (Unrefused (α := α)) (fun fault _ => fault = .storageFull) alloc := by
  intro t ht
  obtain ⟨stop, hle, -, hend⟩ :=
    firstFree?_passes t.cells t.minFree (t.lastIndex + 1 - t.minFree)
  rw [Unrefused] at ht
  unfold Outcome alloc
  cases hfound : firstFree? t.cells t.minFree (t.lastIndex + 1 - t.minFree) with
  | error fault =>
      rw [hfound] at hend
      omega
  | ok found =>
      dsimp only
      by_cases hfull : t.capacity ≤ found.getD (t.lastIndex + 1)
      · simp only [hfull, if_true]
      · simp only [hfull, if_false]
        cases found with
        | none => simp [Unrefused, ht]
        | some index =>
            obtain ⟨c, hcell, -⟩ := firstFree?_eq_some hfound
            have hlt : index < t.cells.size := (Array.getElem?_eq_some_iff.1 hcell).1
            simpa [Unrefused, hlt] using ht

/-- A new table has the sentry alone, and asked for no other cell. -/
theorem ofBits_unrefused {bits : Nat} (h : ofBits bits = .ok t) :
    t.Unrefused ∧ t.capacity = 1 <<< bits := by
  rw [ofBits] at h
  split at h
  · cases h
    exact ⟨rfl, rfl⟩
  · cases h

variable [DecidableEq α] [Hashable α]

/-- Whatever its chains are like, a table that answered refused no cell meanwhile. -/
theorem put_unrefused (v : α) : Carries (Unrefused (α := α)) (fun _ _ => True) (put v) := by
  have hanswers : ∀ {β : Type} {x : TableM α β}, Upholds Unrefused x →
      Carries Unrefused (fun _ _ => True) x :=
    fun hx t ht => (hx t ht).mono (fun _ _ hend => hend) fun _ _ _ => trivial
  have halloc : Carries (Unrefused (α := α)) (fun _ _ => True) alloc := fun t ht =>
    (alloc_unrefused t ht).mono (fun _ _ hend => hend) fun _ _ _ => trivial
  have hadd : Carries (Unrefused (α := α)) (fun _ _ => True) (add v) :=
    halloc.bind fun index =>
      (hanswers (updateCell_unrefused index _)).bind fun _ => Carries.pure index
  exact put_carries v (fun _ _ _ _ => trivial) hadd
    (fun index _ => hanswers (updateCell_unrefused index _))
    fun bucket index => hanswers (setHead_unrefused bucket index)

/-- Putting a value into a table with its chains in order fails for no other reason than that
the table is full, and the index it answers is within the table. -/
theorem put_fails {loose : Nat → Prop} (ht : t.Consed loose) (h : t.Unrefused) (v : α) :
    Outcome (put v) t
      (fun index u => u.Unrefused ∧ u.capacity = t.capacity ∧ index < t.capacity)
      fun fault _ => fault = .storageFull := by
  have hput : Outcome (put v) t (fun _ u => u.Unrefused) fun fault _ => fault = .storageFull := by
    refine put_links ht v (fun _ _ _ => h) fun _ => ?_
    have halloc := (alloc_outcome ht.layout).and (alloc_unrefused t h)
    refine Outcome.bind (halloc.mono ?_ fun _ _ hend => hend.2)
    rintro index u ⟨htaken, hu⟩
    obtain ⟨c, hcell, -⟩ := htaken.occupied
    have hwrite : ∃ w, updateCell index (fun cell => { cell with value := v, next := 0 }) u =
        .ok () w := by
      simp [updateCell, cell, htaken.pos, hcell]
    obtain ⟨w, hrun⟩ := hwrite
    have hw : w.Unrefused := (updateCell_unrefused index _ u hu).of_ok hrun
    refine Outcome.bind_ok hrun (Outcome.pure ?_)
    rintro w' (⟨bucket, hset⟩ | ⟨last, hset⟩)
    · exact (setHead_unrefused bucket index w hw).of_ok hset
    · exact (updateCell_unrefused last _ w hw).of_ok hset
  apply ((put_outcome (v := v) ht).and (hput.and (put_capacity v t rfl))).mono
  · rintro index u ⟨hstored, hunrefused, hcapacity⟩
    have hsize := hstored.consed.layout.size_le
    have hindex := lt_size_of_stored hstored.stored
    exact ⟨hunrefused, hcapacity, by omega⟩
  · exact fun _ _ hend => hend.2.1

end Putting

end UniqueTable

namespace Manager

variable {m m' : Manager} {t : Triple} {bound bound' : Nat}

/-! ## Runs without a failure -/

/-- A table of this many cells that refused none. -/
def Roomy (capacity : Nat) (m : Manager) : Prop :=
  m.nodes.Unrefused ∧ m.nodes.capacity = capacity

theorem computes_roomy (capacity : Nat) : Computes (Roomy capacity) fun _ _ => True where
  toMakesNodes := .of_put (fun _ _ _ _ => trivial) fun node _ hm => onNodes_outcome <|
    ((UniqueTable.put_unrefused node _ hm.1).and (UniqueTable.put_capacity node _ hm.2)).mono
      (fun _ _ hend => hend) fun _ _ _ => trivial
  computed _ _ hm := hm

theorem collect_roomy {capacity : Nat} (hm : Roomy capacity m) (roots : List Ref) :
    Outcome (collect roots) m (fun _ m' => Roomy capacity m') fun _ _ => True := by
  have hretain : ∀ keep, Upholds (fun t => t.Unrefused ∧ t.capacity = capacity)
      (UniqueTable.retain keep : TableM Node UniqueTable.Sweep) := fun keep t ht =>
    (UniqueTable.retain_unrefused keep t ht.1).and (UniqueTable.retain_capacity keep t ht.2)
  exact (collect_upholds hretain roots m hm).mono (fun _ _ hend => hend) fun _ _ _ => trivial

/-- While no operation has failed the table has refused no cell. -/
theorem Run.roomy {sizing : Sizing} {faults : List Fault} (h : Run sizing faults m)
    (hnone : faults = []) : Roomy (1 <<< sizing.storageBits) m := by
  induction h with
  | new hnew =>
      obtain ⟨t, u, index, computed, hbits, halloc, -, rfl⟩ := ofSizing_eq_ok hnew
      obtain ⟨hunrefused, hcapacity⟩ := UniqueTable.ofBits_unrefused hbits
      exact ⟨(UniqueTable.alloc_unrefused t hunrefused).of_ok halloc,
        (UniqueTable.alloc_capacity t hcapacity).of_ok halloc⟩
  | answered call _ _ hrun ih =>
      have hend : Outcome call.perform _ (fun _ m' => Roomy (1 <<< sizing.storageBits) m')
          fun _ _ => True :=
        (computes_roomy _).perform (ih hnone) fun roots _ => collect_roomy (ih hnone) roots
      exact hend.of_ok hrun
  | failed => cases hnone

/-- More nested steps than the effort of a triple make no difference. -/
theorem iteWithin_eq_of_effort_le (hm : m.Canonical) (ht : m.Operands t)
    (hbound : m.effort t ≤ bound) (hbound' : m.effort t ≤ bound') :
    iteWithin bound t m = iteWithin bound' t m := by
  induction bound generalizing bound' m t with
  | zero => exact absurd hbound (Nat.not_succ_le_zero _)
  | succ bound ih =>
      obtain ⟨bound', rfl⟩ : ∃ n, bound' = n + 1 :=
        Nat.exists_eq_succ_of_ne_zero (Nat.ne_of_gt (Nat.lt_of_lt_of_le (Nat.succ_pos _) hbound'))
      rw [iteWithin_succ hm.reduced ht, iteWithin_succ hm.reduced ht]
      cases hphase : m.phase t with
      | answer r => rfl
      | again t' =>
          obtain ⟨ht', hlt⟩ := phase_again hm.reduced ht hphase
          exact ih hm ht' (Nat.le_of_lt_succ (Nat.lt_of_lt_of_le hlt hbound))
            (Nat.le_of_lt_succ (Nat.lt_of_lt_of_le hlt hbound'))
      | split v =>
          have hkey := (regular_choice hm.reduced ht).1
          have hfirst := (phase_split hm.reduced ht hphase).trans (firstRank_regular t).symm
          suffices hresolve : resolve bound v t.regular.1 m = resolve bound' v t.regular.1 m by
            simp only [map_eq_pure_bind]
            exact run_bind_congr hresolve fun _ _ _ => rfl
          cases hfound : m.computed.find? t.regular.1 with
          | some r => rw [resolve_of_find? bound hfound, resolve_of_find? bound' hfound]
          | none =>
              have hlooked : m.Extends (m.lookedUp t.regular.1) := Extends.of_nodes_eq rfl
              have hm₁ : (m.lookedUp t.regular.1).Canonical :=
                (Outcome.of_ok (lookup_grows hm t.regular.1) (onComputed_run _ m)).1
              have hkey₁ := hkey.extends hlooked
              have hfirst₁ := hfirst.trans (hlooked.firstRank hkey).symm
              have hhalf := halves_operands hm₁.reduced hkey₁ hfirst₁
              have heffort : (m.lookedUp t.regular.1).effort t.regular.1 = m.effort t :=
                (hlooked.effort hkey).trans (effort_regular t)
              rw [resolve_of_miss bound hfound, resolve_of_miss bound' hfound,
                splitAt_eq hm₁.reduced hkey₁ hfirst₁, splitAt_eq hm₁.reduced hkey₁ hfirst₁]
              -- either half takes less effort than the whole, in whatever state it is answered
              have hstep : ∀ {m₂ : Manager} (bit : Bool), m₂.Canonical →
                  (m.lookedUp t.regular.1).Extends m₂ →
                  iteWithin bound ((m.lookedUp t.regular.1).halves bit v t.regular.1) m₂ =
                    iteWithin bound' ((m.lookedUp t.regular.1).halves bit v t.regular.1) m₂ := by
                intro m₂ bit hm₂ hextends
                obtain ⟨hoperands, hlt⟩ := hhalf bit
                have hsame := hextends.effort hoperands
                exact ih hm₂ (hoperands.extends hextends) (by omega) (by omega)
              refine run_bind_congr (hstep false hm₁ (Extends.refl _)) fun low m₂ hlow => ?_
              obtain ⟨hm₂, hextends, -⟩ :=
                (iteWithin_grows bound hm₁ (hhalf false).1).of_ok hlow
              exact run_bind_congr (hstep true hm₂ hextends) fun _ _ _ => rfl

/-! ## The one reason to fail -/

private theorem storeNode_roomy {capacity : Nat} (hm : m.Canonical) (h : Roomy capacity m)
    (hcapacity : capacity ≤ 2 ^ 30) (v : UInt32) (low high : Ref) :
    Outcome (storeNode v low high) m (fun _ m' => Roomy capacity m')
      fun fault _ => fault = .storageFull := by
  rw [storeNode]
  by_cases hsame : low = high
  · rw [if_pos hsame]
    exact Outcome.pure h
  rw [if_neg hsame]
  refine Outcome.bind ((onNodes_outcome (UniqueTable.put_fails hm.consed h.1 _)).mono ?_
    fun _ _ hend => hend)
  rintro index m' ⟨hunrefused, hsame, hindex⟩
  have hlt : index < Ref.indexLimit := by
    rw [Ref.indexLimit]
    rw [h.2] at hindex
    omega
  simp only [Ref.ofIndex?, hlt, if_true]
  exact Outcome.pure ⟨hunrefused, hsame.trans h.2⟩

private theorem mkNode_roomy {capacity : Nat} (hm : m.Canonical) (h : Roomy capacity m)
    (hcapacity : capacity ≤ 2 ^ 30) {v : UInt32} (hv : v ≠ 0) (low high : Ref) :
    Outcome (mkNode v low high) m (fun _ m' => Roomy capacity m')
      fun fault _ => fault = .storageFull := by
  rw [mkNode, if_neg hv]
  by_cases hnegated : high.negated = true
  · rw [if_pos hnegated]
    exact Outcome.andThen (storeNode_roomy hm h hcapacity v _ _) fun _ _ hend => Outcome.pure hend
  · rw [if_neg hnegated]
    exact storeNode_roomy hm h hcapacity v low high

/-- If-then-else comes to an end, and fails only if the table is full.  After any run without a
failure that left a reduced and ordered diagram, in a table of at most `2 ^ 30` cells, if-then-else
of references that are not dangling answers or says that the storage is full, and it would do
just the same with any bound on its nested steps that is not below the effort of the triple. -/
theorem ite_terminates {sizing : Sizing} {f g h : Ref} (hrun : Run sizing [] m)
    (hbits : sizing.storageBits ≤ 30) (hm : m.Reduced) (hf : m.Live f) (hg : m.Live g)
    (hh : m.Live h) :
    Outcome (ite f g h) m (fun _ _ => True) (fun fault _ => fault = .storageFull) ∧
      ∀ bound, m.effort ⟨f, g, h⟩ ≤ bound → iteWithin bound ⟨f, g, h⟩ m = ite f g h m := by
  have hcanonical := hrun.sound.canonical hm
  have ht : m.Operands ⟨f, g, h⟩ := ⟨hf, hg, hh⟩
  have hcapacity : 1 <<< sizing.storageBits ≤ 2 ^ 30 := by
    rw [Nat.one_shiftLeft]
    exact Nat.pow_le_pow_right (by omega) hbits
  refine ⟨?_, fun bound hbound => ?_⟩
  · refine (ite_fails (I := Roomy (1 <<< sizing.storageBits)) (fun _ h => h) ?_ hcanonical
      (hrun.roomy rfl) ht).imp fun _ _ _ => trivial
    intro m v low high hm h hv
    exact mkNode_roomy hm h hcapacity hv low high
  · exact iteWithin_eq_of_effort_le hcanonical ht hbound (effort_le_stepBound hm ht)

/-- The theorem at the exclusive or of two variables. -/
theorem pair_terminates :
    Run ⟨3, 2, 5⟩ [] pair ∧ pair.Reduced ∧
      Outcome (ite ⟨2, false⟩ ⟨3, true⟩ ⟨3, false⟩) pair (fun _ _ => True)
        (fun fault _ => fault = .storageFull) ∧
      iteWithin (pair.effort ⟨⟨2, false⟩, ⟨3, true⟩, ⟨3, false⟩⟩)
        ⟨⟨2, false⟩, ⟨3, true⟩, ⟨3, false⟩⟩ pair = ite ⟨2, false⟩ ⟨3, true⟩ ⟨3, false⟩ pair := by
  obtain ⟨hrun, hreduced⟩ := pair_run
  have htheorem := ite_terminates hrun (by decide) hreduced (pair_live false).1 (pair_live true).2
    (pair_live false).2
  exact ⟨hrun, hreduced, htheorem.1, htheorem.2 _ (Nat.le_refl _)⟩

end Manager

end SymbolicOmega
