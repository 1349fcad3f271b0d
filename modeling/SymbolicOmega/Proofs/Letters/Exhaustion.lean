import SymbolicOmega.Proofs.Diagram.Exhaustion
import SymbolicOmega.Proofs.Letters.Preservation

/-!
# Letter sets while there are cells

Letter sets of one factory are made, combined and compared at a safe point, where a collection may
fall due, and over new nodes.  The collection does not fail, so an operation on sets that are
there fails only if there is no cell for a node, and then all sets are left as they were.
-/

namespace SymbolicOmega

namespace Factory

open Manager

variable {β : Type} {k : Nat} {f : Factory} {L : List (Ref × Set Assignment)}

/-- The collection that falls due at a safe point does not fail. -/
theorem safePoint_passes (h : f.Holds k L) (hhistory : f.manager.HasHistory) :
    ∃ f', safePoint f = .ok () f' ∧ f'.Holds k L ∧ f'.manager.HasHistory := by
  have hpasses : ∃ f', safePoint f = .ok () f' := by
    have hdue : collectionDue f = .ok f.manager.needsCollection f := rfl
    rw [safePoint, run_bind hdue]
    cases f.manager.needsCollection with
    | false => exact ⟨f, rfl⟩
    | true =>
        have hroots : ∀ r ∈ f.roots.keys, f.manager.Live r := by
          intro r hr
          obtain ⟨entry, hentry, rfl⟩ := List.mem_map.1 (h.held.mem_keys_iff.1 hr)
          exact (h.means entry hentry).1
        obtain ⟨dropped, m, hrun, -⟩ := collect_succeeds h.canonical hhistory hroots
        have hcollect : collect f = .ok dropped { f with manager := m } := by
          simp only [collect, hrun]
        exact ⟨_, run_map hcollect⟩
  obtain ⟨f', hrun⟩ := hpasses
  exact ⟨f', hrun, (safePoint_holds h).of_ok hrun,
    ((steps_of_lasting hasHistory_lasting).safePoint f hhistory).of_ok hrun⟩

/-- The operation fails only if there is no cell for a node. -/
def NeedsCells (x : FactoryM β) (f : Factory) : Prop :=
  Outcome x f (fun _ _ => True) fun fault f' => f'.manager.NoCell fault

theorem onManager_needsCells {x : ManagerM β} {good : β → Manager → Prop}
    (h : Outcome x f.manager good Manager.NoCell) : NeedsCells (onManager x) f :=
  Outcome.imp (onManager_ends h) fun _ _ _ => trivial

theorem safePoint_needsCells {x : FactoryM β} (h : f.Holds k L) (hhistory : f.manager.HasHistory)
    (hx : ∀ f : Factory, f.Holds k L → f.manager.HasHistory → NeedsCells x f) :
    NeedsCells (do safePoint; x) f := by
  obtain ⟨f', hrun, hholds, hhistory'⟩ := safePoint_passes h hhistory
  exact Outcome.bind_ok hrun (hx f' hholds hhistory')

/-- To hold a root takes no cell. -/
theorem holding_needsCells {x : FactoryM Ref} (h : NeedsCells x f) : NeedsCells (holding x) f :=
  Outcome.andThen h fun r f' _ => Outcome.bind_ok (rfl : acquire r f' = _) (Outcome.pure trivial)

theorem cube_needsCells (h : f.Holds k L) (hhistory : f.manager.HasHistory) (letter : BitSet)
    {propositions : List Nat} (hfit : ∀ p ∈ propositions, p < k → p + 1 < 2 ^ 31) :
    NeedsCells (cube letter propositions) f := by
  have hfixed : ∀ p ∈ propositions.filter (· < k), p + 1 < 2 ^ 31 := by
    intro p hp
    obtain ⟨hp, hlt⟩ := List.mem_filter.1 hp
    exact hfit p hp (of_decide_eq_true hlt)
  have hmake : (propositions.filter (· < k)).any (overflows letter) = false :=
    List.any_eq_false.2 fun p hp => Bool.eq_false_iff.1 (overflows_eq_false letter (hfixed p hp))
  have hsort : ¬ Overflows ((propositions.filter (· < k)).map (literal letter)) := by
    rintro ⟨-, hmin⟩
    obtain ⟨p, hp, hliteral⟩ := List.mem_map.1 hmin
    exact literal_ne_minValue letter (hfixed p hp) (congrArg Literal.number hliteral)
  have hvars : ∀ l ∈ (propositions.filter (· < k)).map (literal letter), l.var ≠ 0 := by
    intro l hl hzero
    obtain ⟨p, hp, rfl⟩ := List.mem_map.1 hl
    have hpfit := hfixed p hp
    have hnat := congrArg UInt32.toNat hzero
    rw [literal_var letter hpfit, toNat_variable (by omega)] at hnat
    exact Nat.succ_ne_zero p hnat
  apply Outcome.bind_ok (alphabetSize_run h.alphabet)
  dsimp only
  rw [if_neg (Bool.eq_false_iff.1 hmake)]
  exact onManager_needsCells ((mkCube_fails hhistory hvars).mono (fun _ _ hend => hend)
    fun _ _ hend => hend hsort)

end Factory

/-! ## Workspaces -/

namespace Workspace

/-- The nodes of every factory came to their table by being put there. -/
def HasHistory (w : Workspace) : Prop :=
  w.Managers Manager.HasHistory

/-- The factory at position `i` has no cell for a node. -/
def NoCell (i : Nat) (fault : Fault) (w : Workspace) : Prop :=
  ∃ f, w.factories[i]? = some f ∧ f.manager.NoCell fault

theorem ofFactories_hasHistory {k : Nat} {sizing : Sizing} {f : Factory}
    (hnew : Factory.ofSizing k sizing = .ok f) : (ofFactories [f]).HasHistory := by
  apply ofFactories_managers
  simp only [List.mem_singleton, forall_eq]
  cases hm : Manager.ofSizing sizing with
  | error fault => simp [Factory.ofSizing, hm, bind, Except.bind] at hnew
  | ok m =>
      simp only [Factory.ofSizing, hm, bind, Except.bind, pure, Except.pure,
        Except.ok.injEq] at hnew
      rw [← hnew]
      exact Manager.ofSizing_hasHistory hm

/-- The factory keeps the listed sets, and all nodes have a history. -/
structure Serves (w : Workspace) (i k : Nat) (L : Ledger) : Prop where
  keeps : w.Keeps i k L
  history : w.HasHistory

/-- The listed sets are there, but there was no cell for a node. -/
structure Lacks (i k : Nat) (L : Ledger) (fault : Fault) (w : Workspace) : Prop where
  serves : w.Serves i k L
  noCell : NoCell i fault w

variable {β : Type} {w : Workspace} {i k : Nat} {L L' : Ledger}

theorem Serves.perm (h : w.Serves i k L) (hperm : L.Perm L') : w.Serves i k L' :=
  ⟨h.keeps.perm hperm, h.history⟩

theorem Lacks.perm {fault : Fault} (h : Lacks i k L fault w) (hperm : L.Perm L') :
    Lacks i k L' fault w :=
  ⟨h.serves.perm hperm, h.noCell⟩

/-- An operation in the factory that serves the list fails only for want of a cell if it does so
in the factory. -/
theorem inFactory_needsCells {x : FactoryM β} (h : w.Serves i k L)
    (hx : ∀ f : Factory, f.Holds k L.roots → f.manager.HasHistory → Factory.NeedsCells x f) :
    Outcome (inFactory i x) w (fun _ _ => True) (NoCell i) := by
  obtain ⟨f, hf, hholds⟩ := h.keeps.holds
  have hhistory : f.manager.HasHistory := h.history f (Array.mem_of_getElem? hf)
  exact (inFactory_outcome hf (hx f hholds hhistory)).imp fun _ _ _ => trivial

/-- What is known of the list, of the nodes and of the causes of failure holds together. -/
theorem Serves.ends {x : WorkM β} {good : β → Workspace → Prop} (h : w.Serves i k L)
    (hkeeps : Outcome x w good fun _ w' => w'.Keeps i k L') (hhistory : Upholds HasHistory x)
    (hcells : Outcome x w (fun _ _ => True) (NoCell i)) :
    Outcome x w (fun b w' => good b w' ∧ w'.HasHistory) (Lacks i k L') :=
  ((hkeeps.and (hhistory w h.history)).and hcells).mono (fun _ _ hend => hend.1)
    fun _ _ hend => ⟨⟨hend.1.1, hend.1.2⟩, hend.2⟩

end Workspace

namespace LetterSet

open Workspace

variable {w : Workspace} {i k : Nat} {L : Ledger} {s t : LetterSet} {A B : Set Assignment}

private theorem compare_needsCells {x : ManagerM Bool} (h : w.Serves i k L) (hs : (s, A) ∈ L)
    (ht : (t, B) ∈ L)
    (hx : ∀ m : Manager, m.Canonical → m.HasHistory → m.Live s.root → m.Live t.root →
      Outcome x m (fun _ m' => m'.HasHistory) Manager.NoCell) :
    Outcome (compare s t x) w (fun _ _ => True) (NoCell i) := by
  have hsame : s.owner = t.owner := (h.keeps.owner _ hs).trans (h.keeps.owner _ ht).symm
  apply Outcome.bind_ok (checkOwner_run hsame)
  rw [show s.owner = i from h.keeps.owner _ hs]
  exact inFactory_needsCells h fun f hf hhistory => Factory.safePoint_needsCells hf hhistory
    fun f hf hhistory => Factory.onManager_needsCells
      (hx _ hf.canonical hhistory (means_of_mem hf hs).1 (means_of_mem hf ht).1)

/-- A comparison is answered rightly, unless there is no cell for a node. -/
theorem containsAll_serves (h : w.Serves i k L) (hs : (s, A) ∈ L) (ht : (t, B) ∈ L) :
    Outcome (s.containsAll t) w (fun b w' => w'.Serves i k L ∧ (b = true ↔ B ⊆ A))
      (Lacks i k L) := by
  have hcells := compare_needsCells h hs ht fun _ hm hhistory hsm htm =>
    Manager.implies_fails hm hhistory htm hsm
  exact (h.ends (containsAll_keeps h.keeps hs ht)
    (containsAll_upholds Manager.hasHistory_lasting s t) hcells).imp
      fun _ _ hend => ⟨⟨hend.1.1, hend.2⟩, hend.1.2⟩

/-- Whether two sets share a letter is answered rightly, unless there is no cell for a node. -/
theorem intersects_serves (h : w.Serves i k L) (hs : (s, A) ∈ L) (ht : (t, B) ∈ L) :
    Outcome (s.intersects t) w (fun b w' => w'.Serves i k L ∧ (b = true ↔ (A ∩ B).Nonempty))
      (Lacks i k L) := by
  have hcells : Outcome (s.intersects t) w (fun _ _ => True) (NoCell i) :=
    Outcome.andThen (compare_needsCells h hs ht fun _ hm hhistory hsm htm =>
      Manager.disjoint_fails hm hhistory hsm htm) fun _ _ _ => Outcome.pure trivial
  exact (h.ends (intersects_keeps h.keeps hs ht)
    (intersects_upholds Manager.hasHistory_lasting s t) hcells).imp
      fun _ _ hend => ⟨⟨hend.1.1, hend.2⟩, hend.1.2⟩

theorem empty_serves (h : w.Serves i k L) :
    ∃ s w', empty i w = .ok s w' ∧ w'.Serves i k ((s, ∅) :: L) := by
  obtain ⟨s, w', hrun, hw'⟩ := empty_keeps h.keeps
  have hhistory : Upholds HasHistory (empty i) :=
    make_upholds i (Factory.holding_upholds (Upholds.pure Ref.zero))
  exact ⟨s, w', hrun, hw', (hhistory w h.history).of_ok hrun⟩

theorem all_serves (h : w.Serves i k L) :
    ∃ s w', all i w = .ok s w' ∧ w'.Serves i k ((s, Set.univ) :: L) := by
  obtain ⟨s, w', hrun, hw'⟩ := all_keeps h.keeps
  have hhistory : Upholds HasHistory (all i) :=
    make_upholds i (Factory.holding_upholds (Upholds.pure Ref.one))
  exact ⟨s, w', hrun, hw', (hhistory w h.history).of_ok hrun⟩

theorem copy_serves (h : w.Serves i k L) (hs : (s, A) ∈ L) :
    ∃ s' w', s.copy w = .ok s' w' ∧ w'.Serves i k ((s', A) :: L) := by
  obtain ⟨s', w', hrun, hw'⟩ := copy_keeps h.keeps hs
  exact ⟨s', w', hrun, hw', (copy_upholds s w h.history).of_ok hrun⟩

/-- The letters that agree with a letter are made a set, unless there is no cell for a node. -/
theorem restricted_serves (h : w.Serves i k L) (letter alphabet : BitSet)
    (hfit : ∀ p, alphabet.contains p = true → p < k → p + 1 < 2 ^ 31) :
    Outcome (restricted i letter alphabet) w
      (fun s w' => w'.Serves i k ((s, Set.preimage (letterAt k)
        (agreeing (letter.over k) (alphabet.over k))) :: L))
      (Lacks i k L) := by
  have hcells : Outcome (restricted i letter alphabet) w (fun _ _ => True) (NoCell i) :=
    Outcome.andThen (inFactory_needsCells h fun f hf hhistory => Factory.holding_needsCells
      (Factory.safePoint_needsCells hf hhistory fun f hf hhistory =>
        Factory.cube_needsCells hf hhistory letter
          fun p hp hlt => hfit p (BitSet.mem_toList.1 hp) hlt))
      fun _ _ _ => Outcome.pure trivial
  have hhistory : Upholds HasHistory (restricted i letter alphabet) :=
    make_upholds i ((Factory.steps_of_lasting Manager.hasHistory_lasting).restricted letter
      alphabet).upholds
  exact (h.ends (restricted_keeps h.keeps letter alphabet hfit) hhistory hcells).imp
    fun _ _ hend => ⟨hend.1, hend.2⟩

/-- A listed set can be given back, and that frees no cell. -/
theorem release_serves (h : w.Serves i k ((s, A) :: L)) :
    ∃ w', s.release w = .ok () w' ∧ w'.Serves i k L ∧
      ∀ fault, NoCell i fault w → NoCell i fault w' := by
  obtain ⟨w', hrun, hw'⟩ := release_keeps h.keeps
  have howner : s.owner = i := h.keeps.owner _ List.mem_cons_self
  refine ⟨w', hrun, ⟨hw', (release_upholds s w h.history).of_ok hrun⟩, ?_⟩
  rintro fault ⟨f, hf, hfault⟩
  have hrelease : Outcome s.release w (fun _ w' => NoCell i fault w') fun _ _ => True := by
    rw [release, howner]
    exact (inFactory_outcome hf (Factory.release_upholds (P := fun m => m.NoCell fault) s.root f
      hfault)).mono (fun _ _ hend => hend) fun _ _ _ => trivial
  exact hrelease.of_ok hrun

theorem releaseAll_serves {E : Ledger} (h : w.Serves i k (E ++ L)) :
    ∃ w', releaseAll (E.map Prod.fst) w = .ok () w' ∧ w'.Serves i k L ∧
      ∀ fault, NoCell i fault w → NoCell i fault w' := by
  induction E generalizing w with
  | nil => exact ⟨w, rfl, h, fun _ hfault => hfault⟩
  | cons entry rest ih =>
      obtain ⟨w₁, hrun₁, hw₁, hcells₁⟩ := release_serves h
      obtain ⟨w₂, hrun₂, hw₂, hcells₂⟩ := ih hw₁
      exact ⟨w₂, (run_bind hrun₁).trans hrun₂, hw₂, fun fault hfault =>
        hcells₂ fault (hcells₁ fault hfault)⟩

/-- After a failure, too, listed sets can be given back. -/
theorem release_lacks {fault : Fault} (h : Lacks i k ((s, A) :: L) fault w) :
    ∃ w', s.release w = .ok () w' ∧ Lacks i k L fault w' := by
  obtain ⟨w', hrun, hw', hcells⟩ := release_serves h.serves
  exact ⟨w', hrun, hw', hcells fault h.noCell⟩

theorem releaseAll_lacks {fault : Fault} {E : Ledger} (h : Lacks i k (E ++ L) fault w) :
    ∃ w', releaseAll (E.map Prod.fst) w = .ok () w' ∧ Lacks i k L fault w' := by
  obtain ⟨w', hrun, hw', hcells⟩ := releaseAll_serves h.serves
  exact ⟨w', hrun, hw', hcells fault h.noCell⟩

/-- An operation that failed with one more set in the list gives it back. -/
theorem onFault_release_serves {β : Type} {x : WorkM β} {good : β → Workspace → Prop}
    (h : Outcome x w good (Lacks i k ((s, A) :: L))) :
    Outcome (onFault x s.release) w good (Lacks i k L) := by
  refine onFault_outcome (h.mono (fun _ _ hend => hend) fun _ w₁ hw₁ => ?_)
  obtain ⟨w₂, hrelease, hw₂⟩ := release_lacks hw₁
  exact Outcome.of_run hrelease hw₂

/-! ## Changing -/

/-- A set goes on with a combination of itself and another one, unless there is no cell for a
node. -/
private theorem merge_serves {x : ManagerM Ref} {C : Set Assignment}
    (h : w.Serves i k ((s, A) :: L)) (ht : (t, B) ∈ (s, A) :: L)
    (hkeeps : Outcome (s.merge t x) w (fun s' w' => w'.Keeps i k ((s', C) :: L))
      fun _ w' => w'.Keeps i k ((s, A) :: L))
    (hhistory : Upholds HasHistory (s.merge t x))
    (hbuilds : ∀ f : Factory, f.Holds k (Ledger.roots ((s, A) :: L)) →
      f.Builds k (Ledger.roots ((s, A) :: L)) (Factory.onManager x) C)
    (hfails : ∀ m : Manager, m.Canonical → m.HasHistory → m.Live s.root → m.Live t.root →
      Outcome x m (fun _ m' => m'.HasHistory) Manager.NoCell) :
    Outcome (s.merge t x) w (fun s' w' => w'.Serves i k ((s', C) :: L))
      (Lacks i k ((s, A) :: L)) := by
  have hcells : Outcome (s.merge t x) w (fun _ _ => True) (NoCell i) := by
    have howner : s.owner = i := h.keeps.owner _ List.mem_cons_self
    apply Outcome.bind_ok (checkOwner_run (howner.trans (h.keeps.owner _ ht).symm))
    rw [update, howner]
    refine inFactory_needsCells h fun f hf hhistory => ?_
    have hmakes : f.Makes k (Ledger.roots ((s, A) :: L))
        (do Factory.safePoint; Factory.onManager x) C :=
      Factory.safePoint_makes hf hbuilds
    have hneeds : Factory.NeedsCells (do Factory.safePoint; Factory.onManager x) f :=
      Factory.safePoint_needsCells hf hhistory fun f hf hhistory =>
        Factory.onManager_needsCells (hfails _ hf.canonical hhistory
          (means_of_mem hf List.mem_cons_self).1 (means_of_mem hf ht).1)
    refine Outcome.andThen ((Outcome.and hmakes hneeds).mono (fun _ _ hend => hend.1)
      fun _ _ hend => hend.2) fun new f₁ ⟨hf₁, hnew⟩ => ?_
    obtain ⟨f₂, hreplace, -⟩ := Factory.replace_holds hf₁ hnew
    exact Outcome.bind_ok hreplace (Outcome.pure trivial)
  exact (h.ends hkeeps hhistory hcells).imp fun _ _ hend => ⟨hend.1, hend.2⟩

section Merging
variable (h : w.Serves i k ((s, A) :: L)) (ht : (t, B) ∈ (s, A) :: L)
include h ht

/-- The letters of another set are added, unless there is no cell for a node. -/
theorem addAll_serves :
    Outcome (s.addAll t) w (fun s' w' => w'.Serves i k ((s', A ∪ B) :: L))
      (Lacks i k ((s, A) :: L)) :=
  merge_serves h ht (addAll_keeps h.keeps ht) (merge_upholds Manager.hasHistory_lasting s t _ _ _)
    (fun _ hf => Factory.disj_builds hf (means_of_mem hf List.mem_cons_self) (means_of_mem hf ht))
    fun _ hm hhistory => Manager.disj_fails hm hhistory

/-- The letters of another set are taken out, unless there is no cell for a node. -/
theorem removeAll_serves :
    Outcome (s.removeAll t) w (fun s' w' => w'.Serves i k ((s', A \ B) :: L))
      (Lacks i k ((s, A) :: L)) :=
  merge_serves h ht (removeAll_keeps h.keeps ht)
    (merge_upholds Manager.hasHistory_lasting s t _ _ _)
    (fun _ hf => Factory.diff_builds hf (means_of_mem hf List.mem_cons_self) (means_of_mem hf ht))
    fun _ hm hhistory => Manager.diff_fails hm hhistory

/-- Only the letters of another set are kept, unless there is no cell for a node. -/
theorem retainAll_serves :
    Outcome (s.retainAll t) w (fun s' w' => w'.Serves i k ((s', A ∩ B) :: L))
      (Lacks i k ((s, A) :: L)) :=
  merge_serves h ht (retainAll_keeps h.keeps ht)
    (merge_upholds Manager.hasHistory_lasting s t _ _ _)
    (fun _ hf => Factory.conj_builds hf (means_of_mem hf List.mem_cons_self) (means_of_mem hf ht))
    fun _ hm hhistory => Manager.conj_fails hm hhistory

end Merging

/-- The other set is given back at either end. -/
theorem absorb_serves (h : w.Serves i k ((s, A) :: (t, B) :: L)) :
    Outcome (s.absorb t) w (fun s' w' => w'.Serves i k ((s', A ∪ B) :: L))
      (Lacks i k ((s, A) :: L)) := by
  have ht : (t, B) ∈ (s, A) :: (t, B) :: L := List.mem_cons_of_mem _ List.mem_cons_self
  refine Outcome.tryFinally ((addAll_serves h ht).mono (fun s' w' hw' => ?_) fun _ w' hw' => ?_)
  · obtain ⟨w₁, hrun, hw₁, -⟩ := release_serves (hw'.perm (.swap ..))
    exact Outcome.of_run hrun hw₁
  · obtain ⟨w₁, hrun, hw₁⟩ := release_lacks (hw'.perm (.swap ..))
    exact Outcome.of_run hrun hw₁

/-- A changed copy is added to the list, or given back if the change fails. -/
private theorem changed_serves {change : LetterSet → WorkM LetterSet} (h : w.Serves i k L)
    (hs : (s, A) ∈ L)
    (hchange : ∀ {w : Workspace} {s' : LetterSet}, w.Serves i k ((s', A) :: L) →
      Outcome (change s') w (fun u w' => w'.Serves i k ((u, B) :: L))
        (Lacks i k ((s', A) :: L))) :
    Outcome (s.changed change) w (fun u w' => w'.Serves i k ((u, B) :: L)) (Lacks i k L) := by
  obtain ⟨s', w₁, hcopy, hw₁⟩ := copy_serves h hs
  exact Outcome.bind_ok hcopy (onFault_release_serves (hchange hw₁))

theorem intersection_serves (h : w.Serves i k L) (hs : (s, A) ∈ L) (ht : (t, B) ∈ L) :
    Outcome (s.intersection t) w (fun u w' => w'.Serves i k ((u, A ∩ B) :: L)) (Lacks i k L) :=
  changed_serves h hs fun hw => retainAll_serves hw (List.mem_cons_of_mem _ ht)

theorem difference_serves (h : w.Serves i k L) (hs : (s, A) ∈ L) (ht : (t, B) ∈ L) :
    Outcome (s.difference t) w (fun u w' => w'.Serves i k ((u, A \ B) :: L)) (Lacks i k L) :=
  changed_serves h hs fun hw => removeAll_serves hw (List.mem_cons_of_mem _ ht)

end LetterSet

end SymbolicOmega
