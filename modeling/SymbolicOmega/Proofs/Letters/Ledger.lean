import SymbolicOmega.Proofs.Letters.Holding

/-!
# The ledger of a factory

The sets that are live in a workspace are listed with what they mean.  Each operation
adds the sets it makes, strikes out those it gives back and leaves the rest as listed,
whether or not a collection runs on the way, and also when it fails.
-/

namespace SymbolicOmega

/-- Sets of one factory beside the assignments that belong to them. -/
abbrev Ledger := List (LetterSet × Set Assignment)

/-- The roots of the listed sets. -/
def Ledger.roots (L : Ledger) : List (Ref × Set Assignment) :=
  L.map fun entry => (entry.1.root, entry.2)

namespace Workspace

/-- The factory at position `i`, over `k` propositions, has exactly the listed sets. -/
structure Keeps (w : Workspace) (i k : Nat) (L : Ledger) : Prop where
  owner : ∀ entry ∈ L, entry.1.owner = i
  holds : ∃ f, w.factories[i]? = some f ∧ f.Holds k L.roots

variable {w : Workspace} {i k : Nat} {L L' : Ledger}

theorem Keeps.perm (h : w.Keeps i k L) (hperm : L.Perm L') : w.Keeps i k L' := by
  obtain ⟨f, hf, hholds⟩ := h.holds
  exact ⟨fun entry hentry => h.owner entry (hperm.mem_iff.2 hentry), f, hf,
    hholds.perm (hperm.map _)⟩

/-- Only the factory matters. -/
theorem Keeps.of_factory {w' : Workspace} (h : w.Keeps i k L)
    (hw : w'.factories[i]? = w.factories[i]?) : w'.Keeps i k L :=
  ⟨h.owner, hw ▸ h.holds⟩

/-! ## Operations in a factory -/

section InFactory
variable {β : Type} {f f' : Factory} {x : FactoryM β}

private theorem swapAt_factories (hf : w.factories[i]? = some f) :
    ∃ h : i < w.factories.size, (w.factories.swapAt i default h).1 = f ∧
      ∀ g, ((w.factories.swapAt i default h).2.setIfInBounds i g)[i]? = some g := by
  obtain ⟨h, hget⟩ := Array.getElem?_eq_some_iff.1 hf
  exact ⟨h, by simpa [Array.swapAt] using hget, fun g => by simp [Array.swapAt, h]⟩

theorem inFactory_ok (hf : w.factories[i]? = some f) {b : β} (hrun : x f = .ok b f') :
    ∃ w', inFactory i x w = .ok b w' ∧ w'.factories[i]? = some f' := by
  obtain ⟨h, hfirst, hrest⟩ := swapAt_factories hf
  rw [inFactory]
  simp only [h, dif_pos, hfirst, hrun]
  exact ⟨_, rfl, hrest f'⟩

/-- What holds at either end in the factory holds at either end in the workspace. -/
theorem inFactory_outcome {good : β → Factory → Prop} {bad : Fault → Factory → Prop}
    (hf : w.factories[i]? = some f) (hx : Outcome x f good bad) :
    Outcome (inFactory i x) w (fun b w' => ∃ f', w'.factories[i]? = some f' ∧ good b f')
      (fun fault w' => ∃ f', w'.factories[i]? = some f' ∧ bad fault f') := by
  obtain ⟨h, hfirst, hrest⟩ := swapAt_factories hf
  unfold Outcome inFactory
  simp only [h, dif_pos, hfirst]
  cases hrun : x f with
  | ok b f' => exact ⟨f', hrest f', hx.of_ok hrun⟩
  | error fault f' => exact ⟨f', hrest f', hx.of_error hrun⟩

theorem askFactory_run (hf : w.factories[i]? = some f) {question : Factory → Except Fault β} {b : β}
    (hanswer : question f = .ok b) : askFactory i question w = .ok b w := by
  simp only [askFactory, hf, hanswer]

/-- A question changes nothing, whether it is answered or not. -/
theorem askFactory_upholds {P : Workspace → Prop} (i : Nat)
    (question : Factory → Except Fault β) : Upholds P (askFactory i question) := by
  intro w hw
  unfold Outcome askFactory
  cases w.factories[i]? with
  | none => exact hw
  | some f =>
      dsimp only
      cases question f with
      | ok b => exact hw
      | error fault => exact hw

end InFactory

/-- A cleanup is run after a fault only. -/
theorem onFault_outcome {β : Type} {x : WorkM β} {cleanup : WorkM Unit}
    {good : β → Workspace → Prop} {bad : Fault → Workspace → Prop}
    (h : Outcome x w good fun fault w' => Outcome cleanup w' (fun _ w'' => bad fault w'') bad) :
    Outcome (onFault x cleanup) w good bad :=
  Outcome.tryCatch (Outcome.mono h (fun _ _ hend => hend) fun _ _ hend =>
    Outcome.bind (Outcome.mono hend (fun _ _ hbad => Outcome.throw hbad) fun _ _ hbad => hbad))

end Workspace

namespace LetterSet

open Workspace

variable {w : Workspace} {i k : Nat} {L : Ledger} {s t : LetterSet} {A B : Set Assignment}

/-- A new set is added to the list. -/
theorem make_keeps {x : FactoryM Ref} (h : w.Keeps i k L)
    (hx : ∀ f : Factory, f.Holds k L.roots → Outcome x f
      (fun r f' => f'.Holds k ((r, A) :: L.roots)) (fun _ f' => f'.Holds k L.roots)) :
    Outcome (make i x) w (fun s w' => w'.Keeps i k ((s, A) :: L))
      (fun _ w' => w'.Keeps i k L) := by
  obtain ⟨f, hf, hholds⟩ := h.holds
  refine Outcome.bind ((inFactory_outcome hf (hx f hholds)).mono ?_ ?_)
  · rintro r w' ⟨f', hf', hholds'⟩
    exact Outcome.pure ⟨List.forall_mem_cons.2 ⟨rfl, h.owner⟩, f', hf', hholds'⟩
  · rintro fault w' ⟨f', hf', hholds'⟩
    exact ⟨h.owner, f', hf', hholds'⟩

/-- A root that is there already is held without fail. -/
private theorem make_pure_keeps {root : Ref} (h : w.Keeps i k L)
    (hroot : ∀ f : Factory, f.Holds k L.roots → f.manager.Means root A) :
    ∃ s w', make i (Factory.holding (pure root)) w = .ok s w' ∧ w'.Keeps i k ((s, A) :: L) := by
  obtain ⟨f, hf, hholds⟩ := h.holds
  obtain ⟨f', hacquire, hholds'⟩ := Factory.acquire_holds hholds (hroot f hholds)
  have hrun : Factory.holding (pure root) f = .ok root f' := by
    change ((do Factory.acquire root; return root) : FactoryM Ref) f = _
    rw [run_bind hacquire]
    rfl
  obtain ⟨w', hw', hf'⟩ := inFactory_ok hf hrun
  exact ⟨⟨i, root⟩, w', run_bind hw', List.forall_mem_cons.2 ⟨rfl, h.owner⟩, f', hf', hholds'⟩

theorem empty_keeps (h : w.Keeps i k L) :
    ∃ s w', empty i w = .ok s w' ∧ w'.Keeps i k ((s, ∅) :: L) :=
  make_pure_keeps h fun _ hf => Manager.means_zero hf.canonical.reduced

theorem all_keeps (h : w.Keeps i k L) :
    ∃ s w', all i w = .ok s w' ∧ w'.Keeps i k ((s, Set.univ) :: L) :=
  make_pure_keeps h fun _ hf => Manager.means_one hf.canonical.reduced

/-- What a listed set means is what its root means. -/
theorem means_of_mem {f : Factory} (hf : f.Holds k L.roots) (hs : (s, A) ∈ L) :
    f.manager.Means s.root A :=
  hf.means (s.root, A) (List.mem_map_of_mem hs)

theorem copy_keeps (h : w.Keeps i k L) (hs : (s, A) ∈ L) :
    ∃ s' w', s.copy w = .ok s' w' ∧ w'.Keeps i k ((s', A) :: L) := by
  have howner := h.owner _ hs
  dsimp only at howner
  subst howner
  exact make_pure_keeps h fun _ hf => means_of_mem hf hs

theorem complement_keeps (h : w.Keeps i k L) (hs : (s, A) ∈ L) :
    ∃ s' w', s.complement w = .ok s' w' ∧ w'.Keeps i k ((s', Aᶜ) :: L) := by
  have howner := h.owner _ hs
  dsimp only at howner
  subst howner
  exact make_pure_keeps h fun _ hf => (means_of_mem hf hs).neg hf.canonical.reduced

/-- A listed set can be given back. -/
theorem release_keeps (h : w.Keeps i k ((s, A) :: L)) :
    ∃ w', s.release w = .ok () w' ∧ w'.Keeps i k L := by
  obtain ⟨rfl, howner⟩ := List.forall_mem_cons.1 h.owner
  obtain ⟨f, hf, hholds⟩ := h.holds
  obtain ⟨f', hrelease, hholds'⟩ := Factory.release_holds hholds
  obtain ⟨w', hw', hf'⟩ := inFactory_ok hf hrelease
  exact ⟨w', hw', howner, f', hf', hholds'⟩

/-- An operation that failed with one more set in the list gives it back. -/
theorem onFault_release_keeps {β : Type} {x : WorkM β} {good : β → Workspace → Prop}
    (h : Outcome x w good fun _ w' => w'.Keeps i k ((s, A) :: L)) :
    Outcome (onFault x s.release) w good fun _ w' => w'.Keeps i k L := by
  refine onFault_outcome (h.mono (fun _ _ hend => hend) fun _ w₁ hw₁ => ?_)
  obtain ⟨w₂, hrelease, hw₂⟩ := release_keeps hw₁
  exact Outcome.of_run hrelease hw₂

/-- A collection between two operations keeps every set. -/
theorem collect_keeps (h : w.Keeps i k L) :
    Outcome (inFactory i Factory.collect) w (fun _ w' => w'.Keeps i k L)
      (fun _ w' => w'.Keeps i k L) := by
  obtain ⟨f, hf, hholds⟩ := h.holds
  refine (inFactory_outcome hf (Factory.collect_holds hholds)).mono ?_ ?_
  · rintro dropped w' ⟨f', hf', hholds'⟩
    exact ⟨h.owner, f', hf', hholds'⟩
  · rintro fault w' ⟨f', hf', hholds'⟩
    exact ⟨h.owner, f', hf', hholds'⟩

theorem contains_run (h : w.Keeps i k L) (hs : (s, A) ∈ L) (letter : BitSet) :
    ∃ b, s.contains letter w = .ok b w ∧ (b = true ↔ letter.assignment ∈ A) := by
  have howner := h.owner _ hs
  dsimp only at howner
  subst howner
  obtain ⟨f, hf, hholds⟩ := h.holds
  obtain ⟨b, hb, hmem⟩ := (means_of_mem hholds hs).holdsIn hholds.canonical.reduced letter
  exact ⟨b, askFactory_run hf hb, hmem⟩

theorem contains_iff (h : w.Keeps i k L) (hs : (s, A) ∈ L) (letter : BitSet) :
    s.contains letter w = .ok true w ↔ letter.assignment ∈ A := by
  obtain ⟨b, hb, hmem⟩ := contains_run h hs letter
  rw [hb, ← hmem, EStateM.Result.ok.injEq, and_iff_left rfl]

theorem eq_iff (h : w.Keeps i k L) (hs : (s, A) ∈ L) (ht : (t, B) ∈ L) : s = t ↔ A = B := by
  obtain ⟨f, -, hholds⟩ := h.holds
  have howner : s.owner = t.owner := (h.owner _ hs).trans (h.owner _ ht).symm
  rw [← (means_of_mem hholds hs).eq_iff hholds.canonical.reduced (means_of_mem hholds ht)]
  rcases s with ⟨owner, root⟩
  rcases t with ⟨owner', root'⟩
  dsimp only at howner
  subst howner
  simp

theorem isEmpty_iff (h : w.Keeps i k L) (hs : (s, A) ∈ L) : s.isEmpty = true ↔ A = ∅ := by
  obtain ⟨f, -, hholds⟩ := h.holds
  rw [isEmpty, decide_eq_true_iff]
  exact (means_of_mem hholds hs).eq_iff hholds.canonical.reduced
    (Manager.means_zero hholds.canonical.reduced)

theorem isAll_iff (h : w.Keeps i k L) (hs : (s, A) ∈ L) : s.isAll = true ↔ A = Set.univ := by
  obtain ⟨f, -, hholds⟩ := h.holds
  rw [isAll, decide_eq_true_iff]
  exact (means_of_mem hholds hs).eq_iff hholds.canonical.reduced
    (Manager.means_one hholds.canonical.reduced)

theorem checkOwner_run (hsame : s.owner = t.owner) : checkOwner s t w = .ok () w := by
  simp only [checkOwner, hsame, if_true]
  rfl

/-- A comparison keeps every set and answers rightly. -/
private theorem compare_keeps {x : ManagerM Bool} {P : Prop} (h : w.Keeps i k L)
    (hs : (s, A) ∈ L) (ht : (t, B) ∈ L)
    (hx : ∀ m : Manager, m.Canonical → m.Means s.root A → m.Means t.root B →
      m.Grows x fun b _ => b = true ↔ P) :
    Outcome (compare s t x) w (fun b w' => w'.Keeps i k L ∧ (b = true ↔ P))
      (fun _ w' => w'.Keeps i k L) := by
  have hsame : s.owner = t.owner := (h.owner _ hs).trans (h.owner _ ht).symm
  have howner := h.owner _ hs
  dsimp only at howner
  subst howner
  obtain ⟨f, hf, hholds⟩ := h.holds
  have hcompare : Outcome (do Factory.safePoint; Factory.onManager x) f
      (fun b f' => f'.Holds k L.roots ∧ (b = true ↔ P)) (fun _ f' => f'.Holds k L.roots) := by
    apply Outcome.andThen (Factory.safePoint_holds hholds)
    intro _ f₁ hf₁
    exact (Factory.onManager_outcome hf₁ (hx _ hf₁.canonical (means_of_mem hf₁ hs)
      (means_of_mem hf₁ ht))).imp fun _ _ hend => ⟨hend.1, hend.2.2⟩
  refine Outcome.bind_ok (checkOwner_run hsame) ((inFactory_outcome hf hcompare).mono ?_ ?_)
  · rintro b w' ⟨f', hf', hholds', hanswer⟩
    exact ⟨⟨h.owner, f', hf', hholds'⟩, hanswer⟩
  · rintro fault w' ⟨f', hf', hholds'⟩
    exact ⟨h.owner, f', hf', hholds'⟩

theorem containsAll_keeps (h : w.Keeps i k L) (hs : (s, A) ∈ L) (ht : (t, B) ∈ L) :
    Outcome (s.containsAll t) w (fun b w' => w'.Keeps i k L ∧ (b = true ↔ B ⊆ A))
      (fun _ w' => w'.Keeps i k L) := by
  refine compare_keeps h hs ht fun m hm hsm htm =>
    (Manager.implies_grows hm htm.1 hsm.1).mono fun b _ _ _ hb => ?_
  simp only [hb, hsm.2, htm.2]
  rfl

theorem intersects_keeps (h : w.Keeps i k L) (hs : (s, A) ∈ L) (ht : (t, B) ∈ L) :
    Outcome (s.intersects t) w (fun b w' => w'.Keeps i k L ∧ (b = true ↔ (A ∩ B).Nonempty))
      (fun _ w' => w'.Keeps i k L) := by
  have hdisjoint : Outcome (compare s t (Manager.disjoint s.root t.root)) w
      (fun b w' => w'.Keeps i k L ∧ (b = true ↔ ¬ (A ∩ B).Nonempty))
      (fun _ w' => w'.Keeps i k L) := by
    refine compare_keeps h hs ht fun m hm hsm htm =>
      (Manager.disjoint_grows hm hsm.1 htm.1).mono fun b _ _ _ hb => ?_
    simp only [hb, hsm.2, htm.2, Set.Nonempty, Set.mem_inter_iff, not_exists]
  refine Outcome.andThen hdisjoint fun b w' ⟨hw', hb⟩ => Outcome.pure ⟨hw', ?_⟩
  rw [Bool.not_eq_true', ← Bool.not_eq_true, hb, not_not]

/-- A set goes on with what the factory makes of it, or stays as it was. -/
private theorem update_keeps {x : FactoryM Ref} (h : w.Keeps i k ((s, A) :: L))
    (hx : ∀ f : Factory, f.Holds k (Ledger.roots ((s, A) :: L)) →
      f.Makes k (Ledger.roots ((s, A) :: L)) x B) :
    Outcome (s.update x) w (fun s' w' => w'.Keeps i k ((s', B) :: L))
      (fun _ w' => w'.Keeps i k ((s, A) :: L)) := by
  obtain ⟨rfl, howner⟩ := List.forall_mem_cons.1 h.owner
  obtain ⟨f, hf, hholds⟩ := h.holds
  have hupdate : Outcome (do
        let new ← x
        Factory.replace s.root new
        return (⟨s.owner, new⟩ : LetterSet)) f
      (fun s' f' => s'.owner = s.owner ∧ f'.Holds k ((s'.root, B) :: L.roots))
      (fun _ f' => f'.Holds k (Ledger.roots ((s, A) :: L))) := by
    apply Outcome.andThen (hx f hholds)
    rintro new f₁ ⟨hf₁, hnew⟩
    obtain ⟨f₂, hreplace, hf₂⟩ := Factory.replace_holds hf₁ hnew
    exact Outcome.bind_ok hreplace (Outcome.pure ⟨rfl, hf₂⟩)
  refine (inFactory_outcome hf hupdate).mono ?_ ?_
  · rintro s' w' ⟨f', hf', hsame, hholds'⟩
    exact ⟨List.forall_mem_cons.2 ⟨hsame, howner⟩, f', hf', hholds'⟩
  · rintro fault w' ⟨f', hf', hholds'⟩
    exact ⟨h.owner, f', hf', hholds'⟩

/-- A set goes on with a combination of itself and another one. -/
private theorem merge_keeps {x : ManagerM Ref} {C : Set Assignment}
    (h : w.Keeps i k ((s, A) :: L)) (ht : (t, B) ∈ (s, A) :: L)
    (hx : ∀ (f : Factory) (roots : List (Ref × Set Assignment)), f.Holds k roots →
      f.manager.Means s.root A → f.manager.Means t.root B →
        f.Builds k roots (Factory.onManager x) C) :
    Outcome (s.merge t x) w (fun s' w' => w'.Keeps i k ((s', C) :: L))
      (fun _ w' => w'.Keeps i k ((s, A) :: L)) := by
  have hsame : s.owner = t.owner := (h.owner _ List.mem_cons_self).trans (h.owner _ ht).symm
  refine Outcome.bind_ok (checkOwner_run hsame) (update_keeps h fun f hf => ?_)
  exact Factory.safePoint_makes hf fun f hf =>
    hx f _ hf (means_of_mem hf List.mem_cons_self) (means_of_mem hf ht)

theorem addAll_keeps (h : w.Keeps i k ((s, A) :: L)) (ht : (t, B) ∈ (s, A) :: L) :
    Outcome (s.addAll t) w (fun s' w' => w'.Keeps i k ((s', A ∪ B) :: L))
      (fun _ w' => w'.Keeps i k ((s, A) :: L)) :=
  merge_keeps h ht fun _ _ hf hs ht => Factory.disj_builds hf hs ht

theorem removeAll_keeps (h : w.Keeps i k ((s, A) :: L)) (ht : (t, B) ∈ (s, A) :: L) :
    Outcome (s.removeAll t) w (fun s' w' => w'.Keeps i k ((s', A \ B) :: L))
      (fun _ w' => w'.Keeps i k ((s, A) :: L)) :=
  merge_keeps h ht fun _ _ hf hs ht => Factory.diff_builds hf hs ht

theorem retainAll_keeps (h : w.Keeps i k ((s, A) :: L)) (ht : (t, B) ∈ (s, A) :: L) :
    Outcome (s.retainAll t) w (fun s' w' => w'.Keeps i k ((s', A ∩ B) :: L))
      (fun _ w' => w'.Keeps i k ((s, A) :: L)) :=
  merge_keeps h ht fun _ _ hf hs ht => Factory.conj_builds hf hs ht

/-- A set that is added and given back is gone at either end. -/
theorem absorb_keeps (h : w.Keeps i k ((s, A) :: (t, B) :: L)) :
    Outcome (s.absorb t) w (fun s' w' => w'.Keeps i k ((s', A ∪ B) :: L))
      (fun _ w' => w'.Keeps i k ((s, A) :: L)) := by
  have ht : (t, B) ∈ (s, A) :: (t, B) :: L := List.mem_cons_of_mem _ List.mem_cons_self
  refine Outcome.tryFinally ((addAll_keeps h ht).mono (fun s' w' hw' => ?_) fun _ w' hw' => ?_)
  · obtain ⟨w₁, hrun, hw₁⟩ := release_keeps (hw'.perm (.swap ..))
    exact Outcome.of_run hrun hw₁
  · obtain ⟨w₁, hrun, hw₁⟩ := release_keeps (hw'.perm (.swap ..))
    exact Outcome.of_run hrun hw₁

/-- A changed copy is added to the list, or given back if the change fails. -/
private theorem changed_keeps {change : LetterSet → WorkM LetterSet} (h : w.Keeps i k L)
    (hs : (s, A) ∈ L)
    (hchange : ∀ {w : Workspace} {s' : LetterSet}, w.Keeps i k ((s', A) :: L) →
      Outcome (change s') w (fun u w' => w'.Keeps i k ((u, B) :: L))
        (fun _ w' => w'.Keeps i k ((s', A) :: L))) :
    Outcome (s.changed change) w (fun u w' => w'.Keeps i k ((u, B) :: L))
      (fun _ w' => w'.Keeps i k L) := by
  obtain ⟨s', w₁, hcopy, hw₁⟩ := copy_keeps h hs
  exact Outcome.bind_ok hcopy (onFault_release_keeps (hchange hw₁))

section NewSets
variable (h : w.Keeps i k L) (hs : (s, A) ∈ L) (ht : (t, B) ∈ L)
include h hs ht

theorem intersection_keeps :
    Outcome (s.intersection t) w (fun u w' => w'.Keeps i k ((u, A ∩ B) :: L))
      (fun _ w' => w'.Keeps i k L) :=
  changed_keeps h hs fun hw => retainAll_keeps hw (List.mem_cons_of_mem _ ht)

theorem difference_keeps :
    Outcome (s.difference t) w (fun u w' => w'.Keeps i k ((u, A \ B) :: L))
      (fun _ w' => w'.Keeps i k L) :=
  changed_keeps h hs fun hw => removeAll_keeps hw (List.mem_cons_of_mem _ ht)

theorem union_keeps :
    Outcome (s.union t) w (fun u w' => w'.Keeps i k ((u, A ∪ B) :: L))
      (fun _ w' => w'.Keeps i k L) :=
  changed_keeps h hs fun hw => addAll_keeps hw (List.mem_cons_of_mem _ ht)

end NewSets

/-! ## Sets of letters -/

theorem proposition_keeps (h : w.Keeps i k L) (p : Nat) :
    Outcome (proposition i p) w
      (fun s w' => w'.Keeps i k ((s, Set.preimage (letterAt k)
        {x | ∃ hp : p < k, ⟨p, hp⟩ ∈ x}) :: L))
      (fun _ w' => w'.Keeps i k L) :=
  make_keeps h fun _ hf => Factory.proposition_holds hf p

theorem restricted_keeps (h : w.Keeps i k L) (letter alphabet : BitSet)
    (hfit : ∀ p, alphabet.contains p = true → p < k → p + 1 < 2 ^ 31) :
    Outcome (restricted i letter alphabet) w
      (fun s w' => w'.Keeps i k ((s, Set.preimage (letterAt k)
        (agreeing (letter.over k) (alphabet.over k))) :: L))
      (fun _ w' => w'.Keeps i k L) :=
  make_keeps h fun _ hf => Factory.restricted_holds hf letter alphabet hfit

section Letters
variable (hk : k < 2 ^ 31)
include hk

theorem singleton_keeps (h : w.Keeps i k L) (letter : BitSet) :
    Outcome (singleton i letter) w
      (fun s w' => w'.Keeps i k ((s, Set.preimage (letterAt k) {letter.over k}) :: L))
      (fun _ w' => w'.Keeps i k L) :=
  make_keeps h fun _ hf => Factory.singleton_holds hk hf letter

theorem ofLetters_keeps (h : w.Keeps i k L) (letters : List BitSet) :
    Outcome (ofLetters i letters) w
      (fun s w' => w'.Keeps i k ((s, Set.preimage (letterAt k)
        {x | ∃ letter ∈ letters, letter.over k = x}) :: L))
      (fun _ w' => w'.Keeps i k L) :=
  make_keeps h fun _ hf => Factory.ofLetters_holds hk hf letters

theorem add_keeps (h : w.Keeps i k ((s, A) :: L)) (letter : BitSet) :
    Outcome (s.add letter) w
      (fun s' w' => w'.Keeps i k ((s', A ∪ Set.preimage (letterAt k) {letter.over k}) :: L))
      (fun _ w' => w'.Keeps i k ((s, A) :: L)) :=
  update_keeps h fun _ hf => Factory.withLetter_makes hk hf List.mem_cons_self letter

end Letters

end LetterSet

end SymbolicOmega
