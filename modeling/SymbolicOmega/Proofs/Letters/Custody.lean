import SymbolicOmega.Proofs.Diagram.Persistence
import SymbolicOmega.Proofs.Letters.Ledger

/-!
# Custody

The live sets are listed with what is answered for each letter.  Whatever is done to other
sets, a listed set answers the same, and the factory holds the roots of the listed sets and no
others.  This is so over alphabets of any size, also where the number of a proposition is read
wrongly and a new set has other letters than it should: an old one has the letters it had.
-/

namespace SymbolicOmega

/-- What is answered for each letter. -/
abbrev Reading := BitSet → Except Fault Bool

namespace Factory

open Manager

/-- The factory of an alphabet of size `k` holds exactly the roots of the list, and each answers
what stands beside it. -/
structure Retains (f : Factory) (k : Nat) (L : List (Ref × Reading)) : Prop where
  alphabet : f.alphabetSize = k
  closed : f.manager.Closed
  canonical : k < 2 ^ 31 → f.manager.Canonical
  held : f.roots.Lists (L.map Prod.fst)
  live : ∀ entry ∈ L, f.manager.Live entry.1
  reads : ∀ entry ∈ L, LetterSet.holdsIn f.manager entry.1 = entry.2

variable {k : Nat} {f f' : Factory} {L L' : List (Ref × Reading)} {F : Reading}

/-- The order in which sets are listed does not matter. -/
theorem Retains.perm (h : f.Retains k L) (hperm : L.Perm L') : f.Retains k L' where
  alphabet := h.alphabet
  closed := h.closed
  canonical := h.canonical
  held := h.held.perm (hperm.map _)
  live entry hentry := h.live entry (hperm.mem_iff.2 hentry)
  reads entry hentry := h.reads entry (hperm.mem_iff.2 hentry)

theorem ofSizing_retains {sizing : Sizing} (hnew : ofSizing k sizing = .ok f) :
    f.Retains k [] := by
  have hholds := ofSizing_holds hnew
  exact ⟨hholds.alphabet, hholds.canonical.closed, fun _ => hholds.canonical, hholds.held,
    by simp, by simp⟩

/-- An operation keeps the held sets, drops no node and answers what is `good`. -/
def Enlarges {β : Type} (f : Factory) (k : Nat) (L : List (Ref × Reading)) (x : FactoryM β)
    (good : β → Manager → Prop) : Prop :=
  Outcome x f
    (fun b f' => f'.Retains k L ∧ f.manager.Extends f'.manager ∧ good b f'.manager)
    (fun _ f' => f'.Retains k L)

/-- An operation keeps the held sets and answers a root that can be held. -/
def Yields (f : Factory) (k : Nat) (L : List (Ref × Reading)) (x : FactoryM Ref) : Prop :=
  Outcome x f (fun r f' => f'.Retains k L ∧ f'.manager.Live r) (fun _ f' => f'.Retains k L)

theorem Enlarges.yields {x : FactoryM Ref} (h : f.Enlarges k L x fun r m => m.Live r) :
    f.Yields k L x :=
  Outcome.imp h fun _ _ hend => ⟨hend.1, hend.2.2⟩

/-- More nodes do not change what is held. -/
theorem Retains.grow (h : f.Retains k L) {m : Manager} (hm : m.Closed)
    (hcanonical : k < 2 ^ 31 → m.Canonical) (hextends : f.manager.Extends m) :
    Retains { f with manager := m } k L where
  alphabet := h.alphabet
  closed := hm
  canonical := hcanonical
  held := h.held
  live entry hentry := hextends.live (h.live entry hentry)
  reads entry hentry := by
    rw [← h.reads entry hentry]
    funext letter
    exact hextends.evaluate h.closed (h.live entry hentry) _

/-- An operation of the manager that only adds nodes. -/
theorem onManager_enlarges {β : Type} {x : ManagerM β} {good : β → Manager → Prop}
    (h : f.Retains k L) (hwidens : f.manager.Widens x good)
    (hgrows : k < 2 ^ 31 → f.manager.Canonical → ∃ good', f.manager.Grows x good') :
    f.Enlarges k L (onManager x) good := by
  unfold Enlarges Outcome onManager
  simp only
  cases hrun : x f.manager with
  | ok b m =>
      obtain ⟨hm, hextends, hgood⟩ := Outcome.of_ok hwidens hrun
      refine ⟨h.grow hm (fun hk => ?_) hextends, hextends, hgood⟩
      obtain ⟨good', hgrows⟩ := hgrows hk (h.canonical hk)
      exact (Outcome.of_ok hgrows hrun).1
  | error fault m =>
      obtain ⟨hm, hextends⟩ := Outcome.of_error hwidens hrun
      refine h.grow hm (fun hk => ?_) hextends
      obtain ⟨good', hgrows⟩ := hgrows hk (h.canonical hk)
      exact (Outcome.of_error hgrows hrun).1

/-- A collection keeps every held set. -/
theorem collect_retains (h : f.Retains k L) :
    Outcome collect f (fun _ f' => f'.Retains k L) (fun _ f' => f'.Retains k L) := by
  have hheld : ∀ entry ∈ L, entry.1 ∈ f.roots.keys := fun entry hentry =>
    h.held.mem_keys_iff.2 (List.mem_map_of_mem hentry)
  have hlive : ∀ r ∈ f.roots.keys, f.manager.Live r := by
    intro r hr
    obtain ⟨entry, hentry, rfl⟩ := List.mem_map.1 (h.held.mem_keys_iff.1 hr)
    exact h.live entry hentry
  have hpersists := collect_persists h.closed hlive
  have hend : ∀ m : Manager, m.Closed → (k < 2 ^ 31 → m.Canonical) →
      (∀ r ∈ f.roots.keys, m.Live r ∧ m.evaluate r = f.manager.evaluate r) →
      Retains { f with manager := m } k L := fun m hm hcanonical hroots =>
    ⟨h.alphabet, hm, hcanonical, h.held,
      fun entry hentry => (hroots _ (hheld entry hentry)).1, fun entry hentry => by
        rw [← h.reads entry hentry]
        funext letter
        exact congrFun (hroots _ (hheld entry hentry)).2 _⟩
  unfold Outcome collect
  simp only
  cases hrun : Manager.collect f.roots.keys f.manager with
  | ok dropped m =>
      obtain ⟨hm, hroots⟩ := hpersists.of_ok hrun
      exact hend m hm (fun hk => ((collect_outcome (h.canonical hk) _).of_ok hrun).1) hroots
  | error fault m =>
      obtain ⟨hm, hroots⟩ := hpersists.of_error hrun
      exact hend m hm (fun hk => ((collect_outcome (h.canonical hk) _).of_error hrun).1) hroots

theorem safePoint_retains (h : f.Retains k L) :
    Outcome safePoint f (fun _ f' => f'.Retains k L) (fun _ f' => f'.Retains k L) := by
  have hdue : collectionDue f = .ok f.manager.needsCollection f := rfl
  apply Outcome.bind_ok hdue
  cases f.manager.needsCollection with
  | true => exact Outcome.map (collect_retains h)
  | false => exact Outcome.pure h

/-- What is built after a safe point can be held. -/
theorem safePoint_yields {x : FactoryM Ref} (h : f.Retains k L)
    (hx : ∀ f : Factory, f.Retains k L → f.Enlarges k L x fun r m => m.Live r) :
    f.Yields k L (do safePoint; x) :=
  Outcome.andThen (safePoint_retains h) fun _ f' hf' => (hx f' hf').yields

theorem acquire_retains {root : Ref} (h : f.Retains k L) (hroot : f.manager.Live root) :
    ∃ f' F, acquire root f = .ok () f' ∧ f'.Retains k ((root, F) :: L) := by
  obtain ⟨roots, hrun, hroots⟩ := acquire_lists h.held root
  exact ⟨_, LetterSet.holdsIn f.manager root, hrun, h.alphabet, h.closed, h.canonical, hroots,
    List.forall_mem_cons.2 ⟨hroot, h.live⟩, List.forall_mem_cons.2 ⟨rfl, h.reads⟩⟩

theorem release_retains {root : Ref} (h : f.Retains k ((root, F) :: L)) :
    ∃ f', release root f = .ok () f' ∧ f'.Retains k L := by
  obtain ⟨roots, hrun, hroots⟩ := release_lists h.held
  exact ⟨_, hrun, h.alphabet, h.closed, h.canonical, hroots,
    (List.forall_mem_cons.1 h.live).2, (List.forall_mem_cons.1 h.reads).2⟩

theorem holding_retains {x : FactoryM Ref} (hx : f.Yields k L x) :
    Outcome (holding x) f (fun r f' => ∃ F, f'.Retains k ((r, F) :: L))
      (fun _ f' => f'.Retains k L) := by
  apply Outcome.andThen hx
  rintro r f₁ ⟨hf₁, hr⟩
  obtain ⟨f₂, F, hrun, hf₂⟩ := acquire_retains hf₁ hr
  exact Outcome.bind_ok hrun (Outcome.pure ⟨F, hf₂⟩)

/-- A set goes on with another root. -/
theorem replace_retains {old new : Ref} (h : f.Retains k ((old, F) :: L))
    (hnew : f.manager.Live new) :
    ∃ f' G, replace old new f = .ok () f' ∧ f'.Retains k ((new, G) :: L) := by
  obtain ⟨roots, hrun, hroots⟩ := replace_lists h.held new
  exact ⟨_, LetterSet.holdsIn f.manager new, hrun, h.alphabet, h.closed, h.canonical, hroots,
    List.forall_mem_cons.2 ⟨hnew, (List.forall_mem_cons.1 h.live).2⟩,
    List.forall_mem_cons.2 ⟨rfl, (List.forall_mem_cons.1 h.reads).2⟩⟩

/-! ## Making sets -/

private theorem cube_enlarges (h : f.Retains k L) (letter : BitSet) {propositions : List Nat}
    (hnodup : propositions.Nodup) :
    f.Enlarges k L (cube letter propositions) fun r m => m.Live r := by
  apply Outcome.bind_ok (alphabetSize_run h.alphabet)
  dsimp only
  split_ifs
  · exact Outcome.bind (Outcome.throw h)
  · exact onManager_enlarges h (mkCube_widens h.closed _) fun hk hm =>
      ⟨_, mkCube_grows hm (literals_distinct (fun p _ hp => by omega) letter hnodup)⟩

theorem fullCube_enlarges (h : f.Retains k L) (letter : BitSet) :
    f.Enlarges k L (fullCube letter) fun r m => m.Live r :=
  Outcome.bind_ok (alphabetSize_run h.alphabet) (cube_enlarges h letter List.nodup_range)

theorem disj_enlarges (h : f.Retains k L) {u v : Ref} (hu : f.manager.Live u)
    (hv : f.manager.Live v) : f.Enlarges k L (onManager (disj u v)) fun r m => m.Live r :=
  onManager_enlarges h (disj_widens h.closed hu hv) fun _ hm => ⟨_, disj_grows hm hu hv⟩

theorem diff_enlarges (h : f.Retains k L) {u v : Ref} (hu : f.manager.Live u)
    (hv : f.manager.Live v) : f.Enlarges k L (onManager (diff u v)) fun r m => m.Live r :=
  onManager_enlarges h (diff_widens h.closed hu hv) fun _ hm => ⟨_, diff_grows hm hu hv⟩

theorem conj_enlarges (h : f.Retains k L) {u v : Ref} (hu : f.manager.Live u)
    (hv : f.manager.Live v) : f.Enlarges k L (onManager (conj u v)) fun r m => m.Live r :=
  onManager_enlarges h (conj_widens h.closed hu hv) fun _ hm => ⟨_, conj_grows hm hu hv⟩

theorem singleton_retains (h : f.Retains k L) (letter : BitSet) :
    Outcome (singleton letter) f (fun r f' => ∃ F, f'.Retains k ((r, F) :: L))
      (fun _ f' => f'.Retains k L) :=
  holding_retains (safePoint_yields h fun _ hf => fullCube_enlarges hf letter)

theorem restricted_retains (h : f.Retains k L) (letter alphabet : BitSet) :
    Outcome (restricted letter alphabet) f (fun r f' => ∃ F, f'.Retains k ((r, F) :: L))
      (fun _ f' => f'.Retains k L) :=
  holding_retains (safePoint_yields h fun _ hf => cube_enlarges hf letter alphabet.nodup_toList)

theorem proposition_retains (h : f.Retains k L) (p : Nat) :
    Outcome (proposition p) f (fun r f' => ∃ F, f'.Retains k ((r, F) :: L))
      (fun _ f' => f'.Retains k L) := by
  refine holding_retains (Outcome.bind_ok (alphabetSize_run h.alphabet) ?_)
  by_cases hp : k ≤ p
  · simp only [hp, if_true]
    exact Outcome.bind (Outcome.throw h)
  · simp only [hp, if_false]
    exact safePoint_yields h fun f hf => onManager_enlarges hf (mkVar_widens hf.closed _)
      fun _ hm => ⟨_, mkVar_grows hm _⟩

/-- The cubes of several letters are built one after the other. -/
private theorem fullCubes_enlarge (h : f.Retains k L) (letters : List BitSet) :
    f.Enlarges k L (letters.mapM fullCube) fun rs m => ∀ r ∈ rs, m.Live r := by
  induction letters generalizing f with
  | nil => exact Outcome.pure ⟨h, Extends.refl _, by simp⟩
  | cons letter rest ih =>
      rw [List.mapM_cons]
      apply Outcome.andThen (fullCube_enlarges h letter)
      rintro r f₁ ⟨hf₁, hextends₁, hr⟩
      apply Outcome.andThen (ih hf₁)
      rintro rs f₂ ⟨hf₂, hextends₂, hrs⟩
      exact Outcome.pure ⟨hf₂, hextends₁.trans hextends₂,
        List.forall_mem_cons.2 ⟨hextends₂.live hr, hrs⟩⟩

theorem ofLetters_retains (h : f.Retains k L) (letters : List BitSet) :
    Outcome (ofLetters letters) f (fun r f' => ∃ F, f'.Retains k ((r, F) :: L))
      (fun _ f' => f'.Retains k L) := by
  refine holding_retains (safePoint_yields h fun f hf => ?_)
  apply Outcome.andThen (fullCubes_enlarge hf letters)
  rintro rs f₁ ⟨hf₁, hextends₁, hrs⟩
  exact Outcome.imp (onManager_enlarges hf₁ (disjAll_widens hf₁.closed hrs)
    fun _ hm => ⟨_, disjAll_grows hm hrs⟩)
    fun _ _ hend => ⟨hend.1, hextends₁.trans hend.2.1, hend.2.2⟩

theorem withLetter_yields {root : Ref} (h : f.Retains k ((root, F) :: L)) (letter : BitSet) :
    f.Yields k ((root, F) :: L) (withLetter root letter) := by
  apply safePoint_yields h
  intro f hf
  apply Outcome.andThen (fullCube_enlarges hf letter)
  rintro cube f₁ ⟨hf₁, hextends₁, hcube⟩
  exact Outcome.imp (disj_enlarges hf₁ (hf₁.live _ List.mem_cons_self) hcube)
    fun _ _ hend => ⟨hend.1, hextends₁.trans hend.2.1, hend.2.2⟩

end Factory

/-- Sets of one factory beside what they answer. -/
abbrev Custody := List (LetterSet × Reading)

/-- The roots of the listed sets. -/
def Custody.roots (L : Custody) : List (Ref × Reading) :=
  L.map fun entry => (entry.1.root, entry.2)

namespace Workspace

/-- The factory at position `i`, over `k` propositions, holds exactly the listed sets, and each
answers what stands beside it. -/
structure Retains (w : Workspace) (i k : Nat) (L : Custody) : Prop where
  owner : ∀ entry ∈ L, entry.1.owner = i
  holds : ∃ f, w.factories[i]? = some f ∧ f.Retains k L.roots

variable {w : Workspace} {i k : Nat} {L L' : Custody}

theorem Retains.perm (h : w.Retains i k L) (hperm : L.Perm L') : w.Retains i k L' := by
  obtain ⟨f, hf, hholds⟩ := h.holds
  exact ⟨fun entry hentry => h.owner entry (hperm.mem_iff.2 hentry), f, hf,
    hholds.perm (hperm.map _)⟩

/-- Only the factories matter. -/
theorem Retains.of_factories {w' : Workspace} (h : w.Retains i k L)
    (hw : w'.factories = w.factories) : w'.Retains i k L :=
  ⟨h.owner, hw ▸ h.holds⟩

/-- An operation of the factory that keeps the listed sets when it fails. -/
private theorem inFactory_retains {β : Type} {x : FactoryM β} {good : β → Factory → Prop}
    (h : w.Retains i k L)
    (hx : ∀ f : Factory, f.Retains k L.roots →
      Outcome x f good fun _ f' => f'.Retains k L.roots) :
    Outcome (inFactory i x) w (fun b w' => ∃ f', w'.factories[i]? = some f' ∧ good b f')
      (fun _ w' => w'.Retains i k L) := by
  obtain ⟨f, hf, hholds⟩ := h.holds
  refine (inFactory_outcome hf (hx f hholds)).mono (fun _ _ hend => hend) ?_
  rintro fault w' ⟨f', hf', hholds'⟩
  exact ⟨h.owner, f', hf', hholds'⟩

end Workspace

namespace LetterSet

open Workspace

variable {w : Workspace} {i k : Nat} {L : Custody} {s t : LetterSet} {F G : Reading}

/-- A new set comes into custody, or nothing changes. -/
def Adopts (x : WorkM LetterSet) (w : Workspace) (i k : Nat) (L : Custody) : Prop :=
  Outcome x w (fun s w' => ∃ F, w'.Retains i k ((s, F) :: L)) (fun _ w' => w'.Retains i k L)

private theorem make_adopts {x : FactoryM Ref} (h : w.Retains i k L)
    (hx : ∀ f : Factory, f.Retains k L.roots → Outcome x f
      (fun r f' => ∃ F, f'.Retains k ((r, F) :: L.roots)) fun _ f' => f'.Retains k L.roots) :
    Adopts (make i x) w i k L := by
  apply Outcome.andThen (inFactory_retains h hx)
  rintro r w' ⟨f', hf', F, hholds⟩
  exact Outcome.pure ⟨F, List.forall_mem_cons.2 ⟨rfl, h.owner⟩, f', hf', hholds⟩

/-- A root that is there already is held without fail. -/
private theorem make_pure_retains {root : Ref} (h : w.Retains i k L)
    (hroot : ∀ f : Factory, f.Retains k L.roots → f.manager.Live root) :
    ∃ F w', make i (Factory.holding (pure root)) w = .ok ⟨i, root⟩ w' ∧
      w'.Retains i k ((⟨i, root⟩, F) :: L) := by
  obtain ⟨f, hf, hholds⟩ := h.holds
  obtain ⟨f', F, hacquire, hholds'⟩ := Factory.acquire_retains hholds (hroot f hholds)
  have hrun : Factory.holding (pure root) f = .ok root f' := by
    change ((do Factory.acquire root; return root) : FactoryM Ref) f = _
    rw [run_bind hacquire]
    rfl
  obtain ⟨w', hw', hf'⟩ := inFactory_ok hf hrun
  exact ⟨F, w', run_bind hw', List.forall_mem_cons.2 ⟨rfl, h.owner⟩, f', hf', hholds'⟩

private theorem adopts_of_run {x : WorkM LetterSet}
    (h : ∃ F w', x w = .ok s w' ∧ w'.Retains i k ((s, F) :: L)) : Adopts x w i k L := by
  obtain ⟨F, w', hrun, hw'⟩ := h
  exact Outcome.of_run hrun ⟨F, hw'⟩

theorem empty_adopts (h : w.Retains i k L) : Adopts (empty i) w i k L :=
  adopts_of_run (make_pure_retains h fun _ hf => hf.closed.live_zero)

theorem all_adopts (h : w.Retains i k L) : Adopts (all i) w i k L :=
  adopts_of_run (make_pure_retains h fun _ hf => hf.closed.live_one)

private theorem live_of_mem {f : Factory} (hf : f.Retains k L.roots) (hs : (s, F) ∈ L) :
    f.manager.Live s.root :=
  hf.live (s.root, F) (List.mem_map_of_mem hs)

/-- A copy is made without fail and reads as the set does. -/
theorem copy_retains (h : w.Retains i k L) (hs : (s, F) ∈ L) :
    ∃ w', s.copy w = .ok s w' ∧ w'.Retains i k ((s, F) :: L) := by
  have howner := h.owner _ hs
  dsimp only at howner
  subst howner
  obtain ⟨G, w', hrun, hw'⟩ := make_pure_retains h fun _ hf => live_of_mem hf hs
  obtain ⟨f, -, hf⟩ := hw'.holds
  have hcopy : holdsIn f.manager s.root = G := hf.reads (s.root, G) List.mem_cons_self
  have hself : holdsIn f.manager s.root = F :=
    hf.reads (s.root, F) (List.mem_cons_of_mem _ (List.mem_map_of_mem hs))
  rw [← hcopy, hself] at hw'
  exact ⟨w', hrun, hw'⟩

theorem copy_adopts (h : w.Retains i k L) (hs : (s, F) ∈ L) : Adopts s.copy w i k L :=
  adopts_of_run ⟨F, copy_retains h hs⟩

theorem complement_adopts (h : w.Retains i k L) (hs : (s, F) ∈ L) :
    Adopts s.complement w i k L := by
  have howner := h.owner _ hs
  dsimp only at howner
  subst howner
  exact adopts_of_run (make_pure_retains h fun _ hf => live_of_mem hf hs)

theorem release_retains (h : w.Retains i k ((s, F) :: L)) :
    ∃ w', s.release w = .ok () w' ∧ w'.Retains i k L := by
  obtain ⟨rfl, howner⟩ := List.forall_mem_cons.1 h.owner
  obtain ⟨f, hf, hholds⟩ := h.holds
  obtain ⟨f', hrelease, hholds'⟩ := Factory.release_retains hholds
  obtain ⟨w', hw', hf'⟩ := inFactory_ok hf hrelease
  exact ⟨w', hw', howner, f', hf', hholds'⟩

theorem releaseAll_retains {E : Custody} (h : w.Retains i k (E ++ L)) :
    ∃ w', releaseAll (E.map Prod.fst) w = .ok () w' ∧ w'.Retains i k L := by
  induction E generalizing w with
  | nil => exact ⟨w, rfl, h⟩
  | cons entry rest ih =>
      obtain ⟨w₁, hrun₁, hw₁⟩ := release_retains h
      obtain ⟨w₂, hrun₂, hw₂⟩ := ih hw₁
      have hrun : releaseAll ((entry :: rest).map Prod.fst) w = .ok () w₂ := by
        calc
          releaseAll ((entry :: rest).map Prod.fst) w =
              releaseAll (rest.map Prod.fst) w₁ := run_bind hrun₁
          _ = .ok () w₂ := hrun₂
      exact ⟨w₂, hrun, hw₂⟩

/-- An operation that failed with one more set in the list gives it back. -/
theorem onFault_release_retains {β : Type} {x : WorkM β} {good : β → Workspace → Prop}
    (h : Outcome x w good fun _ w' => ∃ F, w'.Retains i k ((s, F) :: L)) :
    Outcome (onFault x s.release) w good fun _ w' => w'.Retains i k L := by
  refine onFault_outcome (h.mono (fun _ _ hend => hend) fun _ w₁ ⟨F, hw₁⟩ => ?_)
  obtain ⟨w₂, hrelease, hw₂⟩ := release_retains hw₁
  exact Outcome.of_run hrelease hw₂

theorem collect_retains (h : w.Retains i k L) :
    Outcome (inFactory i Factory.collect) w (fun _ w' => w'.Retains i k L)
      (fun _ w' => w'.Retains i k L) := by
  refine (inFactory_retains h fun f hf => Factory.collect_retains hf).imp ?_
  rintro _ w' ⟨f', hf', hholds⟩
  exact ⟨h.owner, f', hf', hholds⟩

/-- For each letter the set answers what `F` says, and asking changes nothing. -/
def Answers (s : LetterSet) (w : Workspace) (F : Reading) : Prop :=
  ∀ letter, s.contains letter w =
    match F letter with
    | .ok b => .ok b w
    | .error fault => .error fault w

theorem answers_of_mem (h : w.Retains i k L) (hs : (s, F) ∈ L) : s.Answers w F := by
  intro letter
  have howner := h.owner _ hs
  dsimp only at howner
  subst howner
  obtain ⟨f, hf, hholds⟩ := h.holds
  have hreads := hholds.reads (s.root, F) (List.mem_map_of_mem hs)
  dsimp only at hreads
  simp only [contains, askFactory, hf, hreads]
  cases F letter <;> rfl

/-- A comparison keeps every set. -/
private theorem compare_retains {x : ManagerM Bool} (h : w.Retains i k L) (hs : (s, F) ∈ L)
    (ht : (t, G) ∈ L)
    (hwidens : ∀ m : Manager, m.Closed → m.Live s.root → m.Live t.root →
      m.Widens x fun _ _ => True)
    (hgrows : ∀ m : Manager, m.Canonical → m.Live s.root → m.Live t.root →
      ∃ good, m.Grows x good) :
    Outcome (compare s t x) w (fun _ w' => w'.Retains i k L) (fun _ w' => w'.Retains i k L) := by
  have hsame : s.owner = t.owner := (h.owner _ hs).trans (h.owner _ ht).symm
  have howner := h.owner _ hs
  dsimp only at howner
  subst howner
  have hask : ∀ f : Factory, f.Retains k L.roots →
      Outcome (do Factory.safePoint; Factory.onManager x) f
        (fun _ f' => f'.Retains k L.roots) fun _ f' => f'.Retains k L.roots := by
    intro f hf
    apply Outcome.andThen (Factory.safePoint_retains hf)
    intro _ f₁ hf₁
    have hlives := live_of_mem hf₁ hs
    have hlivet := live_of_mem hf₁ ht
    exact (Factory.onManager_enlarges hf₁ (hwidens _ hf₁.closed hlives hlivet)
      fun _ hm => hgrows _ hm hlives hlivet).imp fun _ _ hend => hend.1
  refine Outcome.bind_ok (checkOwner_run hsame) ((inFactory_retains h hask).imp ?_)
  rintro _ w' ⟨f', hf', hholds⟩
  exact ⟨h.owner, f', hf', hholds⟩

theorem containsAll_retains (h : w.Retains i k L) (hs : (s, F) ∈ L) (ht : (t, G) ∈ L) :
    Outcome (s.containsAll t) w (fun _ w' => w'.Retains i k L) fun _ w' => w'.Retains i k L :=
  compare_retains h hs ht (fun _ hm hs ht => Manager.implies_widens hm ht hs)
    fun _ hm hs ht => ⟨_, Manager.implies_grows hm ht hs⟩

theorem intersects_retains (h : w.Retains i k L) (hs : (s, F) ∈ L) (ht : (t, G) ∈ L) :
    Outcome (s.intersects t) w (fun _ w' => w'.Retains i k L) fun _ w' => w'.Retains i k L :=
  Outcome.andThen (compare_retains h hs ht (fun _ hm hs ht => Manager.disjoint_widens hm hs ht)
    fun _ hm hs ht => ⟨_, Manager.disjoint_grows hm hs ht⟩) fun _ _ hw' => Outcome.pure hw'

/-- A set goes on with what the factory makes of it, or stays as it was. -/
private theorem update_retains {x : FactoryM Ref} (h : w.Retains i k ((s, F) :: L))
    (hx : ∀ f : Factory, f.Retains k (Custody.roots ((s, F) :: L)) →
      f.Yields k (Custody.roots ((s, F) :: L)) x) :
    Outcome (s.update x) w (fun s' w' => ∃ G, w'.Retains i k ((s', G) :: L))
      (fun _ w' => w'.Retains i k ((s, F) :: L)) := by
  obtain ⟨rfl, howner⟩ := List.forall_mem_cons.1 h.owner
  have hupdate : ∀ f : Factory, f.Retains k (Custody.roots ((s, F) :: L)) →
      Outcome (do
        let new ← x
        Factory.replace s.root new
        return (⟨s.owner, new⟩ : LetterSet)) f
      (fun s' f' => s'.owner = s.owner ∧ ∃ G, f'.Retains k ((s'.root, G) :: L.roots))
      (fun _ f' => f'.Retains k (Custody.roots ((s, F) :: L))) := by
    intro f hf
    apply Outcome.andThen (hx f hf)
    rintro new f₁ ⟨hf₁, hnew⟩
    obtain ⟨f₂, G, hreplace, hf₂⟩ := Factory.replace_retains hf₁ hnew
    exact Outcome.bind_ok hreplace (Outcome.pure ⟨rfl, G, hf₂⟩)
  refine (inFactory_retains h hupdate).imp ?_
  rintro s' w' ⟨f', hf', hsame, G, hholds⟩
  exact ⟨G, List.forall_mem_cons.2 ⟨hsame, howner⟩, f', hf', hholds⟩

theorem add_retains (h : w.Retains i k ((s, F) :: L)) (letter : BitSet) :
    Outcome (s.add letter) w (fun s' w' => ∃ G, w'.Retains i k ((s', G) :: L))
      (fun _ w' => w'.Retains i k ((s, F) :: L)) :=
  update_retains h fun _ hf => Factory.withLetter_yields hf letter

/-- A set goes on with a combination of itself and another one, or stays as it was. -/
private theorem merge_retains {x : ManagerM Ref} (h : w.Retains i k ((s, F) :: L))
    (ht : (t, G) ∈ (s, F) :: L)
    (hx : ∀ (f : Factory) (roots : List (Ref × Reading)), f.Retains k roots →
      f.manager.Live s.root → f.manager.Live t.root →
        f.Enlarges k roots (Factory.onManager x) fun r m => m.Live r) :
    Outcome (s.merge t x) w (fun s' w' => ∃ G, w'.Retains i k ((s', G) :: L))
      (fun _ w' => w'.Retains i k ((s, F) :: L)) := by
  have hsame : s.owner = t.owner := (h.owner _ List.mem_cons_self).trans (h.owner _ ht).symm
  refine Outcome.bind_ok (checkOwner_run hsame) (update_retains h fun f hf => ?_)
  exact Factory.safePoint_yields hf fun f hf =>
    hx f _ hf (live_of_mem hf List.mem_cons_self) (live_of_mem hf ht)

theorem addAll_retains (h : w.Retains i k ((s, F) :: L)) (ht : (t, G) ∈ (s, F) :: L) :
    Outcome (s.addAll t) w (fun s' w' => ∃ G, w'.Retains i k ((s', G) :: L))
      (fun _ w' => w'.Retains i k ((s, F) :: L)) :=
  merge_retains h ht fun _ _ hf hs ht => Factory.disj_enlarges hf hs ht

theorem removeAll_retains (h : w.Retains i k ((s, F) :: L)) (ht : (t, G) ∈ (s, F) :: L) :
    Outcome (s.removeAll t) w (fun s' w' => ∃ G, w'.Retains i k ((s', G) :: L))
      (fun _ w' => w'.Retains i k ((s, F) :: L)) :=
  merge_retains h ht fun _ _ hf hs ht => Factory.diff_enlarges hf hs ht

theorem retainAll_retains (h : w.Retains i k ((s, F) :: L)) (ht : (t, G) ∈ (s, F) :: L) :
    Outcome (s.retainAll t) w (fun s' w' => ∃ G, w'.Retains i k ((s', G) :: L))
      (fun _ w' => w'.Retains i k ((s, F) :: L)) :=
  merge_retains h ht fun _ _ hf hs ht => Factory.conj_enlarges hf hs ht

/-- A set that is added and given back is gone at either end. -/
theorem absorb_retains (h : w.Retains i k ((s, F) :: (t, G) :: L)) :
    Outcome (s.absorb t) w (fun s' w' => ∃ G, w'.Retains i k ((s', G) :: L))
      (fun _ w' => w'.Retains i k ((s, F) :: L)) := by
  have ht : (t, G) ∈ (s, F) :: (t, G) :: L := List.mem_cons_of_mem _ List.mem_cons_self
  refine Outcome.tryFinally ((addAll_retains h ht).mono (fun s' w' hw' => ?_) fun _ w' hw' => ?_)
  · obtain ⟨H, hw'⟩ := hw'
    obtain ⟨w₁, hrun, hw₁⟩ := release_retains (hw'.perm (.swap ..))
    exact Outcome.of_run hrun ⟨H, hw₁⟩
  · obtain ⟨w₁, hrun, hw₁⟩ := release_retains (hw'.perm (.swap ..))
    exact Outcome.of_run hrun hw₁

/-- A changed copy comes into custody, or is given back if the change fails. -/
private theorem changed_adopts {change : LetterSet → WorkM LetterSet} (h : w.Retains i k L)
    (hs : (s, F) ∈ L)
    (hchange : ∀ {w : Workspace} {s' : LetterSet} {G : Reading}, w.Retains i k ((s', G) :: L) →
      Outcome (change s') w (fun u w' => ∃ H, w'.Retains i k ((u, H) :: L))
        (fun _ w' => w'.Retains i k ((s', G) :: L))) :
    Adopts (s.changed change) w i k L := by
  obtain ⟨w₁, hcopy, hw₁⟩ := copy_retains h hs
  exact Outcome.bind_ok hcopy (onFault_release_retains ((hchange hw₁).mono
    (fun _ _ hend => hend) fun _ _ hend => ⟨F, hend⟩))

section NewSets
variable (h : w.Retains i k L) (hs : (s, F) ∈ L) (ht : (t, G) ∈ L)
include h hs ht

theorem intersection_adopts : Adopts (s.intersection t) w i k L :=
  changed_adopts h hs fun hw => retainAll_retains hw (List.mem_cons_of_mem _ ht)

theorem difference_adopts : Adopts (s.difference t) w i k L :=
  changed_adopts h hs fun hw => removeAll_retains hw (List.mem_cons_of_mem _ ht)

theorem union_adopts : Adopts (s.union t) w i k L :=
  changed_adopts h hs fun hw => addAll_retains hw (List.mem_cons_of_mem _ ht)

end NewSets

/-! ## Sets of letters -/

theorem singleton_adopts (h : w.Retains i k L) (letter : BitSet) :
    Adopts (singleton i letter) w i k L :=
  make_adopts h fun _ hf => Factory.singleton_retains hf letter

theorem restricted_adopts (h : w.Retains i k L) (letter alphabet : BitSet) :
    Adopts (restricted i letter alphabet) w i k L :=
  make_adopts h fun _ hf => Factory.restricted_retains hf letter alphabet

theorem proposition_adopts (h : w.Retains i k L) (p : Nat) :
    Adopts (proposition i p) w i k L :=
  make_adopts h fun _ hf => Factory.proposition_retains hf p

theorem ofLetters_adopts (h : w.Retains i k L) (letters : List BitSet) :
    Adopts (ofLetters i letters) w i k L :=
  make_adopts h fun _ hf => Factory.ofLetters_retains hf letters

end LetterSet

end SymbolicOmega
