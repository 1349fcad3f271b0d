import SymbolicOmega.Proofs.Diagram.Collecting
import SymbolicOmega.Proofs.Letters.Meaning
import SymbolicOmega.Proofs.Letters.Roots

/-!
# Held sets

A factory holds one root for each live set, no more and no less.  So a collection keeps
what the live sets need, and every operation leaves each of them with its letters.
-/

namespace SymbolicOmega

namespace Factory

open Manager

/-- The factory of an alphabet of size `k` holds exactly the roots of the list, and each means
the set beside it. -/
structure Holds (f : Factory) (k : Nat) (L : List (Ref × Set Assignment)) : Prop where
  alphabet : f.alphabetSize = k
  canonical : f.manager.Canonical
  held : f.roots.Lists (L.map Prod.fst)
  means : ∀ entry ∈ L, f.manager.Means entry.1 entry.2

variable {k : Nat} {f f' : Factory} {L L' : List (Ref × Set Assignment)} {A : Set Assignment}

/-- The order in which sets are listed does not matter. -/
theorem Holds.perm (h : f.Holds k L) (hperm : L.Perm L') : f.Holds k L' :=
  ⟨h.alphabet, h.canonical, h.held.perm (hperm.map _),
    fun entry hentry => h.means entry (hperm.mem_iff.2 hentry)⟩

theorem ofSizing_holds {sizing : Sizing} (hnew : ofSizing k sizing = .ok f) :
    f.Holds k [] := by
  cases hm : Manager.ofSizing sizing with
  | error fault => simp [ofSizing, hm] at hnew
  | ok m =>
      have hf : f = ⟨m, k, Roots.none⟩ := by
        simpa [ofSizing, hm, eq_comm] using hnew
      subst hf
      exact ⟨rfl, ofSizing_canonical hm, Roots.none_lists, by simp⟩

/-- An operation keeps the held sets and answers a root that means `A`. -/
def Makes (f : Factory) (k : Nat) (L : List (Ref × Set Assignment)) (x : FactoryM Ref)
    (A : Set Assignment) : Prop :=
  Outcome x f (fun r f' => f'.Holds k L ∧ f'.manager.Means r A) (fun _ f' => f'.Holds k L)

/-- An operation makes a root and drops no node. -/
def Builds (f : Factory) (k : Nat) (L : List (Ref × Set Assignment)) (x : FactoryM Ref)
    (A : Set Assignment) : Prop :=
  Outcome x f
    (fun r f' => f'.Holds k L ∧ f.manager.Extends f'.manager ∧ f'.manager.Means r A)
    (fun _ f' => f'.Holds k L)

theorem Builds.makes {x : FactoryM Ref} (h : f.Builds k L x A) : f.Makes k L x A :=
  Outcome.imp h fun _ _ hend => ⟨hend.1, hend.2.2⟩

/-- More nodes do not change what is held. -/
theorem Holds.grow (h : f.Holds k L) {m : Manager} (hm : m.Canonical)
    (hextends : f.manager.Extends m) : Holds { f with manager := m } k L :=
  ⟨h.alphabet, hm, h.held, fun entry hentry =>
    (h.means entry hentry).extends h.canonical.reduced hm.reduced hextends⟩

theorem onManager_outcome {β : Type} {x : ManagerM β} {good : β → Manager → Prop}
    (h : f.Holds k L) (hx : f.manager.Grows x good) :
    Outcome (onManager x) f
      (fun b f' => f'.Holds k L ∧ f.manager.Extends f'.manager ∧ good b f'.manager)
      (fun _ f' => f'.Holds k L) := by
  unfold Outcome onManager
  simp only
  cases hrun : x f.manager with
  | ok b m =>
      obtain ⟨hm, hextends, hgood⟩ := Outcome.of_ok hx hrun
      exact ⟨h.grow hm hextends, hextends, hgood⟩
  | error fault m =>
      obtain ⟨hm, hextends⟩ := Outcome.of_error hx hrun
      exact h.grow hm hextends

/-- A function that the manager makes out of what it has. -/
theorem onManager_builds {x : ManagerM Ref} {F : (UInt32 → Bool) → Bool} (h : f.Holds k L)
    (hx : f.manager.Grows x fun r m => m.Denotes r F)
    (hF : ∀ a, F a = true ↔ a ∈ A) : f.Builds k L (onManager x) A :=
  (onManager_outcome h hx).imp fun _ _ hend => ⟨hend.1, hend.2.1, hend.2.2.means hF⟩

/-! ## Collecting -/

/-- A collection keeps every held set. -/
theorem collect_holds (h : f.Holds k L) :
    Outcome collect f (fun _ f' => f'.Holds k L) (fun _ f' => f'.Holds k L) := by
  have hcollect := collect_outcome h.canonical f.roots.keys
  unfold Outcome collect
  simp only
  cases hrun : Manager.collect f.roots.keys f.manager with
  | ok dropped m =>
      obtain ⟨hm, hextends, hroots⟩ := hcollect.of_ok hrun
      refine ⟨h.alphabet, hm, h.held, fun entry hentry => ?_⟩
      have hmeans := h.means entry hentry
      have hheld := h.held.mem_keys_iff.2 (List.mem_map_of_mem hentry)
      exact hmeans.collected h.canonical.reduced hm.reduced hextends
        (hroots _ hheld hmeans.1)
  | error fault m =>
      obtain ⟨hm, hextends, -⟩ := hcollect.of_error hrun
      exact h.grow hm hextends

theorem safePoint_holds (h : f.Holds k L) :
    Outcome safePoint f (fun _ f' => f'.Holds k L) (fun _ f' => f'.Holds k L) := by
  have hdue : collectionDue f = .ok f.manager.needsCollection f := rfl
  apply Outcome.bind_ok hdue
  cases f.manager.needsCollection with
  | true => exact Outcome.map (collect_holds h)
  | false => exact Outcome.pure h

/-- What is built after a safe point is made. -/
theorem safePoint_makes {x : FactoryM Ref} (h : f.Holds k L)
    (hx : ∀ f : Factory, f.Holds k L → f.Builds k L x A) :
    f.Makes k L (do safePoint; x) A :=
  Outcome.andThen (safePoint_holds h) fun _ f' hf' => (hx f' hf').makes

theorem acquire_holds {root : Ref} (h : f.Holds k L) (hroot : f.manager.Means root A) :
    ∃ f', acquire root f = .ok () f' ∧ f'.Holds k ((root, A) :: L) := by
  obtain ⟨roots, hrun, hroots⟩ := acquire_lists h.held root
  exact ⟨_, hrun, h.alphabet, h.canonical, hroots, List.forall_mem_cons.2 ⟨hroot, h.means⟩⟩

theorem release_holds {root : Ref} (h : f.Holds k ((root, A) :: L)) :
    ∃ f', release root f = .ok () f' ∧ f'.Holds k L := by
  obtain ⟨roots, hrun, hroots⟩ := release_lists h.held
  exact ⟨_, hrun, h.alphabet, h.canonical, hroots, fun entry hentry =>
    h.means entry (List.mem_cons_of_mem _ hentry)⟩

/-- A made root is held as a new set. -/
theorem holding_holds {x : FactoryM Ref} (hx : f.Makes k L x A) :
    Outcome (holding x) f (fun r f' => f'.Holds k ((r, A) :: L)) (fun _ f' => f'.Holds k L) := by
  apply Outcome.andThen hx
  rintro r f₁ ⟨hf₁, hr⟩
  obtain ⟨f₂, hrun, hf₂⟩ := acquire_holds hf₁ hr
  exact Outcome.bind_ok hrun (Outcome.pure hf₂)

/-- A set goes on with another root. -/
theorem replace_holds {old new : Ref} {B : Set Assignment} (h : f.Holds k ((old, A) :: L))
    (hnew : f.manager.Means new B) :
    ∃ f', replace old new f = .ok () f' ∧ f'.Holds k ((new, B) :: L) := by
  obtain ⟨roots, hrun, hroots⟩ := replace_lists h.held new
  exact ⟨_, hrun, h.alphabet, h.canonical, hroots,
    List.forall_mem_cons.2 ⟨hnew, (List.forall_mem_cons.1 h.means).2⟩⟩

section Combining
variable {u v : Ref} {B : Set Assignment}

theorem disj_builds (h : f.Holds k L) (hu : f.manager.Means u A) (hv : f.manager.Means v B) :
    f.Builds k L (onManager (disj u v)) (A ∪ B) :=
  onManager_builds h (disj_grows h.canonical hu.1 hv.1) fun a => by
    rw [Bool.or_eq_true, hu.2, hv.2, Set.mem_union]

theorem diff_builds (h : f.Holds k L) (hu : f.manager.Means u A) (hv : f.manager.Means v B) :
    f.Builds k L (onManager (diff u v)) (A \ B) :=
  onManager_builds h (diff_grows h.canonical hu.1 hv.1) fun a => by
    rw [Bool.and_eq_true, Bool.not_eq_true', ← Bool.not_eq_true, hu.2, hv.2, Set.mem_sdiff]

theorem conj_builds (h : f.Holds k L) (hu : f.manager.Means u A) (hv : f.manager.Means v B) :
    f.Builds k L (onManager (conj u v)) (A ∩ B) :=
  onManager_builds h (conj_grows h.canonical hu.1 hv.1) fun a => by
    rw [Bool.and_eq_true, hu.2, hv.2, Set.mem_inter_iff]

end Combining

/-! ## Sets of letters -/

/-- Asking for the size of the alphabet changes nothing. -/
theorem alphabetSize_run (h : f.alphabetSize = k) :
    (modifyGet fun f : Factory => (f.alphabetSize, f) : FactoryM Nat) f = .ok k f := by
  rw [← h]
  rfl

/-- A cube holds where its literals do, if they are about distinct variables. -/
theorem cube_builds (h : f.Holds k L) {letter : BitSet} {propositions : List Nat}
    (hdistinct : (((propositions.filter (· < k)).map (literal letter)).map (·.var)).Nodup) :
    f.Builds k L (cube letter propositions)
      {a | satisfies ((propositions.filter (· < k)).map (literal letter)) a = true} := by
  apply Outcome.bind_ok (alphabetSize_run h.alphabet)
  dsimp only
  split_ifs
  · exact Outcome.bind (Outcome.throw h)
  · exact onManager_builds h (mkCube_grows h.canonical hdistinct) fun _ => Iff.rfl

/-- A proposition outside the alphabet makes no set. -/
theorem proposition_holds (h : f.Holds k L) (p : Nat) :
    Outcome (proposition p) f
      (fun r f' => f'.Holds k ((r, Set.preimage (letterAt k) {x | ∃ hp : p < k, ⟨p, hp⟩ ∈ x}) :: L))
      (fun _ f' => f'.Holds k L) := by
  refine holding_holds (Outcome.bind_ok (alphabetSize_run h.alphabet) ?_)
  by_cases hp : k ≤ p
  · simp only [hp, if_true]
    exact Outcome.bind (Outcome.throw h)
  · simp only [hp, if_false]
    apply safePoint_makes h
    intro f hf
    apply onManager_builds hf (mkVar_grows hf.canonical _)
    intro a
    simp [letterAt, Nat.lt_of_not_le hp]

private theorem cube_builds_agreeing (h : f.Holds k L) (letter : BitSet) {propositions : List Nat}
    (hfit : ∀ p ∈ propositions, p < k → p + 1 < 2 ^ 31) (hnodup : propositions.Nodup) :
    f.Builds k L (cube letter propositions)
      (Set.preimage (letterAt k) (agreeing (letter.over k) {p | p.val ∈ propositions})) := by
  have hset : {a | satisfies ((propositions.filter (· < k)).map (literal letter)) a = true} =
      Set.preimage (letterAt k) (agreeing (letter.over k) {p | p.val ∈ propositions}) := by
    ext a
    exact satisfies_literals hfit letter a
  exact hset ▸ cube_builds h (literals_distinct hfit letter hnodup)

/-- The propositions that are fixed have numbers that fit a signed number of 32 bits. -/
theorem restricted_holds (h : f.Holds k L) (letter alphabet : BitSet)
    (hfit : ∀ p, alphabet.contains p = true → p < k → p + 1 < 2 ^ 31) :
    Outcome (restricted letter alphabet) f
      (fun r f' => f'.Holds k ((r, Set.preimage (letterAt k)
        (agreeing (letter.over k) (alphabet.over k))) :: L))
      (fun _ f' => f'.Holds k L) := by
  have hmembers : {p : Fin k | p.val ∈ alphabet.toList} = alphabet.over k := by
    ext p
    simp only [Set.mem_ofPred_eq, BitSet.mem_toList, BitSet.over]
  rw [← hmembers]
  exact holding_holds (safePoint_makes h fun _ hf => cube_builds_agreeing hf letter
    (fun p hp => hfit p (BitSet.mem_toList.1 hp)) alphabet.nodup_toList)

section Making
variable (hk : k < 2 ^ 31)
include hk

theorem fullCube_builds (h : f.Holds k L) (letter : BitSet) :
    f.Builds k L (fullCube letter) (Set.preimage (letterAt k) {letter.over k}) := by
  have hall : {p : Fin k | p.val ∈ List.range k} = Set.univ := by
    ext p
    simp
  rw [← agreeing_univ, ← hall]
  exact Outcome.bind_ok (alphabetSize_run h.alphabet)
    (cube_builds_agreeing h letter (fun p _ hp => by omega) List.nodup_range)

theorem singleton_holds (h : f.Holds k L) (letter : BitSet) :
    Outcome (singleton letter) f
      (fun r f' => f'.Holds k ((r, Set.preimage (letterAt k) {letter.over k}) :: L))
      (fun _ f' => f'.Holds k L) :=
  holding_holds (safePoint_makes h fun _ hf => fullCube_builds hk hf letter)

/-- The cubes of several letters are built one after the other. -/
private theorem fullCubes_build (h : f.Holds k L) (letters : List BitSet) :
    Outcome (letters.mapM fullCube) f
      (fun rs f' => f'.Holds k L ∧ f.manager.Extends f'.manager ∧
        (∀ r ∈ rs, f'.manager.Live r) ∧
        ∀ a, (rs.any fun r => f'.manager.value r a) = true ↔
          a ∈ Set.preimage (letterAt k) {x | ∃ letter ∈ letters, letter.over k = x})
      (fun _ f' => f'.Holds k L) := by
  induction letters generalizing f with
  | nil => exact Outcome.pure ⟨h, Extends.refl _, by simp, by simp⟩
  | cons letter rest ih =>
      rw [List.mapM_cons]
      apply Outcome.andThen (fullCube_builds hk h letter)
      rintro r f₁ ⟨hf₁, hextends₁, hr⟩
      apply Outcome.andThen (ih hf₁)
      rintro rs f₂ ⟨hf₂, hextends₂, hlive, hrs⟩
      have hr₂ := hr.extends hf₁.canonical.reduced hf₂.canonical.reduced hextends₂
      refine Outcome.pure ⟨hf₂, hextends₁.trans hextends₂,
        List.forall_mem_cons.2 ⟨hr₂.1, hlive⟩, fun a => ?_⟩
      rw [List.any_cons, Bool.or_eq_true, hr₂.2, hrs]
      simp [eq_comm]

theorem ofLetters_holds (h : f.Holds k L) (letters : List BitSet) :
    Outcome (ofLetters letters) f
      (fun r f' => f'.Holds k ((r, Set.preimage (letterAt k)
        {x | ∃ letter ∈ letters, letter.over k = x}) :: L))
      (fun _ f' => f'.Holds k L) := by
  refine holding_holds (safePoint_makes h fun f hf => ?_)
  apply Outcome.andThen (fullCubes_build hk hf letters)
  rintro rs f₁ ⟨hf₁, hextends₁, hlive, hrs⟩
  exact Outcome.imp (onManager_builds hf₁ (disjAll_grows hf₁.canonical hlive) hrs)
    fun _ _ hend => ⟨hend.1, hextends₁.trans hend.2.1, hend.2.2⟩

theorem withLetter_makes {root : Ref} (h : f.Holds k L) (hroot : (root, A) ∈ L)
    (letter : BitSet) :
    f.Makes k L (withLetter root letter) (A ∪ Set.preimage (letterAt k) {letter.over k}) := by
  apply safePoint_makes h
  intro f hf
  apply Outcome.andThen (fullCube_builds hk hf letter)
  rintro cube f₁ ⟨hf₁, hextends₁, hcube⟩
  exact Outcome.imp (disj_builds hf₁ (hf₁.means _ hroot) hcube)
    fun _ _ hend => ⟨hend.1, hextends₁.trans hend.2.1, hend.2.2⟩

end Making

end Factory

end SymbolicOmega
