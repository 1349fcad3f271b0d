import SymbolicOmega.Proofs.Diagram.Preservation
import SymbolicOmega.Proofs.Letters.Refinement

/-!
# What every call keeps of the managers

All calls on letter sets change a manager by storing nodes, through its computed table and by
collections.  So what these steps keep of every manager, the calls keep, at an answer and at a
fault, whatever sets they are given.
-/

namespace SymbolicOmega

open Manager

variable {β : Type} {P : Manager → Prop}

namespace Factory

/-- What holds of the manager at either end holds of the factory's. -/
theorem onManager_ends {f : Factory} {x : ManagerM β} {good : β → Manager → Prop}
    {bad : Fault → Manager → Prop} (h : Outcome x f.manager good bad) :
    Outcome (onManager x) f (fun b f' => good b f'.manager)
      fun fault f' => bad fault f'.manager := by
  unfold Outcome onManager
  dsimp only
  cases hrun : x f.manager with
  | ok b m => exact h.of_ok hrun
  | error fault m => exact h.of_error hrun

section Steps
variable {I : Factory → Prop} {Q : Fault → Prop}

/-- What the steps of the manager and collections keep of a factory, and the causes that they
fail for. -/
structure Steps (I : Factory → Prop) (Q : Fault → Prop) : Prop where
  manager : ∀ k roots, Manager.Steps (fun m => I ⟨m, k, roots⟩) Q
  collect : Secures I Q collect

/-- The root of a new set is made in steps that keep `I`, and then held. -/
def Acquires (I : Factory → Prop) (Q : Fault → Prop) (x : FactoryM Ref) : Prop :=
  ∃ make, x = holding make ∧ Secures I Q make

theorem acquires_pure (root : Ref) : Acquires I Q (holding (pure root)) :=
  ⟨_, rfl, Secures.pure root⟩

/-- An operation on the manager leaves the rest of the factory alone. -/
theorem onManager_secures {x : ManagerM β}
    (h : ∀ k roots, Secures (fun m => I ⟨m, k, roots⟩) Q x) : Secures I Q (onManager x) := by
  rintro ⟨m, k, roots⟩ hf
  have hend := h k roots m hf
  unfold Outcome onManager
  dsimp only
  cases hrun : x m with
  | ok b m' => exact hend.of_ok hrun
  | error fault m' => exact hend.of_error hrun

theorem read_secures (question : Factory → β) :
    Secures I Q (modifyGet fun f => (question f, f)) := fun _ hf => hf

namespace Steps

variable (h : Steps I Q)
include h

theorem safePoint : Secures I Q Factory.safePoint := by
  have hdue : Secures I Q collectionDue := fun _ hf => hf
  apply hdue.bind
  rintro (_ | _)
  · exact Secures.pure ()
  · exact h.collect.map

/-- If-then-else at a safe point, and what is made of its answer. -/
theorem iteAtSafePoint (u v r : Ref) : Secures I Q (do
    Factory.safePoint
    onManager (Manager.ite u v r)) :=
  h.safePoint.bind fun _ => onManager_secures fun k roots => (h.manager k roots).ite _ _ _

theorem askAtSafePoint (u v r : Ref) (answer : Ref → β) : Secures I Q (do
    Factory.safePoint
    onManager (do return answer (← Manager.ite u v r))) :=
  h.safePoint.bind fun _ => onManager_secures fun k held =>
    ((h.manager k held).ite _ _ _).bind fun _ => Secures.pure _

theorem cube (letter : BitSet) (propositions : List Nat) :
    Secures I Q (Factory.cube letter propositions) :=
  (read_secures _).bind fun _ =>
    Secures.throwIf ((h.manager 0 .none).causes .arithmeticOverflow trivial)
      (onManager_secures fun k roots => (h.manager k roots).mkCube _)

theorem fullCube (letter : BitSet) : Secures I Q (Factory.fullCube letter) :=
  (read_secures _).bind fun _ => h.cube letter _

theorem withLetter (root : Ref) (letter : BitSet) :
    Secures I Q (Factory.withLetter root letter) :=
  h.safePoint.bind fun _ => (h.fullCube letter).bind fun _ =>
    onManager_secures fun k roots => (h.manager k roots).ite _ _ _

theorem singleton (letter : BitSet) : Acquires I Q (Factory.singleton letter) :=
  ⟨_, rfl, h.safePoint.bind fun _ => h.fullCube letter⟩

theorem restricted (letter alphabet : BitSet) : Acquires I Q (Factory.restricted letter alphabet) :=
  ⟨_, rfl, h.safePoint.bind fun _ => h.cube letter _⟩

theorem proposition (p : Nat) (hQ : ∀ k, Q (.propositionOutside p k)) :
    Acquires I Q (Factory.proposition p) := by
  refine ⟨_, rfl, (read_secures _).bind fun size => Secures.throwIf (hQ size) ?_⟩
  exact h.safePoint.bind fun _ => onManager_secures fun k roots => (h.manager k roots).mkNode _ _ _

theorem ofLetters (letters : List BitSet) : Acquires I Q (Factory.ofLetters letters) :=
  ⟨_, rfl, h.safePoint.bind fun _ => (Secures.mapM h.fullCube letters).bind fun cubes =>
    onManager_secures fun k roots => (h.manager k roots).disjAll cubes⟩

end Steps

end Steps

/-- What holds of the manager. -/
def Has (P : Manager → Prop) (f : Factory) : Prop := P f.manager

theorem acquire_upholds (root : Ref) : Upholds (Has P) (acquire root) := fun _ hf => hf

theorem forget_upholds (root : Ref) : Upholds (Has P) (forget root) := by
  intro f hf
  unfold Outcome forget
  by_cases hheld : root ∈ f.roots.keys
  · simp only [hheld, if_true]
    exact hf
  · simp only [hheld, if_false]
    exact hf

theorem release_upholds (root : Ref) : Upholds (Has P) (release root) := by
  have hrecount : Upholds (Has P) (recount (· - 1)) := fun _ hf => hf
  exact (forget_upholds root).bind fun _ => hrecount

theorem replace_upholds (old new : Ref) : Upholds (Has P) (replace old new) := by
  have hretain : Upholds (Has P) (retain new) := fun _ hf => hf
  exact Upholds.ite (Upholds.pure ()) (hretain.bind fun _ => forget_upholds old)

theorem holding_upholds {x : FactoryM Ref} (h : Upholds (Has P) x) :
    Upholds (Has P) (holding x) :=
  h.bind fun root => (acquire_upholds root).bind fun _ => Upholds.pure root

theorem Acquires.upholds {Q : Fault → Prop} {x : FactoryM Ref} (h : Acquires (Has P) Q x) :
    Upholds (Has P) x := by
  obtain ⟨make, rfl, hmake⟩ := h
  exact holding_upholds (.of_secures (hmake.mono fun _ _ => trivial))

theorem collect_upholds (hP : Lasting P) : Upholds (Has P) collect := by
  intro f hf
  have hend := hP.collect f.roots.keys f.manager hf
  unfold Outcome collect
  dsimp only
  cases hrun : Manager.collect f.roots.keys f.manager with
  | ok dropped m => exact hend.of_ok hrun
  | error fault m => exact hend.of_error hrun

theorem steps_of_lasting (hP : Lasting P) : Steps (Has P) fun _ => True where
  manager _ _ := hP.steps
  collect := (collect_upholds hP).secures

end Factory

/-! ## Workspaces -/

namespace Workspace

/-- What holds of the managers of all factories. -/
def Managers (P : Manager → Prop) (w : Workspace) : Prop :=
  ∀ f ∈ w.factories, P f.manager

theorem ofFactories_managers {factories : List Factory} (h : ∀ f ∈ factories, P f.manager) :
    (ofFactories factories).Managers P := fun f hf => h f (List.mem_toArray.1 hf)

theorem inFactory_upholds {x : FactoryM β} (i : Nat) (h : Upholds (Factory.Has P) x) :
    Upholds (Managers P) (inFactory i x) := by
  intro w hw
  unfold Outcome inFactory
  by_cases hi : i < w.factories.size
  · have hset : ∀ f, P f.manager →
        ∀ g ∈ (w.factories.swapAt i default hi).2.setIfInBounds i f, P g.manager := by
      intro f hf g hg
      simp only [Array.swapAt, Array.setIfInBounds, Array.size_set, hi, dif_pos,
        Array.set_set] at hg
      obtain hold | rfl := Array.mem_or_eq_of_mem_set hg
      · exact hw g hold
      · exact hf
    have hend := h _ (hw (w.factories.swapAt i default hi).1 (Array.getElem_mem hi))
    simp only [hi, dif_pos]
    cases hrun : x (w.factories.swapAt i default hi).1 with
    | ok b f => exact hset f (hend.of_ok hrun)
    | error fault f => exact hset f (hend.of_error hrun)
  · simpa only [hi, dif_neg, not_false_eq_true] using hw

theorem onFault_upholds {Q : Workspace → Prop} {x : WorkM β} {cleanup : WorkM Unit}
    (hx : Upholds Q x) (hcleanup : Upholds Q cleanup) : Upholds Q (onFault x cleanup) :=
  fun w hw => onFault_outcome ((hx w hw).mono (fun _ _ hend => hend) fun _ w' hw' =>
    hcleanup w' hw')

end Workspace

/-! ## Calls -/

namespace LetterSet

open Workspace

theorem make_upholds (owner : Nat) {root : FactoryM Ref} (h : Upholds (Factory.Has P) root) :
    Upholds (Managers P) (make owner root) :=
  (inFactory_upholds owner h).bind fun _ => Upholds.pure _

theorem copy_upholds (s : LetterSet) : Upholds (Managers P) s.copy :=
  make_upholds s.owner (Factory.holding_upholds (Upholds.pure s.root))

theorem release_upholds (s : LetterSet) : Upholds (Managers P) s.release :=
  inFactory_upholds s.owner (Factory.release_upholds s.root)

theorem releaseAll_upholds (sets : List LetterSet) : Upholds (Managers P) (releaseAll sets) :=
  Upholds.forM release_upholds sets

theorem checkOwner_upholds (s t : LetterSet) : Upholds (Managers P) (checkOwner s t) :=
  Upholds.ite (Upholds.pure ()) (Upholds.throw _)

theorem update_upholds (s : LetterSet) {root : FactoryM Ref} (h : Upholds (Factory.Has P) root) :
    Upholds (Managers P) (s.update root) :=
  inFactory_upholds s.owner (h.bind fun new =>
    (Factory.replace_upholds s.root new).bind fun _ => Upholds.pure _)

theorem changed_upholds (s : LetterSet) {change : LetterSet → WorkM LetterSet}
    (h : ∀ s, Upholds (Managers P) (change s)) : Upholds (Managers P) (s.changed change) :=
  (copy_upholds s).bind fun result => onFault_upholds (h result) (release_upholds result)

theorem select_upholds (sets : List LetterSet) (i : Nat) :
    Upholds (Managers P) (select sets i) := by
  rw [select]
  cases sets[i]? with
  | some s => exact Upholds.pure s
  | none => exact Upholds.throw _

section Lasting
variable (hP : Lasting P)
include hP

theorem containsAll_upholds (s t : LetterSet) : Upholds (Managers P) (s.containsAll t) :=
  (checkOwner_upholds s t).bind fun _ => inFactory_upholds s.owner
    (.of_secures ((Factory.steps_of_lasting hP).askAtSafePoint _ _ _ _))

theorem intersects_upholds (s t : LetterSet) : Upholds (Managers P) (s.intersects t) :=
  ((checkOwner_upholds s t).bind fun _ => inFactory_upholds s.owner
    (.of_secures ((Factory.steps_of_lasting hP).askAtSafePoint _ _ _ _))).bind fun _ =>
      Upholds.pure _

theorem merge_upholds (s t : LetterSet) (u v r : Ref) :
    Upholds (Managers P) (s.merge t (Manager.ite u v r)) :=
  (checkOwner_upholds s t).bind fun _ => update_upholds s
    (.of_secures ((Factory.steps_of_lasting hP).iteAtSafePoint u v r))

theorem absorb_upholds (s t : LetterSet) : Upholds (Managers P) (s.absorb t) :=
  fun w hw => Outcome.tryFinally ((merge_upholds hP s t _ _ _ w hw).mono
    (fun _ w' hw' => release_upholds t w' hw') fun _ w' hw' => release_upholds t w' hw')

theorem mergeWith_upholds (operation : SetOperation) (s t : LetterSet) :
    Upholds (Managers P) (operation.merge s t) := by
  cases operation <;> exact merge_upholds hP s t _ _ _

theorem apply_upholds (operation : SetOperation) (s t : LetterSet) :
    Upholds (Managers P) (operation.apply s t) := by
  cases operation <;> exact changed_upholds s fun s => merge_upholds hP s t _ _ _

/-- What storing a node, the computed table and a collection keep of a manager, every call
keeps of all of them. -/
theorem Call.perform_upholds (owner : Nat) (sets : List LetterSet) (call : Call) :
    Upholds (Managers P) (call.perform owner sets) := by
  have hnew : ∀ {x : WorkM LetterSet} {rest : List LetterSet}, Upholds (Managers P) x →
      Upholds (Managers P) do return (← x) :: rest := fun hx => hx.bind fun _ => Upholds.pure _
  have hasked : ∀ {x : WorkM Bool}, Upholds (Managers P) x →
      Upholds (Managers P) do discard x; return sets :=
    fun hx => hx.map.bind fun _ => Upholds.pure _
  have hone : ∀ {f : LetterSet → WorkM (List LetterSet)} (i : Nat),
      (∀ s, Upholds (Managers P) (f s)) → Upholds (Managers P) (select sets i >>= f) :=
    fun i hf => (select_upholds sets i).bind hf
  have hmake : ∀ {x : FactoryM Ref}, Factory.Acquires (Factory.Has P) (fun _ => True) x →
      Upholds (Managers P) (make owner x) := fun hx => make_upholds owner hx.upholds
  have hsteps := Factory.steps_of_lasting hP
  cases call with
  | empty => exact hnew (hmake (Factory.acquires_pure Ref.zero))
  | all => exact hnew (hmake (Factory.acquires_pure Ref.one))
  | singleton letter => exact hnew (hmake (hsteps.singleton letter))
  | restricted letter alphabet => exact hnew (hmake (hsteps.restricted letter alphabet))
  | proposition p => exact hnew (hmake (hsteps.proposition p fun _ => trivial))
  | ofLetters letters => exact hnew (hmake (hsteps.ofLetters letters))
  | add i letter =>
      exact hone i fun s => hnew (update_upholds s (.of_secures (hsteps.withLetter s.root letter)))
  | merge operation i j =>
      exact hone i fun s => hone j fun t => hnew (mergeWith_upholds hP operation s t)
  | absorb i j =>
      exact hone i fun s => (select_upholds _ j).bind fun t => hnew (absorb_upholds hP s t)
  | complement i =>
      exact hone i fun s => hnew (make_upholds s.owner
        (Factory.holding_upholds (Upholds.pure (-s.root))))
  | combine operation i j =>
      exact hone i fun s => hone j fun t => hnew (apply_upholds hP operation s t)
  | copy i => exact hone i fun s => hnew (copy_upholds s)
  | release i => exact hone i fun s => (release_upholds s).bind fun _ => Upholds.pure _
  | containsAll i j => exact hone i fun s => hone j fun t => hasked (containsAll_upholds hP s t)
  | intersects i j => exact hone i fun s => hone j fun t => hasked (intersects_upholds hP s t)
  | collect =>
      exact (inFactory_upholds owner (Factory.collect_upholds hP)).map.bind fun _ => Upholds.pure _

theorem performAll_upholds (owner : Nat) (calls : List Call) (sets : List LetterSet) :
    Upholds (Managers P) (performAll owner calls sets) :=
  Upholds.foldlM (fun sets call => Call.perform_upholds hP owner sets call) calls sets

end Lasting

end LetterSet

end SymbolicOmega
