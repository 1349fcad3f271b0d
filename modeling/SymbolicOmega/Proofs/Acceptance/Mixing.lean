import SymbolicOmega.Acceptance.Split
import SymbolicOmega.Proofs.Letters.Preservation

/-!
# Sets of transitions and factories

A label is compared with the factory of a set of transitions only where the set has a label
already, and then it is compared with that label.  So the first label at a state may be of any
factory, and from then on it decides which labels are refused there.  Where all first labels were
of the set's own factory, the set has no others, and no question about it fails because of them.
-/

namespace SymbolicOmega

open Workspace

/-- Whatever the workspace is, the operation answers something `good`, or does not fail because
sets of two factories were combined. -/
def Unmixed {β : Type} (x : WorkM β) (good : β → Prop) : Prop :=
  ∀ w, Outcome x w (fun b _ => good b) (fun fault _ => fault ≠ .foreignFactory)

namespace Unmixed

variable {α β : Type} {x : WorkM α} {good : α → Prop}

protected theorem pure {a : α} (h : good a) : Unmixed (pure a) good := fun _ => Outcome.pure h

protected theorem bind {f : α → WorkM β} {good' : β → Prop} (h : Unmixed x good)
    (hf : ∀ a, good a → Unmixed (f a) good') : Unmixed (x >>= f) good' :=
  fun w => Outcome.andThen (h w) fun a w' ha => hf a ha w'

theorem imp {good' : α → Prop} (h : Unmixed x good) (hgood : ∀ a, good a → good' a) :
    Unmixed x good' :=
  fun w => (h w).imp fun a _ ha => hgood a ha

protected theorem tryFinally {last : WorkM β} {any : β → Prop} (h : Unmixed x good)
    (hlast : Unmixed last any) : Unmixed (tryFinally x last) good :=
  fun w => Outcome.tryFinally ((h w).mono
    (fun _ w' ha => (hlast w').mono (fun _ _ _ => ha) fun _ _ hend => hend)
    fun _ w' hfault => (hlast w').mono (fun _ _ _ => hfault) fun _ _ hend => hend)

theorem onFault {cleanup : WorkM Unit} {any : Unit → Prop} (h : Unmixed x good)
    (hcleanup : Unmixed cleanup any) : Unmixed (onFault x cleanup) good :=
  fun w => onFault_outcome ((h w).mono (fun _ _ ha => ha) fun _ w' hfault =>
    (hcleanup w').mono (fun _ _ _ => hfault) fun _ _ hend => hend)

/-- What a factory does it does for causes of its own. -/
theorem inFactory {i : Nat} {x : FactoryM α}
    (h : ∀ f, Outcome x f (fun a _ => good a) fun fault _ => fault ≠ .foreignFactory) :
    Unmixed (inFactory i x) good := by
  intro w
  unfold Outcome Workspace.inFactory
  by_cases hi : i < w.factories.size
  · simp only [hi, dif_pos]
    have hend := h (w.factories.swapAt i default hi).1
    cases hrun : x (w.factories.swapAt i default hi).1 with
    | ok a f => exact hend.of_ok hrun
    | error fault f => exact hend.of_error hrun
  · simp only [hi, dif_neg, not_false_eq_true]
    exact Fault.noConfusion

theorem ofFactory {i : Nat} {x : FactoryM α} (h : FailsBy (· ≠ .foreignFactory) x) :
    Unmixed (Workspace.inFactory i x) fun _ => True :=
  Unmixed.inFactory fun f => (h f trivial).mono (fun _ _ _ => trivial) fun _ _ hend => hend.1

end Unmixed

namespace Factory

theorem forget_failsBy (root : Ref) : FailsBy (· ≠ .foreignFactory) (forget root) := by
  intro f _
  unfold Outcome forget
  by_cases hheld : root ∈ f.roots.keys
  · simp only [hheld, if_true]
  · simp only [hheld, if_false]
    exact ⟨Fault.noConfusion, trivial⟩

theorem release_failsBy (root : Ref) : FailsBy (· ≠ .foreignFactory) (release root) := by
  have hrecount : FailsBy (· ≠ .foreignFactory) (recount (· - 1)) := fun _ _ => trivial
  exact (forget_failsBy root).bind fun _ => hrecount

theorem replace_failsBy (old new : Ref) : FailsBy (· ≠ .foreignFactory) (replace old new) := by
  have hretain : FailsBy (· ≠ .foreignFactory) (retain new) := fun _ _ => trivial
  exact Secures.ite (Secures.pure ()) (hretain.bind fun _ => forget_failsBy old)

theorem Acquires.failsBy {x : FactoryM Ref}
    (h : Acquires (fun _ => True) (· ≠ .foreignFactory) x) : FailsBy (· ≠ .foreignFactory) x := by
  obtain ⟨make, rfl, hmake⟩ := h
  have hacquire : ∀ root, FailsBy (· ≠ .foreignFactory) (acquire root) := fun _ _ _ => trivial
  exact hmake.bind fun root => (hacquire root).bind fun _ => Secures.pure root

/-- The steps of one factory know of no other. -/
theorem steps_unmixed : Steps (fun _ => True) (· ≠ .foreignFactory) where
  manager _ _ :=
    have hmono : ∀ fault : Fault, fault.OfDiagram → fault ≠ .foreignFactory := by
      rintro fault h rfl
      exact h
    { causes := hmono
      put := fun node => (Manager.steps_ofDiagram.put node).mono hmono
      computed := fun x => (Manager.steps_ofDiagram.computed x).mono hmono }
  collect := by
    rintro ⟨m, k, roots⟩ _
    have hend := Manager.collect_failsBy roots.keys m trivial
    unfold Outcome collect
    dsimp only
    cases hrun : Manager.collect roots.keys m with
    | ok dropped m' => trivial
    | error fault m' =>
        refine ⟨?_, trivial⟩
        rintro rfl
        exact (hend.of_error hrun).1

end Factory

namespace LetterSet

variable {i : Nat} {s t : LetterSet}

theorem make_unmixed {root : FactoryM Ref}
    (h : Factory.Acquires (fun _ => True) (· ≠ .foreignFactory) root) :
    Unmixed (make i root) (·.owner = i) :=
  (Unmixed.ofFactory h.failsBy).bind fun _ _ => Unmixed.pure rfl

theorem all_unmixed : Unmixed (all i) (·.owner = i) :=
  make_unmixed (Factory.acquires_pure Ref.one)

theorem copy_unmixed (s : LetterSet) : Unmixed s.copy (·.owner = s.owner) :=
  make_unmixed (Factory.acquires_pure s.root)

theorem release_unmixed (s : LetterSet) : Unmixed s.release fun _ => True :=
  Unmixed.ofFactory (Factory.release_failsBy s.root)

theorem releaseAll_unmixed (sets : List LetterSet) : Unmixed (releaseAll sets) fun _ => True := by
  induction sets with
  | nil => exact Unmixed.pure trivial
  | cons first rest ih => exact (release_unmixed first).bind fun _ _ => ih

/-- A set that goes on stays in its factory. -/
theorem update_unmixed {root : FactoryM Ref} (h : FailsBy (· ≠ .foreignFactory) root) :
    Unmixed (s.update root) (·.owner = s.owner) := by
  apply Unmixed.inFactory
  intro f
  apply Outcome.andThen ((h f trivial).mono (fun _ _ _ => trivial) fun _ _ hend => hend.1)
  intro new f₁ _
  exact Outcome.andThen ((Factory.replace_failsBy s.root new f₁ trivial).mono
    (fun _ _ _ => trivial) fun _ _ hend => hend.1) fun _ _ _ => Outcome.pure rfl

theorem checkOwner_unmixed (hsame : s.owner = t.owner) :
    Unmixed (checkOwner s t) fun _ => True := fun _ => Outcome.of_run (checkOwner_run hsame) trivial

section Same
variable (hsame : s.owner = t.owner)
include hsame

theorem compare_unmixed (u v r : Ref) (answer : Ref → Bool) :
    Unmixed (compare s t do return answer (← Manager.ite u v r)) fun _ => True :=
  (checkOwner_unmixed hsame).bind fun _ _ =>
    Unmixed.ofFactory (Factory.steps_unmixed.askAtSafePoint u v r answer)

theorem containsAll_unmixed : Unmixed (s.containsAll t) fun _ => True :=
  compare_unmixed hsame _ _ _ _

theorem intersects_unmixed : Unmixed (s.intersects t) fun _ => True :=
  (compare_unmixed hsame _ _ _ _).bind fun _ _ => Unmixed.pure trivial

theorem merge_unmixed (u v r : Ref) :
    Unmixed (s.merge t (Manager.ite u v r)) (·.owner = s.owner) :=
  (checkOwner_unmixed hsame).bind fun _ _ =>
    update_unmixed (Factory.steps_unmixed.iteAtSafePoint u v r)

theorem absorb_unmixed : Unmixed (s.absorb t) (·.owner = s.owner) :=
  (merge_unmixed hsame _ _ _).tryFinally (release_unmixed t)

omit hsame in
/-- Of another factory nothing can be added. -/
theorem absorb_owner {new : LetterSet} {w w' : Workspace} (hrun : s.absorb t w = .ok new w') :
    new.owner = s.owner := by
  by_cases hsame : s.owner = t.owner
  · exact (absorb_unmixed hsame w).of_ok hrun
  · have hfails : Outcome (s.absorb t) w (fun _ _ => False) fun _ _ => True := by
      refine Outcome.tryFinally (Outcome.bind ?_)
      rw [checkOwner, if_neg hsame]
      exact Outcome.throw ((Outcome.always t.release w).mono (fun _ _ _ => trivial)
        fun _ _ _ => trivial)
    exact (hfails.of_ok hrun).elim

/-- A changed copy is a set of the same factory. -/
theorem changed_unmixed {change : LetterSet → WorkM LetterSet}
    (hchange : ∀ s' : LetterSet, s'.owner = t.owner →
      Unmixed (change s') (·.owner = s'.owner)) :
    Unmixed (s.changed change) (·.owner = s.owner) := by
  apply (copy_unmixed s).bind
  intro result hresult
  exact ((hchange result (hresult.trans hsame)).imp fun _ h => h.trans hresult).onFault
    (release_unmixed result)

theorem intersection_unmixed : Unmixed (s.intersection t) (·.owner = s.owner) :=
  changed_unmixed hsame fun _ hs' => merge_unmixed hs' _ _ _

theorem difference_unmixed : Unmixed (s.difference t) (·.owner = s.owner) :=
  changed_unmixed hsame fun _ hs' => merge_unmixed hs' _ _ _

end Same

end LetterSet

/-! ## What a set of transitions comes to -/

namespace TransitionSet

open LetterSet

variable {S : Type}

/-- The factory of the label at each state. -/
def origins (set : TransitionSet S) : List (S × Nat) :=
  set.labels.map fun entry => (entry.1, entry.2.owner)

section Origins
variable [DecidableEq S] {set set' : TransitionSet S} {state : S} {label own : LetterSet}

theorem lookup_origins (set : TransitionSet S) (state : S) :
    set.origins.lookup state = (set.label? state).map LetterSet.owner := by
  rw [origins, label?]
  induction set.labels with
  | nil => rfl
  | cons entry rest ih =>
      rw [List.map_cons, List.lookup_cons, List.lookup_cons]
      cases state == entry.1 with
      | true => rfl
      | false => exact ih

/-- A label of the same factory leaves the origins as they are. -/
theorem origins_setLabel {labels : List (S × LetterSet)} (hown : labels.lookup state = some own)
    (hsame : label.owner = own.owner) :
    (setLabel state label labels).map (fun entry => (entry.1, entry.2.owner)) =
      labels.map fun entry => (entry.1, entry.2.owner) := by
  induction labels with
  | nil => cases hown
  | cons entry rest ih =>
      obtain ⟨x, old⟩ := entry
      by_cases hx : x = state
      · subst hx
        obtain rfl : old = own := by simpa using hown
        simp [setLabel, hsame]
      · have hne : (state == x) = false := beq_eq_false_iff_ne.2 (Ne.symm hx)
        simp only [List.lookup_cons, hne] at hown
        simp [setLabel, hx, ih hown]

theorem insert_run_none (hown : set.label? state = none) (w : Workspace) :
    set.insert state label w = .ok { set with labels := set.labels ++ [(state, label)] } w := by
  rw [insert, hown]
  rfl

theorem insert_run_some (hown : set.label? state = some own) (w : Workspace) :
    set.insert state label w = (do
      let new ← own.absorb label
      return { set with labels := setLabel state new set.labels } : WorkM (TransitionSet S)) w := by
  rw [insert, hown]

/-- A label is stored with its factory where there is none, and where there is one, that one's
factory stays. -/
theorem insert_origins {w w' : Workspace} (hrun : set.insert state label w = .ok set' w') :
    set'.owner = set.owner ∧
      set'.origins = if (set.label? state).isSome then set.origins
        else set.origins ++ [(state, label.owner)] := by
  cases hown : set.label? state with
  | none =>
      rw [insert_run_none hown] at hrun
      cases hrun
      exact ⟨rfl, List.map_append⟩
  | some own =>
      rw [insert_run_some hown] at hrun
      cases habsorb : own.absorb label w with
      | error fault w₁ => simp [run_bind_error habsorb] at hrun
      | ok new w₁ =>
          rw [run_bind habsorb] at hrun
          cases hrun
          exact ⟨rfl, origins_setLabel hown (absorb_owner habsorb)⟩

omit [DecidableEq S] in
theorem copy_origins {w w' : Workspace} (hrun : set.copy w = .ok set' w') :
    set'.owner = set.owner ∧ set'.origins = set.origins := by
  have hlabels : ∀ (labels : List (S × LetterSet)) (w : Workspace),
      Outcome (labels.mapM fun entry => do return (entry.1, ← entry.2.copy)) w
        (fun copies _ => copies.map (fun entry => (entry.1, entry.2.owner)) =
          labels.map fun entry => (entry.1, entry.2.owner)) fun _ _ => True := by
    intro labels
    induction labels with
    | nil => exact fun _ => Outcome.pure rfl
    | cons entry rest ih =>
        intro w
        rw [List.mapM_cons]
        have hfirst : Outcome (do return (entry.1, ← entry.2.copy)) w
            (fun copied _ => (copied.1, copied.2.owner) = (entry.1, entry.2.owner))
            fun _ _ => True :=
          Outcome.bind_answers ((copy_unmixed entry.2 w).mono (fun _ _ h => h)
            fun _ _ _ => trivial) fun s _ hs => Outcome.pure (by rw [hs])
        apply Outcome.bind_answers hfirst
        intro copied w₁ hcopied
        apply Outcome.bind_answers (ih w₁)
        intro copies w₂ hcopies
        exact Outcome.pure (by rw [List.map_cons, List.map_cons, hcopied, hcopies])
  have hcopy : Outcome set.copy w
      (fun copied _ => copied.owner = set.owner ∧ copied.origins = set.origins)
      fun _ _ => True := by
    apply Outcome.bind_answers (hlabels set.labels w)
    intro copies w₁ hcopies
    exact Outcome.of_run rfl ⟨rfl, hcopies⟩
  exact hcopy.of_ok hrun

end Origins

section Histories
variable [DecidableEq S]

/-- The factory of the first label at each state, after one more label. -/
def noteFirst (first : S → Option Nat) (state : S) (owner : Nat) : S → Option Nat :=
  Function.update first state (some ((first state).getD owner))

/-- What a set of transitions comes to by adding letters and by copying it, in workspaces where
anything may have happened in between, and for each state the factory of the first label that was
added there.  After an operation that failed the set is what it was before. -/
inductive Collected (owner : Nat) : TransitionSet S → (S → Option Nat) → Prop
  | created {set : TransitionSet S} {w w' : Workspace} :
      create owner w = .ok set w' → Collected owner set fun _ => none
  | inserted {set set' : TransitionSet S} {first : S → Option Nat} {w w' : Workspace}
      (state : S) (label : LetterSet) :
      Collected owner set first → set.insert state label w = .ok set' w' →
        Collected owner set' (noteFirst first state label.owner)
  | insertedAll {set set' : TransitionSet S} {first : S → Option Nat} {w w' : Workspace}
      (state : S) :
      Collected owner set first → set.insertAll state w = .ok set' w' →
        Collected owner set' (noteFirst first state set.owner)
  | copied {set set' : TransitionSet S} {first : S → Option Nat} {w w' : Workspace} :
      Collected owner set first → set.copy w = .ok set' w' → Collected owner set' first

/-- At every state the first label was of the factory at `owner`. -/
def OwnFirst (owner : Nat) (first : S → Option Nat) : Prop :=
  ∀ state i, first state = some i → i = owner

/-- All labels are of the set's own factory. -/
def Own (set : TransitionSet S) : Prop :=
  ∀ entry ∈ set.labels, entry.2.owner = set.owner

variable {owner : Nat} {set : TransitionSet S} {first : S → Option Nat}

/-- Origins where a label is added are those noted. -/
private theorem noted_origins {origins origins' : List (S × Nat)} {state : S} {i : Nat}
    (hnoted : ∀ x, origins.lookup x = first x) (hall : ∀ entry ∈ origins, first entry.1 = some entry.2)
    (horigins : origins' = if (origins.lookup state).isSome then origins
      else origins ++ [(state, i)]) :
    (∀ x, origins'.lookup x = noteFirst first state i x) ∧
      ∀ entry ∈ origins', noteFirst first state i entry.1 = some entry.2 := by
  cases hstate : first state with
  | some j =>
      have hsame : noteFirst first state i = first := by
        rw [noteFirst, hstate, Option.getD_some, ← hstate, Function.update_eq_self]
      rw [hnoted, hstate, Option.isSome_some, if_pos rfl] at horigins
      rw [horigins, hsame]
      exact ⟨hnoted, hall⟩
  | none =>
      rw [hnoted, hstate, Option.isSome_none, if_neg Bool.false_ne_true] at horigins
      rw [horigins, noteFirst, hstate, Option.getD_none]
      refine ⟨fun x => ?_, fun entry hentry => ?_⟩
      · rw [List.lookup_append, hnoted]
        by_cases hx : x = state
        · subst hx
          simp [hstate]
        · have hne : (x == state) = false := beq_eq_false_iff_ne.2 hx
          simp [Function.update_of_ne hx, List.lookup_cons, hne]
      · obtain hold | hnew := List.mem_append.1 hentry
        · have hne : entry.1 ≠ state := by
            intro heq
            have hfirst := hall entry hold
            rw [heq, hstate] at hfirst
            cases hfirst
          rw [Function.update_of_ne hne]
          exact hall entry hold
        · obtain rfl := List.mem_singleton.1 hnew
          exact Function.update_self ..

theorem Collected.owner_eq (h : Collected owner set first) : set.owner = owner := by
  induction h with
  | created hrun =>
      cases hrun
      rfl
  | inserted state label _ hrun ih => exact (insert_origins hrun).1.trans ih
  | @insertedAll set set' first w w' state _ hrun ih =>
      cases hall : LetterSet.all set.owner w with
      | error fault w₁ => simp [insertAll, run_bind_error hall] at hrun
      | ok label w₁ =>
          rw [insertAll, run_bind hall] at hrun
          exact (insert_origins hrun).1.trans ih
  | copied _ hrun ih => exact (copy_origins hrun).1.trans ih

/-- The labels are of the factories that came first. -/
theorem Collected.origins (h : Collected owner set first) :
    (∀ state, set.origins.lookup state = first state) ∧
      ∀ entry ∈ set.origins, first entry.1 = some entry.2 := by
  induction h with
  | created hrun =>
      cases hrun
      exact ⟨fun _ => rfl, by simp [TransitionSet.origins]⟩
  | @inserted set set' first w w' state label _ hrun ih =>
      refine noted_origins ih.1 ih.2 ((insert_origins hrun).2.trans ?_)
      rw [lookup_origins, Option.isSome_map]
  | @insertedAll set set' first w w' state _ hrun ih =>
      cases hall : LetterSet.all set.owner w with
      | error fault w₁ => simp [insertAll, run_bind_error hall] at hrun
      | ok label w₁ =>
          rw [insertAll, run_bind hall] at hrun
          have howner : label.owner = set.owner := (all_unmixed w).of_ok hall
          refine noted_origins ih.1 ih.2 ((insert_origins hrun).2.trans ?_)
          rw [lookup_origins, Option.isSome_map, howner]
  | copied _ hrun ih => rwa [(copy_origins hrun).2]

theorem Collected.label?_owner (h : Collected owner set first) (state : S) :
    (set.label? state).map LetterSet.owner = first state := by
  rw [← lookup_origins]
  exact h.origins.1 state

/-- A set has only labels of its own factory exactly if no first label was of another. -/
theorem Collected.own_iff (h : Collected owner set first) : set.Own ↔ OwnFirst owner first := by
  constructor
  · intro hown state i hfirst
    rw [← h.origins.1 state] at hfirst
    obtain ⟨before, after, hsplit, -⟩ := List.lookup_eq_some_iff.1 hfirst
    have hmem : (state, i) ∈ set.origins := hsplit ▸ List.mem_append_right _ List.mem_cons_self
    obtain ⟨entry, hentry, heq⟩ := List.mem_map.1 hmem
    rw [← (Prod.mk.inj heq).2, hown entry hentry, h.owner_eq]
  · intro hown entry hentry
    rw [h.owner_eq]
    exact hown entry.1 _ (h.origins.2 _ (List.mem_map_of_mem hentry))

end Histories

section Questions
variable [DecidableEq S] {set other : TransitionSet S} {state : S} {label : LetterSet}

theorem Own.label?_owner (h : set.Own) {own : LetterSet} (hown : set.label? state = some own) :
    own.owner = set.owner := by
  obtain ⟨before, after, hsplit, -⟩ := List.lookup_eq_some_iff.1 hown
  exact h (state, own) (hsplit ▸ List.mem_append_right _ List.mem_cons_self)

theorem Own.containsAllAt (h : set.Own) (hlabel : label.owner = set.owner) :
    Unmixed (set.containsAllAt state label) fun _ => True := by
  rw [TransitionSet.containsAllAt]
  cases hown : set.label? state with
  | none => exact Unmixed.pure trivial
  | some own => exact containsAll_unmixed ((h.label?_owner hown).trans hlabel.symm)

theorem Own.containsAll (h : set.Own) (hother : other.Own) (hsame : other.owner = set.owner) :
    Unmixed (set.containsAll other) fun _ => True := by
  rw [TransitionSet.containsAll]
  have hall : FailsBy (· ≠ .foreignFactory)
      (other.labels.allM fun entry => set.containsAllAt entry.1 entry.2) := by
    apply Secures.allM
    intro entry hentry w _
    exact (h.containsAllAt ((hother entry hentry).trans hsame) w).mono (fun _ _ hend => hend)
      fun _ _ hend => ⟨hend, trivial⟩
  exact fun w => (hall w trivial).mono (fun _ _ hend => hend) fun _ _ hend => hend.1

theorem Own.insert (h : set.Own) (hlabel : label.owner = set.owner) :
    Unmixed (set.insert state label) fun _ => True := by
  rw [TransitionSet.insert]
  cases hown : set.label? state with
  | none => exact Unmixed.pure trivial
  | some own =>
      exact (absorb_unmixed ((h.label?_owner hown).trans hlabel.symm)).bind
        fun _ _ => Unmixed.pure trivial

theorem Own.insertAll (h : set.Own) : Unmixed (set.insertAll state) fun _ => True :=
  all_unmixed.bind fun _ hlabel => h.insert hlabel

end Questions

end TransitionSet

namespace Rabin

open LetterSet

variable {S : Type} {owner : Nat}

theorem cut_unmixed {covered piece : LetterSet} (hcovered : covered.owner = owner)
    (hpiece : piece.owner = owner) :
    Unmixed (cut covered piece) fun pieces => ∀ p ∈ pieces, p.owner = owner := by
  have hsame : covered.owner = piece.owner := hcovered.trans hpiece.symm
  have hpartly : Unmixed (do
      if ← covered.intersects piece then return !(← covered.containsAll piece)
      else return false) fun _ => True := by
    apply (intersects_unmixed hsame).bind
    rintro (_ | _) -
    · exact Unmixed.pure trivial
    · exact (containsAll_unmixed hsame).bind fun _ _ => Unmixed.pure trivial
  apply (hpartly.onFault (release_unmixed piece)).bind
  rintro (_ | _) -
  · exact Unmixed.pure (by simpa using hpiece)
  · refine Unmixed.tryFinally ?_ (release_unmixed piece)
    apply (intersection_unmixed hsame.symm).bind
    intro inside hinside
    apply ((difference_unmixed hsame.symm).onFault (release_unmixed inside)).bind
    intro outside houtside
    exact Unmixed.pure (by simp [hinside, houtside, hpiece])

theorem cutAll_unmixed {covered : LetterSet} (hcovered : covered.owner = owner)
    {pieces : List LetterSet} (hpieces : ∀ p ∈ pieces, p.owner = owner) :
    Unmixed (cutAll covered pieces) fun pieces => ∀ p ∈ pieces, p.owner = owner := by
  induction pieces with
  | nil => exact Unmixed.pure (by simp)
  | cons piece rest ih =>
      obtain ⟨hpiece, hrest⟩ := List.forall_mem_cons.1 hpieces
      apply ((cut_unmixed hcovered hpiece).onFault (releaseAll_unmixed rest)).bind
      intro here hhere
      apply ((ih hrest).onFault (releaseAll_unmixed here)).bind
      intro later hlater
      exact Unmixed.pure (List.forall_mem_append.2 ⟨hhere, hlater⟩)

variable [DecidableEq S] {r : Rabin S} {state : S}

section Numbered
variable (hnumbered : ∀ set ∈ r.numbered, set.owner = owner ∧ set.Own)
include hnumbered

theorem pieces_unmixed {label : LetterSet} (hlabel : label.owner = owner) :
    Unmixed (r.pieces state label) fun pieces => ∀ p ∈ pieces, p.owner = owner := by
  have hcovered : ∀ covered ∈ r.numbered.filterMap (·.label? state), covered.owner = owner := by
    intro covered hmem
    obtain ⟨set, hset, hlabel?⟩ := List.mem_filterMap.1 hmem
    exact ((hnumbered set hset).2.label?_owner hlabel?).trans (hnumbered set hset).1
  have hfold : ∀ (coverings : List LetterSet), (∀ c ∈ coverings, c.owner = owner) →
      ∀ pieces : List LetterSet, (∀ p ∈ pieces, p.owner = owner) →
        Unmixed (coverings.foldlM (fun pieces covered => cutAll covered pieces) pieces)
          fun pieces => ∀ p ∈ pieces, p.owner = owner := by
    intro coverings
    induction coverings with
    | nil => exact fun _ pieces hpieces => Unmixed.pure hpieces
    | cons covered rest ih =>
        intro hcoverings pieces hpieces
        obtain ⟨hfirst, hrest⟩ := List.forall_mem_cons.1 hcoverings
        rw [List.foldlM_cons]
        exact (cutAll_unmixed hfirst hpieces).bind fun pieces hpieces => ih hrest pieces hpieces
  apply (copy_unmixed label).bind
  intro copied hcopied
  exact hfold _ hcovered _ (by simpa using hcopied.trans hlabel)

theorem covering_unmixed {label : LetterSet} (hlabel : label.owner = owner) :
    Unmixed (r.covering state label) fun _ => True := by
  have hasked : FailsBy (· ≠ .foreignFactory)
      (r.numbered.zipIdx.filterM fun entry => entry.1.containsAllAt state label) := by
    apply Secures.filterM
    intro entry hentry w _
    obtain ⟨howner, hown⟩ := hnumbered entry.1 (List.fst_mem_of_mem_zipIdx hentry)
    exact (hown.containsAllAt (hlabel.trans howner.symm) w).mono (fun _ _ h => h)
      fun _ _ hend => ⟨hend, trivial⟩
  intro w
  exact Outcome.andThen ((hasked w trivial).mono (fun _ _ h => h) fun _ _ hend => hend.1)
    fun _ _ _ => Outcome.pure trivial

theorem markPieces_unmixed {pieces : List LetterSet} (hpieces : ∀ p ∈ pieces, p.owner = owner) :
    Unmixed (r.markPieces state pieces) fun _ => True := by
  induction pieces with
  | nil => exact Unmixed.pure trivial
  | cons piece rest ih =>
      obtain ⟨hpiece, hrest⟩ := List.forall_mem_cons.1 hpieces
      apply ((covering_unmixed hnumbered hpiece).onFault (releaseAll_unmixed (piece :: rest))).bind
      intro marks _
      apply ((ih hrest).onFault (release_unmixed piece)).bind
      exact fun later _ => Unmixed.pure trivial

theorem split_unmixed {label : LetterSet} (hlabel : label.owner = owner) :
    Unmixed (r.split state label) fun _ => True :=
  (pieces_unmixed hnumbered hlabel).bind fun _ hpieces => markPieces_unmixed hnumbered hpieces

end Numbered

end Rabin

/-! ## Who is refused -/

namespace TransitionSet

open LetterSet

section Guarded
variable {S : Type} [DecidableEq S] {owner : Nat} {set : TransitionSet S} {first : S → Option Nat}

/-- What decides whether a label is refused: at each state the factory of the first label there,
and at a state without a label nothing. -/
structure Guarded (set : TransitionSet S) (first : S → Option Nat) : Prop where
  stored : ∀ entry ∈ set.labels, first entry.1 = some entry.2.owner
  /-- The label is given back, and nothing else happens. -/
  refuses : ∀ (state : S) (i : Nat) (label : LetterSet) (w w' : Workspace),
    first state = some i → i ≠ label.owner → label.release w = .ok () w' →
      set.insert state label w = .error .foreignFactory w'
  admits : ∀ (state : S) (label : LetterSet), first state = some label.owner →
    Unmixed (set.insert state label) fun _ => True
  /-- A first label is stored whatever its factory is. -/
  unchecked : ∀ (state : S) (label : LetterSet) (w : Workspace), first state = none →
    set.insert state label w = .ok { set with labels := set.labels ++ [(state, label)] } w

/-- A label of another factory is refused by the label it is to be added to. -/
private theorem absorb_refuses {s t : LetterSet} {w w' : Workspace} (hother : s.owner ≠ t.owner)
    (hrelease : t.release w = .ok () w') : s.absorb t w = .error .foreignFactory w' := by
  have hfails : Outcome (s.absorb t) w (fun _ _ => False)
      (fun fault u => fault = .foreignFactory ∧ u = w') := by
    refine Outcome.tryFinally (Outcome.bind ?_)
    rw [checkOwner, if_neg hother]
    exact Outcome.throw (Outcome.of_run hrelease ⟨rfl, rfl⟩)
  cases hrun : s.absorb t w with
  | ok new u => exact (hfails.of_ok hrun).elim
  | error fault u =>
      obtain ⟨rfl, rfl⟩ := hfails.of_error hrun
      rfl

theorem Collected.guarded (h : Collected owner set first) : set.Guarded first where
  stored entry hentry := h.origins.2 _ (List.mem_map_of_mem hentry)
  refuses state i label w w' hfirst hother hrelease := by
    rw [← h.label?_owner state] at hfirst
    obtain ⟨own, hown, rfl⟩ := Option.map_eq_some_iff.1 hfirst
    rw [insert_run_some hown]
    exact run_bind_error (absorb_refuses hother hrelease)
  admits state label hfirst := by
    rw [← h.label?_owner state] at hfirst
    obtain ⟨own, hown, hsame⟩ := Option.map_eq_some_iff.1 hfirst
    rw [insert, hown]
    exact (absorb_unmixed hsame).bind fun _ _ => Unmixed.pure trivial
  unchecked state label w hfirst := by
    rw [← h.label?_owner state, Option.map_eq_none_iff] at hfirst
    exact insert_run_none hfirst w

/-- What a set without foreign labels can be asked, and what can be added to it, without any
operation failing because of another factory. -/
structure Answerable (set : TransitionSet S) : Prop where
  containsAllAt : ∀ (state : S) (label : LetterSet), label.owner = set.owner →
    Unmixed (set.containsAllAt state label) fun _ => True
  containsAll : ∀ other : TransitionSet S, other.owner = set.owner → other.Own →
    Unmixed (set.containsAll other) fun _ => True
  insertAll : ∀ state : S, Unmixed (set.insertAll state) fun _ => True

theorem Own.answerable (h : set.Own) : set.Answerable where
  containsAllAt _ _ hlabel := h.containsAllAt hlabel
  containsAll _ hsame hother := h.containsAll hother hsame
  insertAll _ := h.insertAll

/-- The factory of a label is looked at only where the set has a label already: the first label
at each state is stored unchecked, and decides which later ones are refused.  So a set comes to
have no label of another factory exactly if no first label was of another, and as long as this is
so of all sets that are asked, no question and no splitting fails because of another factory. -/
theorem collected_guarded (h : Collected owner set first) :
    set.Guarded first ∧ (set.Own ↔ OwnFirst owner first) ∧
      (OwnFirst owner first → set.Answerable) ∧
        ∀ r : Rabin S, (∀ numbered ∈ r.numbered, ∃ first, Collected owner numbered first ∧
            OwnFirst owner first) →
          ∀ (state : S) (label : LetterSet), label.owner = owner →
            Unmixed (r.split state label) fun _ => True := by
  refine ⟨h.guarded, h.own_iff, fun hfirst => (h.own_iff.2 hfirst).answerable, ?_⟩
  intro r hr state label hlabel
  refine Rabin.split_unmixed (fun numbered hnumbered => ?_) hlabel
  obtain ⟨first', hcollected, hfirst'⟩ := hr numbered hnumbered
  exact ⟨hcollected.owner_eq, hcollected.own_iff.2 hfirst'⟩

end Guarded

/-- Two factories over one proposition, each with the set of all letters. -/
private def twoFactories : Workspace :=
  let f : Factory := (Factory.ofSizing 1 ⟨4, 2, 3⟩).toOption.getD default
  let w := Workspace.ofFactories [f, f]
  match (do let _ ← LetterSet.all 0; LetterSet.all 1 : WorkM LetterSet) w with
  | .ok _ w => w
  | .error _ w => w

/-- The set of all letters of the second factory is added to an empty set of the first one. -/
private abbrev strayed : TransitionSet Nat := ⟨0, 0, [(7, ⟨1, Ref.one⟩)]⟩

private theorem strayed_collected :
    Collected 0 strayed (noteFirst (fun _ => none) 7 1) := by
  have hcreate : (create 0 : WorkM (TransitionSet Nat)) twoFactories =
      .ok ⟨0, 0, []⟩ ⟨twoFactories.factories, [0], 1⟩ := rfl
  have hinsert : (⟨0, 0, []⟩ : TransitionSet Nat).insert 7 ⟨1, Ref.one⟩ twoFactories =
      .ok strayed twoFactories := rfl
  exact (Collected.created hcreate).inserted 7 ⟨1, Ref.one⟩ hinsert

/-- The theorem where the first label at state 7 is of another factory: it is in the set, and there
a label of the set's own factory is refused. -/
theorem strayed_guarded :
    ¬ strayed.Own ∧ ∃ w, strayed.insert 7 ⟨0, Ref.one⟩ twoFactories = .error .foreignFactory w := by
  obtain ⟨hguarded, hown, -⟩ := collected_guarded strayed_collected
  have hfirst : noteFirst (fun _ : Nat => none) 7 1 7 = some 1 := rfl
  have hrelease : ∃ w, (⟨0, Ref.one⟩ : LetterSet).release twoFactories = .ok () w := ⟨_, rfl⟩
  obtain ⟨w, hrelease⟩ := hrelease
  refine ⟨fun h => ?_, w, hguarded.refuses 7 1 _ _ _ hfirst (by decide) hrelease⟩
  exact absurd (hown.1 h 7 1 hfirst) (by decide)

end TransitionSet

end SymbolicOmega
