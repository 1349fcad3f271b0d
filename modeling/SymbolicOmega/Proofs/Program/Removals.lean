import Mathlib.Data.List.Flatten
import SymbolicOmega.Proofs.Letters.Releasing
import SymbolicOmega.Proofs.Program.Pruning

/-!
# Removals compose

Removing states in several steps comes to the same as removing them at once.  This takes
in the two ways in which an initial state can go, with all that there is or by itself, and
the workspace: whatever the order of the steps, the same labels are given back.
-/

namespace SymbolicOmega

open Workspace

variable {S : Type}

namespace Automaton

theorem prunedRows_prunedRows (p q : S → Bool) (rows : List (S × Row S)) :
    prunedRows q (prunedRows p rows) = prunedRows (fun x => p x || q x) rows := by
  simp only [prunedRows, List.filter_map, List.map_map, List.filter_filter]
  congr 1
  · funext entry
    simp [List.filter_filter, Bool.and_comm]
  · exact List.filter_congr fun entry _ => by simp [Bool.and_comm]

/-- The labels that go in two steps are those that go at once. -/
theorem prunedLabels_perm (p q : S → Bool) (rows : List (S × Row S)) :
    (prunedLabels p rows ++ prunedLabels q (prunedRows p rows)).Perm
      (prunedLabels (fun x => p x || q x) rows) := by
  have hsteps := (labels_perm_pruned p rows).trans
    ((labels_perm_pruned q (prunedRows p rows)).append_left _)
  rw [prunedRows_prunedRows, ← List.append_assoc] at hsteps
  exact (List.perm_append_right_iff _).1 (hsteps.symm.trans (labels_perm_pruned _ rows))

theorem initial_pruned_of_any {a : Automaton S} {gone : S → Bool}
    (h : a.initial.state?.any gone = true) : (a.pruned gone).initial = .resolved none :=
  if_pos h

theorem initial_pruned_of_not_any {a : Automaton S} {gone : S → Bool}
    (h : ¬ a.initial.state?.any gone = true) : (a.pruned gone).initial = a.initial :=
  if_neg h

theorem any_state?_or (a : Automaton S) (p q : S → Bool) :
    a.initial.state?.any (fun x => p x || q x) = true ↔
      a.initial.state?.any p = true ∨ a.initial.state?.any q = true := by
  cases a.initial.state? with
  | none => simp
  | some x => simp

theorem initial_pruned_pruned (a : Automaton S) (p q : S → Bool) :
    ((a.pruned p).pruned q).initial = (a.pruned fun x => p x || q x).initial := by
  by_cases hp : a.initial.state?.any p = true
  · have hnone := initial_pruned_of_any hp
    rw [initial_pruned_of_any ((any_state?_or a p q).2 (.inl hp)), initial_pruned_of_not_any, hnone]
    rw [hnone]
    exact Bool.false_ne_true
  · have hkept := initial_pruned_of_not_any hp
    by_cases hq : a.initial.state?.any q = true
    · rw [initial_pruned_of_any ((any_state?_or a p q).2 (.inr hq)),
        initial_pruned_of_any (hkept ▸ hq)]
    · rw [initial_pruned_of_not_any (mt (any_state?_or a p q).1 (not_or_intro hp hq)),
        initial_pruned_of_not_any (hkept ▸ hq), hkept]

theorem pruned_pruned (a : Automaton S) (p q : S → Bool) :
    (a.pruned p).pruned q = a.pruned fun x => p x || q x :=
  calc
    (a.pruned p).pruned q =
        { a with
          rows := prunedRows q (prunedRows p a.rows)
          initial := ((a.pruned p).pruned q).initial } := rfl
    _ = a.pruned fun x => p x || q x := by rw [prunedRows_prunedRows, initial_pruned_pruned]; rfl

theorem labels_pruned_sublist (a : Automaton S) (gone : S → Bool) :
    (a.pruned gone).labels.Sublist a.labels := by
  rw [labels, labels, pruned, prunedRows, List.flatMap_map]
  exact (List.Sublist.flatMap_right _ fun _ _ => List.filter_sublist.map _).trans
    (List.filter_sublist.flatMap _)

end Automaton

namespace Scene

open Automaton

variable {s : Scene S}

/-- The labels of the kept rows are live. -/
def Live (s : Scene S) : Prop :=
  s.workspace.HasLive s.automaton.labels

/-- The scene when the states that `gone` names are removed. -/
def pruned (s : Scene S) (gone : S → Bool) : Scene S :=
  ⟨s.automaton.pruned gone, s.workspace.without (prunedLabels gone s.automaton.rows)⟩

/-- The scene when no state is left. -/
def emptied (s : Scene S) : Scene S :=
  ⟨{ s.automaton with rows := [], initial := .resolved none },
    s.workspace.without s.automaton.labels⟩

theorem pruned_pruned (s : Scene S) (p q : S → Bool) :
    (s.pruned p).pruned q = s.pruned fun x => p x || q x := by
  have hlabels := prunedLabels_perm p q s.automaton.rows
  rw [pruned, pruned, pruned, Automaton.pruned_pruned, ← without_perm _ hlabels, without_append]
  rfl

theorem pruned_nothing (s : Scene S) : s.pruned (fun _ => false) = s := by
  have hspares : Spares (fun _ => false) s.automaton.rows := fun _ _ => ⟨rfl, fun _ _ => rfl⟩
  have hinitial : (s.automaton.pruned fun _ => false).initial = s.automaton.initial := by
    refine initial_pruned_of_not_any ?_
    cases s.automaton.initial.state? <;> exact Bool.false_ne_true
  have hautomaton : s.automaton.pruned (fun _ => false) = s.automaton :=
    calc
      s.automaton.pruned (fun _ => false) =
          { s.automaton with
            rows := prunedRows (fun _ => false) s.automaton.rows
            initial := (s.automaton.pruned fun _ => false).initial } := rfl
      _ = s.automaton := by rw [hspares.prunedRows_eq, hinitial]
  rw [pruned, hautomaton, hspares.prunedLabels_eq, without_nil]

theorem emptied_pruned (s : Scene S) (gone : S → Bool) : s.emptied.pruned gone = s.emptied := by
  have hworkspace : s.emptied.workspace.without (prunedLabels gone []) = s.emptied.workspace :=
    without_nil _
  exact congrArg (Scene.mk s.emptied.automaton) hworkspace

theorem pruned_emptied (s : Scene S) (gone : S → Bool) : (s.pruned gone).emptied = s.emptied := by
  have hlabels := labels_perm_pruned gone s.automaton.rows
  have hworkspace : s.workspace.without s.automaton.labels =
      (s.pruned gone).workspace.without (s.pruned gone).automaton.labels :=
    (without_perm _ hlabels).trans (without_append ..)
  rw [emptied, emptied, hworkspace]
  rfl

namespace Live

theorem pruned (h : s.Live) (gone : S → Bool) : (s.pruned gone).Live :=
  HasLive.right (h.perm (labels_perm_pruned gone s.automaton.rows))

theorem emptied (s : Scene S) : s.emptied.Live :=
  HasLive.nil _

theorem removeIf_run (h : s.Live) (gone : S → Bool) : removeIf gone s = .ok () (s.pruned gone) :=
  removeIf_of_release (LetterSet.releaseAll_run
    (h.perm (labels_perm_pruned gone s.automaton.rows)).left)

end Live

variable [DecidableEq S]

/-- The scene when `states` are removed. -/
def removed (s : Scene S) (states : List S) : Scene S :=
  if s.automaton.initial.state?.any states.contains then s.emptied else s.pruned states.contains

theorem removed_of_any {states : List S}
    (h : s.automaton.initial.state?.any states.contains = true) : s.removed states = s.emptied :=
  if_pos h

theorem removed_of_not_any {states : List S}
    (h : ¬ s.automaton.initial.state?.any states.contains = true) :
    s.removed states = s.pruned states.contains :=
  if_neg h

theorem removed_nil (s : Scene S) : s.removed [] = s := by
  rw [removed_of_not_any]
  · exact s.pruned_nothing
  · cases s.automaton.initial.state? <;> exact Bool.false_ne_true

theorem Live.removed (h : s.Live) (states : List S) : (s.removed states).Live := by
  rw [Scene.removed]
  split
  · exact .emptied s
  · exact h.pruned _

theorem Live.remove_run (h : s.Live) (states : List S) :
    remove states s = .ok () (s.removed states) := by
  have hrun : remove states s =
      if s.automaton.initial.state?.any states.contains then
        (do
          inWorkspace (s.automaton.rows.forM fun entry => entry.2.release)
          change fun a => { a with rows := [], initial := .resolved none }) s
      else removeIf states.contains s := by
    refine (run_bind (current_run s)).trans ?_
    split <;> rfl
  rw [hrun, Scene.removed]
  split
  · have hrelease : inWorkspace (s.automaton.rows.forM fun entry => entry.2.release) s =
        .ok () ⟨s.automaton, s.workspace.without s.automaton.labels⟩ := by
      have hall := LetterSet.releaseAll_run h
      rw [labels, ← LetterSet.releaseAll_flatMap] at hall
      simp only [inWorkspace, Row.release, hall]
      rfl
    exact run_bind hrelease
  · exact h.removeIf_run states.contains

theorem removed_congr (s : Scene S) {A B : List S} (h : ∀ x, x ∈ A ↔ x ∈ B) :
    s.removed A = s.removed B := by
  have hcontains : A.contains = B.contains := funext fun x => by
    rw [Bool.eq_iff_iff, List.contains_iff_mem, List.contains_iff_mem, h]
  rw [removed, removed, hcontains]

theorem contains_append (A B : List S) :
    (A ++ B).contains = fun x => A.contains x || B.contains x :=
  funext fun x => by simp

/-- Whichever of the two removals takes the initial state, it is as if both were made at once. -/
theorem removed_removed (s : Scene S) (A B : List S) :
    (s.removed A).removed B = s.removed (A ++ B) := by
  have hboth := any_state?_or s.automaton A.contains B.contains
  rw [← contains_append] at hboth
  by_cases hA : s.automaton.initial.state?.any A.contains = true
  · rw [removed_of_any hA, removed_of_any (hboth.2 (.inl hA)), removed_of_not_any, emptied_pruned]
    exact Bool.false_ne_true
  · have hkept : (s.pruned A.contains).automaton.initial = s.automaton.initial :=
      initial_pruned_of_not_any hA
    rw [removed_of_not_any hA]
    by_cases hB : s.automaton.initial.state?.any B.contains = true
    · rw [removed_of_any (hkept ▸ hB), removed_of_any (hboth.2 (.inr hB)), pruned_emptied]
    · rw [removed_of_not_any (hkept ▸ hB), removed_of_not_any (mt hboth.1 (not_or_intro hA hB)),
        pruned_pruned, contains_append]

end Scene

/-! ## Any removals -/

namespace Automaton

/-- A removal is made: no state that `gone` names is left, nor an edge to one, and in every factory
as many sets less are live as labels are gone. -/
structure Removes (x : AutomatonM S Unit) (gone : S → Bool) (s s' : Scene S) : Prop where
  run : x s = .ok () s'
  live : s'.Live
  spares : Spares gone s'.automaton.rows
  labels : s'.automaton.labels.Sublist s.automaton.labels
  count : ∀ i f, s.workspace.factories[i]? = some f →
    ∃ f', s'.workspace.factories[i]? = some f' ∧ f'.manager = f.manager ∧
      f'.live + (LetterSet.rootsIn i s.automaton.labels).length =
        f.live + (LetterSet.rootsIn i s'.automaton.labels).length

theorem removeIf_removes {s : Scene S} (h : s.Live) (gone : S → Bool) :
    Removes (removeIf gone) gone s (s.pruned gone) where
  run := h.removeIf_run gone
  live := h.pruned gone
  spares := spares_prunedRows gone _
  labels := labels_pruned_sublist s.automaton gone
  count _ _ hf := h.count_without (labels_perm_pruned gone s.automaton.rows) hf

theorem remove_removes [DecidableEq S] {s : Scene S} (h : s.Live) (states : List S) :
    Removes (remove states) states.contains s (s.removed states) := by
  have hrun := h.remove_run states
  by_cases hinitial : s.automaton.initial.state?.any states.contains = true
  · rw [Scene.removed_of_any hinitial] at hrun ⊢
    exact {
      run := hrun
      live := .emptied s
      spares := fun _ hentry => absurd hentry List.not_mem_nil
      labels := List.nil_sublist _
      count := fun _ _ hf => h.count_without (.of_eq (List.append_nil _).symm) hf }
  · rw [Scene.removed_of_not_any hinitial] at hrun ⊢
    exact { removeIf_removes h states.contains with run := hrun }

theorem forM_removeIf {s : Scene S} (h : s.Live) (ps : List (S → Bool)) :
    ps.forM removeIf s = removeIf (fun x => ps.any (· x)) s := by
  induction ps generalizing s with
  | nil =>
      have hnothing := h.removeIf_run fun _ => false
      rw [Scene.pruned_nothing] at hnothing
      exact hnothing.symm
  | cons p rest ih =>
      calc
        (p :: rest).forM removeIf s = rest.forM removeIf (s.pruned p) :=
          run_bind (h.removeIf_run p)
        _ = removeIf (fun x => rest.any (· x)) (s.pruned p) := ih (h.pruned p)
        _ = removeIf (fun x => (p :: rest).any (· x)) s := by
          rw [(h.pruned p).removeIf_run, h.removeIf_run, Scene.pruned_pruned]
          rfl

variable [DecidableEq S]

theorem forM_remove {s : Scene S} (h : s.Live) (As : List (List S)) :
    As.forM remove s = remove As.flatten s := by
  induction As generalizing s with
  | nil =>
      have hnothing := h.remove_run []
      rw [Scene.removed_nil] at hnothing
      exact hnothing.symm
  | cons A rest ih =>
      calc
        (A :: rest).forM remove s = rest.forM remove (s.removed A) := run_bind (h.remove_run A)
        _ = remove rest.flatten (s.removed A) := ih (h.removed A)
        _ = remove (A :: rest).flatten s := by
          rw [(h.removed A).remove_run, h.remove_run, Scene.removed_removed, List.flatten_cons]

/-- Removals of states, one after the other, are one removal. -/
structure RemovalsCompose (s : Scene S) : Prop where
  remove : ∀ states, ∃ s', Removes (Automaton.remove states) states.contains s s'
  removeIf : ∀ gone, ∃ s', Removes (Automaton.removeIf gone) gone s s'
  union : ∀ A B C : List S, (∀ x, x ∈ C ↔ x ∈ A ∨ x ∈ B) →
    (do Automaton.remove A; Automaton.remove B) s = Automaton.remove C s
  comm : ∀ A B : List S,
    (do Automaton.remove A; Automaton.remove B) s = (do Automaton.remove B; Automaton.remove A) s
  again : ∀ A : List S, (do Automaton.remove A; Automaton.remove A) s = Automaton.remove A s
  or : ∀ p q, (do Automaton.removeIf p; Automaton.removeIf q) s =
    Automaton.removeIf (fun x => p x || q x) s
  steps : ∀ As : List (List S), As.forM Automaton.remove s = Automaton.remove As.flatten s
  stepsIf : ∀ ps : List (S → Bool), ps.forM Automaton.removeIf s =
    Automaton.removeIf (fun x => ps.any (· x)) s
  uncollapsed : ∀ states : List S, ¬ s.automaton.initial.state?.any states.contains = true →
    Automaton.remove states s = Automaton.removeIf states.contains s

/-- Whether the initial state is built or not, and whichever removals take it, removals compose:
what they leave, the workspace included, is what one removal of all the states leaves.  Each
of them ends well and gives back exactly the labels that are no longer in the rows. -/
theorem removals_compose {s : Scene S} (h : s.Live) : RemovalsCompose s := by
  have htwo : ∀ A B : List S, (do remove A; remove B : AutomatonM S Unit) s =
      .ok () (s.removed (A ++ B)) := fun A B =>
    calc
      (do remove A; remove B : AutomatonM S Unit) s = remove B (s.removed A) :=
        run_bind (h.remove_run A)
      _ = .ok () ((s.removed A).removed B) := (h.removed A).remove_run B
      _ = .ok () (s.removed (A ++ B)) := by rw [Scene.removed_removed]
  refine ⟨fun states => ⟨_, remove_removes h states⟩, fun gone => ⟨_, removeIf_removes h gone⟩,
    fun A B C hC => ?_, fun A B => ?_, fun A => ?_, fun p q => ?_, forM_remove h, forM_removeIf h,
    fun states hstates => ?_⟩
  · rw [htwo, h.remove_run, s.removed_congr fun x => List.mem_append.trans (hC x).symm]
  · have hswap : s.removed (A ++ B) = s.removed (B ++ A) :=
      s.removed_congr fun x => by rw [List.mem_append, List.mem_append, or_comm]
    rw [htwo, htwo, hswap]
  · have hdouble : s.removed (A ++ A) = s.removed A :=
      s.removed_congr fun x => by rw [List.mem_append, or_self]
    rw [htwo, h.remove_run, hdouble]
  · rw [run_bind (h.removeIf_run p), (h.pruned p).removeIf_run, h.removeIf_run,
      Scene.pruned_pruned]
  · rw [h.remove_run, h.removeIf_run, Scene.removed_of_not_any hstates]

end Automaton

namespace Program

variable [DecidableEq S] [ToString S]

/-- The labels of every automaton of a program are live. -/
theorem sceneAt_live {k : Nat} {sizing : Sizing} {f : Factory}
    (hnew : Factory.ofSizing k sizing = .ok f) (commands : List (Command S)) {j : Nat} {s : Scene S}
    (hscene : ((start f).afterAll commands).sceneAt j = some s) : s.Live := by
  obtain ⟨a, ha, rfl⟩ := Option.map_eq_some_iff.1 hscene
  obtain ⟨stock, hstock⟩ := (((start_sound hnew).afterAll commands).scene ha).held
  exact hstock.books.hasLive.left.left

/-! ## Three states in a circle -/

/-- Each state leads to the other two. -/
private def circle : LawfulSpace Nat :=
  ⟨.ofStep (fun _ => none) fun state letter =>
    some (Edge.of ((if letter.contains 0 then state + 1 else state + 2) % 3)),
    StateSpace.ofStep_lawful _ _⟩

private def circling : List (Command Nat) :=
  [.marks .all [], .found circle (.resolved (some 0)) 0, .operate 0 (.successors 2),
    .operate 0 (.successors 0), .operate 0 (.successors 1)]

private def circleFactory : Factory :=
  (Factory.ofSizing 1 ⟨3, 2, 5⟩).toOption.getD default

private def circleScene : Scene Nat :=
  (((start circleFactory).afterAll circling).sceneAt 0).getD
    ⟨.create 0 circle.1 ⟨.marks .all, []⟩ (.resolved none), default⟩

/-- The explored states, the number of live sets and the initial state after a removal. -/
private def circleAfter (x : AutomatonM Nat Unit) :
    List Nat × List Nat × Option Nat :=
  match x circleScene with
  | .ok _ s | .error _ s =>
      (s.automaton.states, s.workspace.factories.toList.map Factory.live, s.automaton.initial.state?)

/-- The theorem where three states hold six labels.  Without state 1 two of them are left; state 0
takes the others along when it is removed as an initial state, and none when it is only named. -/
theorem circleScene_removals :
    circleScene.Live ∧ Automaton.RemovalsCompose circleScene ∧
      circleAfter (pure ()) = ([2, 0, 1], [6], some 0) ∧
      circleAfter (Automaton.remove [1]) = ([2, 0], [2], some 0) ∧
      circleAfter (do Automaton.remove [1]; Automaton.remove [0]) = ([], [0], none) ∧
      circleAfter (Automaton.removeIf (· == 0)) = ([2, 1], [2], none) := by
  have hscene : ((start circleFactory).afterAll circling).sceneAt 0 = some circleScene := by
    obtain ⟨s, hs⟩ := Option.isSome_iff_exists.1
      (by decide +kernel : (((start circleFactory).afterAll circling).sceneAt 0).isSome = true)
    rw [circleScene, hs]
    rfl
  have hnew : Factory.ofSizing 1 ⟨3, 2, 5⟩ = .ok circleFactory := rfl
  have hlive := sceneAt_live hnew circling hscene
  exact ⟨hlive, Automaton.removals_compose hlive, by decide +kernel, by decide +kernel,
    by decide +kernel, by decide +kernel⟩

end Program

end SymbolicOmega
