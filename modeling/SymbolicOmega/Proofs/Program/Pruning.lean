import SymbolicOmega.Proofs.Automaton.Reachability
import SymbolicOmega.Proofs.Program.Accounting

/-!
# Pruning

States that cannot be reached from some seeds are removed.  All that can be reached is explored
before, so no edge of a state that stays leads to one that goes.  Hence the rows that stay are not
cut, and what is left is the closure of the seeds under the rows that are left.  When the removal
is repeated, the closure is found again, and nothing is there to be removed.
-/

namespace SymbolicOmega

open Workspace

variable {S : Type}

theorem Factory.release_manager (root : Ref) (f : Factory) :
    Outcome (release root) f (fun _ f' => f'.manager = f.manager)
      (fun _ f' => f'.manager = f.manager) := by
  have hforget : Outcome (forget root) f (fun _ f' => f'.manager = f.manager)
      (fun _ f' => f'.manager = f.manager) := by
    rw [Outcome, forget]
    by_cases hroot : root ∈ f.roots.keys
    · rw [if_pos hroot]
    · rw [if_neg hroot]
  have hrecount : ∀ f' : Factory, ∃ f'', recount (· - 1) f' = .ok () f'' ∧
      f''.manager = f'.manager := fun _ => ⟨_, rfl, rfl⟩
  apply Outcome.andThen hforget
  intro _ f' hsame
  obtain ⟨f'', hrun, hmanager⟩ := hrecount f'
  exact Outcome.of_run hrun (hmanager.trans hsame)

namespace LetterSet

variable {i : Nat} {w : Workspace}

/-- A set is answered for from the nodes of its factory. -/
theorem answers_of_factory {s : LetterSet} {f : Factory}
    (hf : w.factories[s.owner]? = some f) : s.Answers w (holdsIn f.manager s.root) := by
  intro letter
  rw [contains, askFactory, hf]
  dsimp only
  cases holdsIn f.manager s.root letter <;> rfl

/-- The factory at position `i` has these nodes. -/
def HasNodes (i : Nat) (m : Manager) (w : Workspace) : Prop :=
  ∃ f, w.factories[i]? = some f ∧ f.manager = m

theorem releaseAll_nodes {m : Manager} {sets : List LetterSet} (howner : ∀ s ∈ sets, s.owner = i) :
    Upholds (HasNodes i m) (releaseAll sets) := by
  induction sets with
  | nil => exact Upholds.pure ()
  | cons s rest ih =>
      obtain ⟨rfl, hrest⟩ := List.forall_mem_cons.1 howner
      refine Upholds.bind ?_ fun _ => ih hrest
      rintro w ⟨f, hf, rfl⟩
      exact inFactory_outcome hf (Factory.release_manager s.root f)

end LetterSet

namespace Automaton

/-- The automaton without the states that `gone` names. -/
def pruned (a : Automaton S) (gone : S → Bool) : Automaton S :=
  { a with
    rows := prunedRows gone a.rows
    initial := if a.initial.state?.any gone then .resolved none else a.initial }

theorem removeIf_of_release {s : Scene S} {gone : S → Bool} {w : Workspace}
    (hrelease : LetterSet.releaseAll (prunedLabels gone s.automaton.rows) s.workspace = .ok () w) :
    removeIf gone s = .ok () ⟨s.automaton.pruned gone, w⟩ := by
  have hinside : inWorkspace (LetterSet.releaseAll (prunedLabels gone s.automaton.rows)) s =
      .ok () ⟨s.automaton, w⟩ := by
    simp only [inWorkspace, hrelease]
  exact (run_bind (current_run _)).trans (run_bind hinside)

/-- A removal does not fail, and all labels answer as before. -/
theorem removeIf_run {i : Nat} {sets : List LetterSet} {references : List (TransitionSet S)}
    {s : Scene S} (hs : s.Balanced i sets references) (gone : S → Bool) :
    ∃ w, removeIf gone s = .ok () ⟨s.automaton.pruned gone, w⟩ ∧
      ∀ label ∈ s.automaton.labels, ∃ F, label.Answers s.workspace F ∧ label.Answers w F := by
  obtain ⟨a, w⟩ := s
  obtain ⟨stock, hstock⟩ := hs.held
  have hperm := labels_perm_pruned gone a.rows
  have hbooks := hstock.books
  rw [List.append_assoc] at hbooks
  have hlabels := hbooks.perm (hperm.append_right _)
  rw [List.append_assoc] at hlabels
  obtain ⟨w', hrelease, -⟩ := LetterSet.releaseAll_givesBack _ _ _ _ hlabels
  refine ⟨w', removeIf_of_release hrelease, fun label hlabel => ?_⟩
  have howner : label.owner = i := hbooks.owner label (List.mem_append_left _ hlabel)
  obtain ⟨f, hf, -⟩ := hbooks.holds
  have hgone : ∀ s ∈ prunedLabels gone a.rows, s.owner = i := fun s hs =>
    hlabels.owner s (List.mem_append_left _ hs)
  obtain ⟨f', hf', hnodes⟩ := (LetterSet.releaseAll_nodes hgone w ⟨f, hf, rfl⟩).of_ok hrelease
  subst howner
  have hafter := LetterSet.answers_of_factory hf'
  rw [hnodes] at hafter
  exact ⟨_, LetterSet.answers_of_factory hf, hafter⟩

/-- Neither a state with a row nor the end of an edge is named by `gone`. -/
def Spares (gone : S → Bool) (rows : List (S × Row S)) : Prop :=
  ∀ entry ∈ rows, gone entry.1 = false ∧ ∀ edge ∈ entry.2, gone edge.1.successor = false

theorem spares_prunedRows (gone : S → Bool) (rows : List (S × Row S)) :
    Spares gone (prunedRows gone rows) := by
  intro entry hentry
  obtain ⟨⟨x, row⟩, hkept, rfl⟩ := List.mem_map.1 hentry
  refine ⟨by simpa using (List.mem_filter.1 hkept).2, fun edge hedge => ?_⟩
  simpa using (List.mem_filter.1 hedge).2

namespace Spares

variable {gone : S → Bool} {rows : List (S × Row S)}

theorem prunedRows_eq (h : Spares gone rows) : prunedRows gone rows = rows := by
  have hstates : rows.filter (fun entry => !gone entry.1) = rows :=
    List.filter_eq_self.2 fun entry hentry => by simp [(h entry hentry).1]
  have hedges : ∀ entry ∈ rows,
      (entry.1, entry.2.filter fun edge => !gone edge.1.successor) = entry := by
    intro entry hentry
    rw [List.filter_eq_self.2 fun edge hedge => by simp [(h entry hentry).2 edge hedge]]
  rw [prunedRows, hstates]
  exact (List.map_congr_left hedges).trans (List.map_id rows)

theorem prunedLabels_eq (h : Spares gone rows) : prunedLabels gone rows = [] := by
  refine List.flatMap_eq_nil_iff.2 fun entry hentry => ?_
  obtain ⟨hstate, hedges⟩ := h entry hentry
  have hnone : (entry.2.filter fun edge => gone edge.1.successor) = [] :=
    List.filter_eq_nil_iff.2 fun edge hedge => by simp [hedges edge hedge]
  rw [hstate, hnone]
  rfl

theorem removeIf_run {s : Scene S} (h : Spares gone s.automaton.rows)
    (hinitial : s.automaton.initial.state?.any gone = false) : removeIf gone s = .ok () s := by
  have hsame : s.automaton.pruned gone = s.automaton := by
    rw [pruned, h.prunedRows_eq, hinitial]
    rfl
  have hrelease : LetterSet.releaseAll (prunedLabels gone s.automaton.rows) s.workspace =
      .ok () s.workspace := by
    rw [h.prunedLabels_eq]
    rfl
  rw [removeIf_of_release hrelease, hsame]

end Spares

theorem initial_pruned (a : Automaton S) (gone : S → Bool) :
    (a.pruned gone).initial.state?.any gone = false := by
  rw [pruned]
  dsimp only
  split
  · rfl
  · rename_i hstays
    exact Bool.not_eq_true _ ▸ hstays

/-- What a removal leaves is left by the same removal. -/
theorem removeIf_pruned (a : Automaton S) (gone : S → Bool) (w : Workspace) :
    removeIf gone ⟨a.pruned gone, w⟩ = .ok () ⟨a.pruned gone, w⟩ :=
  (spares_prunedRows gone a.rows).removeIf_run (initial_pruned a gone)

/-! ## Removing what is not reached -/

variable [DecidableEq S]

/-- Not among the states that were reached. -/
def missed (reached : List S) (x : S) : Bool :=
  !reached.contains x

theorem missed_eq_false {reached : List S} {x : S} : missed reached x = false ↔ x ∈ reached := by
  simp [missed]

/-- What is left of `s` in `s'` is what can be reached from `seeds`.  All of that was explored when
the scene was `t`, before anything was removed. -/
structure Pruned (s t s' : Scene S) (seeds reached : List S) : Prop where
  closure : s.automaton.ClosureOf t.automaton seeds reached
  isExplored_iff : ∀ x, s'.automaton.isExplored x = true ↔ x ∈ reached
  isLeast : IsLeast {T : Set S | (∀ x ∈ seeds, x ∈ T) ∧
      ∀ x ∈ T, ∀ y, s'.automaton.Leads x y → y ∈ T} {x | s'.automaton.isExplored x = true}
  rows : ∀ x ∈ reached, ∀ row, t.automaton.row? x = some row →
    s'.automaton.row? x = some row ∧
      ∀ entry ∈ row, ∃ F, entry.2.Answers t.workspace F ∧ entry.2.Answers s'.workspace F
  /-- The states explored before that stay come first, in their order. -/
  order : s.automaton.states.filter (s'.automaton.isExplored ·) <+: s'.automaton.states
  initial : ∀ x, s.automaton.initial.state? = some x →
    s'.automaton.initial.state? = if x ∈ reached then some x else none
  pending : s.automaton.initial.state? = none → s'.automaton.initial = s.automaton.initial

section Closure
variable {a t : Automaton S} {seeds reached : List S}

theorem row?_pruned (gone : S → Bool) (x : S) :
    (t.pruned gone).row? x =
      if gone x then none
      else (t.row? x).map (·.filter fun edge => !gone edge.1.successor) :=
  lookup_prunedRows gone t.rows x

/-- The rows of what was reached are not cut. -/
theorem ClosureOf.row?_pruned (h : a.ClosureOf t seeds reached) {x : S} (hx : x ∈ reached) :
    (t.pruned (missed reached)).row? x = t.row? x := by
  obtain ⟨row, hrow⟩ := isExplored_iff.1 (h.explored x hx)
  rw [Automaton.row?_pruned, missed_eq_false.2 hx, hrow]
  refine congrArg some (List.filter_eq_self.2 fun edge hedge => ?_)
  have htarget : edge.1.successor ∈ reached :=
    h.isLeast.1.2 x hx _ ⟨row, hrow, List.mem_map_of_mem hedge⟩
  rw [missed_eq_false.2 htarget]
  rfl

theorem ClosureOf.isExplored_pruned (h : a.ClosureOf t seeds reached) {x : S} :
    (t.pruned (missed reached)).isExplored x = true ↔ x ∈ reached := by
  constructor
  · intro hx
    by_contra hmissed
    rw [Automaton.isExplored, Automaton.row?_pruned, missed] at hx
    simp [hmissed] at hx
  · intro hx
    rw [Automaton.isExplored, h.row?_pruned hx]
    exact h.explored x hx

/-- What was reached is closed under the rows that are left, and it is least with them, too. -/
theorem ClosureOf.isLeast_pruned (h : a.ClosureOf t seeds reached) :
    IsLeast {T : Set S | (∀ x ∈ seeds, x ∈ T) ∧
      ∀ x ∈ T, ∀ y, (t.pruned (missed reached)).Leads x y → y ∈ T} {x | x ∈ reached} := by
  have hleads : ∀ x ∈ reached, ∀ y, (t.pruned (missed reached)).Leads x y ↔ t.Leads x y := by
    intro x hx y
    rw [Leads, h.row?_pruned hx, Leads]
  obtain ⟨⟨hseeds, hclosed⟩, hleast⟩ := h.isLeast
  refine ⟨⟨hseeds, fun x hx y hxy => hclosed x hx y ((hleads x hx y).1 hxy)⟩, ?_⟩
  rintro T ⟨hT, hTclosed⟩ x hx
  -- The part of `T` that was reached is closed under the rows there were before.
  have hpart : {x | x ∈ reached ∧ x ∈ T} ∈ {T : Set S | (∀ x ∈ seeds, x ∈ T) ∧
      ∀ x ∈ T, ∀ y, t.Leads x y → y ∈ T} := by
    refine ⟨fun y hy => ⟨hseeds y hy, hT y hy⟩, ?_⟩
    rintro y ⟨hy, hyT⟩ z hyz
    exact ⟨hclosed y hy z hyz, hTclosed y hyT z ((hleads y hy z).2 hyz)⟩
  exact (hleast hpart hx).2

theorem ClosureOf.order_pruned (h : a.ClosureOf t seeds reached) :
    a.states.filter ((t.pruned (missed reached)).isExplored ·) <+:
      (t.pruned (missed reached)).states := by
  have hkeep : ∀ x, (t.pruned (missed reached)).isExplored x = !missed reached x := fun x => by
    rw [Bool.eq_iff_iff, h.isExplored_pruned, Bool.not_eq_true', missed_eq_false]
  obtain ⟨new, ht, -⟩ := h.appends
  have hstates : (t.pruned (missed reached)).states =
      a.states.filter (!missed reached ·) ++ (new.map Prod.fst).filter (!missed reached ·) := by
    rw [states, pruned, states_prunedRows, ht, List.map_append, List.filter_append]
    rfl
  rw [hstates]
  simp only [hkeep]
  exact List.prefix_append _ _

/-- A built initial state stays exactly if it was reached. -/
theorem ClosureOf.initial_pruned (h : a.ClosureOf t seeds reached) {x : S}
    (hx : a.initial.state? = some x) :
    (t.pruned (missed reached)).initial.state? = if x ∈ reached then some x else none := by
  obtain ⟨new, rfl, -⟩ := h.appends
  rw [pruned]
  dsimp only
  rw [hx, Option.any_some, missed]
  by_cases hin : x ∈ reached
  · simp [hin, hx]
  · simp [hin, Initial.state?]

end Closure

/-- Where there is no seed nothing is left. -/
theorem Pruned.rows_eq_nil {s t s' : Scene S} {reached : List S}
    (h : Pruned s t s' [] reached) : s'.automaton.rows = [] := by
  have hnothing : {x | s'.automaton.isExplored x = true} ⊆ (∅ : Set S) :=
    h.isLeast.2 ⟨by simp, by simp⟩
  refine List.eq_nil_iff_forall_not_mem.2 fun entry hentry => ?_
  exact hnothing (isExplored_iff_mem_states.2 (List.mem_map_of_mem hentry))

section Removal
variable {i : Nat} {sets : List LetterSet} {references : List (TransitionSet S)}

/-- What the seeds do not reach is removed, unless the row of a state that they reach cannot be
computed.  Removing it again changes nothing. -/
def PrunesFrom (bound : Nat) (seeds : List S) (s : Scene S) : Prop :=
  Outcome (removeUnreachableFrom bound seeds) s
    (fun _ s' => (∃ t reached, Pruned s t s' seeds reached) ∧
      ∀ bound' ≥ bound, removeUnreachableFrom bound' seeds s' = .ok () s')
    (RowFails s seeds)

/-- What the initial state does not reach is removed, unless the row of a state that it reaches
cannot be computed.  The initial state stays, and without one no state does.  Removing again
changes nothing. -/
def PrunesUnreachable (bound : Nat) (s : Scene S) : Prop :=
  Outcome (removeUnreachable bound) s
    (fun _ s' => (∃ started t reached,
        initialState s = .ok s.automaton.initialValue started ∧
          Pruned started t s' s.automaton.initialValue.toList reached) ∧
      (∀ x ∈ s.automaton.initialValue,
        s'.automaton.initial.state? = some x ∧ s'.automaton.isExplored x = true) ∧
      (s.automaton.initialValue = none → s'.automaton.rows = []) ∧
      ∀ bound' ≥ bound, removeUnreachable bound' s' = .ok () s')
    (RowFails s s.automaton.initialValue.toList)

theorem removeUnreachableFrom_prunes {s : Scene S} (hs : s.Balanced i sets references)
    (seeds : List S) {space : Finset S} (hseeds : ∀ x ∈ seeds, x ∈ space)
    (hencloses : s.automaton.Encloses space) {bound : Nat} (hbound : space.card ≤ bound) :
    PrunesFrom bound seeds s := by
  have hwalk := (reachable_closure s seeds space hseeds hencloses bound hbound).and
    (reachable_balanced bound seeds s hs)
  refine Outcome.bind (Outcome.intro (fun reached t hrun => ?_) fun fault t hrun =>
    (hwalk.of_error hrun).1)
  obtain ⟨⟨hclosure, -⟩, ht⟩ := hwalk.of_ok hrun
  obtain ⟨w, hremove, hanswers⟩ := removeIf_run ht (missed reached)
  refine Outcome.of_run hremove ⟨⟨t, reached, hclosure, fun x => hclosure.isExplored_pruned, ?_,
    fun x hx row hrow => ⟨(hclosure.row?_pruned hx).trans hrow, fun entry hentry => ?_⟩,
    hclosure.order_pruned, fun x hx => hclosure.initial_pruned hx, fun hnone => ?_⟩, ?_⟩
  · simp only [hclosure.isExplored_pruned]
    exact hclosure.isLeast_pruned
  · exact hanswers entry.2 (mem_labels hrow hentry)
  · obtain ⟨new, hsame, -⟩ := hclosure.appends
    rw [hsame, pruned]
    dsimp only
    rw [hnone]
    rfl
  · intro bound' hbound'
    have hagain : reachable bound' seeds ⟨t.automaton.pruned (missed reached), w⟩ = .ok reached _ :=
      reachable_again hrun (fun x hx row hrow => (hclosure.row?_pruned hx).trans hrow) hbound'
    exact (run_bind hagain).trans (removeIf_pruned t.automaton (missed reached) w)

theorem removeUnreachable_prunes {s : Scene S} (hs : s.Balanced i sets references)
    {space : Finset S} (hinitial : ∀ x ∈ s.automaton.initialValue, x ∈ space)
    (hencloses : s.automaton.Encloses space) {bound : Nat} (hbound : space.card ≤ bound) :
    PrunesUnreachable bound s := by
  obtain ⟨builds, hrun⟩ := initialState_run s
  have hstarted := (initialState_secures s hs).of_ok hrun
  have hseeds : ∀ x ∈ s.automaton.initialValue.toList, x ∈ space := fun x hx =>
    hinitial x (Option.mem_toList.1 hx)
  refine Outcome.bind_ok hrun ((removeUnreachableFrom_prunes hstarted _ hseeds
    ⟨hencloses.kept, hencloses.computed⟩ hbound).mono (fun _ s' hend => ?_)
      fun _ _ hfails => hfails.of_started)
  obtain ⟨⟨t, reached, hpruned⟩, hagain⟩ := hend
  have hreached : ∀ x ∈ s.automaton.initialValue, x ∈ reached := fun x hx =>
    hpruned.closure.isLeast.1.1 x (Option.mem_toList.2 hx)
  have hbuilt : s'.automaton.initial = .resolved s.automaton.initialValue := by
    cases hvalue : s.automaton.initialValue with
    | none => exact (hpruned.pending hvalue).trans (congrArg Initial.resolved hvalue)
    | some x =>
        have hstate := hpruned.initial x hvalue
        rw [if_pos (hreached x hvalue)] at hstate
        cases hinitial : s'.automaton.initial with
        | pending state => rw [hinitial] at hstate; cases hstate
        | resolved state => rw [hinitial] at hstate; exact congrArg Initial.resolved hstate
  refine ⟨⟨_, t, reached, hrun, hpruned⟩, fun x hx => ⟨?_, ?_⟩, fun hnone => ?_,
    fun bound' hbound' => ?_⟩
  · rw [hbuilt]
    exact hx
  · exact (hpruned.isExplored_iff x).2 (hreached x hx)
  · rw [hnone] at hpruned
    exact hpruned.rows_eq_nil
  · exact (run_bind (initialState_of_resolved hbuilt)).trans (hagain bound' hbound')

end Removal

end Automaton

namespace Program

/-- The automaton at a position, in the workspace of the program. -/
def sceneAt (P : Program S) (j : Nat) : Option (Scene S) :=
  P.automata[j]?.map (⟨·, P.workspace⟩)

variable [DecidableEq S] [ToString S]

/-- Pruning an automaton of a program.  Whatever was explored and removed before, what is removed is
what cannot be reached from the seeds, or from the initial state, along the rows that are kept once
all that can be reached is explored.  The rows of what stays are not cut, the states explored before
keep their order, and a second removal changes nothing.  This is so with any bound from the size of
a finite set on that the rows do not lead out of. -/
theorem unreachable_pruned {k : Nat} {sizing : Sizing} {f : Factory}
    (hnew : Factory.ofSizing k sizing = .ok f) (commands : List (Command S)) {j : Nat}
    {s : Scene S} (hscene : ((start f).afterAll commands).sceneAt j = some s)
    (space : Finset S) (hencloses : s.automaton.Encloses space) :
    ∀ bound ≥ space.card,
      (∀ seeds : List S, (∀ x ∈ seeds, x ∈ space) → Automaton.PrunesFrom bound seeds s) ∧
      ((∀ x ∈ s.automaton.initialValue, x ∈ space) → Automaton.PrunesUnreachable bound s) := by
  intro bound hbound
  obtain ⟨a, ha, rfl⟩ := Option.map_eq_some_iff.1 hscene
  have hbalanced := ((start_sound hnew).afterAll commands).scene ha
  exact ⟨fun seeds hseeds =>
    Automaton.removeUnreachableFrom_prunes hbalanced seeds hseeds hencloses hbound,
    fun hinitial => Automaton.removeUnreachable_prunes hbalanced hinitial hencloses hbound⟩

/-! ## An automaton that was cut before -/

/-- State 0 leads to 1 and to 2, both lead on, and state 3 leads to itself. -/
private def fork : LawfulSpace (Fin 4) :=
  ⟨.ofStep (fun _ => none) fun state letter => some (Edge.of (match state with
    | 0 => if letter.contains 0 then 1 else 2
    | 1 => 0
    | 2 | 3 => 3)), StateSpace.ofStep_lawful _ _⟩

/-- States 3 and 0 are explored, then state 1 is removed with the edge that leads to it. -/
private def cutting : List (Command (Fin 4)) :=
  [.marks .all [], .found fork (.resolved (some 0)) 0, .operate 0 (.successors 3),
    .operate 0 (.successors 0), .operate 0 (.edit (.remove [1]))]

private def forkFactory : Factory :=
  (Factory.ofSizing 1 ⟨3, 2, 5⟩).toOption.getD default

private def cutScene : Scene (Fin 4) :=
  (((start forkFactory).afterAll cutting).sceneAt 0).getD
    ⟨.create 0 fork.1 ⟨.marks .all, []⟩ (.resolved none), default⟩

private def cutAfter (x : AutomatonM (Fin 4) Unit) : Scene (Fin 4) :=
  match x cutScene with
  | .ok _ s => s
  | .error _ s => s

/-- The theorem where state 0 leads to state 2 alone.  From there neither state 0 nor state 1 is
reached, and the initial state goes; from state 0 everything but state 1 is reached. -/
theorem cutScene_pruned :
    Factory.ofSizing 1 ⟨3, 2, 5⟩ = .ok forkFactory ∧
      ((start forkFactory).afterAll cutting).sceneAt 0 = some cutScene ∧
      cutScene.automaton.states = [3, 0] ∧
      cutScene.automaton.Encloses Finset.univ ∧
      Automaton.PrunesFrom 4 [2] cutScene ∧ Automaton.PrunesUnreachable 4 cutScene ∧
      (cutAfter (Automaton.removeUnreachableFrom 4 [2])).automaton.states = [3, 2] ∧
      (cutAfter (Automaton.removeUnreachableFrom 4 [2])).automaton.initial.state? = none ∧
      (cutAfter (Automaton.removeUnreachable 4)).automaton.states = [3, 0, 2] := by
  have hnew : Factory.ofSizing 1 ⟨3, 2, 5⟩ = .ok forkFactory := rfl
  have hscene : ((start forkFactory).afterAll cutting).sceneAt 0 = some cutScene := by
    obtain ⟨s, hs⟩ := Option.isSome_iff_exists.1
      (by decide +kernel : (((start forkFactory).afterAll cutting).sceneAt 0).isSome = true)
    rw [cutScene, hs]
    rfl
  have hencloses : cutScene.automaton.Encloses Finset.univ :=
    ⟨fun _ _ y _ => Finset.mem_univ y, fun _ _ _ _ _ _ _ y _ => Finset.mem_univ y⟩
  obtain ⟨hfrom, hunreachable⟩ := unreachable_pruned hnew cutting hscene Finset.univ hencloses 4
    (by decide)
  exact ⟨hnew, hscene, by decide +kernel, hencloses, hfrom [2] fun x _ => Finset.mem_univ x,
    hunreachable fun x _ => Finset.mem_univ x, by decide +kernel, by decide +kernel,
    by decide +kernel⟩

end Program

end SymbolicOmega
