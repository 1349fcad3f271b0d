import Mathlib.Data.Fintype.Basic
import Mathlib.Order.Bounds.Defs
import SymbolicOmega.Proofs.Automaton.Closure
import SymbolicOmega.Proofs.Automaton.Generation

/-!
# Reachability

The closure of some seeds is found breadth first.  The states whose rows were looked at come
first in the answer, those in the queue after them, so the answer grows at its end alone and each
state is taken from the queue once.  With the queue empty the answer is closed under the kept
rows, and it holds nothing but what the seeds reach along them.
-/

namespace SymbolicOmega

namespace Automaton

open Function

variable {S : Type} [DecidableEq S]

/-- `a'` is `a` with the rows of some of `states` appended. -/
def Appends (a a' : Automaton S) (states : List S) : Prop :=
  ∃ new : List (S × Row S), a' = { a with rows := a.rows ++ new } ∧
    ∀ entry ∈ new, entry.1 ∈ states

namespace Appends

variable {a a' a'' : Automaton S} {states states' : List S}

omit [DecidableEq S] in
theorem refl (a : Automaton S) (states : List S) : a.Appends a states :=
  ⟨[], by simp, by simp⟩

omit [DecidableEq S] in
theorem trans (h : a.Appends a' states) (h' : a'.Appends a'' states') :
    a.Appends a'' (states ++ states') := by
  obtain ⟨new, rfl, hnew⟩ := h
  obtain ⟨new', rfl, hnew'⟩ := h'
  refine ⟨new ++ new', by simp, fun entry hentry => ?_⟩
  rcases List.mem_append.1 hentry with hentry | hentry
  · exact List.mem_append_left _ (hnew entry hentry)
  · exact List.mem_append_right _ (hnew' entry hentry)

theorem kept (h : a.Appends a' states) : a.Extends a' := by
  obtain ⟨new, rfl, -⟩ := h
  refine ⟨fun x row hrow => ?_, rfl, rfl⟩
  have hold : a.rows.lookup x = some row := hrow
  simp [row?, List.lookup_append, hold]

/-- Nothing else was explored. -/
theorem explored (h : a.Appends a' states) {x : S} (hx : a'.isExplored x = true) :
    a.isExplored x = true ∨ x ∈ states := by
  obtain ⟨new, rfl, hnew⟩ := h
  rw [isExplored_iff_mem_states, Automaton.states, List.map_append, List.mem_append] at hx
  rcases hx with hx | hx
  · exact .inl (isExplored_iff_mem_states.2 hx)
  · obtain ⟨entry, hentry, rfl⟩ := List.mem_map.1 hx
    exact .inr (hnew entry hentry)

end Appends

theorem explore_of_kept {s : Scene S} {x : S} {row : Row S}
    (h : s.automaton.row? x = some row) : explore x s = .ok row s := by
  rw [explore]
  rw [run_bind (current_run s), h]
  rfl

/-- The row is kept from now on, whether it was kept before or is computed. -/
theorem explore_appends (s : Scene S) (x : S) :
    Outcome (explore x) s
      (fun row s' => s.automaton.Appends s'.automaton [x] ∧ s'.automaton.row? x = some row)
      (fun _ s' => s'.automaton = s.automaton ∧ s.automaton.isExplored x = false) := by
  cases hrow : s.automaton.row? x with
  | some row => exact Outcome.of_run (explore_of_kept hrow) ⟨.refl _ _, hrow⟩
  | none =>
      have hfresh := isExplored_eq_false.2 hrow
      cases hspace : s.automaton.space.row s.automaton.owner x s.workspace with
      | error fault w =>
          rw [Outcome]
          rw [explore_of_error hfresh hspace]
          exact ⟨rfl, hfresh⟩
      | ok row w =>
          apply Outcome.of_run (explore_of_ok hfresh hspace)
          refine ⟨⟨[(x, row)], rfl, by simp⟩, ?_⟩
          rw [(adds_append row hfresh).row?_eq, update_self]

/-- Rows lead from `space` to `space`, those that are kept and those still to be computed. -/
structure Encloses (a : Automaton S) (space : Finset S) : Prop where
  kept : ∀ x ∈ space, ∀ y, a.Leads x y → y ∈ space
  computed : a.Confined space

theorem explore_encloses {s : Scene S} {x : S} {space : Finset S}
    (h : s.automaton.Encloses space) (hx : x ∈ space) :
    Outcome (explore x) s
      (fun row s' => s'.automaton.Encloses space ∧ ∀ y ∈ row.targets, y ∈ space)
      (fun _ _ => True) := by
  cases hrow : s.automaton.row? x with
  | some row =>
      exact Outcome.of_run (explore_of_kept hrow) ⟨h, fun y hy => h.kept x hx y ⟨row, hrow, hy⟩⟩
  | none =>
      have hfresh := isExplored_eq_false.2 hrow
      refine (explore_outcome hfresh).mono ?_ fun _ _ _ => trivial
      rintro row s' ⟨hadds, hspace⟩
      have htargets := h.computed x hx hfresh _ row _ hspace
      refine ⟨⟨fun y hy z hyz => ?_, hadds.confined h.computed⟩, htargets⟩
      by_cases hyx : y = x
      · subst hyx
        exact htargets z ((leads_self_of_update hadds.row?_eq).1 hyz)
      · exact h.kept y hy z ((leads_of_ne_of_update hadds.row?_eq hyx).1 hyz)

/-! ## What the walk keeps -/

theorem mem_newStates_iff {reached targets : List S} {x : S} :
    x ∈ newStates reached targets ↔ x ∈ targets ∧ x ∉ reached := by
  simp [newStates]

theorem nodup_append_newStates {reached : List S} (h : reached.Nodup) (targets : List S) :
    (reached ++ newStates reached targets).Nodup :=
  h.append ((nodup_eraseDups targets).filter _) fun _ hx hnew => (mem_newStates_iff.1 hnew).2 hx

/-- A walk from `seeds` that began in `a₀` has come to `a`.  The rows of `visited` were looked
at, those of the states in the queue were not. -/
structure Spreads (a₀ a : Automaton S) (seeds visited queue : List S) : Prop where
  appends : a₀.Appends a visited
  nodup : (visited ++ queue).Nodup
  first : seeds.eraseDups <+: visited ++ queue
  reached : ∀ y ∈ visited ++ queue, ∃ x ∈ seeds, a.Reaches x y
  explored : ∀ x ∈ visited, a.isExplored x = true
  closed : ∀ x ∈ visited, ∀ y, a.Leads x y → y ∈ visited ++ queue

namespace Spreads

variable {a₀ a a' : Automaton S} {seeds visited queue : List S} {x : S} {row : Row S}

theorem start (a : Automaton S) (seeds : List S) : a.Spreads a seeds [] seeds.eraseDups where
  appends := .refl a []
  nodup := nodup_eraseDups seeds
  first := List.prefix_refl _
  reached y hy := ⟨y, List.mem_eraseDups.1 hy, .refl⟩
  explored := by simp
  closed := by simp

omit [DecidableEq S] in
/-- The answer grows at its end, and so does the queue. -/
theorem append_newStates (visited queue found : List S) (x : S) :
    visited ++ x :: queue ++ found = visited ++ [x] ++ (queue ++ found) := by
  simp

/-- The first state of the queue is visited, and what its row leads to is queued if it is new. -/
theorem visit (h : a₀.Spreads a seeds visited (x :: queue)) (happends : a.Appends a' [x])
    (hrow : a'.row? x = some row) :
    a₀.Spreads a' seeds (visited ++ [x])
      (queue ++ newStates (visited ++ x :: queue) row.targets) := by
  have hgrow : ∀ y ∈ visited ++ x :: queue, ∃ z ∈ seeds, a'.Reaches z y := by
    intro y hy
    obtain ⟨z, hz, hreach⟩ := h.reached y hy
    exact ⟨z, hz, Relation.ReflTransGen.mono (fun _ _ => happends.kept.leads) _ _ hreach⟩
  have hin : x ∈ visited ++ x :: queue := by simp
  constructor
  · exact h.appends.trans happends
  · rw [← append_newStates]
    exact nodup_append_newStates h.nodup _
  · rw [← append_newStates]
    exact h.first.trans (List.prefix_append _ _)
  · rw [← append_newStates]
    intro y hy
    rcases List.mem_append.1 hy with hy | hy
    · exact hgrow y hy
    · obtain ⟨z, hz, hreach⟩ := hgrow x hin
      exact ⟨z, hz, hreach.tail ⟨row, hrow, (mem_newStates_iff.1 hy).1⟩⟩
  · intro y hy
    rcases List.mem_append.1 hy with hy | hy
    · exact happends.kept.isExplored (h.explored y hy)
    · rw [List.mem_singleton.1 hy]
      exact isExplored_iff.2 ⟨row, hrow⟩
  · rw [← append_newStates]
    intro y hy z hyz
    rcases List.mem_append.1 hy with hy | hy
    · have hold := (happends.kept.leads_iff (h.explored y hy)).1 hyz
      exact List.mem_append_left _ (h.closed y hy z hold)
    · rw [List.mem_singleton.1 hy] at hyz
      obtain ⟨row', hrow', hz⟩ := hyz
      obtain rfl : row = row' := Option.some.inj (hrow.symm.trans hrow')
      by_cases hold : z ∈ visited ++ x :: queue
      · exact List.mem_append_left _ hold
      · exact List.mem_append_right _ (mem_newStates_iff.2 ⟨hz, hold⟩)

end Spreads

/-- `reached` is the closure of `seeds` under the rows that are kept in `a'`, found from `a`. -/
structure ClosureOf (a a' : Automaton S) (seeds reached : List S) : Prop where
  nodup : reached.Nodup
  first : seeds.eraseDups <+: reached
  isLeast : IsLeast {T : Set S | (∀ x ∈ seeds, x ∈ T) ∧ ∀ x ∈ T, ∀ y, a'.Leads x y → y ∈ T}
    {x | x ∈ reached}
  explored : ∀ x ∈ reached, a'.isExplored x = true
  /-- The rows that were kept are kept as they are, in their order. -/
  appends : a.Appends a' reached
  only : ∀ x, a'.isExplored x = true → a.isExplored x = true ∨ x ∈ reached

/-- With nothing left in its queue a walk has found the closure. -/
theorem Spreads.closureOf {a₀ a : Automaton S} {seeds reached : List S}
    (h : a₀.Spreads a seeds reached []) : a₀.ClosureOf a seeds reached := by
  obtain ⟨happends, hnodup, hfirst, hreached, hexplored, hclosed⟩ := h
  rw [List.append_nil] at hnodup hfirst hreached hclosed
  refine ⟨hnodup, hfirst, ⟨⟨fun x hx => ?_, hclosed⟩, ?_⟩, hexplored, happends,
    fun x => happends.explored⟩
  · exact hfirst.subset (List.mem_eraseDups.2 hx)
  · rintro T ⟨hseeds, hT⟩ y hy
    obtain ⟨x, hx, hreach⟩ := hreached y hy
    clear hy
    induction hreach with
    | refl => exact hseeds x hx
    | tail _ hstep ih => exact hT _ ih _ hstep

theorem closeQueue_visit {s s' : Scene S} {x : S} {row : Row S} (hrun : explore x s = .ok row s')
    (bound : Nat) (reached queue : List S) :
    closeQueue (bound + 1) reached (x :: queue) s =
      closeQueue bound (reached ++ newStates reached row.targets)
        (queue ++ newStates reached row.targets) s' := by
  rw [closeQueue, run_bind hrun]

/-- A bound by the number of states is enough, because no state is queued twice. -/
theorem closeQueue_spreads {s₀ : Scene S} {a₀ : Automaton S} {seeds : List S} {space : Finset S}
    (bound : Nat) :
    ∀ (visited queue : List S) (s : Scene S), Explores s₀ seeds s →
      a₀.Spreads s.automaton seeds visited queue → s.automaton.Encloses space →
      (∀ y ∈ visited ++ queue, y ∈ space) → space.card ≤ visited.length + bound →
      Outcome (closeQueue bound (visited ++ queue) queue) s
        (fun reached s' => a₀.Spreads s'.automaton seeds reached [])
        (RowFails s₀ seeds) := by
  induction bound with
  | zero =>
      intro visited queue s _ h _ hinside hbound
      have hcard : (visited ++ queue).toFinset.card ≤ space.card :=
        Finset.card_le_card fun y hy => hinside y (List.mem_toFinset.1 hy)
      rw [List.toFinset_card_of_nodup h.nodup, List.length_append] at hcard
      obtain rfl : queue = [] := List.length_eq_zero_iff.1 (by omega)
      rw [closeQueue]
      exact Outcome.pure (by simpa using h)
  | succ bound ih =>
      intro visited queue s hexplores h hencloses hinside hbound
      cases queue with
      | nil =>
          rw [closeQueue]
          exact Outcome.pure (by simpa using h)
      | cons x queue =>
          have hx : x ∈ space := hinside x (by simp)
          have hreached : s.automaton.ReachedFrom seeds x := h.reached x (by simp)
          have hboth := (explore_appends s x).and (explore_encloses hencloses hx)
          cases hrun : explore x s with
          | error fault s' =>
              rw [Outcome, closeQueue, run_bind_error hrun]
              exact ⟨s, x, hexplores, hreached, (hboth.of_error hrun).1.2, hrun⟩
          | ok row s' =>
              obtain ⟨⟨happends, hrow⟩, hencloses', htargets⟩ := hboth.of_ok hrun
              rw [Outcome, closeQueue_visit hrun, Spreads.append_newStates]
              refine ih _ _ s' (hexplores.next hreached hrun) (h.visit happends hrow) hencloses'
                ?_ ?_
              · rw [← Spreads.append_newStates]
                intro y hy
                rcases List.mem_append.1 hy with hy | hy
                · exact hinside y hy
                · exact htargets y (mem_newStates_iff.1 hy).1
              · rw [List.length_append, List.length_singleton]
                omega

/-! ## The walk again -/

/-- The answer grows at its end, and rows are only added. -/
theorem closeQueue_grows (bound : Nat) :
    ∀ (reached queue : List S) (s : Scene S), Outcome (closeQueue bound reached queue) s
      (fun closure s' => reached <+: closure ∧ s.automaton.Extends s'.automaton)
      (fun _ _ => True) := by
  induction bound with
  | zero =>
      intro reached queue s
      cases queue with
      | nil => exact Outcome.pure ⟨List.prefix_refl _, .refl _⟩
      | cons x queue => exact Outcome.throw trivial
  | succ bound ih =>
      intro reached queue s
      cases queue with
      | nil => exact Outcome.pure ⟨List.prefix_refl _, .refl _⟩
      | cons x queue =>
          refine Outcome.bind_answers (explore_appends s x) fun row s₁ hrow => ?_
          refine (ih _ _ s₁).imp fun closure s' hend => ?_
          exact ⟨(List.prefix_append _ _).trans hend.1, hrow.1.kept.trans hend.2⟩

/-- Where the rows of the closure are kept, it is found again and nothing changes. -/
theorem closeQueue_again (bound : Nat) :
    ∀ (reached queue : List S) {closure : List S} {s s' t : Scene S} (bound' : Nat),
      closeQueue bound reached queue s = .ok closure s' → queue ⊆ reached →
      (∀ x ∈ closure, ∀ row, s'.automaton.row? x = some row → t.automaton.row? x = some row) →
      bound ≤ bound' → closeQueue bound' reached queue t = .ok closure t := by
  induction bound with
  | zero =>
      intro reached queue closure s s' t bound' hrun _ _ _
      cases queue with
      | nil =>
          rw [closeQueue] at hrun ⊢
          cases hrun
          rfl
      | cons x queue => cases hrun
  | succ bound ih =>
      intro reached queue closure s s' t bound' hrun hqueue hrows hbound
      cases queue with
      | nil =>
          rw [closeQueue] at hrun ⊢
          cases hrun
          rfl
      | cons x queue =>
          obtain ⟨bound', rfl⟩ : ∃ less, bound' = less + 1 := ⟨bound' - 1, by omega⟩
          cases hexplore : explore x s with
          | error fault s₁ =>
              rw [closeQueue, run_bind_error hexplore] at hrun
              cases hrun
          | ok row s₁ =>
              rw [closeQueue_visit hexplore] at hrun
              obtain ⟨hgrown, hextends⟩ := (closeQueue_grows bound _ _ s₁).of_ok hrun
              have hrow := ((explore_appends s x).of_ok hexplore).2
              have hin : x ∈ closure := hgrown.subset
                (List.mem_append_left _ (hqueue List.mem_cons_self))
              have hkept : explore x t = .ok row t :=
                explore_of_kept (hrows x hin row (hextends.rows x row hrow))
              rw [closeQueue_visit hkept]
              refine ih _ _ bound' hrun ?_ hrows (by omega)
              exact List.append_subset.2 ⟨fun y hy =>
                List.mem_append_left _ (hqueue (List.mem_cons_of_mem x hy)),
                List.subset_append_right _ _⟩

theorem reachable_again {bound bound' : Nat} {seeds reached : List S} {s s' t : Scene S}
    (hrun : reachable bound seeds s = .ok reached s')
    (hrows : ∀ x ∈ reached, ∀ row, s'.automaton.row? x = some row → t.automaton.row? x = some row)
    (hbound : bound ≤ bound') : reachable bound' seeds t = .ok reached t :=
  closeQueue_again bound _ _ bound' hrun (List.Subset.refl _) hrows hbound

/-- The states reachable from some seeds.  Whenever the rows lead from the seeds into finitely
many states, the walk ends, unless the row of a state that it came to cannot be computed.  It
answers the seeds and everything that follows from them along the rows kept afterwards, each state
once and the seeds first.  All of it is explored then and nothing else that was not explored
before, and the rows that were kept are kept as they are.  Asking again gives the same answer and
changes nothing. -/
theorem reachable_closure (s : Scene S) (seeds : List S) (space : Finset S)
    (hseeds : ∀ x ∈ seeds, x ∈ space) (hencloses : s.automaton.Encloses space) :
    ∀ bound ≥ space.card, Outcome (reachable bound seeds) s
      (fun reached s' => s.automaton.ClosureOf s'.automaton seeds reached ∧
        ∀ bound' ≥ bound, reachable bound' seeds s' = .ok reached s')
      (RowFails s seeds) := by
  intro bound hbound
  have hstart : s.automaton.Spreads s.automaton seeds [] seeds.eraseDups := .start _ seeds
  have hspreads := closeQueue_spreads bound [] seeds.eraseDups s
    (.start s.automaton.initial s.automaton.builds) hstart hencloses
    (fun y hy => hseeds y (List.mem_eraseDups.1 hy)) (by simpa)
  apply Outcome.intro
  · intro reached s' hrun
    exact ⟨(hspreads.of_ok hrun).closureOf, fun bound' hbound' =>
      reachable_again hrun (fun _ _ _ hrow => hrow) hbound'⟩
  · exact fun fault s' hrun => hspreads.of_error hrun

/-- Three states in a ring, each with an edge to the next on every letter. -/
private def ring : StateSpace (Fin 3) where
  row owner x := do
    let label ← LetterSet.all owner
    return [(Edge.of (x + 1), label)]

/-- An automaton over the ring in which nothing is explored. -/
private def unexploredRing : Scene (Fin 3) where
  automaton := .create 0 ring ⟨.marks .all, []⟩ (.resolved none)
  workspace := .ofFactories [(Factory.ofSizing 1 ⟨3, 2, 5⟩).toOption.getD default]

private def sceneAfter {β : Type} (x : AutomatonM (Fin 3) β) (s : Scene (Fin 3)) :
    Scene (Fin 3) :=
  match x s with
  | .ok _ s' => s'
  | .error _ s' => s'

/-- State 2 is explored already. -/
private def startedRing : Scene (Fin 3) := sceneAfter (explore 2) unexploredRing

/-- The theorem at a seed that is given twice, in a ring of which one row is kept. -/
theorem startedRing_closure :
    startedRing.automaton.isExplored 2 = true ∧
      (∀ x ∈ [1, 1], x ∈ (Finset.univ : Finset (Fin 3))) ∧
      startedRing.automaton.Encloses Finset.univ ∧
      ∃ s', reachable 3 [1, 1] startedRing = .ok [1, 2, 0] s' ∧
        startedRing.automaton.ClosureOf s'.automaton [1, 1] [1, 2, 0] ∧
        reachable 3 [1, 1] s' = .ok [1, 2, 0] s' := by
  have hseeds : ∀ x ∈ [1, 1], x ∈ (Finset.univ : Finset (Fin 3)) := fun x _ => Finset.mem_univ x
  have hencloses : startedRing.automaton.Encloses Finset.univ :=
    ⟨fun _ _ y _ => Finset.mem_univ y, fun _ _ _ _ _ _ _ y _ => Finset.mem_univ y⟩
  have hrun : reachable 3 [1, 1] startedRing =
      .ok [1, 2, 0] (sceneAfter (reachable 3 [1, 1]) startedRing) := rfl
  have hclosure := (reachable_closure startedRing [1, 1] Finset.univ hseeds hencloses 3
    (by decide)).of_ok hrun
  exact ⟨rfl, hseeds, hencloses, _, hrun, hclosure.1, hclosure.2 3 le_rfl⟩

/-- To state 1 with the first proposition and to state 2 without it, and from those two to
themselves. -/
private def fork : StateSpace (Fin 3) :=
  .ofStep (fun _ => none) fun x letter =>
    some (Edge.of (if x ≠ 0 then x else if letter.contains 0 then 1 else 2))

/-- A table of two cells has room for the terminal alone. -/
private def crowdedFork : Scene (Fin 3) where
  automaton := .create 0 fork ⟨.marks .all, []⟩ (.resolved none)
  workspace := .ofFactories [(Factory.ofSizing 1 ⟨1, 2, 2⟩).toOption.getD default]

/-- Three states follow from state 0.  The row of state 0 needs a node that there is no cell for,
so the closure is not found with any bound. -/
theorem crowdedFork_unanswered :
    crowdedFork.automaton.Encloses Finset.univ ∧
      verdict (reachable 3 [0]) crowdedFork = .error .storageFull ∧
      ∀ bound, ¬ ∃ reached s', reachable bound [0] crowdedFork = .ok reached s' := by
  have hfault : verdict (explore 0) crowdedFork = .error .storageFull := by decide +kernel
  cases hexplore : explore 0 crowdedFork with
  | ok row s =>
      rw [verdict, hexplore] at hfault
      cases hfault
  | error fault s =>
      rw [verdict, hexplore] at hfault
      obtain rfl : fault = .storageFull := Except.error.inj hfault
      have hrun : ∀ bound, reachable (bound + 1) [0] crowdedFork = .error .storageFull s :=
        fun bound => run_bind_error hexplore
      refine ⟨⟨fun _ _ y _ => Finset.mem_univ y, fun _ _ _ _ _ _ _ y _ => Finset.mem_univ y⟩,
        by rw [verdict, hrun], fun bound => ?_⟩
      rintro ⟨reached, s', hok⟩
      cases bound with
      | zero => cases hok
      | succ bound =>
          rw [hrun] at hok
          cases hok

end Automaton

end SymbolicOmega
