import Mathlib.Data.Finset.Card
import SymbolicOmega.Proofs.Automaton.Exploration

/-!
# Generation

A walk explores the states of a queue and queues the unexplored states their rows
lead to.  It ends when the rows that it may still compute lead into finitely many
states, and it has then explored what the seed reaches through states that were not
explored before.  It does not go on behind a state with a kept row, so everything
reachable is explored exactly if those states lead to nothing that is missing.
-/

namespace SymbolicOmega

namespace Automaton

variable {S : Type} [DecidableEq S]

/-- A walk from `seed` that began in `a₀` has come to `a` with a queue. -/
structure Walk (a₀ a : Automaton S) (seed : S) (queue : List S) : Prop where
  kept : a₀.Extends a
  explored : ∀ x, a.isExplored x = true → a₀.isExplored x = true ∨ a₀.ReachesFresh a seed x
  queued : ∀ x ∈ queue, a₀.ReachesFresh a seed x
  closed : ∀ x y, a₀.isExplored x = false → a.Leads x y → a.isExplored y = true ∨ y ∈ queue
  started : a.isExplored seed = true ∨ seed ∈ queue

namespace Walk

variable {a₀ a a' : Automaton S} {seed x : S} {queue : List S} {row : Row S}

theorem start (a : Automaton S) (seed : S) : a.Walk a seed [seed] where
  kept := .refl a
  explored x hx := .inl hx
  queued x hx := by
    rw [List.mem_singleton.1 hx]
    exact .refl
  closed x y hx hxy := by
    rw [hxy.isExplored] at hx
    cases hx
  started := .inr (List.mem_singleton_self seed)

/-- A queued state that is explored by now is left out. -/
theorem skip (h : a₀.Walk a seed (x :: queue)) (hx : a.isExplored x = true) :
    a₀.Walk a seed queue where
  kept := h.kept
  explored := h.explored
  queued y hy := h.queued y (List.mem_cons_of_mem x hy)
  closed y z hy hyz := by
    obtain hz | hz := h.closed y z hy hyz
    · exact .inl hz
    · obtain rfl | hz := List.mem_cons.1 hz
      · exact .inl hx
      · exact .inr hz
  started := by
    obtain hseed | hseed := h.started
    · exact .inl hseed
    · obtain rfl | hseed := List.mem_cons.1 hseed
      · exact .inl hx
      · exact .inr hseed

/-- The unexplored states that the new row leads to are queued. -/
theorem visit (h : a₀.Walk a seed (x :: queue)) (hadds : a.Adds a' x row) :
    a₀.Walk a' seed (queue ++ row.targets.filter (!a'.isExplored ·)) := by
  have hgrow : ∀ y, a₀.ReachesFresh a seed y → a₀.ReachesFresh a' seed y := fun y hy =>
    Relation.ReflTransGen.mono (fun _ _ hstep => ⟨hstep.1, hadds.kept.leads hstep.2⟩) _ _ hy
  have hself : a₀.ReachesFresh a' seed x := hgrow x (h.queued x List.mem_cons_self)
  have hx₀ : a₀.isExplored x = false := h.kept.fresh hadds.fresh
  have hother : ∀ y, a.isExplored y = true ∨ y ∈ x :: queue →
      a'.isExplored y = true ∨ y ∈ queue ++ row.targets.filter (!a'.isExplored ·) := by
    rintro y (hy | hy)
    · exact .inl (hadds.kept.isExplored hy)
    · obtain rfl | hy := List.mem_cons.1 hy
      · exact .inl (hadds.isExplored_iff.2 (.inl rfl))
      · exact .inr (List.mem_append_left _ hy)
  refine ⟨h.kept.trans hadds.kept, fun y hy => ?_, fun y hy => ?_, fun y z hy hyz => ?_,
    hother seed h.started⟩
  · obtain rfl | hy := hadds.isExplored_iff.1 hy
    · exact .inr hself
    · exact (h.explored y hy).imp_right (hgrow y)
  · obtain hy | hy := List.mem_append.1 hy
    · exact hgrow y (h.queued y (List.mem_cons_of_mem x hy))
    · exact hself.tail ⟨hx₀, (leads_self_of_update hadds.row?_eq).2 (List.mem_of_mem_filter hy)⟩
  · by_cases hyx : y = x
    · subst hyx
      have hz := (leads_self_of_update hadds.row?_eq).1 hyz
      by_cases hexplored : a'.isExplored z = true
      · exact .inl hexplored
      · exact .inr (List.mem_append_right _ (List.mem_filter.2 ⟨hz, by simpa using hexplored⟩))
    · exact hother z (h.closed y z hy ((leads_of_ne_of_update hadds.row?_eq hyx).1 hyz))

/-- With nothing left in its queue a walk has explored what it reaches and no more. -/
theorem isExplored_iff (h : a₀.Walk a seed []) {y : S} :
    a.isExplored y = true ↔ a₀.isExplored y = true ∨ a₀.ReachesFresh a seed y := by
  refine ⟨h.explored y, ?_⟩
  rintro (hy | hy)
  · exact h.kept.isExplored hy
  · induction hy with
    | refl => simpa using h.started
    | tail _ hstep _ => simpa using h.closed _ _ hstep.1 hstep.2

/-- Everything reachable is explored if and only if the states explored before the walk
lead to such states alone. -/
theorem complete_iff (h : a₀.Walk a seed []) :
    a.Complete seed ↔
      ∀ x y, a₀.isExplored x = true → a.Reaches seed x → a₀.Leads x y →
        a₀.isExplored y = true ∨ a₀.ReachesFresh a seed y := by
  constructor
  · intro hcomplete x y _ hreach hxy
    exact h.isExplored_iff.1 (hcomplete y (hreach.tail (h.kept.leads hxy)))
  · intro hclosed y hreach
    induction hreach with
    | refl => simpa using h.started
    | @tail x y hreach hxy _ =>
        cases hx : a₀.isExplored x with
        | false => simpa using h.closed x y hx hxy
        | true =>
            have hold := (h.kept.leads_iff hx).1 hxy
            exact h.isExplored_iff.2 (hclosed x y hx hreach hold)

end Walk

/-! ## Walks end -/

/-- The rows that are still to be computed lead from `space` to `space`. -/
def Confined (a : Automaton S) (space : Finset S) : Prop :=
  ∀ x ∈ space, a.isExplored x = false → ∀ w row w', a.space.row a.owner x w = .ok row w' →
    ∀ y ∈ row.targets, y ∈ space

/-- The states in `space` that are not explored. -/
def unexplored (a : Automaton S) (space : Finset S) : Finset S :=
  space.filter fun x => a.isExplored x = false

theorem Adds.confined {a a' : Automaton S} {x : S} {row : Row S} {space : Finset S}
    (h : a.Adds a' x row) (hconfined : a.Confined space) : a'.Confined space := by
  intro y hy hfresh
  rw [h.kept.space, h.kept.owner]
  exact hconfined y hy (h.kept.fresh hfresh)

theorem Adds.card_unexplored_lt {a a' : Automaton S} {x : S} {row : Row S} {space : Finset S}
    (h : a.Adds a' x row) (hx : x ∈ space) :
    (a'.unexplored space).card < (a.unexplored space).card := by
  refine Finset.card_lt_card (Finset.ssubset_iff.2 ⟨x, ?_, ?_⟩)
  · simp [unexplored, h.isExplored_iff.2 (.inl rfl)]
  · intro y hy
    obtain rfl | hy := Finset.mem_insert.1 hy
    · exact Finset.mem_filter.2 ⟨hx, h.fresh⟩
    · obtain ⟨hy, hfresh⟩ := Finset.mem_filter.1 hy
      exact Finset.mem_filter.2 ⟨hy, h.kept.fresh hfresh⟩

/-- Some seed leads to the state along kept rows. -/
def ReachedFrom (a : Automaton S) (seeds : List S) (x : S) : Prop :=
  ∃ seed ∈ seeds, a.Reaches seed x

/-- The scenes that `s` becomes when states are explored one after the other that some seed leads
to by then.  The initial state may have been built before. -/
inductive Explores (s : Scene S) (seeds : List S) : Scene S → Prop where
  | start (initial : Initial S) (builds : Nat) :
      Explores s seeds ⟨{ s.automaton with initial, builds }, s.workspace⟩
  | next {t t' : Scene S} {x : S} {row : Row S} (h : Explores s seeds t)
      (hx : t.automaton.ReachedFrom seeds x) (hrun : explore x t = .ok row t') :
      Explores s seeds t'

/-- The row of a state that some seed leads to could not be computed when its turn came. -/
def RowFails (s : Scene S) (seeds : List S) (fault : Fault) (s' : Scene S) : Prop :=
  ∃ t x, Explores s seeds t ∧ t.automaton.ReachedFrom seeds x ∧
    t.automaton.isExplored x = false ∧ explore x t = .error fault s'

theorem exploreQueue_skip {s : Scene S} {x : S} (hx : s.automaton.isExplored x = true)
    (bound : Nat) (queue : List S) :
    exploreQueue (bound + 1) (x :: queue) s = exploreQueue bound queue s := by
  rw [exploreQueue, run_bind (current_run _), if_pos hx]

theorem exploreQueue_visit {s s' : Scene S} {x : S} {row : Row S}
    (hx : s.automaton.isExplored x = false) (hrun : explore x s = .ok row s')
    (bound : Nat) (queue : List S) :
    exploreQueue (bound + 1) (x :: queue) s =
      exploreQueue bound (queue ++ row.targets.filter (!s'.automaton.isExplored ·)) s' := by
  rw [exploreQueue, run_bind (current_run _), if_neg (by simp [hx]), run_bind hrun,
    run_bind (current_run _)]

theorem exploreQueue_fault {s s' : Scene S} {x : S} {fault : Fault}
    (hx : s.automaton.isExplored x = false) (hrun : explore x s = .error fault s')
    (bound : Nat) (queue : List S) :
    exploreQueue (bound + 1) (x :: queue) s = .error fault s' := by
  rw [exploreQueue, run_bind (current_run _), if_neg (by simp [hx]), run_bind_error hrun]

/-- Some bound is enough for the walk to empty its queue, unless a row cannot be computed. -/
def Empties (s₀ : Scene S) (a₀ : Automaton S) (seed : S) (queue : List S) (s : Scene S) : Prop :=
  ∃ least, ∀ bound ≥ least, Outcome (exploreQueue bound queue) s
    (fun _ s' => a₀.Walk s'.automaton seed []) (RowFails s₀ [seed])

section
variable {s₀ s s' : Scene S} {a₀ : Automaton S} {seed : S} {queue queue' : List S}

theorem Empties.of_step (h : Empties s₀ a₀ seed queue' s')
    (hstep : ∀ bound, exploreQueue (bound + 1) queue s = exploreQueue bound queue' s') :
    Empties s₀ a₀ seed queue s := by
  obtain ⟨least, hleast⟩ := h
  refine ⟨least + 1, fun bound hbound => ?_⟩
  cases bound with
  | zero => exact absurd hbound (Nat.not_succ_le_zero least)
  | succ bound =>
      rw [Outcome, hstep]
      exact hleast bound (Nat.le_of_succ_le_succ hbound)

theorem Empties.of_fault {fault : Fault} (h : RowFails s₀ [seed] fault s')
    (hstep : ∀ bound, exploreQueue (bound + 1) queue s = .error fault s') :
    Empties s₀ a₀ seed queue s := by
  refine ⟨1, fun bound hbound => ?_⟩
  cases bound with
  | zero => exact absurd hbound (Nat.not_succ_le_zero 0)
  | succ bound =>
      rw [Outcome, hstep]
      exact h

end

theorem exploreQueue_empties {s₀ : Scene S} {a₀ : Automaton S} {seed : S} {space : Finset S} :
    ∀ (count : Nat) (s : Scene S) (queue : List S), Explores s₀ [seed] s →
      a₀.Walk s.automaton seed queue →
      s.automaton.Confined space → (∀ x ∈ queue, x ∈ space) →
      (s.automaton.unexplored space).card < count → Empties s₀ a₀ seed queue s := by
  -- A row computed lowers the number of unexplored states; a state left out shortens the queue.
  intro count
  induction count with
  | zero => exact fun _ _ _ _ _ _ hcount => absurd hcount (Nat.not_lt_zero _)
  | succ count ihcount =>
      intro s queue hexplores hwalk hconfined hinside hcount
      induction queue with
      | nil =>
          refine ⟨0, fun bound _ => ?_⟩
          rw [exploreQueue]
          exact Outcome.pure hwalk
      | cons x queue ihqueue =>
          obtain ⟨hxspace, hrest⟩ := List.forall_mem_cons.1 hinside
          cases hx : s.automaton.isExplored x with
          | true => exact (ihqueue (hwalk.skip hx) hrest).of_step (exploreQueue_skip hx · queue)
          | false =>
              have hreached : s.automaton.ReachedFrom [seed] x :=
                ⟨seed, List.mem_singleton_self seed, Relation.ReflTransGen.mono
                  (fun _ _ hstep => hstep.2) _ _ (hwalk.queued x List.mem_cons_self)⟩
              cases hrun : explore x s with
              | error fault s' =>
                  exact .of_fault ⟨s, x, hexplores, hreached, hx, hrun⟩
                    (exploreQueue_fault hx hrun · queue)
              | ok row s' =>
                  obtain ⟨hadds, hrow⟩ := (explore_outcome hx).of_ok hrun
                  have hnext : ∀ y ∈ queue ++ row.targets.filter (!s'.automaton.isExplored ·),
                      y ∈ space := by
                    intro y hy
                    obtain hy | hy := List.mem_append.1 hy
                    · exact hrest y hy
                    · exact hconfined x hxspace hx _ row _ hrow y (List.mem_of_mem_filter hy)
                  have hfewer := hadds.card_unexplored_lt hxspace
                  exact (ihcount s' _ (hexplores.next hreached hrun) (hwalk.visit hadds)
                    (hadds.confined hconfined) hnext (by omega)).of_step
                      (exploreQueue_visit hx hrun · queue)

theorem RowFails.of_started {s s' : Scene S} {seeds : List S} {fault : Fault}
    {initial : Initial S} {builds : Nat}
    (h : RowFails ⟨{ s.automaton with initial, builds }, s.workspace⟩ seeds fault s') :
    RowFails s seeds fault s' := by
  obtain ⟨t, x, hexplores, hfails⟩ := h
  refine ⟨t, x, ?_, hfails⟩
  clear hfails
  induction hexplores with
  | start initial builds => exact .start initial builds
  | next _ hx hrun ih => exact ih.next hx hrun

/-- The initial state, whether it is built or not. -/
def initialValue (a : Automaton S) : Option S :=
  match a.initial with
  | .pending state => state
  | .resolved state => state

/-- `a'` is what generating from `seed` makes of `a`. -/
structure Generated (a a' : Automaton S) (seed : S) : Prop where
  kept : a.Extends a'
  /-- Nothing is explored but what is reached through states that were not explored before. -/
  isExplored_iff : ∀ y,
    a'.isExplored y = true ↔ a.isExplored y = true ∨ a.ReachesFresh a' seed y
  /-- All that is reachable is explored unless a state explored before leads past that. -/
  complete_iff : a'.Complete seed ↔
    ∀ x y, a.isExplored x = true → a'.Reaches seed x → a.Leads x y →
      a.isExplored y = true ∨ a.ReachesFresh a' seed y

theorem Walk.generated {a₀ a : Automaton S} {seed : S} (h : a₀.Walk a seed []) :
    a₀.Generated a seed :=
  ⟨h.kept, fun _ => h.isExplored_iff, h.complete_iff⟩

/-- If explored states led to explored states alone, everything reachable is explored. -/
theorem Generated.complete_of_closed {a a' : Automaton S} {seed : S} (h : a.Generated a' seed)
    (hclosed : ∀ x y, a.isExplored x = true → a.Leads x y → a.isExplored y = true) :
    a'.Complete seed :=
  h.complete_iff.2 fun x y hx _ hxy => .inl (hclosed x y hx hxy)

/-- Generating ends, and with the states described, unless a row cannot be computed. -/
def Generates (walk : AutomatonM S Unit) (s : Scene S) (seed : S) : Prop :=
  Outcome walk s (fun _ s' => s.automaton.Generated s'.automaton seed)
    (RowFails s [seed])

theorem generateFrom_generates (s : Scene S) {seed : S} {space : Finset S} (hseed : seed ∈ space)
    (hconfined : s.automaton.Confined space) :
    ∃ least, ∀ bound ≥ least, Generates (generateFrom bound (some seed)) s seed := by
  cases hexplored : s.automaton.isExplored seed with
  | true =>
      refine ⟨0, fun bound _ => Outcome.bind_ok (current_run s) ?_⟩
      rw [if_pos hexplored]
      exact Outcome.pure ((Walk.start s.automaton seed).skip hexplored).generated
  | false =>
      obtain ⟨least, hleast⟩ := exploreQueue_empties _ s [seed]
        (.start s.automaton.initial s.automaton.builds) (Walk.start s.automaton seed)
        hconfined (fun x hx => by rwa [List.mem_singleton.1 hx]) (Nat.lt_succ_self _)
      refine ⟨least, fun bound hbound => Outcome.bind_ok (current_run s) ?_⟩
      rw [if_neg (by simp [hexplored])]
      exact (hleast bound hbound).mono (fun _ _ hwalk => hwalk.generated) fun _ _ hfault => hfault

omit [DecidableEq S] in
/-- Building the initial state leaves the rows alone. -/
theorem initialState_run (s : Scene S) : ∃ builds,
    initialState s = .ok s.automaton.initialValue
      ⟨{ s.automaton with initial := .resolved s.automaton.initialValue, builds },
        s.workspace⟩ := by
  obtain ⟨⟨owner, space, initial, builds, rows, acceptance⟩, w⟩ := s
  cases initial with
  | pending state => exact ⟨builds + 1, rfl⟩
  | resolved state => exact ⟨builds, rfl⟩

omit [DecidableEq S] in
theorem initialState_of_resolved {s : Scene S} {state : Option S}
    (h : s.automaton.initial = .resolved state) : initialState s = .ok state s := by
  obtain ⟨⟨owner, space, initial, builds, rows, acceptance⟩, w⟩ := s
  cases h
  rfl

/-- Where the initial state is explored, nothing is done. -/
theorem generate_of_explored {s : Scene S} {seed : S}
    (hinitial : s.automaton.initial.state? = some seed)
    (hexplored : s.automaton.isExplored seed = true) (bound : Nat) :
    generate bound s = .ok () s := by
  have hresolved : s.automaton.initial = .resolved (some seed) := by
    cases hstate : s.automaton.initial with
    | pending state =>
        rw [hstate] at hinitial
        cases hinitial
    | resolved state =>
        rw [hstate] at hinitial
        exact congrArg Initial.resolved hinitial
  have hwalk : generateFrom bound (some seed) s = .ok () s := by
    rw [generateFrom, run_bind (current_run s), if_pos hexplored]
    rfl
  exact (run_bind (initialState_of_resolved hresolved)).trans hwalk

theorem generate_generates (s : Scene S) {seed : S} {space : Finset S}
    (hinitial : s.automaton.initialValue = some seed) (hseed : seed ∈ space)
    (hconfined : s.automaton.Confined space) :
    ∃ least, ∀ bound ≥ least, Generates (generate bound) s seed := by
  obtain ⟨builds, hrun⟩ := initialState_run s
  rw [hinitial] at hrun
  obtain ⟨least, hleast⟩ := generateFrom_generates
    ⟨{ s.automaton with initial := .resolved (some seed), builds }, s.workspace⟩ hseed hconfined
  refine ⟨least, fun bound hbound => Outcome.bind_ok hrun ?_⟩
  exact (hleast bound hbound).mono
    (fun _ _ h => ⟨⟨h.kept.rows, h.kept.space, h.kept.owner⟩, h.isExplored_iff, h.complete_iff⟩)
    fun _ _ hfails => hfails.of_started

/-- Generating from a seed, or from the initial state, whatever was explored before.  Whenever
the rows that are still to be computed lead from the seed into finitely many states, it ends,
with the states explored that are reached through states not explored before.  All that is
reachable from the seed is explored exactly if no state explored before leads past that. -/
theorem generates_finite_space (s : Scene S) (seed : S) (space : Finset S) (hseed : seed ∈ space)
    (hconfined : s.automaton.Confined space) :
    ∃ least, ∀ bound ≥ least,
      Generates (generateFrom bound (some seed)) s seed ∧
        (s.automaton.initialValue = some seed → Generates (generate bound) s seed) := by
  obtain ⟨least, hleast⟩ := generateFrom_generates s hseed hconfined
  by_cases hinitial : s.automaton.initialValue = some seed
  · obtain ⟨least', hleast'⟩ := generate_generates s hinitial hseed hconfined
    refine ⟨max least least', fun bound hbound => ⟨hleast bound ?_, fun _ => hleast' bound ?_⟩⟩
    · exact le_trans (le_max_left _ _) hbound
    · exact le_trans (le_max_right _ _) hbound
  · exact ⟨least, fun bound hbound => ⟨hleast bound hbound, fun h => absurd h hinitial⟩⟩

/-! ## A walk that stops early -/

/-- Every state leads to state 1 on every letter. -/
private def toOne : StateSpace Nat where
  row owner _ := do
    let label ← LetterSet.all owner
    return [(Edge.of 1, label)]

/-- An automaton in which nothing is explored, over letters of one proposition. -/
private def unexploredScene : Scene Nat where
  automaton := .create 0 toOne ⟨.marks .all, []⟩ (.resolved (some 0))
  workspace := .ofFactories [(Factory.ofSizing 1 ⟨3, 2, 5⟩).toOption.getD default]

/-- The row of state 0 was asked for, that of state 1 was not. -/
private def halfExplored : Scene Nat :=
  match explore 0 unexploredScene with
  | .ok _ s => s
  | .error _ s => s

private theorem halfExplored_confined : halfExplored.automaton.Confined {0, 1} := by
  intro x _ _ w row w' hrun y hy
  change EStateM.bind (LetterSet.all 0) _ w = _ at hrun
  rw [EStateM.bind] at hrun
  cases hlabel : LetterSet.all 0 w with
  | error fault v =>
      rw [hlabel] at hrun
      cases hrun
  | ok label v =>
      rw [hlabel] at hrun
      cases hrun
      simpa [Row.targets, Edge.of] using Or.inr hy

/-- The theorem at a seed whose row alone was asked for before.  Generating does nothing, and
state 1 is reachable but not explored. -/
theorem halfExplored_incomplete :
    (∃ row, explore 0 unexploredScene = .ok row halfExplored) ∧
      0 ∈ ({0, 1} : Finset Nat) ∧ halfExplored.automaton.Confined {0, 1} ∧
      (∀ bound, generateFrom bound (some 0) halfExplored = .ok () halfExplored ∧
        generate bound halfExplored = .ok () halfExplored) ∧
      ¬ halfExplored.automaton.Complete 0 := by
  have hseed : 0 ∈ ({0, 1} : Finset Nat) := by decide
  refine ⟨⟨_, rfl⟩, hseed, halfExplored_confined, fun bound => ⟨rfl, rfl⟩, fun hcomplete => ?_⟩
  obtain ⟨least, hleast⟩ := generates_finite_space halfExplored 0 {0, 1} hseed halfExplored_confined
  have hgenerated := (hleast least le_rfl).1.of_ok (b := ()) (t := halfExplored) rfl
  have hleads : halfExplored.automaton.Leads 0 1 := ⟨_, rfl, List.mem_singleton_self 1⟩
  obtain hone | hone := hgenerated.complete_iff.1 hcomplete 0 1 rfl .refl hleads
  · exact absurd hone (by decide)
  · obtain h | ⟨x, hstep, -⟩ := hone.cases_head
    · exact absurd h (by decide)
    · exact absurd hstep.1 (by decide)

end Automaton

end SymbolicOmega
