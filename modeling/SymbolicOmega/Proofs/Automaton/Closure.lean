import Mathlib.Data.List.Induction
import SymbolicOmega.Automaton.Prune
import SymbolicOmega.Proofs.Automaton.Generation

/-!
# Closure

An automaton is closed if its kept rows lead to explored states alone.  An automaton
without explored states is closed.  A walk that comes to its end keeps an automaton
closed, because a state with a row is left out only where that row leads to nothing
new.  A removal keeps it closed, because it takes the edges to a removed state along.
-/

namespace SymbolicOmega

/-- Where no key occurs twice, every entry is found. -/
theorem lookup_of_mem {α β : Type} [BEq α] [LawfulBEq α] {list : List (α × β)}
    (hdistinct : (list.map Prod.fst).Nodup) {entry : α × β} (hentry : entry ∈ list) :
    list.lookup entry.1 = some entry.2 := by
  obtain ⟨before, after, rfl⟩ := List.append_of_mem hentry
  refine List.lookup_eq_some_iff.2 ⟨before, after, rfl, fun other hother => ?_⟩
  rw [List.map_append, List.map_cons, List.nodup_append] at hdistinct
  have hne := hdistinct.2.2 other.1 (List.mem_map_of_mem hother) entry.1 List.mem_cons_self
  simpa using hne.symm

theorem eraseDups_append_singleton {β : Type} [DecidableEq β] (list : List β) (b : β) :
    (list ++ [b]).eraseDups = if b ∈ list then list.eraseDups else list.eraseDups ++ [b] := by
  rw [List.eraseDups_append]
  by_cases hb : b ∈ list
  · simp [List.removeAll, hb]
  · simp [List.removeAll, hb, List.eraseDups_cons]

theorem nodup_eraseDups {β : Type} [DecidableEq β] (list : List β) :
    list.eraseDups.Nodup := by
  induction list using List.reverseRecOn with
  | nil => exact List.nodup_nil
  | append_singleton list b ih =>
      rw [eraseDups_append_singleton]
      split
      · exact ih
      · rename_i hb
        exact ih.append (List.nodup_singleton b)
          (List.disjoint_singleton.2 (mt List.mem_eraseDups.1 hb))

namespace Automaton

open Function

variable {S : Type} [DecidableEq S]

/-- No state has two rows, and the rows lead to explored states alone. -/
structure Closed (a : Automaton S) : Prop where
  distinct : a.states.Nodup
  explored : ∀ x y, a.Leads x y → a.isExplored y = true

theorem isExplored_iff_mem_states {a : Automaton S} {x : S} :
    a.isExplored x = true ↔ x ∈ a.states := by
  simp only [isExplored, row?, Option.isSome_iff_ne_none, ne_eq, List.lookup_eq_none_iff, states]
  grind

theorem row?_of_mem {a : Automaton S} (hdistinct : a.states.Nodup) {entry : S × Row S}
    (hentry : entry ∈ a.rows) : a.row? entry.1 = some entry.2 :=
  lookup_of_mem hdistinct hentry

theorem create_closed (owner : Nat) (space : StateSpace S) (acceptance : Acceptance S)
    (initial : Initial S) : (create owner space acceptance initial).Closed where
  distinct := List.nodup_nil
  explored x y hxy := by
    obtain ⟨row, hrow, -⟩ := hxy
    cases hrow

/-- Closure is about the rows alone. -/
theorem Closed.of_rows_eq {a a' : Automaton S} (h : a.Closed) (hrows : a'.rows = a.rows) :
    a'.Closed := by
  have hrow : ∀ x, a'.row? x = a.row? x := fun x => by rw [row?, hrows, row?]
  constructor
  · rw [states, hrows]
    exact h.distinct
  · rintro x y ⟨row, hx, hy⟩
    rw [isExplored, hrow]
    exact h.explored x y ⟨row, by rw [← hrow]; exact hx, hy⟩

omit [DecidableEq S] in
/-- An operation in the workspace leaves the automaton as it is. -/
theorem inWorkspace_keeps {β : Type} {a : Automaton S} (x : WorkM β) :
    Upholds (fun s : Scene S => s.automaton = a) (inWorkspace x) := by
  rintro ⟨a, w⟩ rfl
  rw [Outcome]
  rw [inWorkspace]
  cases x w with
  | ok b w' => rfl
  | error fault w' => rfl

omit [DecidableEq S] in
/-- The initial state is built, and the rows are left alone. -/
theorem initialState_builds (s : Scene S) :
    Outcome initialState s
      (fun initial s' => s'.automaton.initial.state? = initial ∧
        s'.automaton.rows = s.automaton.rows)
      fun _ _ => False := by
  obtain ⟨builds, hrun⟩ := initialState_run s
  exact Outcome.of_run hrun ⟨rfl, rfl⟩

/-- After the row of `x` was asked for. -/
structure Asked (a a' : Automaton S) (x : S) (row : Row S) : Prop where
  kept : a.Extends a'
  row?_eq : a'.row? = update a.row? x (some row)
  distinct : a.states.Nodup → a'.states.Nodup
  initial : a'.initial = a.initial

theorem Asked.isExplored {a a' : Automaton S} {x : S} {row : Row S} (h : a.Asked a' x row) :
    a'.isExplored x = true := by
  simp [Automaton.isExplored, h.row?_eq]

/-- Whether it was kept or is computed now, the row is kept from now on. -/
theorem explore_asked (s : Scene S) (x : S) :
    Outcome (explore x) s (fun row s' => s.automaton.Asked s'.automaton x row)
      fun _ _ => True := by
  cases hrow : s.automaton.row? x with
  | some row =>
      apply Outcome.bind_ok (current_run s)
      rw [hrow]
      have hsame : s.automaton.row? = update s.automaton.row? x (some row) := by
        rw [← hrow, update_eq_self]
      exact Outcome.pure ⟨.refl _, hsame, id, rfl⟩
  | none =>
      have hfresh := isExplored_eq_false.2 hrow
      cases hspace : s.automaton.space.row s.automaton.owner x s.workspace with
      | error fault w =>
          rw [Outcome]
          rw [explore_of_error hfresh hspace]
          trivial
      | ok row w =>
          apply Outcome.of_run (explore_of_ok hfresh hspace)
          have hadds := adds_append row hfresh
          refine ⟨hadds.kept, hadds.row?_eq, fun hdistinct => ?_, rfl⟩
          have hnew : x ∉ s.automaton.states := by
            rw [← isExplored_iff_mem_states]
            simp [hfresh]
          rw [states, List.map_append]
          exact hdistinct.append (List.nodup_singleton x) (List.disjoint_singleton.2 hnew)

/-! ## Walks -/

/-- On the way to a closed automaton: what is missing is in the queue. -/
structure Closing (a : Automaton S) (reached queue : List S) : Prop where
  distinct : a.states.Nodup
  explored : ∀ x y, a.Leads x y → a.isExplored y = true ∨ y ∈ queue
  reached : ∀ x ∈ reached, a.isExplored x = true ∨ x ∈ queue

theorem Closed.closing {a : Automaton S} (h : a.Closed) (queue : List S) :
    a.Closing queue queue :=
  ⟨h.distinct, fun x y hxy => .inl (h.explored x y hxy), fun _ => .inr⟩

namespace Closing

variable {a a' : Automaton S} {x : S} {row : Row S} {reached queue : List S}

theorem closed (h : a.Closing reached []) : a.Closed :=
  ⟨h.distinct, fun x y hxy => by simpa using h.explored x y hxy⟩

theorem mono (h : a.Closing reached queue) {less : List S} (hless : less ⊆ reached) :
    a.Closing less queue :=
  ⟨h.distinct, h.explored, fun x hx => h.reached x (hless hx)⟩

/-- A queued state that is explored is not missing. -/
theorem skip (h : a.Closing reached (x :: queue)) (hx : a.isExplored x = true) :
    a.Closing reached queue := by
  have hother : ∀ y, a.isExplored y = true ∨ y ∈ x :: queue →
      a.isExplored y = true ∨ y ∈ queue := by
    rintro y (hy | hy)
    · exact .inl hy
    · rcases List.mem_cons.1 hy with rfl | hy
      · exact .inl hx
      · exact .inr hy
  exact ⟨h.distinct, fun y z hyz => hother z (h.explored y z hyz),
    fun y hy => hother y (h.reached y hy)⟩

/-- A state is taken from the queue and what its row leads to is queued as far as it is new. -/
theorem visit (h : a.Closing reached (x :: queue)) (hasked : a.Asked a' x row) {new : List S}
    (hnew : ∀ y ∈ row.targets, a'.isExplored y = true ∨ y ∈ reached ∨ y ∈ new) :
    a'.Closing (reached ++ new) (queue ++ new) := by
  have hother : ∀ y, a.isExplored y = true ∨ y ∈ x :: queue →
      a'.isExplored y = true ∨ y ∈ queue ++ new := by
    rintro y (hy | hy)
    · exact .inl (hasked.kept.isExplored hy)
    · rcases List.mem_cons.1 hy with rfl | hy
      · exact .inl hasked.isExplored
      · exact .inr (List.mem_append_left new hy)
  constructor
  · exact hasked.distinct h.distinct
  · intro y z hyz
    by_cases hy : y = x
    · subst hy
      rcases hnew z ((leads_self_of_update hasked.row?_eq).1 hyz) with hz | hz | hz
      · exact .inl hz
      · exact hother z (h.reached z hz)
      · exact .inr (List.mem_append_right queue hz)
    · exact hother z (h.explored y z ((leads_of_ne_of_update hasked.row?_eq hy).1 hyz))
  · intro y hy
    rcases List.mem_append.1 hy with hy | hy
    · exact hother y (h.reached y hy)
    · exact .inr (List.mem_append_right queue hy)

end Closing

theorem exploreQueue_closing (reached : List S) (bound : Nat) :
    ∀ (queue : List S) (s : Scene S), s.automaton.Closing reached queue →
      Outcome (exploreQueue bound queue) s
        (fun _ s' => s'.automaton.Closing reached [] ∧ s'.automaton.initial = s.automaton.initial)
        fun _ _ => True := by
  induction bound with
  | zero =>
      intro queue s h
      cases queue with
      | nil => exact Outcome.pure ⟨h, rfl⟩
      | cons x queue => exact Outcome.throw trivial
  | succ bound ih =>
      intro queue s h
      cases queue with
      | nil => exact Outcome.pure ⟨h, rfl⟩
      | cons x queue =>
          apply Outcome.bind_ok (current_run s)
          by_cases hx : s.automaton.isExplored x = true
          · rw [if_pos hx]
            exact ih queue s (h.skip hx)
          · rw [if_neg hx]
            apply Outcome.bind_answers (explore_asked s x)
            intro row s' hasked
            apply Outcome.bind_ok (current_run s')
            have hnew : ∀ y ∈ row.targets, s'.automaton.isExplored y = true ∨ y ∈ reached ∨
                y ∈ row.targets.filter (!s'.automaton.isExplored ·) := by
              intro y hy
              cases hexplored : s'.automaton.isExplored y with
              | true => exact .inl rfl
              | false => exact .inr (.inr (List.mem_filter.2 ⟨hy, by simp [hexplored]⟩))
            have hnext := (h.visit hasked hnew).mono (List.subset_append_left _ _)
            apply (ih _ s' hnext).imp
            intro _ t hend
            exact ⟨hend.1, hend.2.trans hasked.initial⟩

theorem mem_newStates {reached targets : List S} {x : S} (hx : x ∈ targets) :
    x ∈ reached ∨ x ∈ newStates reached targets := by
  by_cases hreached : x ∈ reached
  · exact .inl hreached
  · exact .inr (List.mem_filter.2 ⟨List.mem_eraseDups.2 hx, by simpa using hreached⟩)

theorem closeQueue_closing (bound : Nat) :
    ∀ (reached queue : List S) (s : Scene S), s.automaton.Closing reached queue →
      Outcome (closeQueue bound reached queue) s (fun _ s' => s'.automaton.Closed)
        fun _ _ => True := by
  induction bound with
  | zero =>
      intro reached queue s h
      cases queue with
      | nil => exact Outcome.pure h.closed
      | cons x queue => exact Outcome.throw trivial
  | succ bound ih =>
      intro reached queue s h
      cases queue with
      | nil => exact Outcome.pure h.closed
      | cons x queue =>
          apply Outcome.bind_answers (explore_asked s x)
          intro row s' hasked
          exact ih _ _ s' (h.visit hasked fun y hy => .inr (mem_newStates hy))

/-- Generating from a seed leaves the automaton closed and the seed explored. -/
theorem generateFrom_closed (bound : Nat) (seed : Option S) (s : Scene S)
    (h : s.automaton.Closed) :
    Outcome (generateFrom bound seed) s
      (fun _ s' => s'.automaton.Closed ∧ s'.automaton.initial = s.automaton.initial ∧
        ∀ x ∈ seed, s'.automaton.isExplored x = true)
      fun _ _ => True := by
  cases seed with
  | none => exact Outcome.pure ⟨h, rfl, fun x hx => by cases hx⟩
  | some seed =>
      apply Outcome.bind_ok (current_run s)
      by_cases hseed : s.automaton.isExplored seed = true
      · rw [if_pos hseed]
        exact Outcome.pure ⟨h, rfl, fun x hx => by cases hx; exact hseed⟩
      · rw [if_neg hseed]
        apply (exploreQueue_closing [seed] bound [seed] s (h.closing [seed])).imp
        rintro _ s' ⟨hend, hinitial⟩
        refine ⟨hend.closed, hinitial, fun x hx => ?_⟩
        cases hx
        simpa using hend.reached seed (List.mem_singleton_self seed)

theorem reachable_closed (bound : Nat) (seeds : List S) (s : Scene S) (h : s.automaton.Closed) :
    Outcome (reachable bound seeds) s (fun _ s' => s'.automaton.Closed) fun _ _ => True :=
  closeQueue_closing bound _ _ s (h.closing _)

omit [DecidableEq S] in
theorem states_prunedRows (gone : S → Bool) (rows : List (S × Row S)) :
    (prunedRows gone rows).map Prod.fst = (rows.map Prod.fst).filter (!gone ·) := by
  simp [prunedRows, List.filter_map, Function.comp_def]

theorem lookup_prunedRows (gone : S → Bool) (rows : List (S × Row S)) (x : S) :
    (prunedRows gone rows).lookup x =
      if gone x then none
      else (rows.lookup x).map (·.filter fun edge => !gone edge.1.successor) := by
  induction rows with
  | nil => simp [prunedRows]
  | cons entry rest ih =>
      obtain ⟨y, row⟩ := entry
      by_cases hxy : x = y
      · subst hxy
        cases hx : gone x with
        | true => simpa [prunedRows, hx] using ih
        | false => simp [prunedRows, hx]
      · have hne : (x == y) = false := beq_eq_false_iff_ne.2 hxy
        cases hy : gone y with
        | true => simpa [prunedRows, hy, List.lookup_cons, hne] using ih
        | false => simpa [prunedRows, hy, List.lookup_cons, hne] using ih

/-- Nothing leads to a removed state, and the other states stay. -/
theorem Closed.prune {a a' : Automaton S} (h : a.Closed) (gone : S → Bool)
    (hrows : a'.rows = prunedRows gone a.rows) : a'.Closed := by
  have hrow : ∀ x, a'.row? x = if gone x then none
      else (a.row? x).map (·.filter fun edge => !gone edge.1.successor) := fun x => by
    rw [row?, hrows, lookup_prunedRows, row?]
  constructor
  · rw [states, hrows, states_prunedRows]
    exact h.distinct.filter _
  · rintro x y ⟨row', hx, hy⟩
    rw [hrow] at hx
    split at hx
    · cases hx
    · obtain ⟨row, hkept, rfl⟩ := Option.map_eq_some_iff.1 hx
      obtain ⟨edge, hedge, rfl⟩ := List.mem_map.1 hy
      obtain ⟨hedge, hstays⟩ := List.mem_filter.1 hedge
      have hleads : a.Leads x edge.1.successor := ⟨row, hkept, List.mem_map_of_mem hedge⟩
      obtain ⟨next, hnext⟩ := isExplored_iff.1 (h.explored _ _ hleads)
      have hgone : gone edge.1.successor = false := by simpa using hstays
      rw [isExplored, hrow, hgone, hnext]
      rfl

theorem removeIf_closed (gone : S → Bool) (s : Scene S) (h : s.automaton.Closed) :
    Outcome (removeIf gone) s (fun _ s' => s'.automaton.Closed) fun _ _ => True := by
  apply Outcome.bind_ok (current_run s)
  apply Outcome.bind_answers (inWorkspace_keeps _ s rfl)
  intro _ s' hsame
  have hrows : prunedRows gone s'.automaton.rows = prunedRows gone s.automaton.rows := by
    rw [hsame]
  exact Outcome.of_run rfl (h.prune gone hrows)

theorem remove_closed (states : List S) (s : Scene S) (h : s.automaton.Closed) :
    Outcome (remove states) s (fun _ s' => s'.automaton.Closed) fun _ _ => True := by
  apply Outcome.bind_ok (current_run s)
  by_cases hinitial : s.automaton.initial.state?.any states.contains = true
  · rw [if_pos hinitial]
    apply Outcome.bind_answers (inWorkspace_keeps _ s rfl)
    intro _ s' _
    have hempty := create_closed s'.automaton.owner s'.automaton.space s'.automaton.acceptance
      (.resolved none)
    exact Outcome.of_run rfl (hempty.of_rows_eq rfl)
  · rw [if_neg hinitial]
    exact removeIf_closed states.contains s h

theorem removeUnreachableFrom_closed (bound : Nat) (seeds : List S) (s : Scene S)
    (h : s.automaton.Closed) :
    Outcome (removeUnreachableFrom bound seeds) s (fun _ s' => s'.automaton.Closed)
      fun _ _ => True := by
  apply Outcome.bind_answers (reachable_closed bound seeds s h)
  intro reached s' h'
  exact removeIf_closed (!reached.contains ·) s' h'

theorem removeUnreachable_closed (bound : Nat) (s : Scene S) (h : s.automaton.Closed) :
    Outcome (removeUnreachable bound) s (fun _ s' => s'.automaton.Closed) fun _ _ => True := by
  apply Outcome.bind_answers (initialState_builds s)
  rintro initial s' ⟨-, hrows⟩
  exact removeUnreachableFrom_closed bound initial.toList s' (h.of_rows_eq hrows)

/-- Generating leaves the automaton closed and its initial state explored. -/
theorem generate_closed (bound : Nat) (s : Scene S) (h : s.automaton.Closed) :
    Outcome (generate bound) s
      (fun _ s' => s'.automaton.Closed ∧
        ∀ x ∈ s'.automaton.initial.state?, s'.automaton.isExplored x = true)
      fun _ _ => True := by
  apply Outcome.bind_answers (initialState_builds s)
  rintro initial s' ⟨hstate, hrows⟩
  apply (generateFrom_closed bound initial s' (h.of_rows_eq hrows)).imp
  rintro _ t ⟨hclosed, hinitial, hexplored⟩
  refine ⟨hclosed, fun x hx => hexplored x ?_⟩
  rw [hinitial, hstate] at hx
  exact hx

/-! ## Any sequence of operations -/

/-- An operation that explores all that is reached from some states, or removes states. -/
inductive Edit (S : Type) where
  | generate (bound : Nat)
  | generateFrom (bound : Nat) (seed : Option S)
  | reachable (bound : Nat) (seeds : List S)
  | remove (states : List S)
  | removeIf (gone : S → Bool)
  | removeUnreachable (bound : Nat)
  | removeUnreachableFrom (bound : Nat) (seeds : List S)

/-- Carry out an operation, leaving its answer aside. -/
def Edit.run : Edit S → AutomatonM S Unit
  | .generate bound => Automaton.generate bound
  | .generateFrom bound seed => Automaton.generateFrom bound seed
  | .reachable bound seeds => do
      let _ ← Automaton.reachable bound seeds
  | .remove states => Automaton.remove states
  | .removeIf gone => Automaton.removeIf gone
  | .removeUnreachable bound => Automaton.removeUnreachable bound
  | .removeUnreachableFrom bound seeds => Automaton.removeUnreachableFrom bound seeds

/-- What operations make of `origin`.  The workspace may change in any way between them. -/
inductive Edited (origin : Automaton S) : Automaton S → Prop
  | refl : Edited origin origin
  | step {a : Automaton S} {w : Workspace} {s : Scene S} (edit : Edit S) :
      Edited origin a → edit.run ⟨a, w⟩ = .ok () s → Edited origin s.automaton

theorem Edit.run_closed (edit : Edit S) (s : Scene S) (h : s.automaton.Closed) :
    Outcome edit.run s (fun _ s' => s'.automaton.Closed) fun _ _ => True := by
  cases edit with
  | generate bound => exact (generate_closed bound s h).imp fun _ _ hend => hend.1
  | generateFrom bound seed => exact (generateFrom_closed bound seed s h).imp fun _ _ hend => hend.1
  | reachable bound seeds =>
      apply Outcome.bind_answers (reachable_closed bound seeds s h)
      intro _ s' h'
      exact Outcome.pure h'
  | remove states => exact remove_closed states s h
  | removeIf gone => exact removeIf_closed gone s h
  | removeUnreachable bound => exact removeUnreachable_closed bound s h
  | removeUnreachableFrom bound seeds => exact removeUnreachableFrom_closed bound seeds s h

/-- From a closed automaton nothing that can be reached is missed. -/
theorem Generated.complete {a a' : Automaton S} {seed : S} (h : a.Generated a' seed)
    (hclosed : a.Closed) : a'.Complete seed :=
  h.complete_of_closed fun x y _ hxy => hclosed.explored x y hxy

/-- Whatever was explored and removed, the rows lead to explored states alone. -/
theorem Edited.closed {origin a : Automaton S} (hedited : Edited origin a)
    (horigin : origin.Closed) : a.Closed := by
  induction hedited with
  | refl => exact horigin
  | step edit _ hrun ih => exact (edit.run_closed _ ih).of_ok hrun

end Automaton

end SymbolicOmega
