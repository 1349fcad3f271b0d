import SymbolicOmega.Proofs.Automaton.Grouping

/-!
# Kept rows stay true

An automaton is explored, asked and cut down in any order while other users of its factory make,
change and give back sets of their own, and any of this may fail.  The row of an explored state
always reads as its state space computes it, but for the edges to states that were removed since
the state was last explored; and only a removal ever changes a kept row.
-/

namespace SymbolicOmega

namespace Automaton

variable {S : Type} [DecidableEq S]

/-- What can be done with an automaton. -/
inductive Operation (S : Type) where
  | successors (state : S)
  | hasSuccessors (state : S)
  | successor (state : S) (letter : BitSet)
  | successorsOn (state : S) (letter : BitSet)
  | initialState
  | isDeterministicAt (state : S)
  | isDeterministic
  | edit (edit : Edit S)

/-- Carry out an operation, leaving its answer aside. -/
def Operation.run : Operation S → AutomatonM S Unit
  | successors state => do
      let _ ← explore state
  | hasSuccessors state => do
      let _ ← Automaton.hasSuccessors state
  | successor state letter => do
      let _ ← Automaton.successor state letter
  | successorsOn state letter => do
      let _ ← Automaton.successorsOn state letter
  | initialState => do
      let _ ← Automaton.initialState
  | isDeterministicAt state => do
      let a ← current
      let _ ← inWorkspace (a.isDeterministicAt state)
  | isDeterministic => do
      let a ← current
      let _ ← inWorkspace a.isDeterministic
  | edit e => e.run

/-- The states that a walk does not answer. -/
def unreached (walk : AutomatonM S (List S)) (s : Scene S) (y : S) : Bool :=
  match walk s with
  | .ok reached _ => !reached.contains y
  | .error _ _ => false

/-- The states that an operation removes when it is carried out in a scene; an operation that
only explores removes none. -/
def Edit.gone (s : Scene S) : Edit S → S → Bool
  | .remove states => states.contains
  | .removeIf gone => gone
  | .removeUnreachable bound =>
      unreached (do Automaton.reachable bound (← Automaton.initialState).toList) s
  | .removeUnreachableFrom bound seeds => unreached (Automaton.reachable bound seeds) s
  | .generate _ | .generateFrom _ _ | .reachable _ _ => fun _ => false

def Operation.gone (s : Scene S) : Operation S → S → Bool
  | edit e => e.gone s
  | _ => fun _ => false

/-- Whether the operation is a removal. -/
def Edit.removes : Edit S → Bool
  | .generate _ | .generateFrom _ _ | .reachable _ _ => false
  | _ => true

def Operation.removes : Operation S → Bool
  | edit e => e.removes
  | _ => false

/-- What an automaton over `space`, whose states hold some sets, and the other users of its factory
come to, with the removals since each state was last explored.  Operations may fail at any point. -/
inductive Lives (space : StateSpace S) (owner k : Nat) (held : Custody) :
    Scene S → List LetterSet → (S → S → Bool) → Prop
  | start {w : Workspace} {L : Custody} (initial : Initial S) (acceptance : Acceptance S) :
      w.Retains owner k (held ++ L) →
        Lives space owner k held ⟨create owner space acceptance initial, w⟩ (L.map Prod.fst)
          fun _ _ => false
  | answered {s s' : Scene S} {others : List LetterSet} {removed : S → S → Bool}
      (operation : Operation S) : Lives space owner k held s others removed →
      operation.run s = .ok () s' →
        Lives space owner k held s' others (removedAfter removed (operation.gone s) s'.automaton)
  | failed {s s' : Scene S} {others : List LetterSet} {removed : S → S → Bool} {fault : Fault}
      (operation : Operation S) : Lives space owner k held s others removed →
      operation.run s = .error fault s' → Lives space owner k held s' others removed
  | otherAnswered {s : Scene S} {others others' : List LetterSet} {removed : S → S → Bool}
      {w : Workspace} (call : LetterSet.Call) : Lives space owner k held s others removed →
      call.perform owner others s.workspace = .ok others' w →
        Lives space owner k held ⟨s.automaton, w⟩ others' removed
  | otherFailed {s : Scene S} {others : List LetterSet} {removed : S → S → Bool} {w : Workspace}
      {fault : Fault} (call : LetterSet.Call) : Lives space owner k held s others removed →
      call.perform owner others s.workspace = .error fault w →
        Lives space owner k held ⟨s.automaton, w⟩ (call.left others) removed

/-- Every kept row is still kept, and its labels answer the same. -/
def KeepsRows (s s' : Scene S) : Prop :=
  ∀ x row, s.automaton.row? x = some row → s'.automaton.row? x = some row ∧
    ∀ entry ∈ row, ∃ F, entry.2.Answers s.workspace F ∧ entry.2.Answers s'.workspace F

/-! ## One operation -/

section Steps
variable {space : StateSpace S} {owner k : Nat} {held : Custody} {expected : S → RowReading S}
variable {others : List LetterSet} {removed : S → S → Bool} {s s' : Scene S}

/-- Where nothing was removed nothing more was removed. -/
theorem Tracked.removedAfter_none (h : Tracked owner k held expected others removed s) :
    removedAfter removed (fun _ => false) s.automaton = removed := by
  funext x y
  rw [removedAfter, Bool.or_false]
  cases hx : s.automaton.isExplored x with
  | true => rw [Bool.true_and]
  | false => rw [h.fresh x hx, Bool.and_false]

omit [DecidableEq S] in
/-- All rows are given back, and what others have stays. -/
private theorem releaseRows_retains {w : Workspace} {L : Custody} (R : List (S × ReadRow S))
    (h : w.Retains owner k (rowsCustody R ++ L)) :
    ∃ w', (R.map fun entry => (entry.1, entry.2.row)).forM (fun entry => entry.2.release) w =
      .ok () w' ∧ w'.Retains owner k L := by
  induction R generalizing w with
  | nil => exact ⟨w, rfl, h⟩
  | cons entry rest ih =>
      rw [rowsCustody_cons, List.append_assoc] at h
      obtain ⟨w₁, hrun₁, hw₁⟩ := LetterSet.releaseAll_retains h
      rw [← ReadRow.labels_row] at hrun₁
      obtain ⟨w₂, hrun₂, hw₂⟩ := ih hw₁
      exact ⟨w₂, (run_bind hrun₁).trans hrun₂, hw₂⟩

/-- If the initial state goes, nothing is left. -/
theorem remove_tracked (states : List S) (h : Tracked owner k held expected others removed s) :
    Outcome (remove states) s
      (fun _ s' => Tracked owner k held expected others
        (removedAfter removed states.contains s'.automaton) s')
      (fun _ s' => Tracked owner k held expected others removed s') := by
  apply Outcome.bind_ok (current_run s)
  by_cases hinitial : s.automaton.initial.state?.any states.contains = true
  · rw [if_pos hinitial]
    obtain ⟨R, L, hrows, hothers, hretains, hreads⟩ := h.custody
    obtain ⟨w', hrelease, hw'⟩ := releaseRows_retains R hretains
    rw [← hrows] at hrelease
    refine Outcome.bind (inWorkspace_outcome (Outcome.of_run hrelease (Outcome.of_run rfl ?_)))
    exact ⟨h.pure, h.owner_eq, List.nodup_nil, fun x _ => rfl, [], L, rfl, hothers, hw', by simp⟩
  · rw [if_neg hinitial]
    exact (removeIf_tracked states.contains h).mono (fun _ _ hend => hend) fun _ _ => False.elim

/-- What a walk does not answer is removed after it. -/
private theorem removeUnreached_tracked {walk : AutomatonM S (List S)}
    (h : Tracked owner k held expected others removed s)
    (hwalk : Upholds (Watched s.automaton owner k held expected others removed) walk) :
    Outcome (do let reached ← walk; removeIf (!reached.contains ·)) s
      (fun _ s' => Tracked owner k held expected others
        (removedAfter removed (unreached walk s) s'.automaton) s')
      (fun _ s' => Tracked owner k held expected others removed s') := by
  have hend := hwalk s ⟨h, .refl _⟩
  cases hrun : walk s with
  | error fault s' =>
      rw [Outcome]
      rw [run_bind_error hrun]
      exact (hend.of_error hrun).1
  | ok reached s' =>
      have hgone : unreached walk s = fun y => !reached.contains y := by
        funext y
        rw [unreached, hrun]
      rw [hgone]
      exact Outcome.bind_ok hrun ((removeIf_tracked _ (hend.of_ok hrun).1).mono
        (fun _ _ hend => hend) fun _ _ => False.elim)

/-- What is not a removal keeps the rows there are. -/
theorem Operation.run_watched {a₀ : Automaton S} {operation : Operation S}
    (hkeeps : operation.removes = false) :
    Upholds (Watched a₀ owner k held expected others removed) operation.run := by
  have hask : ∀ (s : Scene S) {β : Type} (x : WorkM β),
      Watched a₀ owner k held expected others removed s → s.automaton.Asks owner k x →
        Outcome (do let _ ← inWorkspace x) s
          (fun _ s' => Watched a₀ owner k held expected others removed s')
          (fun _ s' => Watched a₀ owner k held expected others removed s') := fun s _ x hs hx =>
    Outcome.andThen (hs.asked hx) fun _ _ hs' => Outcome.pure hs'
  cases operation with
  | successors x => exact (explore_watched x).bind fun _ => Upholds.pure ()
  | hasSuccessors x =>
      exact ((explore_watched x).bind fun row => Upholds.pure _).bind fun _ => Upholds.pure ()
  | successor x letter =>
      refine Upholds.bind (Upholds.bind (explore_watched x) fun row s hs => ?_)
        fun _ => Upholds.pure ()
      exact hs.asked (edgeOn?_asks row letter)
  | successorsOn x letter =>
      refine Upholds.bind (Upholds.bind (explore_watched x) fun row s hs => ?_)
        fun _ => Upholds.pure ()
      exact hs.asked (targetsOn_asks row letter)
  | initialState => exact initialState_watched.bind fun _ => Upholds.pure ()
  | isDeterministicAt x =>
      exact fun s hs => Outcome.bind_ok (current_run s)
        (hask s _ hs (isDeterministicAt_asks hs.1.owner_eq x))
  | isDeterministic =>
      exact fun s hs => Outcome.bind_ok (current_run s)
        (hask s _ hs (isDeterministic_asks hs.1.owner_eq))
  | edit e =>
      cases e with
      | generate bound => exact generate_watched bound
      | generateFrom bound seed => exact generateFrom_watched bound seed
      | reachable bound seeds =>
          exact (reachable_watched bound seeds).bind fun _ => Upholds.pure ()
      | remove | removeIf | removeUnreachable | removeUnreachableFrom => cases hkeeps

theorem Operation.gone_of_keeps {operation : Operation S} (hkeeps : operation.removes = false) :
    operation.gone s = fun _ => false := by
  cases operation with
  | edit e =>
      cases e with
      | generate | generateFrom | reachable => rfl
      | remove | removeIf | removeUnreachable | removeUnreachableFrom => cases hkeeps
  | _ => rfl

/-- Every operation keeps track of the rows, at either end. -/
theorem Operation.run_tracked (operation : Operation S)
    (h : Tracked owner k held expected others removed s) :
    Outcome operation.run s
      (fun _ s' => Tracked owner k held expected others
        (removedAfter removed (operation.gone s) s'.automaton) s')
      (fun _ s' => Tracked owner k held expected others removed s') := by
  cases hremoves : operation.removes with
  | false =>
      rw [Operation.gone_of_keeps hremoves]
      refine (Operation.run_watched hremoves s ⟨h, .refl s.automaton⟩).mono
        (fun _ s' hend => ?_) fun _ _ hend => hend.1
      rw [hend.1.removedAfter_none]
      exact hend.1
  | true =>
      cases operation with
      | edit e =>
          cases e with
          | generate | generateFrom | reachable => cases hremoves
          | remove states => exact remove_tracked states h
          | removeIf gone =>
              exact (removeIf_tracked gone h).mono (fun _ _ hend => hend) fun _ _ => False.elim
          | removeUnreachable bound =>
              have hrun := removeUnreached_tracked h (initialState_watched.bind fun seed =>
                reachable_watched bound seed.toList)
              rwa [bind_assoc] at hrun
          | removeUnreachableFrom bound seeds =>
              exact removeUnreached_tracked h (reachable_watched bound seeds)
      | _ => cases hremoves

/-- A call of another user keeps track of the rows, at either end. -/
theorem Tracked.called (h : Tracked owner k held expected others removed s) (call : LetterSet.Call) :
    Outcome (call.perform owner others) s.workspace
      (fun others' w => Tracked owner k held expected others' removed ⟨s.automaton, w⟩)
      (fun _ w => Tracked owner k held expected (call.left others) removed ⟨s.automaton, w⟩) := by
  obtain ⟨R, L, hrows, rfl, hretains, hreads⟩ := h.custody
  have hperm : ∀ L : Custody, (rowsCustody R ++ (held ++ L)).Perm (L ++ (rowsCustody R ++ held)) :=
    fun L => by
      rw [← List.append_assoc]
      exact List.perm_append_comm
  refine (call.perform_retains (hretains.perm (hperm L))).mono ?_ ?_
  · rintro _ w ⟨L', rfl, hw⟩
    exact ⟨h.pure, h.owner_eq, h.distinct, h.fresh, R, L', hrows, rfl, hw.perm (hperm L').symm,
      hreads⟩
  · intro fault w hw
    exact ⟨h.pure, h.owner_eq, h.distinct, h.fresh, R, call.left L, hrows,
      LetterSet.Call.left_map .., hw.perm (hperm _).symm, hreads⟩

/-! ## Any history -/

theorem Lives.tracked (hpure : space.Pure owner k held expected)
    (h : Lives space owner k held s others removed) : Tracked owner k held expected others removed s := by
  induction h with
  | start initial acceptance hw =>
      exact ⟨hpure, rfl, List.nodup_nil, fun _ _ => rfl, [], _, rfl, rfl, hw, by simp⟩
  | answered operation _ hrun ih => exact (operation.run_tracked ih).of_ok hrun
  | failed operation _ hrun ih => exact (operation.run_tracked ih).of_error hrun
  | otherAnswered call _ hrun ih => exact (ih.called call).of_ok hrun
  | otherFailed call _ hrun ih => exact (ih.called call).of_error hrun

omit [DecidableEq S] in
/-- A row that reads the same before and after answers the same. -/
theorem Row.Reads.same {row : Row S} {w w' : Workspace} {reading : RowReading S}
    (h : row.Reads w reading) (h' : row.Reads w' reading) :
    ∀ entry ∈ row, ∃ F, entry.2.Answers w F ∧ entry.2.Answers w' F := by
  intro entry hentry
  obtain ⟨n, hn, rfl⟩ := List.mem_iff_getElem.1 hentry
  have hlength : n < reading.length := by rwa [← h.length_eq]
  exact ⟨_, (h.get hn hlength).2, (h'.get hn hlength).2⟩

/-- Tracked rows before and after, of which none was dropped. -/
theorem Tracked.keepsRows (h : Tracked owner k held expected others removed s)
    (h' : Watched s.automaton owner k held expected others removed s') : KeepsRows s s' := by
  intro x row hrow
  have hkept := h'.2.rows x row hrow
  exact ⟨hkept, Row.Reads.same (h.reads hrow) (h'.1.reads hkept)⟩

/-- A row computed now reads as expected. -/
theorem Tracked.computes (h : Tracked owner k held expected others removed s) (x : S) :
    Outcome (s.automaton.space.row owner x) s.workspace
      (fun row w' => row.Reads w' (expected x)) (fun _ _ => True) := by
  obtain ⟨R, L, -, -, hretains, -⟩ := h.custody
  refine (h.pure _ _ x (hretains.perm (List.perm_append_comm_assoc ..))).mono ?_ fun _ _ _ =>
    trivial
  rintro _ w' ⟨E, rfl, hE, hw'⟩
  rw [← hE]
  exact ReadRow.reads hw' fun label hlabel => List.mem_append_left _ hlabel

/-- Kept rows stay true to their states.  After any history the row of an explored state lists,
in order and with labels that answer the same, the edges of the row that its state space computes,
except those to states removed since the state was last explored; and whatever is no removal
changes no kept row, whether it is answered or fails. -/
theorem kept_rows_read (hpure : space.Pure owner k held expected)
    (h : Lives space owner k held s others removed) :
    (∀ x row, s.automaton.row? x = some row →
      row.Reads s.workspace (without (removed x) (expected x)) ∧
      Outcome (s.automaton.space.row owner x) s.workspace
        (fun fresh w' => fresh.Reads w' (expected x)) (fun _ _ => True)) ∧
    ∀ operation : Operation S, operation.removes = false →
      Outcome operation.run s (fun _ s' => KeepsRows s s') (fun _ s' => KeepsRows s s') := by
  have htracked := h.tracked hpure
  refine ⟨fun x row hrow => ⟨htracked.reads hrow, htracked.computes x⟩,
    fun operation hkeeps => ?_⟩
  exact (Operation.run_watched hkeeps s ⟨htracked, .refl s.automaton⟩).mono
    (fun _ _ hend => htracked.keepsRows hend) fun _ _ hend => htracked.keepsRows hend

/-- Rows that are found letter by letter need no more: after any history the label of an edge has the
letters on whose part that the state looks at the edge is taken. -/
theorem grouped_rows_read (hk : k < 2 ^ 31) {sensitive : S → Option BitSet}
    {step : S → BitSet → Option (Edge S)}
    (h : Lives (.ofStep sensitive step) owner k held s others removed) (x : S) {row : Row S}
    (hrow : s.automaton.row? x = some row) :
    row.Reads s.workspace
      (without (removed x) (StateSpace.stepReading k (sensitive x) (step x))) :=
  (h.tracked (StateSpace.ofStep_pure hk owner held sensitive step)).reads hrow

end Steps

/-- The letters with the proposition, and those without it. -/
private def makeHalves : WorkM (LetterSet × LetterSet) := do
  let half ← LetterSet.proposition 0 0
  let rest ← half.complement
  return (half, rest)

private def fresh : Workspace :=
  .ofFactories [(Factory.ofSizing 1 ⟨3, 2, 5⟩).toOption.getD default]

private def halved : Workspace :=
  match makeHalves fresh with
  | .ok _ w => w
  | .error _ w => w

private def half : LetterSet := ⟨0, ⟨2, false⟩⟩

private def rest : LetterSet := ⟨0, ⟨2, true⟩⟩

/-- On letters with the proposition every state leads on, on others back to itself.  The states
hold both sets. -/
private def counting : StateSpace Nat :=
  .copying fun state => [(Edge.of (state + 1), half), (Edge.of state, rest)]

private def newScene : Scene Nat where
  automaton := .create 0 counting ⟨.marks .all, []⟩ (.resolved (some 0))
  workspace := halved

private def after (operation : Operation Nat) (s : Scene Nat) : Scene Nat :=
  match operation.run s with
  | .ok _ t => t
  | .error _ t => t

/-- State 0 is explored. -/
private def explored : Scene Nat := after (.successors 0) newScene

/-- State 1 is removed, which was not explored. -/
private def trimmed : Scene Nat := after (.edit (.removeIf (· == 1))) explored

private def answers {β : Type} : EStateM.Result Fault (Scene Nat) β → Bool
  | .ok _ _ => true
  | .error _ _ => false

private theorem after_run (operation : Operation Nat) (s : Scene Nat)
    (h : answers (operation.run s) = true) : operation.run s = .ok () (after operation s) := by
  rw [after]
  cases hrun : operation.run s with
  | ok _ t => rfl
  | error fault t =>
      rw [hrun] at h
      cases h

private theorem halved_retains : ∃ F G : Reading, halved.Retains 0 1 [(half, F), (rest, G)] := by
  have hnew : Factory.ofSizing 1 ⟨3, 2, 5⟩ =
      .ok ((Factory.ofSizing 1 ⟨3, 2, 5⟩).toOption.getD default) := rfl
  have hfresh : fresh.Retains 0 1 [] := ⟨by simp, _, rfl, Factory.ofSizing_retains hnew⟩
  have hmake : Outcome makeHalves fresh
      (fun sets w => ∃ F G : Reading, w.Retains 0 1 [(sets.1, F), (sets.2, G)])
      fun _ _ => True := by
    apply Outcome.bind_answers ((LetterSet.proposition_adopts hfresh 0).mono (fun _ _ h => h)
      fun _ _ _ => trivial)
    rintro s w ⟨F, hw⟩
    apply Outcome.bind_answers ((LetterSet.complement_adopts hw List.mem_cons_self).mono
      (fun _ _ h => h) fun _ _ _ => trivial)
    rintro t w' ⟨G, hw'⟩
    exact Outcome.pure ⟨F, G, hw'.perm (.swap ..)⟩
  have hrun : makeHalves fresh = .ok (half, rest) halved := rfl
  exact hmake.of_ok hrun

/-- The theorem at an explored state from which an edge was removed. -/
theorem pruned_row_reads :
    ∃ F G : Reading,
      counting.Pure 0 1 [(half, F), (rest, G)]
          (fun state => [(Edge.of (state + 1), F), (Edge.of state, G)]) ∧
        ∃ removed, Lives counting 0 1 [(half, F), (rest, G)] trimmed [] removed ∧
          removed 0 1 = true ∧ removed 0 0 = false ∧
          ∃ row, trimmed.automaton.row? 0 = some row ∧ row.map Prod.fst = [Edge.of 0] ∧
            row.Reads trimmed.workspace
              (without (removed 0) [(Edge.of 1, F), (Edge.of 0, G)]) := by
  obtain ⟨F, G, hretains⟩ := halved_retains
  have hpure := StateSpace.copying_pure 0 1 [(half, F), (rest, G)]
    (fun state : Nat => [((Edge.of (state + 1), half), F), ((Edge.of state, rest), G)])
    fun _ _ hentry => hentry
  have hexplored := after_run (.successors 0) newScene (by decide +kernel)
  have hpruned := after_run (.edit (.removeIf (· == 1))) explored (by decide +kernel)
  have hstart : halved.Retains 0 1 ([(half, F), (rest, G)] ++ []) := hretains
  have hnewlives : Lives counting 0 1 [(half, F), (rest, G)] newScene [] fun _ _ => false :=
    .start (.resolved (some 0)) ⟨.marks .all, []⟩ hstart
  have hlives := (hnewlives.answered _ hexplored).answered _ hpruned
  obtain ⟨row, hrow⟩ := isExplored_iff.1 (show trimmed.automaton.isExplored 0 = true by
    decide +kernel)
  refine ⟨F, G, hpure, _, hlives, by decide +kernel, by decide +kernel, row, hrow, ?_,
    ((kept_rows_read hpure hlives).1 0 row hrow).1⟩
  have hedges : (trimmed.automaton.row? 0).map (·.map Prod.fst) = some [Edge.of 0] := by
    decide +kernel
  rw [hrow] at hedges
  exact Option.some.inj hedges

end Automaton

end SymbolicOmega
