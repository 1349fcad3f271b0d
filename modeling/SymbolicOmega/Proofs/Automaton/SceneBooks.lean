import SymbolicOmega.Proofs.Acceptance.ConditionBooks
import SymbolicOmega.Proofs.Automaton.Memoized
import SymbolicOmega.Proofs.Automaton.RowBooks

/-!
# Automata on the books

The labels of kept rows are on the books of the factory.  A new row brings its labels, a removal
gives back those that go, a question leaves nothing behind, and neither does writing a document, for
which the acceptance sets are numbered anew.
-/

namespace SymbolicOmega

open Workspace

variable {S : Type}

/-- The factory at position `i` holds the labels of the automaton and what its condition refers to,
beside other sets and references. -/
structure Scene.Balanced (i : Nat) (sets : List LetterSet) (references : List (TransitionSet S))
    (s : Scene S) : Prop where
  lawful : s.automaton.space.Lawful
  owner_eq : s.automaton.owner = i
  held : s.workspace.Balanced i (s.automaton.labels ++ sets)
    (s.automaton.acceptance.references ++ references)

namespace Automaton

variable {i : Nat} {sets : List LetterSet} {references : List (TransitionSet S)}

/-! ## Questions -/

/-- A question that holds nothing may be asked beside an automaton. -/
theorem ask_secures {β : Type} {x : WorkM β}
    (hx : ∀ tickets rest, Secures (fun w : Workspace => w.Books i tickets rest) Fault.Orderly x) :
    Secures (Scene.Balanced i sets references : Scene S → Prop) Fault.Orderly (inWorkspace x) :=
  fun _ hs => inWorkspace_outcome ((hs.held.ask hx).mono
    (fun _ _ hw => ⟨hs.lawful, hs.owner_eq, hw⟩)
    fun _ _ hend => ⟨hend.1, hs.lawful, hs.owner_eq, hend.2⟩)

section Questions
variable {tickets : List Nat × Nat} {rest : List LetterSet}

theorem edgeOn?_secures (row : Row S) (letter : BitSet) :
    Secures (fun w : Workspace => w.Books i tickets rest) Fault.Orderly (row.edgeOn? letter) :=
  (Secures.findM? (fun entry => LetterSet.contains_secures entry.2 letter) row).bind
    fun _ => Secures.pure _

theorem targetsOn_secures [DecidableEq S] (row : Row S) (letter : BitSet) :
    Secures (fun w : Workspace => w.Books i tickets rest) Fault.Orderly (row.targetsOn letter) :=
  (Secures.filterM fun entry _ => LetterSet.contains_secures entry.2 letter).bind
    fun _ => Secures.pure _

/-- The set of the letters seen is given back in any case. -/
theorem disjointFrom_trades (seen : LetterSet) (labels : List LetterSet) :
    Trades i (disjointFrom seen labels) [seen] (fun _ => []) [] := by
  have hrelease : ∀ seen : LetterSet, Trades i seen.release [seen] (fun _ => []) [] := fun seen =>
    Trades.of_givesBack [] (LetterSet.release_givesBack seen)
  induction labels generalizing seen with
  | nil => exact (hrelease seen).bind fun _ => Trades.pure (fun _ => []) true
  | cons label rest ih =>
      refine Trades.of_owner fun howner => ?_
      have hseen : seen.owner = i := howner seen List.mem_cons_self
      refine Trades.bind (Trades.onFault (Trades.of_secures [seen] fun _ _ =>
        LetterSet.intersects_secures hseen label) (LetterSet.release_givesBack seen)) fun shared => ?_
      cases shared with
      | true => exact (hrelease seen).bind fun _ => Trades.pure (fun _ => []) false
      | false =>
          exact (Trades.onFault (LetterSet.merge_trades seen label _ _ _)
            (LetterSet.release_givesBack seen)).bind ih

variable [DecidableEq S] {a : Automaton S}

theorem isDeterministicAt_secures (howner : a.owner = i) (x : S) :
    Secures (fun w : Workspace => w.Books i tickets rest) Fault.Orderly
      (a.isDeterministicAt x) := by
  subst howner
  have hempty : Trades a.owner (LetterSet.empty a.owner) [] (fun s => [s]) [] :=
    LetterSet.make_trades fun _ => Factory.acquires_pure _
  rw [isDeterministicAt]
  cases a.row? x with
  | none => exact Secures.pure true
  | some row =>
      have hrow := hempty.bind fun seen => disjointFrom_trades seen row.labels
      exact fun w hw => hrow w tickets rest hw

theorem isDeterministic_secures (howner : a.owner = i) :
    Secures (fun w : Workspace => w.Books i tickets rest) Fault.Orderly a.isDeterministic :=
  Secures.allM fun x _ => isDeterministicAt_secures howner x

end Questions

/-! ## Exploring and removing -/

variable [DecidableEq S]

theorem explore_secures (x : S) :
    Secures (Scene.Balanced i sets references) Fault.Orderly (explore x) := by
  intro s hs
  rw [explore]
  apply Outcome.bind_ok (current_run s)
  cases s.automaton.row? x with
  | some row => exact Outcome.pure hs
  | none =>
      have hrow := hs.held.gain (hs.lawful i x)
      rw [← hs.owner_eq] at hrow ⊢
      refine Outcome.bind (inWorkspace_outcome (hrow.mono (fun row w hw => ?_) fun fault w hend =>
        ⟨hend.1, hs.lawful, rfl, hend.2⟩))
      refine Outcome.bind_ok rfl (Outcome.pure ⟨hs.lawful, rfl, hw.perm ?_ (.refl _)⟩)
      simp only [labels, List.flatMap_append, List.flatMap_singleton, ← List.append_assoc]
      exact List.perm_append_comm.append_right sets

omit [DecidableEq S] in
theorem initialState_secures :
    Secures (Scene.Balanced i sets references : Scene S → Prop) Fault.Orderly initialState := by
  intro s hs
  obtain ⟨builds, hrun⟩ := initialState_run s
  exact Outcome.of_run hrun ⟨hs.lawful, hs.owner_eq, hs.held⟩

omit [DecidableEq S] in
/-- Labels that go out of the rows are given back. -/
theorem drop_outcome {s : Scene S} {gone : List LetterSet} {giving : WorkM Unit}
    {f : Automaton S → Automaton S} (hs : s.Balanced i sets references)
    (hgives : GivesBack i giving gone)
    (hlabels : s.automaton.labels.Perm (gone ++ (f s.automaton).labels))
    (hsame : (f s.automaton).space = s.automaton.space ∧
      (f s.automaton).owner = s.automaton.owner ∧
        (f s.automaton).acceptance = s.automaton.acceptance) :
    Outcome (do inWorkspace giving; change f : AutomatonM S Unit) s
      (fun _ s' => s'.Balanced i sets references)
      (fun fault s' => fault.Orderly ∧ s'.Balanced i sets references) := by
  obtain ⟨hspace, howner, hacceptance⟩ := hsame
  have hheld := hs.held.perm (hlabels.append_right sets) (.refl _)
  rw [List.append_assoc] at hheld
  refine Outcome.bind (inWorkspace_outcome ((hheld.trade (Trades.of_givesBack gone hgives)).mono
    (fun _ w hw => Outcome.of_run rfl ?_) fun fault w hend => ?_))
  · exact ⟨hspace.symm ▸ hs.lawful, howner.trans hs.owner_eq, hacceptance.symm ▸ hw⟩
  · refine ⟨hend.1, hs.lawful, hs.owner_eq, hend.2.perm ?_ (.refl _)⟩
    rw [← List.append_assoc]
    exact hlabels.symm.append_right sets

omit [DecidableEq S] in
/-- The labels of the rows are those that pruning gives back and those that stay. -/
theorem labels_perm_pruned (gone : S → Bool) (rows : List (S × Row S)) :
    (rows.flatMap fun entry => entry.2.labels).Perm
      (prunedLabels gone rows ++ (prunedRows gone rows).flatMap fun entry => entry.2.labels) := by
  have hlabels : ∀ rows : List (S × Row S), (rows.flatMap fun entry => entry.2.labels) =
      (rows.flatMap Prod.snd).map Prod.snd := fun rows => List.map_flatMap.symm
  have hout : prunedLabels gone rows = (rows.flatMap fun entry =>
      if gone entry.1 then entry.2 else entry.2.filter fun e => gone e.1.successor).map Prod.snd := by
    rw [prunedLabels, List.map_flatMap]
    refine List.flatMap_congr fun entry _ => ?_
    cases gone entry.1 <;> rfl
  have hperm := (perm_pruned gone (fun e : Edge S × LetterSet => gone e.1.successor)
    rows).map Prod.snd
  rw [List.map_append] at hperm
  rw [hlabels, hlabels, hout, prunedRows, List.flatMap_map]
  exact hperm

omit [DecidableEq S] in
theorem removeIf_secures (gone : S → Bool) :
    Secures (Scene.Balanced i sets references) Fault.Orderly (removeIf gone) :=
  fun s hs => Outcome.bind_ok (current_run s) (drop_outcome hs
    (LetterSet.releaseAll_givesBack _) (labels_perm_pruned gone s.automaton.rows) ⟨rfl, rfl, rfl⟩)

theorem remove_secures (states : List S) :
    Secures (Scene.Balanced i sets references) Fault.Orderly (remove states) := by
  intro s hs
  apply Outcome.bind_ok (current_run s)
  by_cases hinitial : s.automaton.initial.state?.any states.contains = true
  · rw [if_pos hinitial]
    have hgives : GivesBack i (s.automaton.rows.forM fun entry => entry.2.release)
        s.automaton.labels :=
      GivesBack.forM (fun entry : S × Row S => LetterSet.releaseAll_givesBack entry.2.labels) _
    refine drop_outcome hs hgives ?_ ⟨rfl, rfl, rfl⟩
    exact .of_eq (List.append_nil _).symm
  · rw [if_neg hinitial]
    exact removeIf_secures states.contains s hs

theorem reachable_balanced (bound : Nat) (seeds : List S) :
    Secures (Scene.Balanced i sets references) Fault.Orderly
      (Automaton.reachable bound seeds : AutomatonM S (List S)) :=
  reachable_secures explore_secures (fun _ => Fault.noConfusion) bound seeds

/-- Every operation keeps the balance, whether it is answered or fails. -/
theorem Operation.run_secures (operation : Operation S) :
    Secures (Scene.Balanced i sets references) Fault.Orderly operation.run := by
  have hgenerateFrom : ∀ bound seed, Secures (Scene.Balanced i sets references) Fault.Orderly
      (Automaton.generateFrom bound seed : AutomatonM S Unit) := fun bound seed =>
    generateFrom_secures explore_secures (fun _ => Fault.noConfusion) bound seed
  have hunreachable : ∀ bound seeds, Secures (Scene.Balanced i sets references) Fault.Orderly
      (Automaton.removeUnreachableFrom bound seeds : AutomatonM S Unit) := fun bound seeds =>
    (reachable_balanced bound seeds).bind fun reached => removeIf_secures _
  cases operation with
  | successors x => exact (explore_secures x).bind fun _ => Secures.pure ()
  | hasSuccessors x =>
      exact ((explore_secures x).bind fun row => Secures.pure _).bind fun _ => Secures.pure ()
  | successor x letter =>
      exact ((explore_secures x).bind fun row =>
        ask_secures fun _ _ => edgeOn?_secures row letter).bind fun _ => Secures.pure ()
  | successorsOn x letter =>
      exact ((explore_secures x).bind fun row =>
        ask_secures fun _ _ => targetsOn_secures row letter).bind fun _ => Secures.pure ()
  | initialState => exact initialState_secures.bind fun _ => Secures.pure ()
  | isDeterministicAt x =>
      exact fun s hs => Outcome.bind_ok (current_run s) (((ask_secures fun _ _ =>
        isDeterministicAt_secures hs.owner_eq x).bind fun _ => Secures.pure ()) s hs)
  | isDeterministic =>
      exact fun s hs => Outcome.bind_ok (current_run s) (((ask_secures fun _ _ =>
        isDeterministic_secures hs.owner_eq).bind fun _ => Secures.pure ()) s hs)
  | edit e =>
      cases e with
      | generate bound => exact initialState_secures.bind fun seed => hgenerateFrom bound seed
      | generateFrom bound seed => exact hgenerateFrom bound seed
      | reachable bound seeds => exact (reachable_balanced bound seeds).bind fun _ => Secures.pure ()
      | remove states => exact remove_secures states
      | removeIf gone => exact removeIf_secures gone
      | removeUnreachable bound =>
          exact initialState_secures.bind fun seed => hunreachable bound seed.toList
      | removeUnreachableFrom bound seeds => exact hunreachable bound seeds

end Automaton

end SymbolicOmega
