import SymbolicOmega.Proofs.Automaton.Reachability
import SymbolicOmega.Proofs.Automaton.Sinks

/-!
# Determinism

A state is deterministic if every letter over the alphabet takes at most one of its edges.  The
check goes through the labels with the union of those before and stops at the first one that
shares a letter with it.  It takes cells for the nodes of the unions, and it gives back all that
it makes, also where there is no cell.
-/

namespace SymbolicOmega

open Workspace

theorem length_filter_le_one_iff {α : Type} {p : α → Bool} {list : List α} :
    (list.filter p).length ≤ 1 ↔ list.Pairwise fun a b => ¬ (p a = true ∧ p b = true) := by
  have hshort : ∀ kept : List α, kept.length ≤ 1 ↔ kept.Pairwise fun _ _ => False
    | [] => by simp
    | [_] => by simp
    | _ :: _ :: _ => iff_of_false (by simp) fun h =>
        List.rel_of_pairwise_cons h List.mem_cons_self
  rw [hshort, List.pairwise_filter]
  simp only [not_and]

namespace Row

variable {S : Type} {row : Row S} {w w' : Workspace} {letter : BitSet}

/-- The edges that a letter takes, with their labels. -/
def taken (row : Row S) (letter : BitSet) (w : Workspace) : Row S :=
  row.filter fun entry => entry.2.contains letter w matches .ok true _

/-- No letter over the alphabet takes two edges. -/
def Deterministic (row : Row S) (w : Workspace) (k : Nat) : Prop :=
  ∀ letter : BitSet, letter.IsOver k → (row.taken letter w).length ≤ 1

/-- A row is asked for the first edge that a letter takes. -/
theorem edgeOn?_run (h : ∀ entry ∈ row, ∃ b, entry.2.contains letter w = .ok b w) :
    row.edgeOn? letter w = .ok ((row.taken letter w).head?.map Prod.fst) w := by
  rw [edgeOn?, taken, List.head?_filter]
  refine run_bind (findM?_run fun entry hentry => ?_)
  obtain ⟨b, hb⟩ := h entry hentry
  rw [hb]
  cases b <;> rfl

theorem targetsOn_run [DecidableEq S]
    (h : ∀ entry ∈ row, ∃ b, entry.2.contains letter w = .ok b w) :
    row.targetsOn letter w = .ok (row.taken letter w).targets.eraseDups w := by
  rw [targetsOn, taken]
  refine run_bind (filterM_run fun entry hentry => ?_)
  obtain ⟨b, hb⟩ := h entry hentry
  rw [hb]
  cases b <;> rfl

variable {i k : Nat} {L : Ledger} {part : LetterSet → Set Assignment}

/-- Of labels that are listed, those are taken that the letter belongs to. -/
theorem taken_eq (h : w.Keeps i k L) (hlisted : ∀ entry ∈ row, (entry.2, part entry.2) ∈ L)
    [∀ A : Set Assignment, DecidablePred (· ∈ A)] (letter : BitSet) :
    row.taken letter w = row.filter fun entry => letter.assignment ∈ part entry.2 := by
  refine List.filter_congr fun entry hentry => ?_
  obtain ⟨b, hrun, hb⟩ := LetterSet.contains_run h (hlisted entry hentry) letter
  rw [hrun, Bool.eq_iff_iff, decide_eq_true_iff, ← hb]
  cases b <;> simp

/-- A letter takes the same edges as long as the labels stay listed. -/
theorem taken_congr (h : w.Keeps i k L) (h' : w'.Keeps i k L)
    (hlisted : ∀ entry ∈ row, (entry.2, part entry.2) ∈ L) (letter : BitSet) :
    row.taken letter w' = row.taken letter w := by
  classical
  rw [taken_eq h hlisted, taken_eq h' hlisted]

/-- A row is deterministic exactly if its labels are pairwise disjoint. -/
theorem deterministic_iff (h : w.Keeps i k L)
    (hlisted : ∀ entry ∈ row, (entry.2, part entry.2) ∈ L)
    (hletters : ∀ entry ∈ row, ByLetters k (part entry.2)) :
    row.Deterministic w k ↔ row.labels.Pairwise fun s t => Disjoint (part s) (part t) := by
  classical
  simp only [Deterministic, taken_eq h hlisted, length_filter_le_one_iff, decide_eq_true_eq,
    labels, List.pairwise_map]
  simp only [List.pairwise_iff_forall_sublist]
  have hpair : ∀ {e e' : Edge S × LetterSet}, [e, e'].Sublist row →
      (Disjoint (part e.2) (part e'.2) ↔ ∀ letter : BitSet, letter.IsOver k →
        ¬ (letter.assignment ∈ part e.2 ∧ letter.assignment ∈ part e'.2)) := by
    intro e e' hsub
    have he : e ∈ row := hsub.subset List.mem_cons_self
    have he' : e' ∈ row := hsub.subset (List.mem_cons_of_mem _ List.mem_cons_self)
    rw [Set.disjoint_iff_inter_eq_empty, ← Set.not_nonempty_iff_eq_empty,
      ((hletters e he).inter (hletters e' he')).nonempty_iff]
    simp only [not_exists, not_and, Set.mem_inter_iff]
  constructor
  · exact fun hall e e' hsub => (hpair hsub).2 fun letter hletter => hall letter hletter hsub
  · exact fun hall letter hletter e e' hsub => (hpair hsub).1 (hall hsub) letter hletter

end Row

/-! ## The check -/

namespace Automaton

variable {S : Type} {a : Automaton S} {w w' : Workspace} {k : Nat}

/-- The labels of the automaton are live in its factory and told by letters over `k` propositions,
and the nodes came to their table by being put there. -/
structure BelongsTo (a : Automaton S) (w : Workspace) (k : Nat) : Prop where
  labels : w.OwnsByLetters a.owner k a.labels
  history : w.HasHistory

/-- Every label answers as before, and as many sets are live in the factory as before. -/
structure Unharmed (a : Automaton S) (k : Nat) (w w' : Workspace) : Prop where
  belongs : a.BelongsTo w' k
  labels : w.SameLetters w' a.labels
  live : w'.factories[a.owner]?.map Factory.live = w.factories[a.owner]?.map Factory.live

variable {i : Nat} {L : Ledger} {part : LetterSet → Set Assignment}

/-- What serves a list with the labels in it leaves the labels alone. -/
theorem unharmed_of_serves (h : w.Keeps a.owner k L) (h' : w'.Serves a.owner k L)
    (hlabels : ∀ label ∈ a.labels, (label, part label) ∈ L ∧ ByLetters k (part label)) :
    a.Unharmed k w w' where
  belongs := ⟨⟨L, h'.keeps, fun label hlabel => ⟨_, hlabels label hlabel⟩⟩, h'.history⟩
  labels label hlabel letter :=
    h.contains_congr h'.keeps (hlabels label hlabel).1 (hlabels label hlabel).1 letter
  live := h'.keeps.live.trans h.live.symm

/-- The labels are compared one after the other with the union of those before, which is given
back in the end. -/
theorem disjointFrom_serves {seen : LetterSet} {A : Set Assignment} {labels : List LetterSet}
    (hlabels : ∀ label ∈ labels, (label, part label) ∈ L)
    (h : w.Serves i k ((seen, A) :: L)) :
    Outcome (disjointFrom seen labels) w
      (fun b w' => w'.Serves i k L ∧ (b = true ↔ (∀ label ∈ labels, Disjoint A (part label)) ∧
        labels.Pairwise fun s t => Disjoint (part s) (part t)))
      (Lacks i k L) := by
  induction labels generalizing w seen A with
  | nil =>
      obtain ⟨w', hrun, hw', -⟩ := LetterSet.release_serves h
      exact Outcome.bind_ok hrun (Outcome.pure ⟨hw', by simp⟩)
  | cons label rest ih =>
      obtain ⟨hlabel, hrest⟩ := List.forall_mem_cons.1 hlabels
      have hlisted := List.mem_cons_of_mem (seen, A) hlabel
      apply Outcome.andThen (LetterSet.onFault_release_serves
        (LetterSet.intersects_serves h List.mem_cons_self hlisted))
      rintro (_ | _) w₁ ⟨hw₁, hshared⟩
      · -- the label shares nothing with the union, and is added to it
        have hdisjoint : Disjoint A (part label) := by
          rw [Set.disjoint_iff_inter_eq_empty, ← Set.not_nonempty_iff_eq_empty, ← hshared]
          exact Bool.false_ne_true
        apply Outcome.andThen (LetterSet.onFault_release_serves
          (LetterSet.addAll_serves hw₁ hlisted))
        intro union w₂ hw₂
        refine (ih hrest hw₂).imp fun b w' hend => ⟨hend.1, hend.2.trans ?_⟩
        simp only [Set.disjoint_union_left, List.forall_mem_cons, List.pairwise_cons]
        constructor
        · rintro ⟨hseen, hpairs⟩
          exact ⟨⟨hdisjoint, fun l hl => (hseen l hl).1⟩, fun l hl => (hseen l hl).2, hpairs⟩
        · rintro ⟨⟨-, hseen⟩, hfirst, hpairs⟩
          exact ⟨fun l hl => ⟨hseen l hl, hfirst l hl⟩, hpairs⟩
      · obtain ⟨w₂, hrun, hw₂, -⟩ := LetterSet.release_serves hw₁
        refine Outcome.bind_ok hrun (Outcome.pure ⟨hw₂, ?_⟩)
        have hshares := Set.not_disjoint_iff_nonempty_inter.2 (hshared.1 rfl)
        exact iff_of_false Bool.false_ne_true fun hall =>
          hshares (hall.1 label List.mem_cons_self)

variable [DecidableEq S]

/-- The check at a state is answered by whether the labels are pairwise disjoint. -/
theorem isDeterministicAt_serves (hlabels : ∀ label ∈ a.labels, (label, part label) ∈ L)
    (h : w.Serves a.owner k L) (state : S) :
    Outcome (a.isDeterministicAt state) w
      (fun b w' => w'.Serves a.owner k L ∧ (b = true ↔ ∀ row, a.row? state = some row →
        row.labels.Pairwise fun s t => Disjoint (part s) (part t)))
      (Lacks a.owner k L) := by
  rw [isDeterministicAt]
  cases hrow : a.row? state with
  | none => exact Outcome.pure ⟨h, by simp⟩
  | some row =>
      obtain ⟨seen, w₁, hrun, hw₁⟩ := LetterSet.empty_serves h
      have hlisted : ∀ label ∈ row.labels, (label, part label) ∈ L := by
        intro label hlabel
        obtain ⟨entry, hentry, rfl⟩ := List.mem_map.1 hlabel
        exact hlabels _ (mem_labels hrow hentry)
      refine Outcome.bind_ok hrun ((disjointFrom_serves hlisted hw₁).imp
        fun b w' hend => ⟨hend.1, hend.2.trans ?_⟩)
      simp only [Set.empty_disjoint, implies_true, true_and, Option.some.injEq, forall_eq']

/-- The check of all states is answered by whether the labels of each row are pairwise disjoint. -/
theorem isDeterministic_serves (hlabels : ∀ label ∈ a.labels, (label, part label) ∈ L)
    (h : w.Serves a.owner k L) :
    Outcome a.isDeterministic w
      (fun b w' => w'.Serves a.owner k L ∧ (b = true ↔ ∀ state row, a.row? state = some row →
        row.labels.Pairwise fun s t => Disjoint (part s) (part t)))
      (Lacks a.owner k L) := by
  apply (Outcome.allM_iff (fun state _ _ hw => isDeterministicAt_serves hlabels hw state) h).imp
  rintro b w' ⟨hw', hb⟩
  refine ⟨hw', hb.trans ?_⟩
  constructor
  · intro hstates state row hrow
    have hstate := isExplored_iff_mem_states.1 (isExplored_iff.2 ⟨row, hrow⟩)
    exact hstates state hstate row hrow
  · exact fun hrows state _ => hrows state

/-- The state moves to one edge at most on the letter: asked for its edge it answers the only one
that the letter takes, if there is one, and it reaches at most one state. -/
def MovesAlone (a : Automaton S) (w' : Workspace) (state : S) (letter : BitSet)
    (taken : Row S) : Prop :=
  ∃ found targets, verdict (successor state letter) ⟨a, w'⟩ = .ok found ∧
    taken.map Prod.fst = found.toList ∧
    verdict (successorsOn state letter) ⟨a, w'⟩ = .ok targets ∧ targets.length ≤ 1

/-- A state with disjoint labels moves to one edge at most. -/
theorem movesAlone_of_disjoint (h : w.Keeps a.owner k L) {state : S} {row : Row S}
    (hrow : a.row? state = some row) (hlisted : ∀ entry ∈ row, (entry.2, part entry.2) ∈ L)
    (hdisjoint : row.labels.Pairwise fun s t => Disjoint (part s) (part t)) (letter : BitSet) :
    a.MovesAlone w state letter (row.taken letter w) := by
  classical
  have hanswers : ∀ entry ∈ row, ∃ b, entry.2.contains letter w = .ok b w := fun entry hentry =>
    (LetterSet.contains_run h (hlisted entry hentry) letter).imp fun _ hrun => hrun.1
  have hshort : (row.taken letter w).length ≤ 1 := by
    rw [Row.taken_eq h hlisted, length_filter_le_one_iff]
    rw [Row.labels, List.pairwise_map] at hdisjoint
    refine hdisjoint.imp fun hpair => ?_
    rw [decide_eq_true_iff, decide_eq_true_iff]
    exact fun hboth => Set.disjoint_left.1 hpair hboth.1 hboth.2
  have hexplore : explore state ⟨a, w⟩ = .ok row ⟨a, w⟩ := explore_of_kept hrow
  have hsuccessor : successor state letter ⟨a, w⟩ =
      .ok ((row.taken letter w).head?.map Prod.fst) ⟨a, w⟩ := by
    rw [successor, run_bind hexplore]
    simp only [inWorkspace, Row.edgeOn?_run hanswers]
  have htargets : successorsOn state letter ⟨a, w⟩ =
      .ok (row.taken letter w).targets.eraseDups ⟨a, w⟩ := by
    rw [successorsOn, run_bind hexplore]
    simp only [inWorkspace, Row.targetsOn_run hanswers]
  refine ⟨_, _, by rw [verdict, hsuccessor], ?_, by rw [verdict, htargets], ?_⟩
  · generalize row.taken letter w = taken at hshort
    rcases taken with _ | ⟨entry, _ | ⟨second, rest⟩⟩
    · rfl
    · rfl
    · simp at hshort
  · have hlength := (Rabin.eraseDupsBy_sublist (· == ·) (row.taken letter w).targets).length_le
    rw [Row.targets, List.length_map] at hlength
    exact hlength.trans hshort

/-- The check of determinism.  At an explored state, whatever its row is, it answers whether every
letter over the alphabet takes at most one edge; and if so, the edge that is asked for on a letter
is the only one that the letter takes, and at most one state is reached.  The whole automaton is
deterministic exactly if all explored states are.  No check changes a label or leaves a set behind,
and it ends without an answer only where there is no cell for a node of a union. -/
theorem isDeterministic_exact (h : a.BelongsTo w k) :
    (∀ state row, a.row? state = some row →
      Outcome (a.isDeterministicAt state) w
        (fun b w' => a.Unharmed k w w' ∧ (b = true ↔ row.Deterministic w k) ∧
          (b = true → ∀ letter, a.MovesAlone w' state letter (row.taken letter w)))
        (fun fault w' => a.Unharmed k w w' ∧ NoCell a.owner fault w')) ∧
      Outcome a.isDeterministic w
        (fun b w' => a.Unharmed k w w' ∧
          (b = true ↔ ∀ state row, a.row? state = some row → row.Deterministic w k))
        (fun fault w' => a.Unharmed k w w' ∧ NoCell a.owner fault w') := by
  obtain ⟨⟨L, hkeeps, howns⟩, hhistory⟩ := h
  choose! part hpart using howns
  have hlabels : ∀ label ∈ a.labels, (label, part label) ∈ L := fun label hlabel =>
    (hpart label hlabel).1
  have hunharmed : ∀ {w'}, w'.Serves a.owner k L → a.Unharmed k w w' := fun hw' =>
    unharmed_of_serves hkeeps hw' hpart
  have hfails : ∀ fault w', Lacks a.owner k L fault w' →
      a.Unharmed k w w' ∧ NoCell a.owner fault w' :=
    fun _ _ hend => ⟨hunharmed hend.serves, hend.noCell⟩
  have hrows : ∀ {state row}, a.row? state = some row → ∀ entry ∈ row,
      (entry.2, part entry.2) ∈ L ∧ ByLetters k (part entry.2) := fun hrow entry hentry =>
    hpart _ (mem_labels hrow hentry)
  have hdeterministic : ∀ {state row}, a.row? state = some row →
      (row.Deterministic w k ↔ row.labels.Pairwise fun s t => Disjoint (part s) (part t)) :=
    fun hrow => Row.deterministic_iff hkeeps (fun entry hentry => (hrows hrow entry hentry).1)
      fun entry hentry => (hrows hrow entry hentry).2
  constructor
  · intro state row hrow
    refine (isDeterministicAt_serves hlabels ⟨hkeeps, hhistory⟩ state).mono ?_ hfails
    rintro b w' ⟨hw', hb⟩
    simp only [hrow, Option.some.injEq, forall_eq'] at hb
    refine ⟨hunharmed hw', hb.trans (hdeterministic hrow).symm, fun hyes letter => ?_⟩
    have hlisted : ∀ entry ∈ row, (entry.2, part entry.2) ∈ L := fun entry hentry =>
      (hrows hrow entry hentry).1
    rw [← Row.taken_congr hkeeps hw'.keeps hlisted]
    exact movesAlone_of_disjoint hw'.keeps hrow hlisted (hb.1 hyes) letter
  · refine (isDeterministic_serves hlabels ⟨hkeeps, hhistory⟩).mono ?_ hfails
    rintro b w' ⟨hw', hb⟩
    refine ⟨hunharmed hw', hb.trans ?_⟩
    exact forall₃_congr fun _ _ hrow => (hdeterministic hrow).symm

/-! ## Two propositions that share a letter -/

/-- A factory over two propositions, with a table for `2 ^ storageBits` nodes that is never
collected. -/
private def cellsFor (storageBits : Nat) : Workspace :=
  .ofFactories [(Factory.ofSizing 2 ⟨storageBits, 2, 2 ^ storageBits⟩).toOption.getD default]

private def eachProposition : List LetterSet.Call :=
  [.proposition 0, .proposition 1]

private def afterEach (storageBits : Nat) : Workspace :=
  LetterSet.after 0 eachProposition (cellsFor storageBits)

private def first : LetterSet := ⟨0, ⟨2, false⟩⟩

private def second : LetterSet := ⟨0, ⟨3, false⟩⟩

/-- The edges of a state on either proposition. -/
private def onEither : Row Nat := [(Edge.of 0, first), (Edge.of 1, second)]

private def onFirst : Row Nat := [(Edge.of 0, first)]

/-- State 0 with an edge on either proposition, and state 1 with one on the first of them. -/
private def guessing : Automaton Nat where
  owner := 0
  space := ⟨fun _ _ => return []⟩
  initial := .resolved (some 0)
  builds := 0
  rows := [(0, onEither), (1, onFirst)]
  acceptance := ⟨.marks .all, []⟩

private theorem guessing_belongs {storageBits : Nat} {f : Factory}
    (hnew : Factory.ofSizing 2 ⟨storageBits, 2, 2 ^ storageBits⟩ = .ok f)
    (hlabels : guessing.labels ⊆ LetterSet.setsOf 0 eachProposition (cellsFor storageBits)) :
    guessing.BelongsTo (afterEach storageBits) 2 := by
  have hcells : cellsFor storageBits = .ofFactories [f] := by
    simp [cellsFor, hnew, Except.toOption]
  have hplace : (cellsFor storageBits).factories[0]? = some f := by
    rw [hcells]
    rfl
  have hmem : first ∈ LetterSet.setsOf 0 eachProposition (cellsFor storageBits) :=
    hlabels List.mem_cons_self
  have hmade := LetterSet.made_of_mem hnew hplace (fun call _ => call.signed_of_lt (by decide)) hmem
  refine ⟨hmade.ownsByLetters hlabels, ?_⟩
  exact LetterSet.after_upholds Manager.hasHistory_lasting 0 eachProposition
    (hcells ▸ ofFactories_hasHistory hnew)

/-- What is known of the check of a state where it was answered. -/
private theorem good_of_verdict {a : Automaton Nat} {w : Workspace}
    {good : Nat → Row Nat → Bool → Workspace → Prop} {bad : Fault → Workspace → Prop}
    (h : ∀ state row, a.row? state = some row →
      Outcome (a.isDeterministicAt state) w (good state row) bad)
    {state : Nat} {row : Row Nat} {b : Bool} (hrow : a.row? state = some row)
    (hverdict : verdict (a.isDeterministicAt state) w = .ok b) : ∃ w', good state row b w' := by
  obtain ⟨w', hrun⟩ := run_of_verdict hverdict
  exact ⟨w', (h state row hrow).of_ok hrun⟩

/-- Where there is room, state 0 is found not to be deterministic and state 1 to be. -/
theorem guessing_checked :
    guessing.BelongsTo (afterEach 3) 2 ∧ guessing.row? 0 = some onEither ∧
      guessing.row? 1 = some onFirst ∧ ¬ onEither.Deterministic (afterEach 3) 2 ∧
      onFirst.Deterministic (afterEach 3) 2 ∧
      verdict guessing.isDeterministic (afterEach 3) = .ok false := by
  have hbelongs : guessing.BelongsTo (afterEach 3) 2 :=
    guessing_belongs rfl (by decide +kernel)
  have hat := (isDeterministic_exact hbelongs).1
  obtain ⟨_, -, hno, -⟩ := good_of_verdict hat (rfl : guessing.row? 0 = some onEither)
    (b := false) (by decide +kernel)
  obtain ⟨_, -, hyes, -⟩ := good_of_verdict hat (rfl : guessing.row? 1 = some onFirst)
    (b := true) (by decide +kernel)
  exact ⟨hbelongs, rfl, rfl, fun h => Bool.false_ne_true (hno.2 h), hyes.1 rfl, by decide +kernel⟩

/-- Where the two propositions fill the table, the check at state 0 is not answered, although the
letter with both of them takes two edges: to see that they share it takes a node. -/
theorem guessing_unanswered :
    guessing.BelongsTo (afterEach 2) 2 ∧ guessing.row? 0 = some onEither ∧
      (onEither.taken ⟨3⟩ (afterEach 2)).length = 2 ∧
      verdict (guessing.isDeterministicAt 0) (afterEach 2) = .error .storageFull ∧
      ¬ ∃ w, guessing.isDeterministicAt 0 (afterEach 2) = .ok false w := by
  have hfault : verdict (guessing.isDeterministicAt 0) (afterEach 2) = .error .storageFull := by
    decide +kernel
  refine ⟨guessing_belongs rfl (by decide +kernel), rfl, by decide +kernel, hfault, ?_⟩
  rintro ⟨w, hrun⟩
  rw [verdict, hrun] at hfault
  cases hfault

end Automaton

end SymbolicOmega
