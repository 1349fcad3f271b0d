import SymbolicOmega.Proofs.Acceptance.Language
import SymbolicOmega.Proofs.Automaton.Closure
import SymbolicOmega.Proofs.Letters.Exhaustion

/-!
# Implication between pairs

A pair is seen to imply another one if its `fin` covers the other's and each of the other's
`infs` covers one of its own.  What is seen is a preorder, and it is sound for every infinite
sequence of transitions.  A question about it changes what is covered nowhere, and it stays
without an answer only if there is no cell for a node that is needed to compare two labels.
-/

namespace SymbolicOmega

open Workspace

namespace TransitionSet

open LetterSet

variable {S : Type} [DecidableEq S] {w : Workspace} {i k : Nat} {L : Ledger}
variable {set other : TransitionSet S}

/-- Whether one set has all transitions of another one is answered rightly, while there are
cells. -/
theorem containsAll_serves {C D : S → Set Assignment} (h : w.Serves i k L)
    (hset : ∀ state, set.Covers L state (C state))
    (hother : ∀ state, other.Covers L state (D state)) (hdistinct : other.states.Nodup) :
    Outcome (set.containsAll other) w
      (fun b w' => w'.Serves i k L ∧ (b = true ↔ ∀ state, D state ⊆ C state)) (Lacks i k L) := by
  have hlisted : ∀ entry ∈ other.labels, (entry.2, D entry.1) ∈ L := by
    intro entry hentry
    have hcovers := hother entry.1
    rwa [Covers, label?, lookup_of_mem hdistinct hentry] at hcovers
  have hasked : Outcome (set.containsAll other) w (fun b w' => w'.Serves i k L ∧
      (b = true ↔ ∀ entry ∈ other.labels, D entry.1 ⊆ C entry.1)) (Lacks i k L) :=
    Outcome.allM_iff (fun entry hentry _ hw' =>
      containsAllAt_outcome books_serves hw' (hset entry.1) (hlisted entry hentry)) h
  refine hasked.imp fun b w' hend => ⟨hend.1, hend.2.trans ?_⟩
  refine ⟨fun hall state => ?_, fun hall entry _ => hall entry.1⟩
  have hcovers := hother state
  cases hown : other.label? state with
  | some own => exact hall (state, own) (mem_of_lookup hown)
  | none =>
      rw [Covers, hown] at hcovers
      exact hcovers ▸ Set.empty_subset _

end TransitionSet

/-! ## Pairs -/

namespace RabinPair

variable {S : Type} [DecidableEq S]

/-- From some step on the transitions are not in `fin`, and again and again one is in each of
`infs`. -/
structure Satisfied (pair : RabinPair S) (w : Workspace) (steps : ℕ → S × BitSet) : Prop where
  avoids : ∃ N, ∀ n ≥ N, pair.fin.contains (steps n).1 (steps n).2 w = .ok false w
  visits : ∀ set ∈ pair.infs, ∀ N, ∃ n ≥ N, set.contains (steps n).1 (steps n).2 w = .ok true w

/-- With what the sets of transitions cover at each state, one pair covers another one. -/
structure Below (C : S → TransitionSet S → Set Assignment) (p q : RabinPair S) : Prop where
  fin : ∀ state, C state q.fin ⊆ C state p.fin
  infs : ∀ covering ∈ q.infs, ∃ covered ∈ p.infs, ∀ state, C state covered ⊆ C state covering

namespace Below

variable {C : S → TransitionSet S → Set Assignment} {p q o : RabinPair S}

omit [DecidableEq S] in
theorem refl (C : S → TransitionSet S → Set Assignment) (p : RabinPair S) : Below C p p :=
  ⟨fun _ => subset_rfl, fun set hset => ⟨set, hset, fun _ => subset_rfl⟩⟩

omit [DecidableEq S] in
theorem trans (h : Below C p q) (h' : Below C q o) : Below C p o := by
  refine ⟨fun state => (h'.fin state).trans (h.fin state), fun last hlast => ?_⟩
  obtain ⟨middle, hmiddle, hlast⟩ := h'.infs last hlast
  obtain ⟨first, hfirst, hmiddle⟩ := h.infs middle hmiddle
  exact ⟨first, hfirst, fun state => (hmiddle state).trans (hlast state)⟩

/-- Where a pair is satisfied every pair is that it covers. -/
theorem satisfied {w : Workspace} {i k : Nat} {L : Ledger} (h : Below C p q)
    (hw : w.Keeps i k L)
    (hp : ∀ set ∈ p.sets, ∀ state, set.Covers L state (C state set))
    (hq : ∀ set ∈ q.sets, ∀ state, set.Covers L state (C state set))
    {steps : ℕ → S × BitSet} (hsteps : p.Satisfied w steps) : q.Satisfied w steps := by
  constructor
  · obtain ⟨N, hN⟩ := hsteps.avoids
    refine ⟨N, fun n hn => ?_⟩
    have hout := hN n hn
    rw [TransitionSet.contains_eq_false_iff hw (hp p.fin List.mem_cons_self _)] at hout
    rw [TransitionSet.contains_eq_false_iff hw (hq q.fin List.mem_cons_self _)]
    exact fun hin => hout (h.fin _ hin)
  · intro covering hcovering N
    obtain ⟨covered, hcovered, hsub⟩ := h.infs covering hcovering
    obtain ⟨n, hn, hvisited⟩ := hsteps.visits covered hcovered N
    refine ⟨n, hn, ?_⟩
    rw [TransitionSet.contains_iff hw (hq covering (List.mem_cons_of_mem _ hcovering) _)]
    rw [TransitionSet.contains_iff hw (hp covered (List.mem_cons_of_mem _ hcovered) _)] at hvisited
    exact hsub _ hvisited

end Below

end RabinPair

namespace Rabin

variable {S : Type} [DecidableEq S] {r : Rabin S} {w : Workspace} {i k : Nat}

/-- The sets of the condition belong to the factory at position `i`: their labels are live there,
none has two labels for one state, and the nodes came to their table by being put there. -/
structure BelongsTo (r : Rabin S) (w : Workspace) (i k : Nat) : Prop where
  owns : w.Owns i k r.labels
  distinct : ∀ set ∈ r.sets, set.states.Nodup
  history : w.HasHistory

omit [DecidableEq S] in
/-- A condition over letter sets that were made in one factory belongs to it. -/
theorem belongsTo_of_performAll {sizing : Sizing} {f : Factory} {calls : List LetterSet.Call}
    {made : List LetterSet} (hk : k < 2 ^ 31) (hnew : Factory.ofSizing k sizing = .ok f)
    (hrun : LetterSet.performAll 0 calls [] (ofFactories [f]) = .ok made w)
    (hmade : r.labels ⊆ made) (hdistinct : ∀ set ∈ r.sets, set.states.Nodup) :
    r.BelongsTo w 0 k := by
  have hmake : LetterSet.Made k 0 made w :=
    (LetterSet.Made.new hnew rfl).performAll (fun call _ => call.signed_of_lt hk) hrun
  have hhistory := LetterSet.performAll_upholds Manager.hasHistory_lasting 0 calls []
    (ofFactories [f]) (ofFactories_hasHistory hnew)
  exact ⟨hmake.owns hmade, hdistinct, hhistory.of_ok hrun⟩

/-- What was answered is what is true of a preorder that is sound for sequences of transitions. -/
structure Preordered (r : Rabin S) (w : Workspace) (answered : List ((ℕ × ℕ) × Bool)) : Prop where
  sound : ∀ a b p q, r.pairs[a]? = some p → r.pairs[b]? = some q → ((a, b), true) ∈ answered →
    ∀ steps, p.Satisfied w steps → q.Satisfied w steps
  refl : ∀ a answer, ((a, a), answer) ∈ answered → answer = true
  trans : ∀ a b c answer, ((a, b), true) ∈ answered → ((b, c), true) ∈ answered →
    ((a, c), answer) ∈ answered → answer = true

omit [DecidableEq S] in
theorem mem_sets_of_getElem? {a : ℕ} {p : RabinPair S} (ha : r.pairs[a]? = some p) :
    ∀ set ∈ p.sets, set ∈ r.sets := fun _ hset =>
  List.mem_flatMap.2 ⟨p, List.mem_of_getElem? ha, hset⟩

omit [DecidableEq S] in
theorem pairAt_run {a : ℕ} {p : RabinPair S} (ha : r.pairs[a]? = some p) :
    r.pairAt a w = .ok p w := by
  simp only [pairAt, ha]
  rfl

/-- Whether one pair implies another one is answered rightly, while there are cells. -/
theorem implies_serves {L : Ledger} {C : S → TransitionSet S → Set Assignment}
    (h : w.Serves i k L) (hcovers : ∀ set ∈ r.sets, ∀ state, set.Covers L state (C state set))
    (hdistinct : ∀ set ∈ r.sets, set.states.Nodup) {a b : ℕ} {p q : RabinPair S}
    (ha : r.pairs[a]? = some p) (hb : r.pairs[b]? = some q) :
    Outcome (r.implies a b) w
      (fun answer w' => w'.Serves i k L ∧ (answer = true ↔ p.Below C q)) (NoCell i) := by
  have hp := mem_sets_of_getElem? ha
  have hq := mem_sets_of_getElem? hb
  have hcompared : ∀ {set other : TransitionSet S} {w : Workspace}, w.Serves i k L →
      set ∈ r.sets → other ∈ r.sets → Outcome (set.containsAll other) w
        (fun answer w' => w'.Serves i k L ∧
          (answer = true ↔ ∀ state, C state other ⊆ C state set)) (NoCell i) :=
    fun hw hset hother => (TransitionSet.containsAll_serves hw (hcovers _ hset) (hcovers _ hother)
      (hdistinct _ hother)).mono (fun _ _ hend => hend) fun _ _ hend => hend.noCell
  apply Outcome.bind_ok (pairAt_run ha)
  apply Outcome.bind_ok (pairAt_run hb)
  apply Outcome.andThen (hcompared h (hp _ List.mem_cons_self) (hq _ List.mem_cons_self))
  rintro (_ | _) w₁ ⟨hw₁, hfin⟩
  · exact Outcome.pure ⟨hw₁, by simpa using fun hbelow : p.Below C q => hfin.2 hbelow.fin⟩
  · have hinfs : Outcome (q.infs.allM fun covering =>
        p.infs.anyM fun covered => covering.containsAll covered) w₁
        (fun answer w' => w'.Serves i k L ∧ (answer = true ↔ ∀ covering ∈ q.infs,
          ∃ covered ∈ p.infs, ∀ state, C state covered ⊆ C state covering)) (NoCell i) :=
      Outcome.allM_iff (fun covering hcovering _ hw => Outcome.anyM (fun covered hcovered _ hw =>
        hcompared hw (hq covering (List.mem_cons_of_mem _ hcovering))
          (hp covered (List.mem_cons_of_mem _ hcovered))) hw) hw₁
    refine hinfs.imp fun answer w' hend => ⟨hend.1, hend.2.trans ?_⟩
    exact ⟨fun hall => ⟨hfin.1 rfl, hall⟩, fun hbelow => hbelow.infs⟩

/-- The answer to a question is right by what the sets cover. -/
def AnsweredBy (r : Rabin S) (C : S → TransitionSet S → Set Assignment) (question : ℕ × ℕ)
    (answer : Bool) : Prop :=
  ∃ p q, r.pairs[question.1]? = some p ∧ r.pairs[question.2]? = some q ∧
    (answer = true ↔ p.Below C q)

/-- Right answers are those of a sound preorder. -/
theorem preordered_of_answeredBy {L : Ledger} {C : S → TransitionSet S → Set Assignment}
    (hkeeps : w.Keeps i k L) (hcovers : ∀ set ∈ r.sets, ∀ state, set.Covers L state (C state set))
    {answered : List ((ℕ × ℕ) × Bool)} (h : ∀ entry ∈ answered, r.AnsweredBy C entry.1 entry.2) :
    r.Preordered w answered := by
  constructor
  · intro a b p q ha hb hanswer steps hsteps
    obtain ⟨p', q', ha', hb', hiff⟩ := h _ hanswer
    cases ha.symm.trans ha'
    cases hb.symm.trans hb'
    exact (hiff.1 rfl).satisfied hkeeps
      (fun set hset => hcovers set (mem_sets_of_getElem? ha set hset))
      (fun set hset => hcovers set (mem_sets_of_getElem? hb set hset)) hsteps
  · intro a answer hanswer
    obtain ⟨p, q, ha, hb, hiff⟩ := h _ hanswer
    cases ha.symm.trans hb
    exact hiff.2 (RabinPair.Below.refl C p)
  · intro a b c answer hab hbc hac
    obtain ⟨p, q, ha, hb, hpq⟩ := h _ hab
    obtain ⟨q', o, hb', hc, hqo⟩ := h _ hbc
    obtain ⟨p', o', ha', hc', hpo⟩ := h _ hac
    cases ha.symm.trans ha'
    cases hb.symm.trans hb'
    cases hc.symm.trans hc'
    exact hpo.2 ((hpq.1 rfl).trans (hqo.1 rfl))

/-- Implication between pairs is a preorder, and sound for infinite sequences of transitions.
Questions about pairs, asked one after the other, are all answered and the condition belongs to
the factory as before, unless there is no cell for a node that a comparison needs. -/
theorem implies_preorder (h : r.BelongsTo w i k) (questions : List (ℕ × ℕ))
    (hvalid : ∀ question ∈ questions,
      question.1 < r.pairs.length ∧ question.2 < r.pairs.length) :
    Outcome (questions.mapM fun question => r.implies question.1 question.2) w
      (fun answers w' => answers.length = questions.length ∧
        r.Preordered w (questions.zip answers) ∧ r.BelongsTo w' i k) (NoCell i) := by
  obtain ⟨L, hkeeps, hlive⟩ := h.owns
  choose C hC using exists_cover hlive
  have hcovers : ∀ set ∈ r.sets, ∀ state, set.Covers L state (C state set) :=
    fun set hset state => hC state set hset
  have hask : ∀ question ∈ questions, ∀ w', w'.Serves i k L →
      Outcome (r.implies question.1 question.2) w' (fun answer w'' => w''.Serves i k L ∧
        r.AnsweredBy C question answer) (NoCell i) := by
    intro question hquestion w' hw'
    have hp := List.getElem?_eq_getElem (hvalid question hquestion).1
    have hq := List.getElem?_eq_getElem (hvalid question hquestion).2
    exact (implies_serves hw' hcovers h.distinct hp hq).imp
      fun _ _ hend => ⟨hend.1, _, _, hp, hq, hend.2⟩
  apply (Outcome.mapM hask ⟨hkeeps, h.history⟩).imp
  rintro answers w' ⟨hw', hlength, hanswers⟩
  exact ⟨hlength, preordered_of_answeredBy hkeeps hcovers hanswers,
    ⟨L, hw'.keeps, hlive⟩, h.distinct, hw'.history⟩

/-! ## Two propositions -/

/-- A table for `2 ^ storageBits` nodes that is never collected. -/
private def roomFor (storageBits : Nat) : Workspace :=
  ofFactories [(Factory.ofSizing 2 ⟨storageBits, 2, 2 ^ storageBits⟩).toOption.getD default]

private def makeBoth : WorkM (List LetterSet) :=
  LetterSet.performAll 0 [.proposition 0, .proposition 1] []

/-- The letters with either proposition, and the workspace in which they are made. -/
private def bothMade (storageBits : Nat) : List LetterSet × Workspace :=
  match makeBoth (roomFor storageBits) with
  | .ok made w => (made, w)
  | .error _ w => ([], w)

/-- Each of the labels is to be seen at state 0, for the second pair only the first of them. -/
private def visiting (labels : List LetterSet) : Rabin ℕ :=
  let visits := labels.zipIdx.map fun entry => ⟨entry.2 + 1, 0, [(0, entry.1)]⟩
  .ofPairs [⟨⟨0, 0, []⟩, visits⟩, ⟨⟨0, 0, []⟩, visits.take 1⟩]

/-- Whether the first pair implies the second one, itself, and the second pair the first one. -/
private def asked : List (ℕ × ℕ) := [(0, 1), (0, 0), (1, 0)]

private def visitingBoth (storageBits : Nat) : Rabin ℕ := visiting (bothMade storageBits).1

private theorem bothMade_run {storageBits : Nat} (hmade : (bothMade storageBits).1 ≠ []) :
    makeBoth (roomFor storageBits) =
      .ok (bothMade storageBits).1 (bothMade storageBits).2 := by
  unfold bothMade at hmade ⊢
  cases hrun : makeBoth (roomFor storageBits) with
  | ok made w => rfl
  | error fault w => simp [hrun] at hmade

private theorem visitingBoth_belongsTo {storageBits : Nat} {f : Factory}
    (hnew : Factory.ofSizing 2 ⟨storageBits, 2, 2 ^ storageBits⟩ = .ok f)
    (hmade : (bothMade storageBits).1 ≠ [])
    (hlabels : (visitingBoth storageBits).labels ⊆ (bothMade storageBits).1)
    (hstates : ∀ set ∈ (visitingBoth storageBits).sets, set.states.Nodup) :
    (visitingBoth storageBits).BelongsTo (bothMade storageBits).2 0 2 := by
  have hroom : roomFor storageBits = ofFactories [f] := by simp [roomFor, hnew, Except.toOption]
  have hrun := bothMade_run hmade
  rw [hroom] at hrun
  exact belongsTo_of_performAll (by decide) hnew hrun hlabels hstates

private theorem eightCells_belongs : (visitingBoth 3).BelongsTo (bothMade 3).2 0 2 :=
  visitingBoth_belongsTo rfl (by decide +kernel) (by decide +kernel) (by decide +kernel)

private theorem fourCells_belongs : (visitingBoth 2).BelongsTo (bothMade 2).2 0 2 :=
  visitingBoth_belongsTo rfl (by decide +kernel) (by decide +kernel) (by decide +kernel)

private theorem visitingBoth_length (storageBits : Nat) :
    (visitingBoth storageBits).pairs.length = 2 := rfl

private theorem asked_valid (storageBits : Nat) : ∀ question ∈ asked,
    question.1 < (visitingBoth storageBits).pairs.length ∧
      question.2 < (visitingBoth storageBits).pairs.length := by
  rw [visitingBoth_length]
  decide

/-- The answer or the fault, without the workspace. -/
private def ended {β : Type} : EStateM.Result Fault Workspace β → Except Fault β
  | .ok b _ => .ok b
  | .error fault _ => .error fault

private theorem run_of_ended {β : Type} {x : WorkM β} {b : β} (h : ended (x w) = .ok b) :
    ∃ w', x w = .ok b w' := by
  cases hrun : x w with
  | ok c w' =>
      rw [hrun] at h
      cases h
      exact ⟨w', rfl⟩
  | error fault w' => simp [hrun, ended] at h

private theorem eightCells_answers :
    ended ((asked.mapM fun question => (visitingBoth 3).implies question.1 question.2)
      (bothMade 3).2) = .ok [true, true, false] := by
  decide +kernel

/-- The answers to questions about a condition for which all questions end as they should. -/
private theorem preordered_of_run {r : Rabin ℕ} {w' : Workspace} {questions : List (ℕ × ℕ)}
    {answers : List Bool}
    (h : ∀ questions : List (ℕ × ℕ), (∀ question ∈ questions,
        question.1 < r.pairs.length ∧ question.2 < r.pairs.length) →
      Outcome (questions.mapM fun question => r.implies question.1 question.2) w
        (fun answers w' => answers.length = questions.length ∧
          r.Preordered w (questions.zip answers) ∧ r.BelongsTo w' i k) (NoCell i))
    (hvalid : ∀ question ∈ questions,
      question.1 < r.pairs.length ∧ question.2 < r.pairs.length)
    (hrun : (questions.mapM fun question => r.implies question.1 question.2) w =
      .ok answers w') :
    r.Preordered w (questions.zip answers) ∧ r.BelongsTo w' i k :=
  ((h questions hvalid).of_ok hrun).2

/-- The theorem where there is room: the first pair implies the second one and itself, and the
second one does not imply the first. -/
theorem eightCells_preordered :
    ∃ w, (asked.mapM fun question => (visitingBoth 3).implies question.1 question.2)
        (bothMade 3).2 = .ok [true, true, false] w ∧
      (visitingBoth 3).Preordered (bothMade 3).2 (asked.zip [true, true, false]) ∧
      (visitingBoth 3).BelongsTo w 0 2 := by
  obtain ⟨w, hrun⟩ := run_of_ended eightCells_answers
  exact ⟨w, hrun, preordered_of_run (implies_preorder eightCells_belongs) (asked_valid 3) hrun⟩

private theorem fourCells_fault :
    ended ((visitingBoth 2).implies 0 0 (bothMade 2).2) = .error .storageFull := by
  decide +kernel

/-- Where the two propositions fill the table, it is not answered whether the first pair implies
itself: to see that no set but its own is covered by the second set takes a node. -/
theorem fourCells_unanswered :
    (visitingBoth 2).BelongsTo (bothMade 2).2 0 2 ∧ 0 < (visitingBoth 2).pairs.length ∧
      ended ((visitingBoth 2).implies 0 0 (bothMade 2).2) = .error .storageFull ∧
      ¬ ∃ w, (visitingBoth 2).implies 0 0 (bothMade 2).2 = .ok true w := by
  refine ⟨fourCells_belongs, visitingBoth_length 2 ▸ Nat.zero_lt_two, fourCells_fault, ?_⟩
  rintro ⟨w, hrun⟩
  have hfault := fourCells_fault
  rw [hrun] at hfault
  cases hfault

end Rabin

end SymbolicOmega
