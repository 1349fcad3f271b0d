import Mathlib.Data.Set.Finite.Basic
import SymbolicOmega.Automaton.Basic
import SymbolicOmega.Proofs.Acceptance.Splitting
import SymbolicOmega.Proofs.Letters.Making

/-!
# The language of a generalized Rabin condition

Along a run of an automaton the marked pieces of its edges stand for the sets of
transitions it takes: at each step the mark with the number of a set is there exactly
if the set has the transition.  So the formula over the numbers says of the marks what
the pairs say of the run.
-/

namespace SymbolicOmega

open Workspace

/-- The sets are live in the factory at position `i`, over `k` propositions.  Its diagram is reduced,
as it is while cubes name propositions by numbers that fit. -/
def Workspace.Owns (w : Workspace) (i k : Nat) (sets : List LetterSet) : Prop :=
  ∃ L, w.Keeps i k L ∧ ∀ set ∈ sets, ∃ A, (set, A) ∈ L

/-- Made sets are live. -/
theorem LetterSet.Made.owns {w : Workspace} {i k : Nat} {sets labels : List LetterSet}
    (h : Made k i sets w) (hlabels : labels ⊆ sets) : w.Owns i k labels := by
  obtain ⟨L, hkeeps, hletters⟩ := h.exists_ledger
  refine ⟨L, hkeeps, fun label hlabel => ?_⟩
  obtain ⟨M, hM⟩ := hletters label (hlabels hlabel)
  exact ⟨_, hM⟩

/-- The labels of all edges. -/
def Automaton.labels {S : Type} (a : Automaton S) : List LetterSet :=
  a.rows.flatMap fun entry => entry.2.labels

theorem mem_of_lookup {α β : Type} [DecidableEq α] {list : List (α × β)} {a : α} {b : β}
    (h : list.lookup a = some b) : (a, b) ∈ list := by
  obtain ⟨before, after, hlist, -⟩ := List.lookup_eq_some_iff.1 h
  rw [hlist]
  exact List.mem_append_right _ List.mem_cons_self

theorem Automaton.mem_labels {S : Type} [DecidableEq S] {a : Automaton S} {state : S}
    {row : Row S} {entry : Edge S × LetterSet} (hrow : a.row? state = some row)
    (hentry : entry ∈ row) : entry.2 ∈ a.labels :=
  List.mem_flatMap.2 ⟨(state, row), mem_of_lookup hrow, List.mem_map_of_mem hentry⟩

namespace Rabin

variable {S : Type} {r r' : Rabin S}

/-- All sets of transitions that the pairs refer to. -/
def sets (r : Rabin S) : List (TransitionSet S) :=
  r.pairs.flatMap RabinPair.sets

/-- The labels of all sets of transitions. -/
def labels (r : Rabin S) : List LetterSet :=
  r.sets.flatMap fun set => set.labels.map Prod.snd

/-- A ticket belongs to one set of transitions. -/
def Identified (r : Rabin S) : Prop :=
  ∀ set ∈ r.sets, ∀ other ∈ r.sets, set.ticket = other.ticket → set = other

theorem eraseDupsBy_sublist {α : Type} (same : α → α → Bool) (list : List α) :
    (list.eraseDupsBy same).Sublist list := by
  match list with
  | [] => exact List.Sublist.refl []
  | x :: rest =>
      rw [List.eraseDupsBy_cons]
      exact ((eraseDupsBy_sublist same _).trans List.filter_sublist).cons_cons x
termination_by list.length
decreasing_by exact Nat.lt_succ_of_le (List.length_filter_le ..)

theorem exists_mem_eraseDupsBy {α : Type} (same : α → α → Bool)
    (hrefl : ∀ a, same a a = true) {list : List α} {a : α} (ha : a ∈ list) :
    ∃ b ∈ list.eraseDupsBy same, same a b = true := by
  match list with
  | [] => cases ha
  | x :: rest =>
      rw [List.eraseDupsBy_cons]
      cases hax : same a x with
      | true => exact ⟨x, List.mem_cons_self, hax⟩
      | false =>
          obtain rfl | ha := List.mem_cons.1 ha
          · exact absurd (hrefl a) (by simp [hax])
          · have hkept : a ∈ rest.filter fun b => same b x = false :=
              List.mem_filter.2 ⟨ha, by simpa using hax⟩
            obtain ⟨b, hb, hab⟩ := exists_mem_eraseDupsBy same hrefl hkept
            exact ⟨b, List.mem_cons_of_mem x hb, hab⟩
termination_by list.length
decreasing_by exact Nat.lt_succ_of_le (List.length_filter_le ..)

theorem mem_sets_of_mem_distinctSets {set : TransitionSet S} (h : set ∈ r.distinctSets) :
    set ∈ r.sets :=
  (eraseDupsBy_sublist _ _).subset h

/-- At the number of a set stands the set. -/
theorem getElem?_number (h : r.Identified) {set : TransitionSet S} (hset : set ∈ r.sets) :
    r.distinctSets[number r.distinctSets set]? = some set := by
  have hexists : ∃ other ∈ r.distinctSets, (set.ticket == other.ticket) = true :=
    exists_mem_eraseDupsBy (fun a b : TransitionSet S => a.ticket == b.ticket)
      (fun _ => beq_self_eq_true _) hset
  obtain ⟨other, hother, hsame⟩ := hexists
  have hlt : number r.distinctSets set < r.distinctSets.length :=
    List.findIdx_lt_length_of_exists ⟨other, hother, beq_iff_eq.2 (beq_iff_eq.1 hsame).symm⟩
  have hfound : (r.distinctSets[number r.distinctSets set]).ticket = set.ticket :=
    beq_iff_eq.1 (List.findIdx_getElem (w := hlt))
  rw [List.getElem?_eq_getElem hlt,
    h _ (mem_sets_of_mem_distinctSets (List.getElem_mem hlt)) _ hset hfound]

/-- Renumbering numbers the distinct sets. -/
theorem renumber_eq {w w' : Workspace} (hrun : r.renumber w = .ok r' w') :
    r' = { r with numbered := r.distinctSets } := by
  have houtcome : Outcome r.renumber w
      (fun r' _ => r' = { r with numbered := r.distinctSets }) (fun _ _ => True) :=
    Outcome.bind (Outcome.intro (fun _ _ _ => Outcome.bind (Outcome.intro
      (fun _ _ _ => Outcome.pure rfl) fun _ _ _ => trivial)) fun _ _ _ => trivial)
  exact houtcome.of_ok hrun

/-! ## Runs -/

/-- A run of an automaton, edge by edge, with the workspace there is at each step. -/
structure Run [DecidableEq S] (a : Automaton S) where
  workspace : ℕ → Workspace
  state : ℕ → S
  letter : ℕ → BitSet
  edge : ℕ → Edge S
  label : ℕ → LetterSet
  edge_mem : ∀ n, ∃ row, a.row? (state n) = some row ∧ (edge n, label n) ∈ row
  letter_mem : ∀ n, (label n).contains (letter n) (workspace n) = .ok true (workspace n)
  successor_eq : ∀ n, (edge n).successor = state (n + 1)

variable [DecidableEq S] {a : Automaton S}

/-- The steps at which the run takes a transition of the set. -/
def Run.takes (run : Run a) (set : TransitionSet S) : Set ℕ :=
  {n | set.contains (run.state n) (run.letter n) (run.workspace n) = .ok true (run.workspace n)}

/-- For some pair the run takes transitions of `fin` finitely often and of each of `infs`
infinitely often. -/
def Accepts (r : Rabin S) (run : Run a) : Prop :=
  ∃ pair ∈ r.pairs, (run.takes pair.fin).Finite ∧ ∀ set ∈ pair.infs, (run.takes set).Infinite

open Classical in
/-- What the marks of all steps make of an atom. -/
noncomputable def occurrence (marks : ℕ → BitSet) : AcceptanceAtom → Bool
  | .fin j => decide {n | (marks n).contains j = true}.Finite
  | .inf j => decide {n | (marks n).contains j = true}.Infinite

/-- Marks that are there exactly when a set is taken make the formula say what the pairs say. -/
theorem formula_iff_of_marks (h : r.Identified) (run : Run a) {marks : ℕ → BitSet}
    (hmarks : ∀ n j, (marks n).contains j = true ↔
      ∃ set, r.distinctSets[j]? = some set ∧ n ∈ run.takes set) :
    r.formula.evaluate (occurrence marks) = true ↔ r.Accepts run := by
  have hoccurs : ∀ set ∈ r.sets,
      {n | (marks n).contains (number r.distinctSets set) = true} = run.takes set := by
    intro set hset
    ext n
    simp [hmarks, getElem?_number h hset]
  have hpair : ∀ pair ∈ r.pairs, ∀ set ∈ pair.sets, set ∈ r.sets := fun pair hpair set hset =>
    List.mem_flatMap.2 ⟨pair, hpair, hset⟩
  simp only [formula, Formula.evaluate_disjAll, List.any_map, List.any_eq_true, Accepts]
  refine exists_congr fun pair => and_congr_right fun hmem => ?_
  have hfin : pair.fin ∈ r.sets := hpair pair hmem _ List.mem_cons_self
  have hinfs : ∀ set ∈ pair.infs, set ∈ r.sets := fun set hset =>
    hpair pair hmem _ (List.mem_cons_of_mem _ hset)
  simp only [Function.comp_apply, Formula.evaluate_conjAll, List.all_cons, List.all_map,
    Bool.and_eq_true, List.all_eq_true, Formula.evaluate, occurrence, hoccurs _ hfin,
    decide_eq_true_eq]
  refine and_congr_right fun _ => forall₂_congr fun set hset => ?_
  rw [hoccurs set (hinfs set hset)]

/-- What is live covers something, for sets of transitions with live labels. -/
theorem exists_cover {L : Ledger} {sets : List (TransitionSet S)}
    (hlive : ∀ label ∈ sets.flatMap fun set => set.labels.map Prod.snd, ∃ A, (label, A) ∈ L)
    (state : S) :
    ∃ cover : TransitionSet S → Set Assignment, ∀ set ∈ sets, set.Covers L state (cover set) := by
  have hexists : ∀ set : TransitionSet S, ∃ C, set ∈ sets → set.Covers L state C := by
    intro set
    by_cases hset : set ∈ sets
    · unfold TransitionSet.Covers
      cases hown : set.label? state with
      | some own =>
          have hlabel : own ∈ sets.flatMap fun set => set.labels.map Prod.snd :=
            List.mem_flatMap.2 ⟨set, hset, List.mem_map_of_mem (mem_of_lookup hown)⟩
          exact (hlive own hlabel).imp fun A hA _ => hA
      | none => exact ⟨∅, fun _ => rfl⟩
    · exact ⟨∅, fun h => absurd h hset⟩
  choose cover hcover using hexists
  exact ⟨cover, hcover⟩

variable {i k : Nat}

/-- At each step the label of the run and the sets of the pairs are on the books. -/
theorem exists_books (run : Run a) (n : ℕ)
    (hlive : (run.workspace n).Owns i k (a.labels ++ r.labels)) :
    ∃ (L : Ledger) (A : Set Assignment) (cover : TransitionSet S → Set Assignment),
      (run.workspace n).Keeps i k L ∧ (run.label n, A) ∈ L ∧
        ∀ set ∈ r.sets, set.Covers L (run.state n) (cover set) := by
  obtain ⟨L, hkeeps, hlisted⟩ := hlive
  obtain ⟨cover, hcover⟩ := exists_cover
    (fun label hlabel => hlisted label (List.mem_append_right _ hlabel)) (run.state n)
  obtain ⟨row, hrow, hedge⟩ := run.edge_mem n
  obtain ⟨A, hA⟩ := hlisted _ (List.mem_append_left _ (Automaton.mem_labels hrow hedge))
  exact ⟨L, A, cover, hkeeps, hA, hcover⟩

/-- At each step the edge is split, or there is no cell for a node that this takes. -/
theorem split_ends (run : Run a) (n : ℕ)
    (hlive : (run.workspace n).Owns i k (a.labels ++ r.labels))
    (hnumbered : r'.numbered = r.distinctSets) (hhistory : (run.workspace n).HasHistory) :
    Outcome (r'.split (run.state n) (run.label n)) (run.workspace n) (fun _ _ => True)
      (NoCell i) := by
  obtain ⟨L, A, cover, hkeeps, hA, hcover⟩ := exists_books run n hlive
  exact (split_outcome LetterSet.books_serves ⟨hkeeps, hhistory⟩ hA fun set hset =>
    hcover set (mem_sets_of_mem_distinctSets (hnumbered ▸ hset))).mono
      (fun _ _ _ => trivial) fun _ _ hlacks => hlacks.noCell

/-- At each step the marks are the numbers of the sets that the run takes there. -/
theorem exists_marks (run : Run a) (n : ℕ) {marked : List (LetterSet × BitSet)} {after : Workspace}
    (hlive : (run.workspace n).Owns i k (a.labels ++ r.labels))
    (hnumbered : r'.numbered = r.distinctSets)
    (hsplit : r'.split (run.state n) (run.label n) (run.workspace n) = .ok marked after) :
    ∃ marks, MarksLetter marked (run.letter n) after marks ∧ ∀ j, marks.contains j = true ↔
      ∃ set, r.distinctSets[j]? = some set ∧ n ∈ run.takes set := by
  obtain ⟨L, A, cover, hkeeps, hA, hcover⟩ := exists_books run n hlive
  have hletter : (run.letter n).assignment ∈ A :=
    (LetterSet.contains_iff hkeeps hA (run.letter n)).1 (run.letter_mem n)
  obtain ⟨marks, hmarks, hnumbers⟩ := split_marksLetter hkeeps hA
    (fun set hset => hcover set (mem_sets_of_mem_distinctSets (hnumbered ▸ hset))) hsplit hletter
  refine ⟨marks, hmarks, fun j => (hnumbers j).trans ?_⟩
  rw [hnumbered]
  refine exists_congr fun set => and_congr_right fun hset => ?_
  have hset : set ∈ r.sets := mem_sets_of_mem_distinctSets (List.mem_of_getElem? hset)
  exact (TransitionSet.contains_iff hkeeps (hcover set hset) (run.letter n)).symm

/-- The formula after renumbering accepts what the pairs accept.  Along every run each edge is
split, unless there is no cell for a node that this takes.  Where all are split, each has one piece
with the letter, and with the marks of these pieces the formula is true exactly if some pair is
satisfied. -/
theorem formula_iff_accepts {w₀ w₁ : Workspace} (hrenumber : r.renumber w₀ = .ok r' w₁)
    (hidentified : r.Identified) (run : Run a)
    (hlive : ∀ n, (run.workspace n).Owns i k (a.labels ++ r.labels)) :
    (∀ n, (run.workspace n).HasHistory →
      Outcome (r'.split (run.state n) (run.label n)) (run.workspace n) (fun _ _ => True)
        (NoCell i)) ∧
    ∀ (marked : ℕ → List (LetterSet × BitSet)) (after : ℕ → Workspace),
      (∀ n, r'.split (run.state n) (run.label n) (run.workspace n) =
        .ok (marked n) (after n)) →
      ∃ marks : ℕ → BitSet,
        (∀ n, MarksLetter (marked n) (run.letter n) (after n) (marks n)) ∧
          (r'.formula.evaluate (occurrence marks) = true ↔ r.Accepts run) := by
  obtain rfl := renumber_eq hrenumber
  refine ⟨fun n => split_ends run n (hlive n) rfl, fun marked after hsplit => ?_⟩
  choose marks hmarks hnumbers using fun n => exists_marks run n (hlive n) rfl (hsplit n)
  exact ⟨marks, hmarks, formula_iff_of_marks hidentified run hnumbers⟩

/-! ## A loop that is cut in two -/

/-- All letters over one proposition, and those in which it holds. -/
private def makeLabels : WorkM (LetterSet × LetterSet) := do
  let every ← LetterSet.all 0
  let half ← LetterSet.proposition 0 0
  return (every, half)

private def fresh : Workspace :=
  .ofFactories [(Factory.ofSizing 1 ⟨3, 2, 5⟩).toOption.getD default]

private def labelled : Workspace :=
  match makeLabels fresh with
  | .ok _ w => w
  | .error _ w => w

private def every : LetterSet := ⟨0, Ref.one⟩

private def half : LetterSet := ⟨0, ⟨2, false⟩⟩

/-- The set without transitions and the set of the loop on half of the letters, as a pair. -/
private def onHalf : Rabin Nat :=
  .ofPairs [⟨⟨0, 0, []⟩, [⟨1, 0, [(0, half)]⟩]⟩]

private def numberedHalf : Rabin Nat :=
  { onHalf with numbered := onHalf.distinctSets }

private def shared : Workspace :=
  ⟨labelled.factories, 1 :: 0 :: labelled.holders, labelled.nextTicket⟩

/-- One state with a loop on every letter. -/
private def loop : Automaton Nat where
  owner := 0
  space := ⟨fun _ _ => return []⟩
  initial := .resolved (some 0)
  builds := 0
  rows := [(0, [(Edge.of 0, every)])]
  acceptance := ⟨.rabin onHalf, []⟩

/-- The run on the letter in which the proposition holds. -/
private def loopRun : Run loop where
  workspace _ := shared
  state _ := 0
  letter _ := ⟨1⟩
  edge _ := Edge.of 0
  label _ := every
  edge_mem _ := ⟨_, rfl, List.mem_singleton_self _⟩
  letter_mem _ := rfl
  successor_eq _ := rfl

private theorem shared_keeps :
    ∃ A, shared.Keeps 0 1 [(half, A), (every, Set.univ)] := by
  have hnew : Factory.ofSizing 1 ⟨3, 2, 5⟩ =
      .ok ((Factory.ofSizing 1 ⟨3, 2, 5⟩).toOption.getD default) := rfl
  have hstart : fresh.Keeps 0 1 [] := ⟨by simp, _, rfl, Factory.ofSizing_holds hnew⟩
  obtain ⟨all, w₁, hall, hw₁⟩ := LetterSet.all_keeps hstart
  have houtcome : Outcome makeLabels fresh
      (fun labels w => ∃ A, w.Keeps 0 1 [(labels.2, A), (labels.1, Set.univ)]) fun _ _ => True :=
    Outcome.bind_ok hall (Outcome.bind (Outcome.mono (LetterSet.proposition_keeps hw₁ 0)
      (fun _ _ hw₂ => Outcome.pure ⟨_, hw₂⟩) fun _ _ _ => trivial))
  have hrun : makeLabels fresh = .ok (every, half) labelled := rfl
  obtain ⟨A, hlabelled⟩ := houtcome.of_ok hrun
  exact ⟨A, hlabelled.owner, hlabelled.holds⟩

private def succeeds {β : Type} : EStateM.Result Fault Workspace β → Bool
  | .ok _ _ => true
  | .error _ _ => false

private theorem split_run :
    ∃ marked after, numberedHalf.split 0 every shared = .ok marked after := by
  have hsucceeds : succeeds (numberedHalf.split 0 every shared) = true := by decide +kernel
  cases hrun : numberedHalf.split 0 every shared with
  | ok marked after => exact ⟨marked, after, rfl⟩
  | error fault after =>
      rw [hrun] at hsucceeds
      cases hsucceeds

/-- The theorem at a loop that is cut in two, and a run that stays in one of the halves. -/
theorem loopRun_accepted :
    onHalf.renumber labelled = .ok numberedHalf shared ∧ onHalf.Identified ∧
      (∀ n, (loopRun.workspace n).Owns 0 1 (loop.labels ++ onHalf.labels)) ∧
      ∃ marked after, (∀ n, numberedHalf.split (loopRun.state n) (loopRun.label n)
          (loopRun.workspace n) = .ok marked after) ∧
        ∃ marks : ℕ → BitSet, (∀ n, MarksLetter marked (loopRun.letter n) after (marks n)) ∧
          numberedHalf.formula.evaluate (occurrence marks) = true := by
  have hrenumber : onHalf.renumber labelled = .ok numberedHalf shared := rfl
  have hidentified : onHalf.Identified := by
    simp [Identified, sets, onHalf, ofPairs, RabinPair.sets]
  have hlive : ∀ n, (loopRun.workspace n).Owns 0 1 (loop.labels ++ onHalf.labels) := by
    obtain ⟨A, hshared⟩ := shared_keeps
    have hlabels : loop.labels ++ onHalf.labels = [every, half] := rfl
    refine fun n => ⟨_, hshared, ?_⟩
    rw [hlabels]
    exact List.forall_mem_cons.2 ⟨⟨Set.univ, List.mem_cons_of_mem _ List.mem_cons_self⟩,
      List.forall_mem_cons.2 ⟨⟨A, List.mem_cons_self⟩, by simp⟩⟩
  obtain ⟨marked, after, hsplit⟩ := split_run
  refine ⟨hrenumber, hidentified, hlive, marked, after, fun _ => hsplit, ?_⟩
  obtain ⟨marks, hmarks, hformula⟩ :=
    (formula_iff_accepts hrenumber hidentified loopRun hlive).2 _ _ fun _ => hsplit
  refine ⟨marks, hmarks, hformula.2 ⟨_, List.mem_singleton_self _, ?_, ?_⟩⟩
  · have hnever : loopRun.takes ⟨0, 0, []⟩ = ∅ :=
      Set.eq_empty_of_forall_notMem fun n hn => by cases hn
    rw [hnever]
    exact Set.finite_empty
  · refine List.forall_mem_singleton.2 ?_
    have hcontains : (⟨1, 0, [(0, half)]⟩ : TransitionSet Nat).contains 0 ⟨1⟩ shared =
        .ok true shared := rfl
    have halways : loopRun.takes ⟨1, 0, [(0, half)]⟩ = Set.univ :=
      Set.eq_univ_of_forall fun _ => hcontains
    rw [halways]
    exact Set.infinite_univ

open LetterSet (fullTable withFirst withSecond)

/-- The set without transitions and the loop on the letters with the second proposition, as a
pair. -/
private def onSecond : Rabin Nat :=
  .ofPairs [⟨⟨0, 0, []⟩, [⟨1, 0, [(0, withSecond)]⟩]⟩]

private def numberedSecond : Rabin Nat :=
  { onSecond with numbered := onSecond.distinctSets }

private def crowded : Workspace :=
  ⟨fullTable.factories, [1, 0], 2⟩

/-- One state with a loop on the letters with the first proposition. -/
private def firstLoop : Automaton Nat :=
  { loop with rows := [(0, [(Edge.of 0, withFirst)])], acceptance := ⟨.rabin onSecond, []⟩ }

/-- The run on the letter with both propositions. -/
private def bothRun : Run firstLoop where
  workspace _ := crowded
  state _ := 0
  letter _ := ⟨3⟩
  edge _ := Edge.of 0
  label _ := withFirst
  edge_mem _ := ⟨_, rfl, List.mem_singleton_self _⟩
  letter_mem _ := LetterSet.contains_of_verdict (by decide +kernel)
  successor_eq _ := rfl

/-- The run takes the loop in the second set at every step, so the pair is satisfied.  To cut the
label of the loop takes a node that there is no cell for: no step has marks, and the formula says
nothing of the run. -/
theorem bothRun_unmarked :
    (∃ w, onSecond.renumber crowded = .ok numberedSecond w) ∧ onSecond.Identified ∧
      (∀ n, (bothRun.workspace n).Owns 0 2 (firstLoop.labels ++ onSecond.labels)) ∧
      onSecond.Accepts bothRun ∧
      (∀ n, verdict (numberedSecond.split (bothRun.state n) (bothRun.label n))
        (bothRun.workspace n) = .error .storageFull) ∧
      ¬ ∃ (marked : ℕ → List (LetterSet × BitSet)) (after : ℕ → Workspace) (marks : ℕ → BitSet),
        (∀ n, numberedSecond.split (bothRun.state n) (bothRun.label n) (bothRun.workspace n) =
          .ok (marked n) (after n)) ∧
        (∀ n, MarksLetter (marked n) (bothRun.letter n) (after n) (marks n)) ∧
          (numberedSecond.formula.evaluate (occurrence marks) = true ↔
            onSecond.Accepts bothRun) := by
  have hfault : verdict (numberedSecond.split 0 withFirst) crowded = .error .storageFull := by
    decide +kernel
  refine ⟨⟨_, rfl⟩, ?_, fun _ => ?_, ⟨_, List.mem_singleton_self _, ?_, ?_⟩, fun _ => hfault, ?_⟩
  · simp [Identified, sets, onSecond, ofPairs, RabinPair.sets]
  · have hmade : LetterSet.Made 2 0 [withSecond, withFirst] crowded :=
      .elsewhere LetterSet.fullTable_made rfl
    exact hmade.owns (by decide)
  · have hnever : bothRun.takes ⟨0, 0, []⟩ = ∅ :=
      Set.eq_empty_of_forall_notMem fun n hn => by cases hn
    rw [hnever]
    exact Set.finite_empty
  · refine List.forall_mem_singleton.2 ?_
    have hcontains : (⟨1, 0, [(0, withSecond)]⟩ : TransitionSet Nat).contains 0 ⟨3⟩ crowded =
        .ok true crowded :=
      LetterSet.contains_of_verdict (s := withSecond) (by decide +kernel)
    have halways : bothRun.takes ⟨1, 0, [(0, withSecond)]⟩ = Set.univ :=
      Set.eq_univ_of_forall fun _ => hcontains
    rw [halways]
    exact Set.infinite_univ
  · rintro ⟨marked, after, marks, hsplit, -⟩
    rw [verdict, show numberedSecond.split 0 withFirst crowded = _ from hsplit 0] at hfault
    cases hfault

end Rabin

end SymbolicOmega
