import SymbolicOmega.Proofs.Automaton.Determinism
import SymbolicOmega.Proofs.Automaton.Grouping

/-!
# Rows that partition the alphabet

A row that is found letter by letter agrees with what the state does: its labels share no letter,
and the edge whose label has a letter is the one that the state takes on that part of the letter
that it looks at.  Making the row takes cells for nodes; where there is none for one, nothing of
the row is left behind.
-/

namespace SymbolicOmega

open Workspace

/-- A list without repetitions has an element once or not at all. -/
theorem filter_eq_toList {α : Type} [DecidableEq α] {list : List α} (h : list.Nodup)
    {found : Option α} (hfound : ∀ a, found = some a → a ∈ list) :
    (list.filter fun a => found = some a) = found.toList := by
  cases found with
  | none => simp
  | some a =>
      have hsame : (list.filter fun b => some a = some b) = list.filter (· == a) :=
        List.filter_congr fun b _ => by
          rw [Bool.eq_iff_iff, decide_eq_true_iff, beq_iff_eq, Option.some.injEq, eq_comm]
      rw [hsame, List.filter_beq, List.count_eq_one_of_mem h (hfound a rfl)]
      rfl

namespace Row

variable {S : Type} {row : Row S} {w : Workspace} {k : Nat} {step : BitSet → Option (Edge S)}

/-- The row has each of its edges once, with labels that are not empty and share no letter.  The
edge that a letter takes is the one that `step` answers, if it answers one, and so the labels
cover the alphabet exactly if `step` always does. -/
structure Partitions (row : Row S) (w : Workspace) (k : Nat) (step : BitSet → Option (Edge S)) :
    Prop where
  distinct : (row.map Prod.fst).Nodup
  nonempty : ∀ label ∈ row.labels, label.isEmpty = false ∧
    ∃ letter : BitSet, letter.IsOver k ∧ label.contains letter w = .ok true w
  disjoint : row.labels.Pairwise fun s t => ∀ letter : BitSet,
    s.contains letter w = .ok true w → t.contains letter w ≠ .ok true w
  taken : ∀ letter, (row.taken letter w).map Prod.fst = (step letter).toList
  covers : (∀ letter : BitSet, letter.IsOver k →
      ∃ label ∈ row.labels, label.contains letter w = .ok true w) ↔
    ∀ letter : BitSet, letter.IsOver k → step letter ≠ none

/-- Labels that answer as `step` does partition the alphabet. -/
theorem partitions_of_answers [DecidableEq S] (hdistinct : (row.map Prod.fst).Nodup)
    (hlisted : ∀ letter edge, step letter = some edge → edge ∈ row.map Prod.fst)
    (hanswers : ∀ entry ∈ row, ∀ letter, ∃ b, entry.2.contains letter w = .ok b w ∧
      (b = true ↔ step letter = some entry.1))
    (hnonempty : ∀ entry ∈ row, entry.2.isEmpty = false ∧
      ∃ letter : BitSet, letter.IsOver k ∧ step letter = some entry.1) :
    row.Partitions w k step := by
  have hcontains : ∀ entry ∈ row, ∀ letter,
      entry.2.contains letter w = .ok true w ↔ step letter = some entry.1 := by
    intro entry hentry letter
    obtain ⟨b, hrun, hb⟩ := hanswers entry hentry letter
    rw [hrun, ← hb, EStateM.Result.ok.injEq, and_iff_left rfl]
  have htaken : ∀ letter, row.taken letter w = row.filter fun entry => step letter = some entry.1 := by
    intro letter
    refine List.filter_congr fun entry hentry => ?_
    obtain ⟨b, hrun, hb⟩ := hanswers entry hentry letter
    rw [hrun, Bool.eq_iff_iff, decide_eq_true_iff, ← hb]
    cases b <;> simp
  constructor
  · exact hdistinct
  · refine List.forall_mem_map.2 fun entry hentry => ⟨(hnonempty entry hentry).1, ?_⟩
    obtain ⟨letter, hletter, hstep⟩ := (hnonempty entry hentry).2
    exact ⟨letter, hletter, (hcontains entry hentry letter).2 hstep⟩
  · rw [labels, List.pairwise_map]
    rw [List.Nodup, List.pairwise_map] at hdistinct
    refine hdistinct.imp_of_mem fun {e e'} he he' hne letter hin hin' => hne ?_
    have hsame := ((hcontains e he letter).1 hin).symm.trans ((hcontains e' he' letter).1 hin')
    exact Option.some.inj hsame
  · intro letter
    rw [htaken, ← filter_eq_toList hdistinct (hlisted letter), List.filter_map]
    rfl
  · refine forall₂_congr fun letter _ => ?_
    rw [← Option.isSome_iff_ne_none, Option.isSome_iff_exists]
    constructor
    · rintro ⟨label, hlabel, hin⟩
      obtain ⟨entry, hentry, rfl⟩ := List.mem_map.1 hlabel
      exact ⟨_, (hcontains entry hentry letter).1 hin⟩
    · rintro ⟨edge, hstep⟩
      obtain ⟨entry, hentry, rfl⟩ := List.mem_map.1 (hlisted letter edge hstep)
      exact ⟨_, List.mem_map_of_mem hentry, (hcontains entry hentry letter).2 hstep⟩

end Row

/-! ## Rows in a ledger -/

/-- The books of rows whose labels are in the ledger, while numbers fit. -/
def Ledger.books (i k : Nat) {alphabet : BitSet}
    (hfit : ∀ p, alphabet.contains p = true → p < k → p + 1 < 2 ^ 31) :
    LabelBooks i k alphabet (LetterSet × Set Assignment) where
  set := Prod.fst
  assignments := Prod.snd
  kept L w := w.Serves i k L
  left L := Lacks i k L
  size h := by
    obtain ⟨f, hf, hholds⟩ := h.keeps.holds
    rw [← hholds.alphabet]
    exact askFactory_run hf rfl
  perm h hperm := h.perm hperm
  left_perm h hperm := h.perm hperm
  restricted letter h := (LetterSet.restricted_serves h letter alphabet hfit).imp
    fun s _ hw' => ⟨(s, _), rfl, rfl, hw'⟩
  absorb h := (LetterSet.absorb_serves h).imp fun s _ hw' => ⟨(s, _), rfl, rfl, hw'⟩
  releaseAll h := LetterSet.releaseAll_lacks h

namespace StateSpace

variable {S : Type} [DecidableEq S] {w : Workspace} {owner k : Nat} {L : Ledger}

/-- The labels of a row in the ledger that is grouped by a step partition the alphabet. -/
theorem partitions_of_stepMeaning {sensitive : Option BitSet} {step : BitSet → Option (Edge S)}
    {E : List (Edge S × LetterSet × Set Assignment)}
    (hfit : ∀ p, (inspected k sensitive).contains p = true → p + 1 < 2 ^ 32)
    (hmeaning : E.map (fun entry => (entry.1, entry.2.2)) = stepMeaning k sensitive step)
    (h : w.Keeps owner k (E.map Prod.snd ++ L)) :
    Row.Partitions (E.map fun entry => (entry.1, entry.2.1)) w k
      fun letter => step (letter.filter (inspected k sensitive).contains) := by
  have hedges : E.map Prod.fst = ((triedLetters k sensitive).filterMap step).eraseDups := by
    have hfirst := congrArg (List.map Prod.fst) hmeaning
    rw [List.map_map] at hfirst
    refine hfirst.trans ?_
    rw [stepMeaning, RowMeaning.grouped, List.map_map]
    exact List.map_id _
  have hmem : ∀ entry ∈ E, (entry.1, entry.2.2) ∈ stepMeaning k sensitive step :=
    fun entry hentry => hmeaning ▸ List.mem_map_of_mem
      (f := fun entry : Edge S × LetterSet × Set Assignment => (entry.1, entry.2.2)) hentry
  have hlisted : ∀ entry ∈ E, entry.2 ∈ E.map Prod.snd ++ L := fun entry hentry =>
    List.mem_append_left L (List.mem_map_of_mem hentry)
  have hfirsts : (E.map fun entry => (entry.1, entry.2.1)).map Prod.fst = E.map Prod.fst := by
    rw [List.map_map]
    rfl
  apply Row.partitions_of_answers
  · rw [hfirsts, hedges]
    exact nodup_eraseDups _
  · intro letter edge hstep
    rw [hfirsts, hedges, List.mem_eraseDups]
    refine List.mem_filterMap.2 ⟨_, Subsets.mem_toList.2 fun p hp => ?_, hstep⟩
    rw [contains_part, Bool.and_eq_true] at hp
    exact hp.2
  · refine List.forall_mem_map.2 fun entry hentry letter => ?_
    obtain ⟨b, hrun, hb⟩ := LetterSet.contains_run h (hlisted entry hentry) letter
    refine ⟨b, hrun, hb.trans ?_⟩
    rw [(mem_stepMeaning.1 (hmem entry hentry)).2, mem_takers_iff hfit]
  · refine List.forall_mem_map.2 fun entry hentry => ?_
    obtain ⟨letter, hletter, hin, hstep⟩ :=
      exists_tried_of_mem_stepMeaning hfit (hmem entry hentry)
    constructor
    · rw [Bool.eq_false_iff, ne_eq, LetterSet.isEmpty_iff h (hlisted entry hentry)]
      exact (Set.nonempty_of_mem hin).ne_empty
    · exact ⟨letter, fun p hp => lt_of_inspected (Subsets.mem_toList.1 hletter p hp), hstep⟩

/-- Grouping agrees with the step.  In every state of a factory that some history left, and for
every alphabet that a state looks at, the row that is found letter by letter partitions the
letters as the step does on their parts in that alphabet.  The sets that were there keep their
letters, and as many more are live as the row has labels.  There is no row only where there is no
cell for a node, and then no set is left of it.  The numbers of the propositions that are looked at
have to fit a signed number of 32 bits. -/
theorem groupLetters_partitions {sets : List LetterSet} (h : LetterSet.Made k owner sets w)
    (hhistory : w.HasHistory) (sensitive : Option BitSet) (step : BitSet → Option (Edge S))
    (hfit : ∀ p, (inspected k sensitive).contains p = true → p + 1 < 2 ^ 31) :
    Outcome (groupLetters owner sensitive step) w
      (fun row w' => row.Partitions w' k
          (fun letter => step (letter.filter (inspected k sensitive).contains)) ∧
        w.SameLetters w' sets ∧
        w'.factories[owner]?.map Factory.live =
          (w.factories[owner]?.map Factory.live).map (row.length + ·))
      (fun fault w' => NoCell owner fault w' ∧ w.SameLetters w' sets ∧
        w'.factories[owner]?.map Factory.live = w.factories[owner]?.map Factory.live) := by
  obtain ⟨L, hkeeps, hletters⟩ := h.exists_ledger
  choose! part hpart using hletters
  have hserves : w.Serves owner k L := ⟨hkeeps, hhistory⟩
  refine ((Ledger.books owner k fun p hp _ => hfit p hp).groupLetters_outcome hserves step).mono
    ?_ ?_
  · rintro _ w' ⟨E, rfl, hmeaning, hw'⟩
    refine ⟨partitions_of_stepMeaning (fun p hp => ?_) hmeaning hw'.keeps,
      fun s hs => hkeeps.contains_congr hw'.keeps (hpart s hs)
        (List.mem_append_right _ (hpart s hs)), ?_⟩
    · have hsmall := hfit p hp
      omega
    · rw [hw'.keeps.live, hkeeps.live, Option.map_some, List.length_append, List.length_map,
        LabelBooks.row, List.length_map]
  · rintro fault w' ⟨hw', hcell⟩
    exact ⟨hcell, fun s hs => hkeeps.contains_congr hw'.keeps (hpart s hs) (hpart s hs),
      hw'.keeps.live.trans hkeeps.live.symm⟩

/-! ## A row that needs one node -/

/-- A factory over one proposition, with a table of `2 ^ storageBits` cells that is never
collected. -/
private def tableFor (storageBits : Nat) : Workspace :=
  .ofFactories [(Factory.ofSizing 1 ⟨storageBits, 2, 2 ^ storageBits⟩).toOption.getD default]

private theorem tableFor_made (storageBits : Nat) {f : Factory}
    (hnew : Factory.ofSizing 1 ⟨storageBits, 2, 2 ^ storageBits⟩ = .ok f) :
    LetterSet.Made 1 0 [] (tableFor storageBits) ∧ (tableFor storageBits).HasHistory := by
  have htable : tableFor storageBits = .ofFactories [f] := by
    simp [tableFor, hnew, Except.toOption]
  rw [htable]
  exact ⟨.new hnew rfl, ofFactories_hasHistory hnew⟩

/-- To state 1 with the first proposition, and nowhere without it. -/
private def advance (letter : BitSet) : Option (Edge Nat) :=
  if letter.contains 0 then some (Edge.of 1) else none

/-- To state 1 with the first proposition, and to state 2 without it. -/
private def branch (letter : BitSet) : Option (Edge Nat) :=
  some (if letter.contains 0 then Edge.of 1 else Edge.of 2)

/-- The theorem at a state that looks at the proposition and at one that the alphabet does not
have. -/
theorem advance_partitioned :
    LetterSet.Made 1 0 [] (tableFor 2) ∧ (tableFor 2).HasHistory ∧
      (∀ p, (inspected 1 (some ⟨33⟩)).contains p = true → p + 1 < 2 ^ 31) ∧
      ∃ row w, groupLetters 0 (some ⟨33⟩) advance (tableFor 2) = .ok row w ∧
        (row.taken ⟨1⟩ w).map Prod.fst = [Edge.of 1] ∧ (row.taken ⟨0⟩ w).map Prod.fst = [] ∧
        w.factories[0]?.map Factory.live = some 1 := by
  obtain ⟨hmade, hhistory⟩ := tableFor_made 2 rfl
  have hfit : ∀ p, (inspected 1 (some ⟨33⟩)).contains p = true → p + 1 < 2 ^ 31 := fun p hp => by
    have hlt := lt_of_inspected hp
    omega
  have hverdict : verdict (groupLetters 0 (some ⟨33⟩) advance) (tableFor 2) =
      .ok [(Edge.of 1, ⟨0, ⟨2, false⟩⟩)] := by decide +kernel
  obtain ⟨w, hrun⟩ := run_of_verdict hverdict
  obtain ⟨hpartitions, -, hlive⟩ :=
    (groupLetters_partitions hmade hhistory (some ⟨33⟩) advance hfit).of_ok hrun
  exact ⟨hmade, hhistory, hfit, _, w, hrun, hpartitions.taken ⟨1⟩, hpartitions.taken ⟨0⟩, hlive⟩

/-- Where the terminal fills the table, a state has no row that looks at the proposition, although
it has an edge on every letter. -/
theorem branch_unanswered :
    LetterSet.Made 1 0 [] (tableFor 1) ∧ (tableFor 1).HasHistory ∧
      (∀ letter, branch letter ≠ none) ∧
      verdict (groupLetters 0 none branch) (tableFor 1) = .error .storageFull ∧
      ¬ ∃ row w, groupLetters 0 none branch (tableFor 1) = .ok row w := by
  obtain ⟨hmade, hhistory⟩ := tableFor_made 1 rfl
  have hfault : verdict (groupLetters 0 none branch) (tableFor 1) = .error .storageFull := by
    decide +kernel
  refine ⟨hmade, hhistory, fun letter => Option.some_ne_none _, hfault, ?_⟩
  rintro ⟨row, w, hrun⟩
  rw [verdict, hrun] at hfault
  cases hfault

end StateSpace

end SymbolicOmega
