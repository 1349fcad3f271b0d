import SymbolicOmega.Automaton.Query
import SymbolicOmega.Proofs.Acceptance.Language
import SymbolicOmega.Proofs.Letters.Alphabet

/-!
# Sinks and closed sets of states

A state leads to another one if some letter over the alphabet takes an edge to it.  A sink leads to
no state but itself.  That a set of states is closed is asked of its edges instead, so an edge that
no letter takes can leave a set that no letter leaves.
-/

namespace SymbolicOmega

namespace Automaton

open Workspace

variable {S : Type} [DecidableEq S] {a : Automaton S} {w : Workspace} {k : Nat}

/-- Some letter over the alphabet takes an edge from the state to `target`. -/
def StepsTo (a : Automaton S) (w : Workspace) (k : Nat) (state target : S) : Prop :=
  ∃ row, a.row? state = some row ∧ ∃ entry ∈ row, entry.1.successor = target ∧
    ∃ letter : BitSet, letter.IsOver k ∧ entry.2.contains letter w = .ok true w

/-- An edge leads from the states to another one that no letter over the alphabet takes. -/
def IdlesOut (a : Automaton S) (w : Workspace) (k : Nat) (states : List S) : Prop :=
  ∃ state ∈ states, ∃ row, a.row? state = some row ∧ ∃ entry ∈ row,
    entry.1.successor ∉ states ∧
      ∀ letter : BitSet, letter.IsOver k → entry.2.contains letter w ≠ .ok true w

/-- Where labels are told by letters, a state leads to the targets of the edges with letters. -/
theorem stepsTo_iff (h : w.OwnsByLetters a.owner k a.labels) {state target : S} :
    a.StepsTo w k state target ↔ ∃ row, a.row? state = some row ∧ ∃ entry ∈ row,
      entry.1.successor = target ∧ entry.2.isEmpty = false := by
  refine exists_congr fun row => and_congr_right fun hrow => exists_congr fun entry =>
    and_congr_right fun hentry => and_congr_right fun _ => ?_
  rw [← Bool.not_eq_true, h.isEmpty_iff (mem_labels hrow hentry)]
  push Not
  rfl

theorem isSink_iff (h : w.OwnsByLetters a.owner k a.labels) (state : S) :
    a.isSink state = true ↔ ∀ target, a.StepsTo w k state target → target = state := by
  simp only [isSink, Option.all_eq_true, List.all_eq_true, Bool.or_eq_true, decide_eq_true_eq,
    stepsTo_iff h]
  constructor
  · rintro hall target ⟨row, hrow, entry, hentry, rfl, hnonempty⟩
    exact (hall row hrow entry hentry).resolve_right (Bool.not_eq_true _ ▸ hnonempty)
  · intro hsink row hrow entry hentry
    cases hempty : entry.2.isEmpty with
    | true => exact Or.inr rfl
    | false => exact Or.inl (hsink _ ⟨row, hrow, entry, hentry, rfl, hempty⟩)

theorem isClosed_iff (h : w.OwnsByLetters a.owner k a.labels) (states : List S) :
    a.isClosed states = true ↔
      (∀ state ∈ states, ∀ target, a.StepsTo w k state target → target ∈ states) ∧
        ¬ a.IdlesOut w k states := by
  simp only [isClosed, Option.all_eq_true, List.all_eq_true, Row.targets, List.mem_map,
    List.contains_iff_mem, forall_exists_index, and_imp, stepsTo_iff h]
  constructor
  · intro hall
    refine ⟨?_, ?_⟩
    · rintro state hstate _ row hrow entry hentry rfl -
      exact hall state hstate row hrow _ entry hentry rfl
    · rintro ⟨state, hstate, row, hrow, entry, hentry, hout, -⟩
      exact hout (hall state hstate row hrow _ entry hentry rfl)
  · rintro ⟨hsteps, hidles⟩ state hstate row hrow _ entry hentry rfl
    cases hempty : entry.2.isEmpty with
    | false => exact hsteps state hstate _ row hrow entry hentry rfl hempty
    | true =>
        by_contra hout
        exact hidles ⟨state, hstate, row, hrow, entry, hentry, hout,
          (h.isEmpty_iff (mem_labels hrow hentry)).1 hempty⟩

/-- Sinks and closed sets.  A state is a sink exactly if no letter leads from it to another state.
A set of states is closed exactly if no letter leads out of it and no edge does, either, that no
letter takes; so whether a state is a sink and whether it is closed for itself is the same unless
such an edge leaves a sink.  If letters lead from the same states to the same states in another
automaton, its sinks are the same, and so are the closed sets that are alike left, or not, by edges
that no letter takes. -/
theorem isClosed_isSink_exact (h : w.OwnsByLetters a.owner k a.labels) :
    (∀ state, a.isSink state = true ↔ ∀ target, a.StepsTo w k state target → target = state) ∧
      (∀ states, a.isClosed states = true ↔
        (∀ state ∈ states, ∀ target, a.StepsTo w k state target → target ∈ states) ∧
          ¬ a.IdlesOut w k states) ∧
      (∀ state, a.isClosed [state] = a.isSink state ↔
        (a.isSink state = true → ¬ a.IdlesOut w k [state])) ∧
      ∀ (a' : Automaton S) (w' : Workspace), w'.OwnsByLetters a'.owner k a'.labels →
        (∀ state target, a'.StepsTo w' k state target ↔ a.StepsTo w k state target) →
          (∀ state, a'.isSink state = a.isSink state) ∧
            ∀ states, (a'.IdlesOut w' k states ↔ a.IdlesOut w k states) →
              a'.isClosed states = a.isClosed states := by
  refine ⟨isSink_iff h, isClosed_iff h, fun state => ?_, fun a' w' h' hsame => ⟨?_, ?_⟩⟩
  · rw [Bool.eq_iff_iff, isClosed_iff h, isSink_iff h]
    simp only [List.mem_singleton, forall_eq]
    tauto
  · intro state
    rw [Bool.eq_iff_iff, isSink_iff h', isSink_iff h]
    simp only [hsame]
  · intro states hidles
    rw [Bool.eq_iff_iff, isClosed_iff h', isClosed_iff h]
    simp only [hsame, hidles]

/-! ## An edge that no letter takes -/

/-- A factory over one proposition. -/
private def oneLetter : Workspace :=
  .ofFactories [(Factory.ofSizing 1 ⟨3, 2, 5⟩).toOption.getD default]

private def noLetters : List LetterSet.Call := [.empty]

/-- State 0 with an edge to state 1 on no letter. -/
private def idling : Automaton Nat where
  owner := 0
  space := ⟨fun _ _ => return []⟩
  initial := .resolved (some 0)
  builds := 0
  rows := [(0, [(Edge.of 1, ⟨0, Ref.zero⟩)])]
  acceptance := ⟨.marks .all, []⟩

/-- The theorem at a sink that an edge without letters leaves, so that it is not closed. -/
theorem idling_sink_not_closed :
    (LetterSet.after 0 noLetters oneLetter).OwnsByLetters idling.owner 1 idling.labels ∧
      idling.isSink 0 = true ∧ idling.isClosed [0] = false ∧
      (∀ target, idling.StepsTo (LetterSet.after 0 noLetters oneLetter) 1 0 target →
        target = 0) ∧
      idling.IdlesOut (LetterSet.after 0 noLetters oneLetter) 1 [0] := by
  have hnew : Factory.ofSizing 1 ⟨3, 2, 5⟩ =
      .ok ((Factory.ofSizing 1 ⟨3, 2, 5⟩).toOption.getD default) := rfl
  have hmem : (⟨0, Ref.zero⟩ : LetterSet) ∈ LetterSet.setsOf 0 noLetters oneLetter := by
    decide +kernel
  have hmade := LetterSet.made_of_mem hnew rfl (fun call _ => call.signed_of_lt (by decide)) hmem
  have howns : (LetterSet.after 0 noLetters oneLetter).OwnsByLetters idling.owner 1
      idling.labels := hmade.ownsByLetters (List.forall_mem_singleton.2 hmem)
  obtain ⟨hsink, -, halike, -⟩ := isClosed_isSink_exact howns
  refine ⟨howns, rfl, rfl, (hsink 0).1 rfl, ?_⟩
  by_contra hidles
  exact Bool.false_ne_true ((halike 0).2 fun _ => hidles)

end Automaton

end SymbolicOmega
