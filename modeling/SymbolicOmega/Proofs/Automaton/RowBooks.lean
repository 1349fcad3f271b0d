import SymbolicOmega.Automaton.RuleTable
import SymbolicOmega.Proofs.Letters.Bookkeeping

/-!
# Rows on the books

Making a set by a term, merging labels into a row and computing a row leave nothing behind but what
they answer; if they fail, all that was made for them is given back.
-/

namespace SymbolicOmega

open Workspace

variable {S : Type} {i : Nat}

/-- One set is left of a term, whatever sets were made for its parts. -/
theorem SetTerm.make_trades {sets : String → Option LetterSet}
    (hsets : ∀ name s, sets name = some s → s.owner = i) (t : SetTerm) :
    Trades i (t.make sets i) [] (fun s => [s]) [] := by
  have hsteps := Factory.steps_books
  induction t with
  | all => exact LetterSet.make_trades fun _ => Factory.acquires_pure _
  | empty => exact LetterSet.make_trades fun _ => Factory.acquires_pure _
  | named name =>
      rw [make, copyNamed]
      cases hname : sets name with
      | none => exact Trades.throw fun _ => Fault.noConfusion
      | some s => exact LetterSet.copy_trades (hsets name s hname)
  | proposition p =>
      exact LetterSet.make_trades fun roots =>
        (hsteps roots).proposition p fun _ _ => Fault.noConfusion
  | singleton letter => exact LetterSet.make_trades fun roots => (hsteps roots).singleton letter
  | ofLetters letters => exact LetterSet.make_trades fun roots => (hsteps roots).ofLetters letters
  | restricted letter alphabet =>
      exact LetterSet.make_trades fun roots => (hsteps roots).restricted letter alphabet
  | complement t ih =>
      refine ih.bind fun s => Trades.of_owner fun howner => ?_
      have hs : s.owner = i := howner s List.mem_cons_self
      exact Trades.tryFinally (((LetterSet.complement_trades hs).frame [s]).perm (.refl _)
        (fun _ => List.perm_append_comm) (.refl _)) (LetterSet.release_givesBack s)
  | combine operation lhs rhs ihl ihr =>
      refine ihl.bind fun s => Trades.of_owner fun howner => ?_
      have hs : s.owner = i := howner s List.mem_cons_self
      refine Trades.tryFinally ?_ (LetterSet.release_givesBack s)
      refine (ihr.frame [s]).bind fun t => ?_
      refine Trades.tryFinally ?_ (LetterSet.release_givesBack t)
      exact ((LetterSet.apply_trades operation hs t).frame [t, s]).perm (.refl _)
        (fun u => List.perm_append_comm) (.refl _)

namespace Row

variable [DecidableEq S]

/-- The row takes the label over; if its letters cannot be added, it is gone. -/
theorem merge_trades (edge : Edge S) (label : LetterSet) (row : Row S) :
    Trades i (row.merge edge label) (row.labels ++ [label]) labels row.labels := by
  induction row with
  | nil => exact Trades.pure labels [(edge, label)]
  | cons entry rest ih =>
      obtain ⟨e, own⟩ := entry
      rw [merge]
      by_cases hsame : e = edge
      · rw [if_pos hsame]
        exact (((LetterSet.absorb_trades own label).frame (labels rest)).perm
          (List.perm_append_comm.cons own) (fun _ => .refl _) (.refl _)).bind
          fun own' => Trades.pure labels ((e, own') :: rest)
      · rw [if_neg hsame]
        exact ((ih.frame [own]).perm List.perm_append_comm (fun _ => List.perm_append_comm)
          List.perm_append_comm).bind fun rest' => Trades.pure labels ((e, own) :: rest')

/-- A row is given back if what is to be merged into it fails. -/
theorem merging_trades {make : WorkM LetterSet} (hmake : Trades i make [] (fun s => [s]) [])
    (edge : Edge S) (row : Row S) :
    Trades i (onFault (do row.merge edge (← make)) row.release) row.labels labels [] := by
  refine Trades.onFault ?_ (LetterSet.releaseAll_givesBack row.labels)
  exact (hmake.frame row.labels).bind fun label =>
    (merge_trades edge label row).perm List.perm_append_comm (fun _ => .refl _) (.refl _)

end Row

namespace StateSpace

/-- Computing a row leaves the labels of the row behind, and nothing if it fails. -/
def Lawful (space : StateSpace S) : Prop :=
  ∀ i x, Trades i (space.row i x) [] Row.labels []

variable [DecidableEq S]

theorem groupLetter_trades (alphabet : BitSet) (step : BitSet → Option (Edge S)) (row : Row S)
    (letter : BitSet) :
    Trades i (groupLetter i alphabet step row letter) row.labels Row.labels [] := by
  rw [groupLetter]
  cases step letter with
  | none => exact Trades.pure Row.labels row
  | some edge =>
      exact Row.merging_trades
        (LetterSet.make_trades fun roots =>
          (Factory.steps_books roots).restricted letter alphabet) edge row

theorem groupLetters_trades (sensitive : Option BitSet) (step : BitSet → Option (Edge S)) :
    Trades i (groupLetters i sensitive step) [] Row.labels [] :=
  (Trades.of_secures [] fun _ _ => LetterSet.askFactory_secures (by simp) i).bind
    fun _ => Trades.foldlM (fun letter _ row => groupLetter_trades _ step row letter) []

theorem ofStep_lawful (sensitive : S → Option BitSet) (step : S → BitSet → Option (Edge S)) :
    (ofStep sensitive step).Lawful :=
  fun _ x => groupLetters_trades (sensitive x) (step x)

end StateSpace

section Tables
variable [DecidableEq S]

theorem StateRules.mergeEntry_trades (row : Row S) (entry : RowEntry S) :
    Trades i (mergeEntry i row entry) row.labels Row.labels [] :=
  Row.merging_trades (entry.label.make_trades (by simp)) entry.edge row

theorem StateRules.row_trades (state : StateRules S) :
    Trades i (state.row i) [] Row.labels [] := by
  have hentries : ∀ (entries : List (RowEntry S)) (row : Row S),
      Trades i (entries.foldlM (mergeEntry i) row) row.labels Row.labels [] := fun _ row =>
    Trades.foldlM (fun entry _ row => mergeEntry_trades row entry) row
  rw [StateRules.row]
  cases state.entries with
  | some entries => exact hentries entries []
  | none =>
      exact (StateSpace.groupLetters_trades state.sensitive state.step).bind
        (hentries state.extra)

theorem RuleTable.space_lawful (table : RuleTable S) : table.space.Lawful :=
  fun _ x => ((table.lookup x).getD StateRules.blank).row_trades

end Tables

end SymbolicOmega
