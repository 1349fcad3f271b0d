import SymbolicOmega.Hoa.Output
import SymbolicOmega.Proofs.Automaton.SceneBooks

/-!
# Documents on the books

Writing a document numbers the acceptance sets anew.  Beyond that nothing stays behind: the pieces
of each label are given back when their lines are written, also when writing fails.
-/

namespace SymbolicOmega

namespace Hoa.Document

open Workspace

variable {S : Type} [DecidableEq S] {i : Nat} {a : Automaton S}

theorem pieceItems_secures (shown : Nat → LabelAtom) (target : S) (numbered : List S)
    (pieces : List (LetterSet × BitSet)) {tickets : List Nat × Nat} {rest : List LetterSet} :
    Secures (fun w : Workspace => w.Books i tickets rest) Fault.Orderly
      (pieceItems shown target numbered pieces) := by
  induction pieces generalizing numbered with
  | nil => exact Secures.pure ([], numbered)
  | cons entry pieces ih =>
      obtain ⟨piece, marks⟩ := entry
      rw [pieceItems]
      refine Secures.ite (ih numbered) ?_
      refine (LetterSet.formulaWith_secures piece shown).bind fun label => ?_
      exact (ih _).bind fun items => Secures.pure _

variable [ToString S]
variable (hhandles : ∀ set ∈ a.acceptance.references, ∀ s ∈ set.handles, s.owner = i)
include hhandles

theorem rowItems_trades (shown : Nat → LabelAtom) (state : S) (numbered : List S) {row : Row S}
    (hrow : ∀ s ∈ row.labels, s.owner = i) :
    Trades i (rowItems a shown state numbered row) [] (fun _ => []) [] := by
  induction row generalizing numbered with
  | nil => exact Trades.pure (fun _ => []) ([], numbered)
  | cons entry row ih =>
      obtain ⟨edge, label⟩ := entry
      obtain ⟨hlabel, hrest⟩ := List.forall_mem_cons.1 hrow
      rw [rowItems]
      refine (Acceptance.split_trades hhandles state edge hlabel).bind fun pieces => ?_
      have hpieces : Trades i (pieceItems shown edge.successor numbered pieces)
          (pieces.map Prod.fst) (fun _ => pieces.map Prod.fst ++ []) (pieces.map Prod.fst ++ []) := by
        rw [List.append_nil]
        exact Trades.of_secures _ fun _ _ => pieceItems_secures shown edge.successor numbered pieces
      refine (Trades.tryFinally hpieces (LetterSet.releaseAll_givesBack _)).bind ?_
      rintro ⟨items, numbered⟩
      refine (ih numbered hrest).bind ?_
      rintro ⟨later, numbered⟩
      exact Trades.pure (fun _ => []) (_, numbered)

theorem blocks_trades (shown : Nat → LabelAtom) (numbered : List S) {rows : List (S × Row S)}
    (hrows : ∀ entry ∈ rows, ∀ s ∈ entry.2.labels, s.owner = i) :
    Trades i (blocks a shown numbered rows) [] (fun _ => []) [] := by
  induction rows generalizing numbered with
  | nil => exact Trades.pure (fun _ => []) []
  | cons entry rows ih =>
      obtain ⟨state, row⟩ := entry
      obtain ⟨hrow, hrest⟩ := List.forall_mem_cons.1 hrows
      rw [blocks]
      refine (rowItems_trades hhandles shown state _ hrow).bind ?_
      rintro ⟨items, numbered⟩
      exact (ih numbered hrest).bind fun later => Trades.pure (fun _ => []) _

omit hhandles

/-- A document changes the numbers of the acceptance sets and nothing else. -/
theorem ofAutomaton_secures (style : Style) {sets : List LetterSet}
    {references : List (TransitionSet S)} :
    Secures (Scene.Balanced i sets references) Fault.Orderly (ofAutomaton style) := by
  intro s hs
  apply Outcome.bind_ok (Automaton.current_run s)
  have hsize := hs.held.ask (x := askFactory s.automaton.owner fun f => .ok f.alphabetSize)
    fun _ _ => LetterSet.askFactory_secures (by simp) s.automaton.owner
  refine Outcome.bind (Automaton.inWorkspace_outcome (hsize.mono (fun size w hw => ?_)
    fun fault w hend => ⟨hend.1, hs.lawful, hs.owner_eq, hend.2⟩))
  cases if s.automaton.rows.isEmpty then none else s.automaton.initial.state? with
  | none => exact Outcome.pure ⟨hs.lawful, hs.owner_eq, hw⟩
  | some initial =>
      obtain ⟨w₁, hrenumber, h₁⟩ := Acceptance.renumber_balanced hw
      refine Outcome.bind (Automaton.inWorkspace_outcome (Outcome.of_run hrenumber ?_))
      refine Outcome.bind_ok rfl (Outcome.bind (Automaton.inWorkspace_outcome ?_))
      have hrows : ∀ entry ∈ s.automaton.rows, ∀ label ∈ entry.2.labels, label.owner = i :=
        fun entry hentry label hlabel => h₁.owner label (List.mem_append_left sets
          (List.mem_flatMap.2 ⟨entry, hentry, hlabel⟩))
      let renumbered : Automaton S :=
        { s.automaton with acceptance := s.automaton.acceptance.numberedAnew }
      have hhandles : ∀ set ∈ renumbered.acceptance.references, ∀ s ∈ set.handles, s.owner = i :=
        fun set hset => h₁.handles_owner (List.mem_append_left references hset)
      have hblocks := blocks_trades hhandles (atom style.aliases) (numberOf [] initial).2 hrows
      exact (h₁.gain hblocks).mono
        (fun blocks w' hw' => Outcome.pure ⟨hs.lawful, hs.owner_eq, hw'⟩)
        fun fault w' hend => ⟨hend.1, hs.lawful, hs.owner_eq, hend.2⟩

end Hoa.Document

end SymbolicOmega
