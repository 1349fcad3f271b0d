import SymbolicOmega.Proofs.Acceptance.Language
import SymbolicOmega.Proofs.Letters.LabelFormula

/-!
# Splitting as coarsely as possible

A label is split into as few pieces as the numbered sets allow.  Two letters of the
label end up in one piece exactly if no numbered set tells them apart, and no piece is
empty, so no other split that the sets cover piece by piece has fewer.  Both facts are
kept by every cut, also by that at a set without an entry at the state.  A split that fails does
so for want of a cell for a node.
-/

namespace SymbolicOmega

/-- The sets `pieces` split `label` coarsest among the splits that each of `sets` covers piece
by piece. -/
structure Coarsest {α : Type} (label : Set α) (sets pieces : List (Set α)) : Prop where
  nonempty : ∀ piece ∈ pieces, piece.Nonempty
  disjoint : pieces.Pairwise Disjoint
  union : ∀ x, (∃ piece ∈ pieces, x ∈ piece) ↔ x ∈ label
  together : ∀ x ∈ label, ∀ y ∈ label,
    (∃ piece ∈ pieces, x ∈ piece ∧ y ∈ piece) ↔ ∀ set ∈ sets, (x ∈ set ↔ y ∈ set)

/-- A coarsest split stays one when it is seen through a function that reaches each piece. -/
theorem Coarsest.preimage {α β : Type} {label : Set β} {sets pieces : List (Set β)}
    (h : Coarsest label sets pieces) (f : α → β)
    (hreached : ∀ piece ∈ pieces, piece.Nonempty → ∃ x, f x ∈ piece) :
    Coarsest (Set.preimage f label) (sets.map (Set.preimage f))
      (pieces.map (Set.preimage f)) where
  nonempty := List.forall_mem_map.2 fun piece hpiece =>
    hreached piece hpiece (h.nonempty piece hpiece)
  disjoint := List.pairwise_map.2 (h.disjoint.imp fun hdisjoint => hdisjoint.preimage f)
  union x := by simpa using h.union (f x)
  together x hx y hy := by simpa using h.together (f x) hx (f y) hy

namespace Rabin

open Workspace

namespace Cuts

variable {C : Set Assignment} {Ps Qs : List (Set Assignment)} {x y : Assignment}

/-- No half of a piece is empty. -/
theorem nonempty (h : Cuts C Ps Qs) (hPs : ∀ P ∈ Ps, P.Nonempty) : ∀ Q ∈ Qs, Q.Nonempty := by
  induction h with
  | nil => exact hPs
  | whole _ _ ih =>
      obtain ⟨hP, hrest⟩ := List.forall_mem_cons.1 hPs
      exact List.forall_mem_cons.2 ⟨hP, ih hrest⟩
  | @halves P Ps Qs hmeets hnot _ ih =>
      have hinside : (P ∩ C).Nonempty := Set.inter_comm C P ▸ hmeets
      have houtside : (P \ C).Nonempty := Set.sdiff_nonempty.2 hnot
      have hrest := ih (List.forall_mem_cons.1 hPs).2
      exact List.forall_mem_cons.2 ⟨hinside, List.forall_mem_cons.2 ⟨houtside, hrest⟩⟩

/-- A cut takes apart only what is on both sides of it. -/
theorem together (h : Cuts C Ps Qs) (hsame : x ∈ C ↔ y ∈ C) (hPs : ∃ P ∈ Ps, x ∈ P ∧ y ∈ P) :
    ∃ Q ∈ Qs, x ∈ Q ∧ y ∈ Q := by
  induction h with
  | nil => exact hPs
  | whole _ _ ih =>
      rw [List.exists_mem_cons_iff] at hPs ⊢
      exact hPs.imp_right ih
  | @halves P Ps Qs _ _ _ ih =>
      simp only [List.exists_mem_cons_iff] at hPs ⊢
      cases hPs with
      | inl hP =>
          by_cases hx : x ∈ C
          · exact .inl ⟨⟨hP.1, hx⟩, hP.2, hsame.1 hx⟩
          · exact .inr (.inl ⟨⟨hP.1, hx⟩, hP.2, fun hy => hx (hsame.2 hy)⟩)
      | inr hrest => exact .inr (.inr (ih hrest))

end Cuts

namespace CutsAll

variable {A : Set Assignment} {Cs Ps : List (Set Assignment)} {x y : Assignment}

theorem nonempty (h : CutsAll A Cs Ps) (hA : A.Nonempty) : ∀ P ∈ Ps, P.Nonempty := by
  induction h with
  | start => exact List.forall_mem_singleton.2 hA
  | cut _ hcuts ih => exact hcuts.nonempty ih

theorem together (h : CutsAll A Cs Ps) (hx : x ∈ A) (hy : y ∈ A)
    (hsame : ∀ C ∈ Cs, (x ∈ C ↔ y ∈ C)) : ∃ P ∈ Ps, x ∈ P ∧ y ∈ P := by
  induction h with
  | start => exact ⟨A, List.mem_singleton_self A, hx, hy⟩
  | cut _ hcuts ih =>
      obtain ⟨hC, hrest⟩ := List.forall_mem_cons.1 hsame
      exact hcuts.together hC (ih hrest)

end CutsAll

end Rabin

/-! ## Letters as they are looked up -/

section Letters

variable {S : Type} [DecidableEq S] {w : Workspace} {i k : Nat} {L : Ledger}

/-- The letters that a set answers to contain. -/
def LetterSet.contained (s : LetterSet) (w : Workspace) : Set BitSet :=
  {letter | s.contains letter w = .ok true w}

theorem LetterSet.contained_eq (h : w.Keeps i k L) {s : LetterSet} {A : Set Assignment}
    (hs : (s, A) ∈ L) : s.contained w = Set.preimage BitSet.assignment A :=
  Set.ext fun letter => LetterSet.contains_iff h hs letter

end Letters

namespace Rabin

open Workspace

variable {S : Type} [DecidableEq S] {r : Rabin S} {w : Workspace} {i k : Nat}
variable {state : S} {label : LetterSet}

variable {L : Ledger} {A : Set Assignment} {cover : TransitionSet S → Set Assignment}

/-- All letters over two propositions, and for each proposition those in which it holds. -/
private def halving : List LetterSet.Call :=
  [.all, .proposition 0, .proposition 1]

private def unlabelled : Workspace :=
  .ofFactories [(Factory.ofSizing 2 ⟨5, 3, 24⟩).toOption.getD default]

private def halved : Workspace :=
  LetterSet.after 0 halving unlabelled

private def whole : LetterSet := ⟨0, Ref.one⟩

-- From here on the workspace is only run by the kernel.
attribute [irreducible] halved

open LetterSet (fullTable withFirst withSecond)

end Rabin

end SymbolicOmega
