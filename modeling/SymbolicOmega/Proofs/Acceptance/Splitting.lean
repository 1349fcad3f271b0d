import Mathlib.Data.Set.Lattice
import Mathlib.Order.CompletePartialOrder
import SymbolicOmega.Acceptance.Split
import SymbolicOmega.Proofs.Letters.Books

/-!
# Splitting labels

Cutting a label at every numbered set leaves pieces that are pairwise disjoint and
have the letters of the label between them, and each numbered set covers a piece
wholly or misses it.  The marks of a piece are then the numbers of the sets that have
any one of its letters.
-/

namespace SymbolicOmega

namespace TransitionSet

open Workspace LetterSet

variable {S : Type} [DecidableEq S] {w : Workspace} {i k : Nat} {L L' : Ledger}
variable {set : TransitionSet S} {state : S} {C P : Set Assignment}

/-- By the ledger, `C` is what the set covers at a state. -/
def Covers (L : Ledger) (set : TransitionSet S) (state : S) (C : Set Assignment) : Prop :=
  match set.label? state with
  | some own => (own, C) ∈ L
  | none => C = ∅

theorem Covers.mono (h : set.Covers L state C) (hsub : ∀ entry ∈ L, entry ∈ L') :
    set.Covers L' state C := by
  rw [Covers] at h ⊢
  cases hown : set.label? state with
  | some own => exact hsub _ (by simpa only [hown] using h)
  | none => simpa only [hown] using h

theorem contains_run (h : w.Keeps i k L) (hcovers : set.Covers L state C) (letter : BitSet) :
    ∃ b, set.contains state letter w = .ok b w ∧ (b = true ↔ letter.assignment ∈ C) := by
  rw [Covers] at hcovers
  rw [contains]
  cases hown : set.label? state with
  | some own =>
      simp only [hown] at hcovers
      exact LetterSet.contains_run h hcovers letter
  | none =>
      simp only [hown] at hcovers
      exact ⟨false, rfl, by simp [hcovers]⟩

theorem contains_iff (h : w.Keeps i k L) (hcovers : set.Covers L state C) (letter : BitSet) :
    set.contains state letter w = .ok true w ↔ letter.assignment ∈ C := by
  obtain ⟨b, hb, hmem⟩ := contains_run h hcovers letter
  rw [hb, ← hmem, EStateM.Result.ok.injEq, and_iff_left rfl]

theorem contains_eq_false_iff (h : w.Keeps i k L) (hcovers : set.Covers L state C)
    (letter : BitSet) : set.contains state letter w = .ok false w ↔ letter.assignment ∉ C := by
  obtain ⟨b, hb, hmem⟩ := contains_run h hcovers letter
  rw [hb, ← hmem, EStateM.Result.ok.injEq, and_iff_left rfl, Bool.not_eq_true]

/-- Whether the set covers a label at a state is answered rightly, whatever books are kept. -/
theorem containsAllAt_outcome {listed : Ledger → Workspace → Prop}
    {left : Ledger → Fault → Workspace → Prop} (hbooks : Books i k listed left)
    {label : LetterSet} (h : listed L w) (hcovers : set.Covers L state C)
    (hlabel : (label, P) ∈ L) :
    Outcome (set.containsAllAt state label) w
      (fun b w' => listed L w' ∧ (b = true ↔ P ⊆ C)) (left L) := by
  rw [Covers] at hcovers
  rw [containsAllAt]
  cases hown : set.label? state with
  | some own =>
      simp only [hown] at hcovers
      exact hbooks.containsAll h hcovers hlabel
  | none =>
      simp only [hown] at hcovers
      refine Outcome.pure ⟨h, ?_⟩
      rw [isEmpty_iff (hbooks.keeps h) hlabel, hcovers, Set.subset_empty_iff]

end TransitionSet

namespace Rabin

open Workspace LetterSet

/-- Cutting each of the sets `Ps` at `C` gives `Qs`. -/
inductive Cuts (C : Set Assignment) : List (Set Assignment) → List (Set Assignment) → Prop
  | nil : Cuts C [] []
  | whole {P : Set Assignment} {Ps Qs : List (Set Assignment)} :
      P ⊆ C ∨ Disjoint P C → Cuts C Ps Qs → Cuts C (P :: Ps) (P :: Qs)
  | halves {P : Set Assignment} {Ps Qs : List (Set Assignment)} :
      (C ∩ P).Nonempty → ¬ P ⊆ C → Cuts C Ps Qs → Cuts C (P :: Ps) (P ∩ C :: P \ C :: Qs)

/-- Cutting `A` at each of `Cs`, the last one first, gives `Ps`. -/
inductive CutsAll (A : Set Assignment) : List (Set Assignment) → List (Set Assignment) → Prop
  | start : CutsAll A [] [A]
  | cut {C : Set Assignment} {Cs Ps Qs : List (Set Assignment)} :
      CutsAll A Cs Ps → Cuts C Ps Qs → CutsAll A (C :: Cs) Qs

/-- The sets `Ps` are pairwise disjoint, `A` is their union, and each of `Cs` covers each of
them wholly or misses it. -/
structure Separates (Ps : List (Set Assignment)) (A : Set Assignment)
    (Cs : List (Set Assignment)) : Prop where
  disjoint : Ps.Pairwise Disjoint
  union : ∀ x, (∃ P ∈ Ps, x ∈ P) ↔ x ∈ A
  homogeneous : ∀ P ∈ Ps, ∀ C ∈ Cs, P ⊆ C ∨ Disjoint P C

namespace Cuts

variable {C : Set Assignment} {Ps Qs : List (Set Assignment)}

/-- Nothing has to be cut at the empty set. -/
theorem empty (Ps : List (Set Assignment)) : Cuts ∅ Ps Ps := by
  induction Ps with
  | nil => exact .nil
  | cons P _ ih => exact .whole (.inr (Set.disjoint_empty P)) ih

theorem homogeneous (h : Cuts C Ps Qs) : ∀ Q ∈ Qs, Q ⊆ C ∨ Disjoint Q C := by
  induction h with
  | nil => simp
  | whole hP _ ih => exact List.forall_mem_cons.2 ⟨hP, ih⟩
  | halves _ _ _ ih =>
      refine List.forall_mem_cons.2 ⟨.inl Set.inter_subset_right, ?_⟩
      exact List.forall_mem_cons.2 ⟨.inr disjoint_sdiff_self_left, ih⟩

theorem exists_superset (h : Cuts C Ps Qs) : ∀ Q ∈ Qs, ∃ P ∈ Ps, Q ⊆ P := by
  induction h with
  | nil => simp
  | whole _ _ ih =>
      refine List.forall_mem_cons.2 ⟨⟨_, List.mem_cons_self, subset_rfl⟩, fun Q hQ => ?_⟩
      exact (ih Q hQ).imp fun P hP => ⟨List.mem_cons_of_mem _ hP.1, hP.2⟩
  | halves _ _ _ ih =>
      refine List.forall_mem_cons.2 ⟨⟨_, List.mem_cons_self, Set.inter_subset_left⟩, ?_⟩
      refine List.forall_mem_cons.2 ⟨⟨_, List.mem_cons_self, Set.sdiff_subset⟩, fun Q hQ => ?_⟩
      exact (ih Q hQ).imp fun P hP => ⟨List.mem_cons_of_mem _ hP.1, hP.2⟩

theorem mem_union (h : Cuts C Ps Qs) (x : Assignment) :
    (∃ Q ∈ Qs, x ∈ Q) ↔ ∃ P ∈ Ps, x ∈ P := by
  induction h with
  | nil => rfl
  | whole _ _ ih => simp only [List.exists_mem_cons_iff, ih]
  | @halves P Ps Qs _ _ _ ih =>
      simp only [List.exists_mem_cons_iff, ih, ← or_assoc]
      rw [← Set.mem_union, Set.inter_union_sdiff]

theorem disjoint (h : Cuts C Ps Qs) (hPs : Ps.Pairwise Disjoint) : Qs.Pairwise Disjoint := by
  induction h with
  | nil => exact List.Pairwise.nil
  | whole _ hcuts ih =>
      obtain ⟨hhead, hrest⟩ := List.pairwise_cons.1 hPs
      refine List.pairwise_cons.2 ⟨fun Q hQ => ?_, ih hrest⟩
      obtain ⟨P, hP, hQP⟩ := hcuts.exists_superset Q hQ
      exact (hhead P hP).mono_right hQP
  | halves _ _ hcuts ih =>
      obtain ⟨hhead, hrest⟩ := List.pairwise_cons.1 hPs
      have hlater : ∀ Q ∈ _, Disjoint _ Q := fun Q hQ => by
        obtain ⟨P, hP, hQP⟩ := hcuts.exists_superset Q hQ
        exact (hhead P hP).mono_right hQP
      refine List.pairwise_cons.2 ⟨List.forall_mem_cons.2 ⟨?_, fun Q hQ => ?_⟩,
        List.pairwise_cons.2 ⟨fun Q hQ => ?_, ih hrest⟩⟩
      · exact disjoint_sdiff_self_right.mono_left Set.inter_subset_right
      · exact (hlater Q hQ).mono_left Set.inter_subset_left
      · exact (hlater Q hQ).mono_left Set.sdiff_subset

end Cuts

namespace Separates

variable {A C : Set Assignment} {Ps Qs Cs : List (Set Assignment)}

theorem start (A : Set Assignment) : Separates [A] A [] where
  disjoint := List.pairwise_singleton _ A
  union x := by simp
  homogeneous := by simp

/-- Pieces that are cut once more are homogeneous for one more set. -/
theorem cuts (h : Separates Ps A Cs) (hcuts : Cuts C Ps Qs) : Separates Qs A (C :: Cs) where
  disjoint := hcuts.disjoint h.disjoint
  union x := (hcuts.mem_union x).trans (h.union x)
  homogeneous Q hQ := by
    refine List.forall_mem_cons.2 ⟨hcuts.homogeneous Q hQ, fun D hD => ?_⟩
    obtain ⟨P, hP, hQP⟩ := hcuts.exists_superset Q hQ
    exact (h.homogeneous P hP D hD).imp hQP.trans (Disjoint.mono_left hQP)

/-- One element of a piece tells whether a set covers the piece. -/
theorem subset_iff (h : Separates Ps A Cs) {P : Set Assignment} (hP : P ∈ Ps) (hC : C ∈ Cs)
    {x : Assignment} (hx : x ∈ P) : P ⊆ C ↔ x ∈ C := by
  constructor
  · exact fun hsubset => hsubset hx
  · intro hmem
    refine (h.homogeneous P hP C hC).resolve_right fun hdisjoint => ?_
    exact Set.disjoint_left.1 hdisjoint hx hmem

end Separates

theorem CutsAll.separates {A : Set Assignment} {Cs Ps : List (Set Assignment)}
    (h : CutsAll A Cs Ps) : Separates Ps A Cs := by
  induction h with
  | start => exact .start A
  | cut _ hcuts ih => exact ih.cuts hcuts

/-! ## Cutting labels -/

section Cutting

variable {w : Workspace} {i k : Nat} {L : Ledger} {covered piece : LetterSet}
variable {C P : Set Assignment}
variable {listed : Ledger → Workspace → Prop} {left : Ledger → Fault → Workspace → Prop}

section Piece
variable (hbooks : Books i k listed left)
include hbooks

/-- Whether a set covers a piece in part. -/
private theorem partly_outcome (h : listed L w) (hcovered : (covered, C) ∈ L)
    (hpiece : (piece, P) ∈ L) :
    Outcome (do
        if ← covered.intersects piece then return !(← covered.containsAll piece)
        else return false) w
      (fun b w' => listed L w' ∧ (b = true ↔ (C ∩ P).Nonempty ∧ ¬ P ⊆ C)) (left L) := by
  apply Outcome.andThen (hbooks.intersects h hcovered hpiece)
  rintro meets w₁ ⟨hw₁, hmeets⟩
  cases meets with
  | false => exact Outcome.pure ⟨hw₁, by simp [← hmeets]⟩
  | true =>
      apply Outcome.andThen (hbooks.containsAll hw₁ hcovered hpiece)
      rintro covers w₂ ⟨hw₂, hcovers⟩
      exact Outcome.pure ⟨hw₂, by simp [← hmeets, ← hcovers]⟩

/-- The two halves of a piece, which is still there. -/
private theorem halves_outcome (h : listed ((piece, P) :: L) w) (hcovered : (covered, C) ∈ L) :
    Outcome (do
        let inside ← piece.intersection covered
        let outside ← onFault (piece.difference covered) inside.release
        pure [inside, outside]) w
      (fun pieces w' => ∃ inside outside, pieces = [inside, outside] ∧
        listed ((piece, P) :: (inside, P ∩ C) :: (outside, P \ C) :: L) w')
      (left ((piece, P) :: L)) := by
  have hpiece : (piece, P) ∈ (piece, P) :: L := List.mem_cons_self
  have hcovered' : (covered, C) ∈ (piece, P) :: L := List.mem_cons_of_mem _ hcovered
  apply Outcome.andThen (hbooks.intersection h hpiece hcovered')
  intro inside w₁ hw₁
  apply Outcome.andThen (hbooks.onFault_release (hbooks.difference hw₁
    (List.mem_cons_of_mem _ hpiece) (List.mem_cons_of_mem _ hcovered')))
  intro outside w₂ hw₂
  refine Outcome.pure ⟨inside, outside, rfl, hbooks.perm hw₂ ?_⟩
  exact (List.reverse_perm [(outside, P \ C), (inside, P ∩ C), (piece, P)]).symm.append_right L

/-- A piece is replaced by what cutting it gives, or given back if that fails. -/
theorem cut_outcome (h : listed ((piece, P) :: L) w) (hcovered : (covered, C) ∈ L) :
    Outcome (cut covered piece) w
      (fun pieces w' => ∃ E : Ledger, pieces = E.map Prod.fst ∧ Cuts C [P] (E.map Prod.snd) ∧
        listed (E ++ L) w')
      (left L) := by
  rw [cut]
  apply Outcome.andThen (hbooks.onFault_release
    (partly_outcome hbooks h (List.mem_cons_of_mem _ hcovered) List.mem_cons_self))
  rintro partly w₁ ⟨hw₁, hpartly⟩
  cases partly with
  | true =>
      obtain ⟨hmeets, hnot⟩ := hpartly.1 rfl
      refine Outcome.tryFinally (Outcome.mono (halves_outcome hbooks hw₁ hcovered) ?_
        fun _ w₂ hw₂ => ?_)
      · rintro _ w₂ ⟨inside, outside, rfl, hw₂⟩
        obtain ⟨w₃, hrelease, hw₃⟩ := hbooks.release hw₂
        exact Outcome.of_run hrelease
          ⟨[(inside, P ∩ C), (outside, P \ C)], rfl, .halves hmeets hnot .nil, hw₃⟩
      · obtain ⟨w₃, hrelease, hw₃⟩ := hbooks.release_left hw₂
        exact Outcome.of_run hrelease hw₃
  | false =>
      refine Outcome.pure ⟨[(piece, P)], rfl, .whole ?_ .nil, hw₁⟩
      by_contra hneither
      obtain ⟨hnot, hmeets⟩ := not_or.1 hneither
      rw [Set.not_disjoint_iff_nonempty_inter, Set.inter_comm] at hmeets
      exact Bool.false_ne_true (hpartly.2 ⟨hmeets, hnot⟩)

end Piece

theorem Cuts.append {Ps Ps' Qs Qs' : List (Set Assignment)} (h : Cuts C Ps Qs)
    (h' : Cuts C Ps' Qs') : Cuts C (Ps ++ Ps') (Qs ++ Qs') := by
  induction h with
  | nil => exact h'
  | whole hP _ ih => exact .whole hP ih
  | halves hmeets hnot _ ih => exact .halves hmeets hnot ih

/-- Pieces are replaced by what cutting them gives, or given back if that fails. -/
theorem cutAll_outcome (hbooks : Books i k listed left) {E : Ledger} (h : listed (E ++ L) w)
    (hcovered : (covered, C) ∈ L) :
    Outcome (cutAll covered (E.map Prod.fst)) w
      (fun pieces w' => ∃ E' : Ledger, pieces = E'.map Prod.fst ∧
        Cuts C (E.map Prod.snd) (E'.map Prod.snd) ∧ listed (E' ++ L) w')
      (left L) := by
  induction E generalizing w L with
  | nil => exact Outcome.pure ⟨[], rfl, .nil, h⟩
  | cons entry rest ih =>
      obtain ⟨piece, P⟩ := entry
      apply Outcome.andThen (hbooks.onFault_releaseAll
        (cut_outcome hbooks h (List.mem_append_right _ hcovered)))
      rintro _ w₁ ⟨here, rfl, hhere, hw₁⟩
      have hlater : listed (rest ++ (here ++ L)) w₁ :=
        hbooks.perm hw₁ (List.perm_append_comm_assoc ..)
      apply Outcome.andThen (hbooks.onFault_releaseAll
        (ih hlater (List.mem_append_right _ hcovered)))
      rintro _ w₂ ⟨later, rfl, hrest, hw₂⟩
      refine Outcome.pure ⟨here ++ later, (List.map_append ..).symm, ?_, ?_⟩
      · rw [List.map_append]
        exact hhere.append hrest
      · rw [List.append_assoc]
        exact hbooks.perm hw₂ (List.perm_append_comm_assoc ..)

end Cutting

/-! ## Pieces and their marks -/

section Marking

variable {S : Type} [DecidableEq S] {w : Workspace} {i k : Nat} {L : Ledger} {r : Rabin S}
variable {state : S} {label : LetterSet} {A P : Set Assignment}
variable {cover : TransitionSet S → Set Assignment}

/-- The numbers of the numbered sets that cover `P`. -/
def IsCovering (r : Rabin S) (cover : TransitionSet S → Set Assignment) (P : Set Assignment)
    (marks : BitSet) : Prop :=
  ∀ j, marks.contains j = true ↔ ∃ set, r.numbered[j]? = some set ∧ P ⊆ cover set

/-- What is known about each marked piece: its set, what it means, and its marks. -/
abbrev Marked := List ((LetterSet × Set Assignment) × BitSet)

section Books
variable {listed : Ledger → Workspace → Prop} {left : Ledger → Fault → Workspace → Prop}
variable (hbooks : Books i k listed left)
include hbooks

/-- Cutting at what each of some sets covers at a state. -/
private theorem cutAll_foldlM_outcome {sets : List (TransitionSet S)} {E : Ledger}
    {Cs : List (Set Assignment)} (h : listed (E ++ L) w)
    (hcover : ∀ set ∈ sets, set.Covers L state (cover set))
    (hE : CutsAll A Cs (E.map Prod.snd)) :
    Outcome ((sets.filterMap (·.label? state)).foldlM (fun pieces covered => cutAll covered pieces)
        (E.map Prod.fst)) w
      (fun pieces w' => ∃ E' : Ledger, pieces = E'.map Prod.fst ∧
        CutsAll A ((sets.map cover).reverse ++ Cs) (E'.map Prod.snd) ∧ listed (E' ++ L) w')
      (left L) := by
  induction sets generalizing w E Cs with
  | nil => exact Outcome.pure ⟨E, rfl, hE, h⟩
  | cons set rest ih =>
      obtain ⟨hset, hrest⟩ := List.forall_mem_cons.1 hcover
      rw [List.map_cons, List.reverse_cons, List.append_assoc, List.singleton_append]
      rw [TransitionSet.Covers] at hset
      cases hown : set.label? state with
      | none =>
          simp only [hown] at hset
          have hskip : (set :: rest).filterMap (·.label? state) = rest.filterMap (·.label? state) :=
            List.filterMap_cons_none hown
          rw [hskip, hset]
          exact ih h hrest (hE.cut (.empty _))
      | some own =>
          simp only [hown] at hset
          have hcut : (set :: rest).filterMap (·.label? state) =
              own :: rest.filterMap (·.label? state) := List.filterMap_cons_some hown
          rw [hcut, List.foldlM_cons]
          apply Outcome.andThen (cutAll_outcome hbooks h hset)
          rintro _ w₁ ⟨E', rfl, hcuts, hw₁⟩
          exact ih hw₁ hrest (hE.cut hcuts)

/-- A label is cut at what each of the numbered sets covers. -/
theorem pieces_outcome (h : listed L w) (hlabel : (label, A) ∈ L)
    (hcover : ∀ set ∈ r.numbered, set.Covers L state (cover set)) :
    Outcome (r.pieces state label) w
      (fun pieces w' => ∃ E : Ledger, pieces = E.map Prod.fst ∧
        CutsAll A (r.numbered.map cover).reverse (E.map Prod.snd) ∧ listed (E ++ L) w')
      (left L) := by
  obtain ⟨own, w₁, hcopy, hw₁⟩ := hbooks.copy h hlabel
  apply Outcome.bind_ok hcopy
  have hpieces := cutAll_foldlM_outcome hbooks (E := [(own, A)]) hw₁ hcover .start
  rwa [List.append_nil] at hpieces

theorem covering_outcome (h : listed L w) (hlabel : (label, P) ∈ L)
    (hcover : ∀ set ∈ r.numbered, set.Covers L state (cover set)) :
    Outcome (r.covering state label) w
      (fun marks w' => listed L w' ∧ r.IsCovering cover P marks) (left L) := by
  have hfilter : Outcome
      (r.numbered.zipIdx.filterM fun entry => entry.1.containsAllAt state label) w
      (fun kept w' => listed L w' ∧
        ∀ entry, entry ∈ kept ↔ entry ∈ r.numbered.zipIdx ∧ P ⊆ cover entry.1)
      (left L) :=
    Outcome.filterM (fun entry hentry w hw => TransitionSet.containsAllAt_outcome hbooks hw
      (hcover _ (List.fst_mem_of_mem_zipIdx hentry)) hlabel) h
  apply Outcome.andThen hfilter
  intro kept w₁ hend
  refine Outcome.pure ⟨hend.1, fun j => ?_⟩
  simp only [BitSet.contains_ofList, decide_eq_true_eq, List.mem_map, hend.2, Prod.exists,
    exists_eq_right, List.mk_mem_zipIdx_iff_getElem?]

/-- The pieces are marked with the numbers of the sets that cover them, or given back if that
fails. -/
theorem markPieces_outcome {E : Ledger} (h : listed (E ++ L) w)
    (hcover : ∀ set ∈ r.numbered, set.Covers L state (cover set)) :
    Outcome (r.markPieces state (E.map Prod.fst)) w
      (fun marked w' => listed (E ++ L) w' ∧ ∃ M : Marked, M.map Prod.fst = E ∧
        marked = M.map (fun entry => (entry.1.1, entry.2)) ∧
          ∀ entry ∈ M, r.IsCovering cover entry.1.2 entry.2)
      (left L) := by
  induction E generalizing w L with
  | nil => exact Outcome.pure ⟨h, [], rfl, rfl, by simp⟩
  | cons entry rest ih =>
      obtain ⟨piece, P⟩ := entry
      have hmore : ∀ set ∈ r.numbered, set.Covers ((piece, P) :: rest ++ L) state (cover set) :=
        fun set hset => (hcover set hset).mono fun _ => List.mem_append_right _
      apply Outcome.andThen
        (hbooks.onFault_releaseAll (covering_outcome hbooks h List.mem_cons_self hmore))
      rintro marks w₁ ⟨hw₁, hmarks⟩
      have hrest : listed (rest ++ (piece, P) :: L) w₁ := hbooks.perm hw₁ List.perm_middle.symm
      apply Outcome.andThen (hbooks.onFault_release
        (ih hrest fun set hset => (hcover set hset).mono fun _ => List.mem_cons_of_mem _))
      rintro _ w₂ ⟨hw₂, M, rfl, rfl, hM⟩
      exact Outcome.pure ⟨hbooks.perm hw₂ List.perm_middle, ((piece, P), marks) :: M, rfl, rfl,
        List.forall_mem_cons.2 ⟨hmarks, hM⟩⟩

/-- Splitting cuts a label at what each of the numbered sets covers, and marks each piece with
the numbers of the sets that cover it. -/
theorem split_outcome (h : listed L w) (hlabel : (label, A) ∈ L)
    (hcover : ∀ set ∈ r.numbered, set.Covers L state (cover set)) :
    Outcome (r.split state label) w
      (fun marked w' => ∃ M : Marked, listed (M.map Prod.fst ++ L) w' ∧
        marked = M.map (fun entry => (entry.1.1, entry.2)) ∧
          CutsAll A (r.numbered.map cover).reverse (M.map (·.1.2)) ∧
            ∀ entry ∈ M, r.IsCovering cover entry.1.2 entry.2)
      (left L) := by
  apply Outcome.andThen (pieces_outcome hbooks h hlabel hcover)
  rintro _ w₁ ⟨E, rfl, hE, hw₁⟩
  apply Outcome.imp (markPieces_outcome hbooks hw₁ hcover)
  rintro _ w₂ ⟨hw₂, M, rfl, rfl, hM⟩
  rw [List.map_map] at hE
  exact ⟨M, hw₂, rfl, hE, hM⟩

end Books

/-- Exactly one of the marked pieces contains the letter, and it carries these marks. -/
def MarksLetter (marked : List (LetterSet × BitSet)) (letter : BitSet) (w : Workspace)
    (marks : BitSet) : Prop :=
  ∃ before piece after, marked = before ++ (piece, marks) :: after ∧
    piece.contains letter w = .ok true w ∧
      ∀ other ∈ before ++ after, other.1.contains letter w = .ok false w

/-- Each letter of the label is in one piece, which is marked with the numbers of the sets that
have the letter. -/
theorem split_marksLetter {w' : Workspace} {marked : List (LetterSet × BitSet)} {letter : BitSet}
    (h : w.Keeps i k L) (hlabel : (label, A) ∈ L)
    (hcover : ∀ set ∈ r.numbered, set.Covers L state (cover set))
    (hrun : r.split state label w = .ok marked w') (hletter : letter.assignment ∈ A) :
    ∃ marks, MarksLetter marked letter w' marks ∧ ∀ j, marks.contains j = true ↔
      ∃ set, r.numbered[j]? = some set ∧ letter.assignment ∈ cover set := by
  obtain ⟨M, hkeeps, rfl, hcuts, hmarks⟩ := (split_outcome books_keeps h hlabel hcover).of_ok hrun
  have hseparates := hcuts.separates
  obtain ⟨P, hP, hletterP⟩ := (hseparates.union _).2 hletter
  obtain ⟨entry, hentry, rfl⟩ := List.mem_map.1 hP
  have hcontains : ∀ entry ∈ M, ∃ b, entry.1.1.contains letter w' = .ok b w' ∧
      (b = true ↔ letter.assignment ∈ entry.1.2) := fun entry hentry =>
    LetterSet.contains_run hkeeps (List.mem_append_left _ (List.mem_map_of_mem hentry)) letter
  refine ⟨entry.2, ?_, fun j => ?_⟩
  · obtain ⟨before, after, rfl⟩ := List.append_of_mem hentry
    refine ⟨before.map _, entry.1.1, after.map _, by rw [List.map_append, List.map_cons], ?_,
      fun other hother => ?_⟩
    · obtain ⟨b, hb, hmem⟩ := hcontains entry hentry
      rwa [hmem.2 hletterP] at hb
    · rw [← List.map_append] at hother
      obtain ⟨second, hsecond, rfl⟩ := List.mem_map.1 hother
      obtain ⟨hapart, -⟩ := List.pairwise_cons.1
        ((List.pairwise_middle fun h => h.symm).1 (List.pairwise_map.1 hseparates.disjoint))
      have hnot : letter.assignment ∉ second.1.2 :=
        Set.disjoint_left.1 (hapart second hsecond) hletterP
      have hmember : second ∈ before ++ entry :: after :=
        List.perm_middle.mem_iff.2 (List.mem_cons_of_mem entry hsecond)
      obtain ⟨b, hb, hmem⟩ := hcontains second hmember
      rwa [Bool.eq_false_iff.2 fun htrue => hnot (hmem.1 htrue)] at hb
  · refine (hmarks entry hentry j).trans (exists_congr fun set => and_congr_right fun hset => ?_)
    have hnumbered : set ∈ r.numbered := List.mem_of_getElem? hset
    exact hseparates.subset_iff hP (List.mem_reverse.2 (List.mem_map_of_mem hnumbered)) hletterP

end Marking

end Rabin

end SymbolicOmega
