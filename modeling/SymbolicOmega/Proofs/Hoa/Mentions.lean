import SymbolicOmega.Proofs.Automaton.Generation
import SymbolicOmega.Proofs.Hoa.Numbering

/-!
# Mentions in step with a walk

A state is explored when it is taken from the queue, and it is numbered when a document first
mentions it.  The rows of the explored states mention their successors in the order in which the
walk queued them, and both leave out what came before.  So a walk and the document written after
it agree at every moment: the states that the rows so far mention, each once, are the explored
states followed by the new ones of the queue.
-/

namespace SymbolicOmega

namespace Hoa

open Workspace

variable {S : Type}

/-! ## Mentions -/

section Mentions
variable [DecidableEq S] {numbered xs : List S} {x : S}

/-- The numbered states after `x` is mentioned. -/
def mention (numbered : List S) (x : S) : List S :=
  (Document.numberOf numbered x).2

/-- The numbered states after all of `xs` are mentioned, from the first on. -/
def mentionAll (numbered xs : List S) : List S :=
  xs.foldl mention numbered

theorem mention_of_mem (hx : x ∈ numbered) : mention numbered x = numbered := by
  rw [mention, Document.numberOf]
  cases hfound : numbered.idxOf? x with
  | some n => rfl
  | none => exact absurd hx (List.idxOf?_eq_none_iff.1 hfound)

theorem mention_of_notMem (hx : x ∉ numbered) : mention numbered x = numbered ++ [x] := by
  rw [mention, Document.numberOf, List.idxOf?_eq_none_iff.2 hx]

theorem mem_mention : x ∈ mention numbered x := by
  by_cases hx : x ∈ numbered
  · rwa [mention_of_mem hx]
  · rw [mention_of_notMem hx]
    exact List.mem_append_right _ (List.mem_singleton_self x)

theorem mention_mention : mention (mention numbered x) x = mention numbered x :=
  mention_of_mem mem_mention

theorem mentionAll_append (numbered xs ys : List S) :
    mentionAll numbered (xs ++ ys) = mentionAll (mentionAll numbered xs) ys :=
  List.foldl_append

theorem mentionAll_isPrefix (numbered xs : List S) : numbered <+: mentionAll numbered xs := by
  induction xs generalizing numbered with
  | nil => exact List.prefix_rfl
  | cons x rest ih => exact (numberOf_spec numbered x).1.isPrefix.trans (ih (mention numbered x))

/-- Mentioning what is numbered changes nothing. -/
theorem mentionAll_filter (p : S → Bool) (hp : ∀ x, p x = false → x ∈ numbered) :
    mentionAll numbered (xs.filter p) = mentionAll numbered xs := by
  induction xs generalizing numbered with
  | nil => rfl
  | cons x rest ih =>
      cases hx : p x with
      | true =>
          have hmore : ∀ y, p y = false → y ∈ mention numbered x := fun y hy =>
            (numberOf_spec numbered x).1.isPrefix.subset (hp y hy)
          rw [List.filter_cons_of_pos hx]
          exact ih hmore
      | false =>
          have hsame : mentionAll numbered (x :: rest) = mentionAll numbered rest :=
            congrArg (mentionAll · rest) (mention_of_mem (hp x hx))
          rw [List.filter_cons_of_neg (by simp [hx]), hsame]
          exact ih hp

end Mentions

/-- What the lines of a body mention: every explored state and then its successors. -/
def mentions (rows : List (S × Row S)) : List S :=
  rows.flatMap fun entry => entry.1 :: entry.2.targets

/-! ## The walk -/

section Walk
variable [DecidableEq S] {a : Automaton S} {seed x : S} {queue : List S}

/-- A document that is started with `seed` numbers the explored states in their order, and after
them what is new in the queue. -/
structure InStep (a : Automaton S) (seed : S) (queue : List S) : Prop where
  distinct : a.states.Nodup
  order : mentionAll [seed] (mentions a.rows) = mentionAll a.states queue

namespace InStep

theorem start (hfresh : a.rows = []) (seed : S) : InStep a seed [seed] := by
  have hstates : a.states = [] := by rw [Automaton.states, hfresh, List.map_nil]
  refine ⟨hstates ▸ List.nodup_nil, ?_⟩
  rw [hfresh, hstates]
  rfl

/-- A queued state that is explored is numbered already. -/
theorem skip (h : InStep a seed (x :: queue)) (hx : a.isExplored x = true) :
    InStep a seed queue := by
  have hmem : x ∈ a.states := Automaton.isExplored_iff_mem_states.1 hx
  refine ⟨h.distinct, ?_⟩
  calc
    mentionAll [seed] (mentions a.rows) = mentionAll (mention a.states x) queue := h.order
    _ = mentionAll a.states queue := by rw [mention_of_mem hmem]

/-- The state that is explored next is numbered next, and its successors are mentioned last. -/
theorem visit (h : InStep a seed (x :: queue)) (hx : a.isExplored x = false) (row : Row S) :
    let a' : Automaton S := { a with rows := a.rows ++ [(x, row)] }
    InStep a' seed (queue ++ row.targets.filter (!a'.isExplored ·)) := by
  intro a'
  have hnew : x ∉ a.states := by simp [← Automaton.isExplored_iff_mem_states, hx]
  have hstates : a'.states = a.states ++ [x] := List.map_append
  have hrows : mentions a'.rows = mentions a.rows ++ x :: row.targets := by
    simp [a', mentions]
  refine ⟨?_, ?_⟩
  · rw [hstates]
    exact h.distinct.append (List.nodup_singleton x) (List.disjoint_singleton.2 hnew)
  · have hqueue : mentionAll [seed] (mentions a.rows) = mentionAll a'.states queue := by
      calc
        mentionAll [seed] (mentions a.rows) = mentionAll (mention a.states x) queue := h.order
        _ = mentionAll a'.states queue := by rw [mention_of_notMem hnew, hstates]
    have hkept : ∀ y ∈ a'.states, y ∈ mentionAll a'.states queue := fun y hy =>
      (mentionAll_isPrefix _ queue).subset hy
    have hself : x ∈ mentionAll a'.states queue := hkept x (by simp [hstates])
    calc
      mentionAll [seed] (mentions a'.rows)
          = mentionAll (mention (mentionAll a'.states queue) x) row.targets := by
            rw [hrows, mentionAll_append, hqueue]
            rfl
      _ = mentionAll (mentionAll a'.states queue) row.targets := by rw [mention_of_mem hself]
      _ = mentionAll (mentionAll a'.states queue) (row.targets.filter (!a'.isExplored ·)) := by
            refine (mentionAll_filter _ fun y hy => hkept y ?_).symm
            simpa [Automaton.isExplored_iff_mem_states] using hy
      _ = mentionAll a'.states (queue ++ row.targets.filter (!a'.isExplored ·)) :=
            (mentionAll_append ..).symm

end InStep

/-- A walk ends in step with the document, and leaves the condition alone. -/
theorem exploreQueue_inStep (bound : Nat) : ∀ (queue : List S) (s : Scene S),
    InStep s.automaton seed queue →
      Outcome (Automaton.exploreQueue bound queue) s
        (fun _ s' => InStep s'.automaton seed [] ∧
          s'.automaton.initial = s.automaton.initial ∧
          s'.automaton.acceptance = s.automaton.acceptance)
        fun _ _ => True := by
  induction bound with
  | zero =>
      intro queue s h
      cases queue with
      | nil => exact Outcome.pure ⟨h, rfl, rfl⟩
      | cons x queue => exact Outcome.throw trivial
  | succ bound ih =>
      intro queue s h
      cases queue with
      | nil => exact Outcome.pure ⟨h, rfl, rfl⟩
      | cons x queue =>
          cases hx : s.automaton.isExplored x with
          | true =>
              rw [Outcome]
              rw [Automaton.exploreQueue_skip hx]
              exact ih queue s (h.skip hx)
          | false =>
              cases hrow : s.automaton.space.row s.automaton.owner x s.workspace with
              | error fault w =>
                  rw [Outcome]
                  rw [Automaton.exploreQueue_fault hx (Automaton.explore_of_error hx hrow)]
                  trivial
              | ok row w =>
                  rw [Outcome]
                  rw [Automaton.exploreQueue_visit hx (Automaton.explore_of_ok hx hrow)]
                  exact ih _ _ (h.visit hx row)

end Walk

end Hoa

end SymbolicOmega
