import Mathlib.Logic.Function.Basic
import Mathlib.Logic.Relation
import SymbolicOmega.Automaton.Explore
import SymbolicOmega.Proofs.Outcome

/-!
# Exploration

Rows are kept once they are computed, so exploring only adds edges.  A walk from a
seed explores exactly the states that are reached from it through states that were
not explored before: it never goes on behind a state whose row was there already.
So it explores everything that is reachable if and only if the states explored
before, as far as they are reachable, lead to explored states alone.
-/

namespace SymbolicOmega

namespace Automaton

open Function

variable {S : Type} [DecidableEq S]

/-- The kept row of `x` has an edge to `y`. -/
def Leads (a : Automaton S) (x y : S) : Prop :=
  ∃ row, a.row? x = some row ∧ y ∈ row.targets

/-- There is a path along kept rows. -/
def Reaches (a : Automaton S) : S → S → Prop :=
  Relation.ReflTransGen a.Leads

/-- There is a path along kept rows of states that were not explored in `a`. -/
def ReachesFresh (a a' : Automaton S) : S → S → Prop :=
  Relation.ReflTransGen fun x y => a.isExplored x = false ∧ a'.Leads x y

/-- Everything that `seed` reaches is explored. -/
def Complete (a : Automaton S) (seed : S) : Prop :=
  ∀ y, a.Reaches seed y → a.isExplored y = true

theorem isExplored_iff {a : Automaton S} {x : S} :
    a.isExplored x = true ↔ ∃ row, a.row? x = some row :=
  Option.isSome_iff_exists

theorem isExplored_eq_false {a : Automaton S} {x : S} :
    a.isExplored x = false ↔ a.row? x = none := by
  simp [isExplored]

theorem Leads.isExplored {a : Automaton S} {x y : S} (h : a.Leads x y) :
    a.isExplored x = true :=
  isExplored_iff.2 (h.imp fun _ hrow => hrow.1)

/-- Every kept row of `a` is kept in `a'`, and states are explored in the same way. -/
structure Extends (a a' : Automaton S) : Prop where
  rows : ∀ x row, a.row? x = some row → a'.row? x = some row
  space : a'.space = a.space
  owner : a'.owner = a.owner

namespace Extends

variable {a a' a'' : Automaton S} {x y : S}

theorem refl (a : Automaton S) : a.Extends a := ⟨fun _ _ h => h, rfl, rfl⟩

theorem trans (h : a.Extends a') (h' : a'.Extends a'') : a.Extends a'' :=
  ⟨fun x row hrow => h'.rows x row (h.rows x row hrow), h'.space.trans h.space,
    h'.owner.trans h.owner⟩

theorem isExplored (h : a.Extends a') (hx : a.isExplored x = true) : a'.isExplored x = true := by
  obtain ⟨row, hrow⟩ := isExplored_iff.1 hx
  exact isExplored_iff.2 ⟨row, h.rows x row hrow⟩

theorem fresh (h : a.Extends a') (hx : a'.isExplored x = false) : a.isExplored x = false := by
  by_contra hexplored
  rw [h.isExplored (Bool.of_not_eq_false hexplored)] at hx
  cases hx

theorem leads (h : a.Extends a') (hxy : a.Leads x y) : a'.Leads x y := by
  obtain ⟨row, hrow, hy⟩ := hxy
  exact ⟨row, h.rows x row hrow, hy⟩

/-- A state explored before keeps its edges. -/
theorem leads_iff (h : a.Extends a') (hx : a.isExplored x = true) :
    a'.Leads x y ↔ a.Leads x y := by
  refine ⟨fun ⟨row', hrow', hy⟩ => ?_, h.leads⟩
  obtain ⟨row, hrow⟩ := isExplored_iff.1 hx
  have hsame : row' = row := Option.some.inj (hrow'.symm.trans (h.rows x row hrow))
  exact ⟨row, hrow, hsame ▸ hy⟩

end Extends

/-! ## One state -/

/-- Exploring `x` for the first time keeps one row more. -/
structure Adds (a a' : Automaton S) (x : S) (row : Row S) : Prop where
  fresh : a.isExplored x = false
  kept : a.Extends a'
  row?_eq : a'.row? = update a.row? x (some row)

section Update

variable {a a' : Automaton S} {x y z : S} {row : Row S}

theorem leads_self_of_update (h : a'.row? = update a.row? x (some row)) :
    a'.Leads x y ↔ y ∈ row.targets := by
  simp [Leads, h]

theorem leads_of_ne_of_update (h : a'.row? = update a.row? x (some row)) (hz : z ≠ x) :
    a'.Leads z y ↔ a.Leads z y := by
  simp [Leads, h, hz]

end Update

namespace Adds

variable {a a' : Automaton S} {x y : S} {row : Row S}

theorem isExplored_iff (h : a.Adds a' x row) :
    a'.isExplored y = true ↔ y = x ∨ a.isExplored y = true := by
  by_cases hy : y = x
  · subst hy
    simp [isExplored, h.row?_eq]
  · simp [isExplored, h.row?_eq, hy]

end Adds

/-- A row appended for a state without one. -/
theorem adds_append {a : Automaton S} {x : S} (row : Row S) (hx : a.isExplored x = false) :
    a.Adds { a with rows := a.rows ++ [(x, row)] } x row := by
  have hnone : a.rows.lookup x = none := isExplored_eq_false.1 hx
  have hrows : ({ a with rows := a.rows ++ [(x, row)] } : Automaton S).row? =
      update a.row? x (some row) := by
    funext y
    by_cases hy : y = x
    · subst hy
      simp [row?, List.lookup_append, hnone]
    · have hyx : (y == x) = false := beq_eq_false_iff_ne.2 hy
      simp [row?, List.lookup_append, List.lookup_cons, hy, hyx]
  refine ⟨hx, ⟨fun y kept hkept => ?_, rfl, rfl⟩, hrows⟩
  have hy : y ≠ x := by
    rintro rfl
    simp [row?, hnone] at hkept
  rw [hrows, update_of_ne hy]
  exact hkept

omit [DecidableEq S] in
theorem current_run (s : Scene S) : current s = .ok s.automaton s := rfl

theorem explore_of_error {s : Scene S} {x : S} {fault : Fault} {w : Workspace}
    (hx : s.automaton.isExplored x = false)
    (hrun : s.automaton.space.row s.automaton.owner x s.workspace = .error fault w) :
    explore x s = .error fault ⟨s.automaton, w⟩ := by
  have hnone := isExplored_eq_false.1 hx
  obtain ⟨a, v⟩ := s
  dsimp only at hrun hnone
  rw [explore]
  rw [run_bind (current_run _), hnone]
  change EStateM.bind (inWorkspace (a.space.row a.owner x)) _ _ = _
  simp only [EStateM.bind, inWorkspace, hrun]

theorem explore_of_ok {s : Scene S} {x : S} {row : Row S} {w : Workspace}
    (hx : s.automaton.isExplored x = false)
    (hrun : s.automaton.space.row s.automaton.owner x s.workspace = .ok row w) :
    explore x s =
      .ok row ⟨{ s.automaton with rows := s.automaton.rows ++ [(x, row)] }, w⟩ := by
  have hnone := isExplored_eq_false.1 hx
  obtain ⟨a, v⟩ := s
  dsimp only at hrun hnone
  have hinside : inWorkspace (a.space.row a.owner x) ⟨a, v⟩ = .ok row ⟨a, w⟩ := by
    simp only [inWorkspace, hrun]
  rw [explore]
  rw [run_bind (current_run _), hnone]
  exact run_bind hinside

/-- A row is computed where it is not kept; the workspace alone changes if that fails. -/
theorem explore_outcome {s : Scene S} {x : S} (hx : s.automaton.isExplored x = false) :
    Outcome (explore x) s
      (fun row s' => s.automaton.Adds s'.automaton x row ∧
        s.automaton.space.row s.automaton.owner x s.workspace = .ok row s'.workspace)
      (fun fault s' => s'.automaton = s.automaton ∧
        s.automaton.space.row s.automaton.owner x s.workspace = .error fault s'.workspace) := by
  rw [Outcome]
  cases hrun : s.automaton.space.row s.automaton.owner x s.workspace with
  | error fault w =>
      rw [explore_of_error hx hrun]
      exact ⟨rfl, rfl⟩
  | ok row w =>
      rw [explore_of_ok hx hrun]
      exact ⟨adds_append row hx, rfl⟩

omit [DecidableEq S] in
/-- What holds at either end in the workspace holds there in the scene. -/
theorem inWorkspace_outcome {β : Type} {x : WorkM β} {s : Scene S} {good : β → Scene S → Prop}
    {bad : Fault → Scene S → Prop}
    (hx : Outcome x s.workspace (fun b w' => good b ⟨s.automaton, w'⟩)
      (fun fault w' => bad fault ⟨s.automaton, w'⟩)) :
    Outcome (inWorkspace x) s good bad := by
  obtain ⟨a, w⟩ := s
  unfold Outcome inWorkspace
  cases hrun : x w with
  | ok b w' => simpa only [hrun] using hx.of_ok hrun
  | error fault w' => simpa only [hrun] using hx.of_error hrun

/-! ## Walks

A walk keeps whatever exploring keeps, and fails only for the same causes or at its bound. -/

section Walks
variable {P : Scene S → Prop} {Q : Fault → Prop}

omit [DecidableEq S] in
theorem current_secures : Secures P Q current := fun _ hs => hs

variable (hexplore : ∀ x, Secures P Q (explore x)) (hbound : Q .boundReached)
include hexplore hbound

theorem exploreQueue_secures (bound : Nat) (queue : List S) :
    Secures P Q (exploreQueue bound queue) := by
  induction bound generalizing queue with
  | zero =>
      cases queue with
      | nil => exact Secures.pure ()
      | cons x queue => exact Secures.throw hbound
  | succ bound ih =>
      cases queue with
      | nil => exact Secures.pure ()
      | cons x queue =>
          exact current_secures.bind fun a => Secures.ite (ih queue)
            ((hexplore x).bind fun row => current_secures.bind fun a' => ih _)

theorem generateFrom_secures (bound : Nat) (seed : Option S) :
    Secures P Q (generateFrom bound seed) := by
  cases seed with
  | none => exact Secures.pure ()
  | some seed =>
      exact current_secures.bind fun a =>
        Secures.ite (Secures.pure ()) (exploreQueue_secures hexplore hbound bound [seed])

theorem closeQueue_secures (bound : Nat) (reached queue : List S) :
    Secures P Q (closeQueue bound reached queue) := by
  induction bound generalizing reached queue with
  | zero =>
      cases queue with
      | nil => exact Secures.pure reached
      | cons x queue => exact Secures.throw hbound
  | succ bound ih =>
      cases queue with
      | nil => exact Secures.pure reached
      | cons x queue => exact (hexplore x).bind fun row => ih _ _

theorem reachable_secures (bound : Nat) (seeds : List S) : Secures P Q (reachable bound seeds) :=
  closeQueue_secures hexplore hbound bound _ _

end Walks

end Automaton

end SymbolicOmega
