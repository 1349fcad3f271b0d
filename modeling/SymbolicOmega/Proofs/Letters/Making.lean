import SymbolicOmega.Proofs.Letters.Exhaustion

/-!
# How letter sets are made

The sets of a factory come about in a history: the factory starts without sets, in tables
of any size, and then sets are made, changed, compared and given back in any order, with
failures among the operations and collections between them.  Whatever the history, each
set is that of some letters over the alphabet.
-/

namespace SymbolicOmega

namespace LetterSet

open Workspace Manager

/-- Some history of the factory at position `owner`, over `k` propositions, left exactly these
sets.  All operations make literals of propositions that fit signed numbers only. -/
inductive Made (k owner : Nat) : List LetterSet → Workspace → Prop
  | new {sizing : Sizing} {f : Factory} {w : Workspace} (hnew : Factory.ofSizing k sizing = .ok f)
      (hplace : w.factories[owner]? = some f) : Made k owner [] w
  | answered {sets sets' : List LetterSet} {w w' : Workspace} (call : Call)
      (hmade : Made k owner sets w) (hsigned : call.Signed k)
      (hrun : call.perform owner sets w = .ok sets' w') : Made k owner sets' w'
  | failed {sets : List LetterSet} {w w' : Workspace} (call : Call) {fault : Fault}
      (hmade : Made k owner sets w) (hsigned : call.Signed k)
      (hrun : call.perform owner sets w = .error fault w') : Made k owner (call.left sets) w'
  /-- What is done elsewhere leaves the factory alone. -/
  | elsewhere {sets : List LetterSet} {w w' : Workspace} (hmade : Made k owner sets w)
      (hsame : w'.factories[owner]? = w.factories[owner]?) : Made k owner sets w'

variable {k owner : Nat} {w w' : Workspace} {sets sets' : List LetterSet}

/-- What every answered operation keeps of the sets holds after all of them. -/
theorem performAll_keeps {P : List LetterSet → Workspace → Prop} {calls : List Call}
    (hstep : ∀ call ∈ calls, ∀ sets w sets' w', P sets w →
      call.perform owner sets w = .ok sets' w' → P sets' w')
    (h : P sets w) (hrun : LetterSet.performAll owner calls sets w = .ok sets' w') :
    P sets' w' := by
  induction calls generalizing sets w with
  | nil =>
      rw [LetterSet.performAll, List.foldlM_nil] at hrun
      cases hrun
      exact h
  | cons call rest ih =>
      obtain ⟨hcall, hrest⟩ := List.forall_mem_cons.1 hstep
      rw [LetterSet.performAll, List.foldlM_cons] at hrun
      cases hfirst : call.perform owner sets w with
      | ok sets₁ w₁ =>
          rw [run_bind hfirst] at hrun
          exact ih hrest (hcall sets w sets₁ w₁ h hfirst) hrun
      | error fault w₁ =>
          rw [run_bind_error hfirst] at hrun
          cases hrun

/-- Operations one after the other go on with a history. -/
theorem Made.performAll (h : Made k owner sets w) {calls : List Call}
    (hsigned : ∀ call ∈ calls, call.Signed k)
    (hrun : LetterSet.performAll owner calls sets w = .ok sets' w') : Made k owner sets' w' :=
  performAll_keeps (fun call hcall _ _ _ _ hmade => hmade.answered call (hsigned call hcall)) h hrun

/-- Made sets are sets of letters over the alphabet. -/
theorem Made.agrees (h : Made k owner sets w) :
    ∃ models : List (Set (Letter k)), Agrees owner [] w sets models := by
  induction h with
  | new hnew hplace =>
      exact ⟨[], [], rfl, rfl, by simp [ledger], _, hplace, Factory.ofSizing_holds hnew⟩
  | answered call _ hsigned hrun ih =>
      obtain ⟨models, hmodels⟩ := ih
      exact ⟨call.meaning models, (perform_agrees hsigned hmodels).of_ok hrun⟩
  | failed call _ hsigned hrun ih =>
      obtain ⟨models, hmodels⟩ := ih
      exact ⟨call.left models, (perform_agrees hsigned hmodels).of_error hrun⟩
  | elsewhere _ hsame ih =>
      obtain ⟨models, E, hsets, hmodels, hkeeps⟩ := ih
      exact ⟨models, E, hsets, hmodels, hkeeps.of_factory hsame⟩

/-- The factory holds the made sets, each as a set of letters. -/
theorem Made.exists_ledger (h : Made k owner sets w) :
    ∃ L : Ledger, w.Keeps owner k L ∧
      ∀ s ∈ sets, ∃ M : Set (Letter k), (s, Set.preimage (letterAt k) M) ∈ L := by
  obtain ⟨_, E, rfl, _, hkeeps⟩ := h.agrees
  refine ⟨_, hkeeps, List.forall_mem_map.2 fun entry hentry => ?_⟩
  exact ⟨entry.2, List.mem_append_left [] (List.mem_map_of_mem hentry)⟩

/-! ## Histories that are run -/

/-- The sets that operations in a new factory make, none if one of them fails. -/
def setsOf (owner : Nat) (calls : List Call) (w : Workspace) : List LetterSet :=
  match performAll owner calls [] w with
  | .ok sets _ => sets
  | .error _ _ => []

/-- The workspace that operations in a new factory leave. -/
def after (owner : Nat) (calls : List Call) (w : Workspace) : Workspace :=
  match performAll owner calls [] w with
  | .ok _ w' => w'
  | .error _ w' => w'

/-- What every call keeps of the managers holds in the workspace that is left. -/
theorem after_upholds {P : Manager → Prop} (hP : Lasting P) (owner : Nat) (calls : List Call)
    (h : w.Managers P) : (after owner calls w).Managers P := by
  have hend := performAll_upholds hP owner calls [] w h
  rw [after]
  cases hrun : LetterSet.performAll owner calls [] w with
  | ok sets w' => exact hend.of_ok hrun
  | error fault w' => exact hend.of_error hrun

/-- Operations that made a set did not fail. -/
theorem performAll_eq {calls : List Call} (h : setsOf owner calls w ≠ []) :
    LetterSet.performAll owner calls [] w =
      .ok (setsOf owner calls w) (after owner calls w) := by
  rw [setsOf] at h ⊢
  rw [after]
  cases hrun : LetterSet.performAll owner calls [] w with
  | ok sets w' => rfl
  | error fault w' =>
      rw [hrun] at h
      exact absurd rfl h

/-- Operations that made a set are a history. -/
theorem made_of_mem {sizing : Sizing} {f : Factory} {calls : List Call} {s : LetterSet}
    (hnew : Factory.ofSizing k sizing = .ok f) (hplace : w.factories[owner]? = some f)
    (hsigned : ∀ call ∈ calls, call.Signed k) (hs : s ∈ setsOf owner calls w) :
    Made k owner (setsOf owner calls w) (after owner calls w) :=
  (Made.new hnew hplace).performAll hsigned (performAll_eq (List.ne_nil_of_mem hs))

/-! ## Two propositions that fill a table -/

private def fourCells : Workspace :=
  .ofFactories [(Factory.ofSizing 2 ⟨2, 2, 4⟩).toOption.getD default]

/-- The sets of both propositions were made in a table of four cells that is never collected.
Their nodes and the terminal leave no cell for another node. -/
def fullTable : Workspace :=
  after 0 [.proposition 0, .proposition 1] fourCells

/-- The letters with the first proposition. -/
def withFirst : LetterSet := ⟨0, ⟨2, false⟩⟩

/-- The letters with the second proposition. -/
def withSecond : LetterSet := ⟨0, ⟨3, false⟩⟩

theorem fullTable_made : Made 2 0 [withSecond, withFirst] fullTable := by
  have hnew : Factory.ofSizing 2 ⟨2, 2, 4⟩ =
      .ok ((Factory.ofSizing 2 ⟨2, 2, 4⟩).toOption.getD default) := rfl
  have hsets : setsOf 0 [.proposition 0, .proposition 1] fourCells = [withSecond, withFirst] := by
    decide +kernel
  rw [← hsets]
  exact made_of_mem hnew rfl (fun call _ => call.signed_of_lt (by decide))
    (hsets ▸ List.mem_cons_self)

-- From here on the workspace is only run by the kernel.
attribute [irreducible] fullTable

/-- To look a letter up changes nothing. -/
theorem contains_of_verdict {s : LetterSet} {letter : BitSet} {b : Bool}
    (h : verdict (s.contains letter) w = .ok b) : s.contains letter w = .ok b w := by
  obtain ⟨w', hrun⟩ := run_of_verdict h
  have hsame : w' = w := (askFactory_upholds (P := (· = w)) s.owner _ w rfl).of_ok hrun
  rw [hrun, hsame]

end LetterSet

end SymbolicOmega
