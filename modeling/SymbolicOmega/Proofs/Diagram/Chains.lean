import Mathlib.Data.List.Nodup
import Mathlib.Logic.Function.Basic
import SymbolicOmega.Diagram.UniqueTable
import SymbolicOmega.Proofs.Outcome

/-!
# Cells, links and chains

A unique table is seen through two functions: the value that a cell holds and the
link that leaves it.  Each operation changes these two functions at a few points.
A chain is a path along the links that ends at 0, so whatever leaves the links of a
path alone leaves the chain alone.
-/

namespace SymbolicOmega

namespace UniqueTable

open Function

variable {α : Type}

/-- The value that the cell at `index` holds.  The sentry and dropped cells hold none. -/
def stored? (t : UniqueTable α) (index : Nat) : Option α :=
  if index = 0 then none else (t.cells[index]?.filter (·.occupied)).map (·.value)

/-- The link of the cell at `index`, also of a dropped one. -/
def link? (t : UniqueTable α) (index : Nat) : Option Nat :=
  t.cells[index]?.map (·.next)

theorem stored?_eq_some {t : UniqueTable α} {index : Nat} {value : α} :
    t.stored? index = some value ↔
      index ≠ 0 ∧ ∃ c, t.cells[index]? = some c ∧ c.occupied = true ∧ c.value = value := by
  by_cases hzero : index = 0
  · simp [stored?, hzero]
  · cases hcell : t.cells[index]? with
    | none => simp [stored?, hcell]
    | some c => cases hocc : c.occupied <;> simp [stored?, hzero, hcell, Option.filter, hocc]

theorem cell_eq_ok {t : UniqueTable α} {index : Nat} {c : Cell α} :
    t.cell index = .ok c ↔ index ≠ 0 ∧ t.cells[index]? = some c := by
  by_cases hzero : index = 0
  · simp [cell, hzero]
  · cases hcell : t.cells[index]? <;> simp [cell, hzero, hcell]

theorem cell_of_stored {t : UniqueTable α} {index : Nat} {value : α}
    (h : t.stored? index = some value) :
    ∃ c, t.cell index = .ok c ∧ c.occupied = true ∧ c.value = value := by
  obtain ⟨hpos, c, hcell, hocc, hvalue⟩ := stored?_eq_some.1 h
  exact ⟨c, by simp [cell, hpos, hcell], hocc, hvalue⟩

theorem value_of_stored {t : UniqueTable α} {index : Nat} {value : α}
    (h : t.stored? index = some value) : t.value index = .ok value := by
  obtain ⟨c, hcell, -, hvalue⟩ := cell_of_stored h
  simp [UniqueTable.value, hcell, hvalue]

theorem value_congr {t u : UniqueTable α} {index : Nat}
    (h : u.cells[index]? = t.cells[index]?) : u.value index = t.value index := by
  simp only [UniqueTable.value, cell, h]

theorem lt_size_of_stored {t : UniqueTable α} {index : Nat} {value : α}
    (h : t.stored? index = some value) : index < t.cells.size := by
  obtain ⟨-, c, hcell, -⟩ := stored?_eq_some.1 h
  exact (Array.getElem?_eq_some_iff.1 hcell).1

theorem stored?_congr {t u : UniqueTable α} {index : Nat}
    (h : u.cells[index]? = t.cells[index]?) : u.stored? index = t.stored? index := by
  simp only [stored?, h]

theorem link?_congr {t u : UniqueTable α} {index : Nat}
    (h : u.cells[index]? = t.cells[index]?) : u.link? index = t.link? index := by
  simp only [link?, h]

/-! ## Paths along links -/

/-- `path` lists the cells of a chain, from `start` to the end. -/
def IsChain (link : Nat → Option Nat) : (start : Nat) → (path : List Nat) → Prop
  | start, [] => start = 0
  | start, index :: rest =>
      start = index ∧ index ≠ 0 ∧ ∃ next, link index = some next ∧ IsChain link next rest

namespace IsChain

variable {link : Nat → Option Nat} {start : Nat} {path : List Nat}

theorem ne_zero_of_mem (h : IsChain link start path) {index : Nat} (hmem : index ∈ path) :
    index ≠ 0 := by
  induction path generalizing start with
  | nil => simp at hmem
  | cons first rest ih =>
      obtain ⟨-, hfirst, next, -, hrest⟩ := h
      rcases List.mem_cons.1 hmem with rfl | hmem
      · exact hfirst
      · exact ih hrest hmem

/-- Only the links of the path matter. -/
theorem congr {link' : Nat → Option Nat} (h : IsChain link start path)
    (hsame : ∀ index ∈ path, link' index = link index) : IsChain link' start path := by
  induction path generalizing start with
  | nil => exact h
  | cons first rest ih =>
      obtain ⟨rfl, hfirst, next, hlink, hrest⟩ := h
      refine ⟨rfl, hfirst, next, ?_, ih hrest fun index hmem => ?_⟩
      · rw [hsame start List.mem_cons_self, hlink]
      · exact hsame index (List.mem_cons_of_mem _ hmem)

/-- A start has one chain. -/
theorem unique {path' : List Nat} (h : IsChain link start path) (h' : IsChain link start path') :
    path = path' := by
  induction path generalizing start path' with
  | nil =>
      cases path' with
      | nil => rfl
      | cons first' rest' => exact absurd (h'.1.symm.trans h) h'.2.1
  | cons first rest ih =>
      obtain ⟨rfl, hfirst, next, hlink, hrest⟩ := h
      cases path' with
      | nil => exact absurd h' hfirst
      | cons first' rest' =>
          obtain ⟨rfl, -, next', hlink', hrest'⟩ := h'
          rw [hlink] at hlink'
          cases hlink'
          rw [ih hrest hrest']

theorem suffix {front back : List Nat} {index : Nat}
    (h : IsChain link start (front ++ index :: back)) : IsChain link index (index :: back) := by
  induction front generalizing start with
  | nil =>
      obtain ⟨rfl, hrest⟩ := h
      exact ⟨rfl, hrest⟩
  | cons first rest ih =>
      obtain ⟨-, -, next, -, hrest⟩ := h
      exact ih hrest

/-- A cell that came back would have two chains of different lengths. -/
theorem nodup (h : IsChain link start path) : path.Nodup := by
  induction path generalizing start with
  | nil => exact List.nodup_nil
  | cons first rest ih =>
      have hchain := h
      obtain ⟨rfl, -, next, -, hrest⟩ := h
      refine List.nodup_cons.2 ⟨fun hmem => ?_, ih hrest⟩
      obtain ⟨front, back, rfl⟩ := List.append_of_mem hmem
      have hlength := congrArg List.length (hchain.unique hrest.suffix)
      simp at hlength
      omega

/-- A fresh cell is linked behind the last one. -/
theorem snoc {last fresh : Nat} (h : IsChain link start (path ++ [last]))
    (hfresh : fresh ∉ path ++ [last]) (hpos : fresh ≠ 0) :
    IsChain (update (update link fresh (some 0)) last (some fresh)) start
      (path ++ [last, fresh]) := by
  have hnodup := h.nodup
  have hne : fresh ≠ last := fun heq => hfresh (by simp [heq])
  induction path generalizing start with
  | nil =>
      obtain ⟨rfl, hlast, -⟩ := h
      refine ⟨rfl, hlast, fresh, update_self .., rfl, hpos, 0, ?_, rfl⟩
      rw [update_of_ne hne, update_self]
  | cons first rest ih =>
      obtain ⟨rfl, hstart, next, hlink, hrest⟩ := h
      simp only [List.cons_append, List.nodup_cons, List.mem_cons, not_or] at hnodup hfresh
      refine ⟨rfl, hstart, next, ?_, ih hrest hfresh.2 hnodup.2⟩
      have hlast : start ≠ last := fun heq => hnodup.1 (by simp [heq])
      rw [update_of_ne hlast, update_of_ne (Ne.symm hfresh.1), hlink]

end IsChain

end UniqueTable

end SymbolicOmega
