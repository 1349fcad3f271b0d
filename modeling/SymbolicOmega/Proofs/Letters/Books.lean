import SymbolicOmega.Proofs.Letters.Exhaustion

/-!
# Books of letter sets

Which sets of a factory are there is entered in books.  These may say of a failure that all sets
are left, or also that there was no cell for a node.  What calls on letter sets do together is
followed once, whatever books are kept.
-/

namespace SymbolicOmega

namespace LetterSet

open Workspace

variable {i k : Nat}

/-- Books of the sets in a factory.  That exactly these sets are there, and mean what they are
listed with, is said by `listed`, and after a fault by `left`. -/
structure Books (i k : Nat) (listed : Ledger → Workspace → Prop)
    (left : Ledger → Fault → Workspace → Prop) : Prop where
  keeps : ∀ {L w}, listed L w → w.Keeps i k L
  perm : ∀ {L L' w}, listed L w → L.Perm L' → listed L' w
  copy : ∀ {s A L w}, listed L w → (s, A) ∈ L →
    ∃ s' w', s.copy w = .ok s' w' ∧ listed ((s', A) :: L) w'
  intersects : ∀ {s t A B L w}, listed L w → (s, A) ∈ L → (t, B) ∈ L →
    Outcome (s.intersects t) w (fun b w' => listed L w' ∧ (b = true ↔ (A ∩ B).Nonempty)) (left L)
  containsAll : ∀ {s t A B L w}, listed L w → (s, A) ∈ L → (t, B) ∈ L →
    Outcome (s.containsAll t) w (fun b w' => listed L w' ∧ (b = true ↔ B ⊆ A)) (left L)
  intersection : ∀ {s t A B L w}, listed L w → (s, A) ∈ L → (t, B) ∈ L →
    Outcome (s.intersection t) w (fun u w' => listed ((u, A ∩ B) :: L) w') (left L)
  difference : ∀ {s t A B L w}, listed L w → (s, A) ∈ L → (t, B) ∈ L →
    Outcome (s.difference t) w (fun u w' => listed ((u, A \ B) :: L) w') (left L)
  release : ∀ {s A L w}, listed ((s, A) :: L) w → ∃ w', s.release w = .ok () w' ∧ listed L w'
  release_left : ∀ {s A L fault w}, left ((s, A) :: L) fault w →
    ∃ w', s.release w = .ok () w' ∧ left L fault w'

theorem books_keeps : Books i k (fun L w => w.Keeps i k L) fun L _ w => w.Keeps i k L where
  keeps h := h
  perm h := h.perm
  copy := copy_keeps
  intersects := intersects_keeps
  containsAll := containsAll_keeps
  intersection := intersection_keeps
  difference := difference_keeps
  release := release_keeps
  release_left := release_keeps

/-- Where all nodes have a history, no call fails but for want of a cell. -/
theorem books_serves : Books i k (fun L w => w.Serves i k L) (Lacks i k) where
  keeps h := h.keeps
  perm h := h.perm
  copy := copy_serves
  intersects := intersects_serves
  containsAll := containsAll_serves
  intersection := intersection_serves
  difference := difference_serves
  release h := (release_serves h).imp fun _ hend => ⟨hend.1, hend.2.1⟩
  release_left := release_lacks

namespace Books

variable {listed : Ledger → Workspace → Prop} {left : Ledger → Fault → Workspace → Prop}
variable {w : Workspace} {L E : Ledger}
variable (hbooks : Books i k listed left)
include hbooks

theorem releaseAll (h : listed (E ++ L) w) :
    ∃ w', LetterSet.releaseAll (E.map Prod.fst) w = .ok () w' ∧ listed L w' := by
  induction E generalizing w with
  | nil => exact ⟨w, rfl, h⟩
  | cons entry rest ih =>
      obtain ⟨w₁, hrun₁, hw₁⟩ := hbooks.release h
      obtain ⟨w₂, hrun₂, hw₂⟩ := ih hw₁
      exact ⟨w₂, (run_bind hrun₁).trans hrun₂, hw₂⟩

theorem releaseAll_left {fault : Fault} (h : left (E ++ L) fault w) :
    ∃ w', LetterSet.releaseAll (E.map Prod.fst) w = .ok () w' ∧ left L fault w' := by
  induction E generalizing w with
  | nil => exact ⟨w, rfl, h⟩
  | cons entry rest ih =>
      obtain ⟨w₁, hrun₁, hw₁⟩ := hbooks.release_left h
      obtain ⟨w₂, hrun₂, hw₂⟩ := ih hw₁
      exact ⟨w₂, (run_bind hrun₁).trans hrun₂, hw₂⟩

/-- An operation that failed with more sets in the list gives them back. -/
theorem onFault_releaseAll {β : Type} {x : WorkM β} {good : β → Workspace → Prop}
    (h : Outcome x w good (left (E ++ L))) :
    Outcome (onFault x (LetterSet.releaseAll (E.map Prod.fst))) w good (left L) := by
  refine onFault_outcome (h.mono (fun _ _ hend => hend) fun _ w₁ hw₁ => ?_)
  obtain ⟨w₂, hrun, hw₂⟩ := hbooks.releaseAll_left hw₁
  exact Outcome.of_run hrun hw₂

/-- An operation that failed with one more set in the list gives it back. -/
theorem onFault_release {β : Type} {x : WorkM β} {good : β → Workspace → Prop} {s : LetterSet}
    {A : Set Assignment} (h : Outcome x w good (left ((s, A) :: L))) :
    Outcome (onFault x s.release) w good (left L) := by
  refine onFault_outcome (h.mono (fun _ _ hend => hend) fun _ w₁ hw₁ => ?_)
  obtain ⟨w₂, hrun, hw₂⟩ := hbooks.release_left hw₁
  exact Outcome.of_run hrun hw₂

end Books

end LetterSet

end SymbolicOmega
