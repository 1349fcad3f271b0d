import SymbolicOmega.Proofs.Letters.Custody
import SymbolicOmega.Proofs.Letters.Refinement

/-!
# Calls and what others have

Whatever one user does to its own sets, the sets of the others stay in custody with what they
answer.  A call that fails leaves its user's own sets, too, as they were, but for the one that
was to be given back.
-/

namespace SymbolicOmega

namespace LetterSet

open Workspace

variable {w : Workspace} {owner k : Nat} {E L : Custody}

private theorem apply_adopts (operation : SetOperation) {L : Custody} {s t : LetterSet}
    {F G : Reading} (h : w.Retains owner k L) (hs : (s, F) ∈ L) (ht : (t, G) ∈ L) :
    Adopts (operation.apply s t) w owner k L := by
  cases operation with
  | intersection => exact intersection_adopts h hs ht
  | union => exact union_adopts h hs ht
  | difference => exact difference_adopts h hs ht

private theorem mergeWith_retains (operation : SetOperation) {L : Custody} {s t : LetterSet}
    {F G : Reading} (h : w.Retains owner k ((s, F) :: L)) (ht : (t, G) ∈ (s, F) :: L) :
    Outcome (operation.merge s t) w (fun s' w' => ∃ G, w'.Retains owner k ((s', G) :: L))
      (fun _ w' => w'.Retains owner k ((s, F) :: L)) := by
  cases operation with
  | intersection => exact retainAll_retains h ht
  | union => exact addAll_retains h ht
  | difference => exact removeAll_retains h ht

/-- The own sets are in custody with those of others. -/
def Entrusted (owner k : Nat) (L E : Custody) (w : Workspace) : Prop :=
  w.Retains owner k (E ++ L)

private theorem Entrusted.perm {E E' : Custody} {w : Workspace} (h : Entrusted owner k L E w)
    (hperm : E.Perm E') : Entrusted owner k L E' w :=
  Workspace.Retains.perm h (hperm.append_right L)

/-- The call keeps the sets of others, and its own user's when it fails. -/
def Call.Spares (owner k : Nat) (L E : Custody) (w : Workspace) (call : Call) : Prop :=
  Outcome (call.perform owner (E.map Prod.fst)) w (Columns (Entrusted owner k L) fun _ => True)
    (fun _ w' => Entrusted owner k L (call.left E) w')

private theorem made_spares {x : WorkM LetterSet} (hx : Adopts x w owner k (E ++ L)) :
    Outcome (do return (← x) :: E.map Prod.fst) w (Columns (Entrusted owner k L) fun _ => True)
      fun _ w' => Entrusted owner k L E w' := by
  apply made_columns
  apply hx.imp
  rintro s w' ⟨F, hw'⟩
  exact ⟨F, trivial, hw'⟩

private theorem mem_of_getElem? {i : Nat} {entry : LetterSet × Reading} (hi : E[i]? = some entry) :
    entry ∈ E ++ L :=
  List.mem_append_left L (List.mem_of_getElem? hi)

section Calls
variable (h : Entrusted owner k L E w)
include h

private theorem add_spares {i : Nat} {letter : BitSet} :
    (Call.add i letter).Spares owner k L E w := by
  apply select_outcome (fun _ _ => h)
  intro s F hi
  rw [List.eraseIdx_map]
  refine changed_columns (Entrusted owner k L) Entrusted.perm h hi fun hfront =>
    (add_retains hfront letter).imp ?_
  rintro s' w' ⟨G, hw'⟩
  exact ⟨G, trivial, hw'⟩

private theorem merge_spares {operation : SetOperation} {i j : Nat} :
    (Call.merge operation i j).Spares owner k L E w := by
  apply select₂_outcome (fun _ => h)
  intro s F t G hi hj
  rw [List.eraseIdx_map]
  have hlisted := (pick_perm hi).mem_iff.1 (List.mem_of_getElem? hj)
  refine changed_columns (Entrusted owner k L) Entrusted.perm h hi fun hfront =>
    (mergeWith_retains operation hfront (List.mem_append_left L hlisted)).imp ?_
  rintro s' w' ⟨H, hw'⟩
  exact ⟨H, trivial, hw'⟩

private theorem absorb_spares {i j : Nat} : (Call.absorb i j).Spares owner k L E w := by
  apply select_outcome (fun hi _ => by simpa only [Call.left, hi] using h)
  intro s F hi
  rw [List.eraseIdx_map]
  apply select_outcome (fun hj _ => by simpa only [Call.left, hi, hj] using h)
  intro t G hj
  rw [List.eraseIdx_map]
  simp only [Call.left, hi, hj]
  refine absorbed_columns (Entrusted owner k L) Entrusted.perm h hi hj fun hfront =>
    (absorb_retains hfront).imp ?_
  rintro s' w' ⟨H, hw'⟩
  exact ⟨H, trivial, hw'⟩

private theorem release_spares {i : Nat} : (Call.release i).Spares owner k L E w := by
  apply select_outcome (fun _ _ => h)
  intro s F hi
  exact released_columns (Entrusted owner k L) Entrusted.perm h hi trivial release_retains

private theorem containsAll_spares {i j : Nat} :
    (Call.containsAll i j).Spares owner k L E w := by
  apply select₂_outcome (fun _ => h)
  intro s F t G hi hj
  exact asked_columns trivial (containsAll_retains h (mem_of_getElem? hi) (mem_of_getElem? hj))

private theorem intersects_spares {i j : Nat} :
    (Call.intersects i j).Spares owner k L E w := by
  apply select₂_outcome (fun _ => h)
  intro s F t G hi hj
  exact asked_columns trivial (intersects_retains h (mem_of_getElem? hi) (mem_of_getElem? hj))

theorem Call.spares (call : Call) : call.Spares owner k L E w := by
  cases call with
  | empty => exact made_spares (empty_adopts h)
  | all => exact made_spares (all_adopts h)
  | singleton letter => exact made_spares (singleton_adopts h letter)
  | restricted letter alphabet => exact made_spares (restricted_adopts h letter alphabet)
  | proposition p => exact made_spares (proposition_adopts h p)
  | ofLetters letters => exact made_spares (ofLetters_adopts h letters)
  | add i letter => exact add_spares h
  | merge operation i j => exact merge_spares h
  | absorb i j => exact absorb_spares h
  | complement i =>
      exact select_outcome (fun _ _ => h) fun s F hi =>
        made_spares (complement_adopts h (mem_of_getElem? hi))
  | combine operation i j =>
      exact select₂_outcome (fun _ => h) fun s F t G hi hj =>
        made_spares (apply_adopts operation h (mem_of_getElem? hi) (mem_of_getElem? hj))
  | copy i =>
      exact select_outcome (fun _ _ => h) fun s F hi =>
        made_spares (copy_adopts h (mem_of_getElem? hi))
  | release i => exact release_spares h
  | containsAll i j => exact containsAll_spares h
  | intersects i j => exact intersects_spares h
  | collect =>
      exact Outcome.bind (Outcome.map ((collect_retains h).imp
        fun _ _ hw' => Outcome.pure ⟨E, rfl, trivial, hw'⟩))

end Calls

/-- A call keeps the sets of others, and its own user's when it fails. -/
theorem Call.perform_retains (call : Call) (h : w.Retains owner k (E ++ L)) :
    Outcome (call.perform owner (E.map Prod.fst)) w
      (fun sets' w' => ∃ E' : Custody, sets' = E'.map Prod.fst ∧ w'.Retains owner k (E' ++ L))
      (fun _ w' => w'.Retains owner k (call.left E ++ L)) := by
  apply (Call.spares h call).mono
  · rintro sets' w' ⟨E', rfl, -, hw'⟩
    exact ⟨E', rfl, hw'⟩
  · exact fun _ _ hw' => hw'

end LetterSet

end SymbolicOmega
