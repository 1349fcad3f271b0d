import Mathlib.Data.List.InsertIdx
import Mathlib.Data.List.Perm.Basic
import SymbolicOmega.Letters.Term
import SymbolicOmega.Proofs.Letters.Clash

/-!
# Letter sets are sets of letters

A program makes, changes, compares and gives back the sets of one factory in any
order, with collections wherever they fall due.  Beside it the same operations are
done on mathematical sets of letters.  As long as proposition numbers fit a signed
number of 32 bits the sets agree at every point, and beyond they do not.
-/

namespace SymbolicOmega

open Workspace

/-- The operation done to the first set itself. -/
def SetOperation.merge : SetOperation → LetterSet → LetterSet → WorkM LetterSet
  | intersection => LetterSet.retainAll
  | union => LetterSet.addAll
  | difference => LetterSet.removeAll

/-- The operation on mathematical sets. -/
def SetOperation.meaning {α : Type} : SetOperation → Set α → Set α → Set α
  | intersection => (· ∩ ·)
  | union => (· ∪ ·)
  | difference => (· \ ·)

namespace LetterSet

/-- An operation on the live sets, which are named by position.  New and changed sets come to
the front. -/
inductive Call where
  | empty
  | all
  | singleton (letter : BitSet)
  | restricted (letter alphabet : BitSet)
  | proposition (p : Nat)
  | ofLetters (letters : List BitSet)
  | add (i : Nat) (letter : BitSet)
  | merge (operation : SetOperation) (i j : Nat)
  /-- Add the set at `j` of the others to the set at `i` and give it back. -/
  | absorb (i j : Nat)
  | complement (i : Nat)
  | combine (operation : SetOperation) (i j : Nat)
  | copy (i : Nat)
  | release (i : Nat)
  | containsAll (i j : Nat)
  | intersects (i j : Nat)
  | collect

/-- The propositions, of the first `k`, that the operation makes literals of. -/
def Call.fixes (k : Nat) : Call → Set Nat
  | singleton _ | ofLetters _ | add _ _ => {p | p < k}
  | restricted _ alphabet => {p | alphabet.contains p = true ∧ p < k}
  | _ => ∅

/-- The propositions that the operation makes literals of have numbers that fit a signed number
of 32 bits. -/
def Call.Signed (k : Nat) (call : Call) : Prop :=
  ∀ p ∈ call.fixes k, p + 1 < 2 ^ 31

/-- The set at a position. -/
def select (sets : List LetterSet) (i : Nat) : WorkM LetterSet :=
  match sets[i]? with
  | some s => return s
  | none => throw .indexOutOfRange

/-- Do the operation in the factory at position `owner`.  Answers the sets that are live then. -/
def Call.perform (owner : Nat) (sets : List LetterSet) : Call → WorkM (List LetterSet)
  | empty => return (← LetterSet.empty owner) :: sets
  | all => return (← LetterSet.all owner) :: sets
  | singleton letter => return (← LetterSet.singleton owner letter) :: sets
  | restricted letter alphabet => return (← LetterSet.restricted owner letter alphabet) :: sets
  | proposition p => return (← LetterSet.proposition owner p) :: sets
  | ofLetters letters => return (← LetterSet.ofLetters owner letters) :: sets
  | add i letter => do
      let s ← select sets i
      return (← s.add letter) :: sets.eraseIdx i
  | merge operation i j => do
      let s ← select sets i
      let t ← select sets j
      return (← operation.merge s t) :: sets.eraseIdx i
  | absorb i j => do
      let s ← select sets i
      let t ← select (sets.eraseIdx i) j
      return (← s.absorb t) :: (sets.eraseIdx i).eraseIdx j
  | complement i => do
      let s ← select sets i
      return (← s.complement) :: sets
  | combine operation i j => do
      let s ← select sets i
      let t ← select sets j
      return (← operation.apply s t) :: sets
  | copy i => do
      let s ← select sets i
      return (← s.copy) :: sets
  | release i => do
      let s ← select sets i
      s.release
      return sets.eraseIdx i
  | containsAll i j => do
      let s ← select sets i
      let t ← select sets j
      discard (s.containsAll t)
      return sets
  | intersects i j => do
      let s ← select sets i
      let t ← select sets j
      discard (s.intersects t)
      return sets
  | collect => do
      discard (inFactory owner Factory.collect)
      return sets

/-- The live sets after the operation failed: a set that was to be given back is gone, and all
others are there as before. -/
def Call.left {α : Type} (sets : List α) : Call → List α
  | absorb i j =>
      match sets[i]?, (sets.eraseIdx i)[j]? with
      | some s, some _ => s :: (sets.eraseIdx i).eraseIdx j
      | _, _ => sets
  | _ => sets

/-- Do operations one after the other. -/
def performAll (owner : Nat) (calls : List Call) (sets : List LetterSet) :
    WorkM (List LetterSet) :=
  calls.foldlM (Call.perform owner) sets

section Meaning
variable {k : Nat}

/-- The mathematical set at a position. -/
def modelAt (models : List (Set (Letter k))) (i : Nat) : Set (Letter k) :=
  models[i]?.getD ∅

/-- What the operation does to mathematical sets of letters. -/
def Call.meaning (models : List (Set (Letter k))) : Call → List (Set (Letter k))
  | empty => ∅ :: models
  | all => Set.univ :: models
  | singleton letter => {letter.over k} :: models
  | restricted letter alphabet => agreeing (letter.over k) (alphabet.over k) :: models
  | proposition p => {x | ∃ hp : p < k, ⟨p, hp⟩ ∈ x} :: models
  | ofLetters letters => {x | ∃ letter ∈ letters, letter.over k = x} :: models
  | add i letter => (modelAt models i ∪ {letter.over k}) :: models.eraseIdx i
  | merge operation i j =>
      operation.meaning (modelAt models i) (modelAt models j) :: models.eraseIdx i
  | absorb i j =>
      (modelAt models i ∪ modelAt (models.eraseIdx i) j) :: (models.eraseIdx i).eraseIdx j
  | complement i => (modelAt models i)ᶜ :: models
  | combine operation i j => operation.meaning (modelAt models i) (modelAt models j) :: models
  | copy i => modelAt models i :: models
  | release i => models.eraseIdx i
  | containsAll _ _ | intersects _ _ | collect => models

def meaningAll (calls : List Call) (models : List (Set (Letter k))) : List (Set (Letter k)) :=
  calls.foldl Call.meaning models

/-- The live sets are the mathematical sets, one for one, and every question about them is
answered as for these. -/
structure Faithful (w : Workspace) (sets : List LetterSet) (models : List (Set (Letter k))) :
    Prop where
  length : sets.length = models.length
  contains : ∀ s A, (s, A) ∈ sets.zip models → ∀ letter,
    ∃ b, s.contains letter w = .ok b w ∧ (b = true ↔ letter.over k ∈ A)
  isEmpty : ∀ s A, (s, A) ∈ sets.zip models → (s.isEmpty = true ↔ A = ∅)
  isAll : ∀ s A, (s, A) ∈ sets.zip models → (s.isAll = true ↔ A = Set.univ)
  eq : ∀ s A t B, (s, A) ∈ sets.zip models → (t, B) ∈ sets.zip models → (s = t ↔ A = B)
  containsAll : ∀ s A t B, (s, A) ∈ sets.zip models → (t, B) ∈ sets.zip models →
    ∀ b w', s.containsAll t w = .ok b w' → (b = true ↔ B ⊆ A)
  intersects : ∀ s A t B, (s, A) ∈ sets.zip models → (t, B) ∈ sets.zip models →
    ∀ b w', s.intersects t w = .ok b w' → (b = true ↔ (A ∩ B).Nonempty)

end Meaning

/-! ## One operation -/

/-- What is at a position comes to the front. -/
theorem pick_perm {α : Type} {list : List α} {i : Nat} {a : α} (hi : list[i]? = some a) :
    list.Perm (a :: list.eraseIdx i) := by
  obtain ⟨hlt, rfl⟩ := List.getElem?_eq_some_iff.1 hi
  exact (List.getElem_cons_eraseIdx_perm hlt).symm

section Positions
variable {β γ : Type} {w : Workspace} {E : List (LetterSet × γ)} {i j : Nat}

/-- What is done with a set at a position is done with an entry of the list. -/
theorem select_outcome {f : LetterSet → WorkM β} {good : β → Workspace → Prop}
    {bad : Fault → Workspace → Prop} (hnone : E[i]? = none → ∀ fault, bad fault w)
    (hsome : ∀ s x, E[i]? = some (s, x) → Outcome (f s) w good bad) :
    Outcome (select (E.map Prod.fst) i >>= f) w good bad := by
  rw [select]
  cases hentry : E[i]? with
  | none =>
      simp only [List.getElem?_map, hentry, Option.map_none]
      exact Outcome.bind (Outcome.throw (hnone hentry _))
  | some entry =>
      simp only [List.getElem?_map, hentry, Option.map_some]
      exact Outcome.bind_ok rfl (hsome entry.1 entry.2 hentry)

/-- What is done with the sets at two positions. -/
theorem select₂_outcome {f : LetterSet → LetterSet → WorkM β} {good : β → Workspace → Prop}
    {bad : Fault → Workspace → Prop} (hnone : ∀ fault, bad fault w)
    (hsome : ∀ s x t y, E[i]? = some (s, x) → E[j]? = some (t, y) →
      Outcome (f s t) w good bad) :
    Outcome (do f (← select (E.map Prod.fst) i) (← select (E.map Prod.fst) j)) w good bad :=
  select_outcome (fun _ => hnone) fun s x hi =>
    select_outcome (fun _ => hnone) fun t y hj => hsome s x t y hi hj

end Positions

section Columns
variable {γ : Type} {w : Workspace} {kept : List (LetterSet × γ) → Workspace → Prop}
variable {allowed : List γ → Prop} {E : List (LetterSet × γ)} {x : WorkM LetterSet}

/-- The sets stand in the first column of a list that is kept, beside what is allowed. -/
def Columns (kept : List (LetterSet × γ) → Workspace → Prop) (allowed : List γ → Prop)
    (sets : List LetterSet) (w : Workspace) : Prop :=
  ∃ E, sets = E.map Prod.fst ∧ allowed (E.map Prod.snd) ∧ kept E w

/-- A new set comes to the front. -/
theorem made_columns
    (hx : Outcome x w (fun s w' => ∃ c, allowed (c :: E.map Prod.snd) ∧ kept ((s, c) :: E) w')
      fun _ w' => kept E w') :
    Outcome (do return (← x) :: E.map Prod.fst) w (Columns kept allowed)
      fun _ w' => kept E w' := by
  apply Outcome.andThen hx
  rintro s w' ⟨c, hc, hw'⟩
  exact Outcome.pure ⟨(s, c) :: E, rfl, hc, hw'⟩

/-- A question leaves everything as it is. -/
theorem asked_columns {y : WorkM Bool} (hallowed : allowed (E.map Prod.snd))
    (hy : Outcome y w (fun _ w' => kept E w') fun _ w' => kept E w') :
    Outcome (do discard y; return E.map Prod.fst) w (Columns kept allowed)
      fun _ w' => kept E w' :=
  Outcome.bind (Outcome.map (hy.imp fun _ _ hw' => Outcome.pure ⟨E, rfl, hallowed, hw'⟩))

variable (kept)
variable (hperm : ∀ {E E' w}, kept E w → E.Perm E' → kept E' w) (h : kept E w)
variable {i j : Nat} {s t : LetterSet} {c d : γ} (hi : E[i]? = some (s, c))
include hperm h hi

/-- A set is changed where it came to the front, and goes back if that fails. -/
theorem changed_columns
    (hx : kept ((s, c) :: E.eraseIdx i) w → Outcome x w
      (fun s' w' => ∃ c', allowed (c' :: (E.eraseIdx i).map Prod.snd) ∧
        kept ((s', c') :: E.eraseIdx i) w')
      fun _ w' => kept ((s, c) :: E.eraseIdx i) w') :
    Outcome (do return (← x) :: (E.eraseIdx i).map Prod.fst) w (Columns kept allowed)
      fun _ w' => kept E w' := by
  refine Outcome.bind ((hx (hperm h (pick_perm hi))).mono ?_ fun _ _ hw' =>
    hperm hw' (pick_perm hi).symm)
  rintro s' w' ⟨c', hc', hw'⟩
  exact Outcome.pure ⟨(s', c') :: E.eraseIdx i, rfl, hc', hw'⟩

/-- A set that was given back is gone. -/
theorem released_columns {y : WorkM Unit} (hallowed : allowed ((E.eraseIdx i).map Prod.snd))
    (hy : kept ((s, c) :: E.eraseIdx i) w → ∃ w', y w = .ok () w' ∧ kept (E.eraseIdx i) w') :
    Outcome (do y; return (E.map Prod.fst).eraseIdx i) w (Columns kept allowed)
      fun _ w' => kept E w' := by
  obtain ⟨w', hrun, hw'⟩ := hy (hperm h (pick_perm hi))
  exact Outcome.bind_ok hrun (Outcome.pure ⟨E.eraseIdx i, List.eraseIdx_map .., hallowed, hw'⟩)

/-- A set takes another one over, which is gone in any case. -/
theorem absorbed_columns (hj : (E.eraseIdx i)[j]? = some (t, d))
    (hx : kept ((s, c) :: (t, d) :: (E.eraseIdx i).eraseIdx j) w → Outcome x w
      (fun s' w' => ∃ c', allowed (c' :: ((E.eraseIdx i).eraseIdx j).map Prod.snd) ∧
        kept ((s', c') :: (E.eraseIdx i).eraseIdx j) w')
      fun _ w' => kept ((s, c) :: (E.eraseIdx i).eraseIdx j) w') :
    Outcome (do return (← x) :: ((E.eraseIdx i).eraseIdx j).map Prod.fst) w (Columns kept allowed)
      fun _ w' => kept ((s, c) :: (E.eraseIdx i).eraseIdx j) w' := by
  apply Outcome.andThen (hx (hperm h ((pick_perm hi).trans ((pick_perm hj).cons _))))
  rintro s' w' ⟨c', hc', hw'⟩
  exact Outcome.pure ⟨(s', c') :: (E.eraseIdx i).eraseIdx j, rfl, hc', hw'⟩

end Columns

section Steps
variable {k : Nat} {w : Workspace} {owner : Nat} {R : Ledger}

/-- Sets beside the letters that belong to them, as a ledger. -/
def ledger (E : List (LetterSet × Set (Letter k))) : Ledger :=
  E.map fun entry => (entry.1, Set.preimage (letterAt k) entry.2)

private theorem mem_ledger {E : List (LetterSet × Set (Letter k))} {s : LetterSet}
    {A : Set (Letter k)} (h : (s, A) ∈ E) :
    (s, Set.preimage (letterAt k) A) ∈ ledger E ++ R :=
  List.mem_append_left R
    (List.mem_map_of_mem (f := fun entry => (entry.1, Set.preimage (letterAt k) entry.2)) h)

/-- The live sets stand for the letters beside them, and the sets of others are there. -/
def Recorded (owner : Nat) (R : Ledger) (E : List (LetterSet × Set (Letter k))) (w : Workspace) :
    Prop :=
  w.Keeps owner k (ledger E ++ R)

private theorem Recorded.perm {E E' : List (LetterSet × Set (Letter k))} {w : Workspace}
    (h : Recorded owner R E w) (hperm : E.Perm E') : Recorded owner R E' w :=
  Workspace.Keeps.perm h ((hperm.map _).append_right R)

private theorem modelAt_map {E : List (LetterSet × Set (Letter k))} {i : Nat} {s : LetterSet}
    {A : Set (Letter k)} (h : E[i]? = some (s, A)) : modelAt (E.map Prod.snd) i = A := by
  simp [modelAt, h]

private theorem preimage_meaning (operation : SetOperation) (A B : Set (Letter k)) :
    operation.meaning (Set.preimage (letterAt k) A) (Set.preimage (letterAt k) B) =
      Set.preimage (letterAt k) (operation.meaning A B) := by
  cases operation <;> rfl

private theorem apply_keeps (operation : SetOperation) {i : Nat} {L : Ledger} {s t : LetterSet}
    {A B : Set Assignment} (h : w.Keeps i k L) (hs : (s, A) ∈ L) (ht : (t, B) ∈ L) :
    Outcome (operation.apply s t) w
      (fun u w' => w'.Keeps i k ((u, operation.meaning A B) :: L))
      (fun _ w' => w'.Keeps i k L) := by
  cases operation with
  | intersection => exact intersection_keeps h hs ht
  | union => exact union_keeps h hs ht
  | difference => exact difference_keeps h hs ht

private theorem merge_keeps' (operation : SetOperation) {i : Nat} {L : Ledger} {s t : LetterSet}
    {A B : Set Assignment} (h : w.Keeps i k ((s, A) :: L)) (ht : (t, B) ∈ (s, A) :: L) :
    Outcome (operation.merge s t) w
      (fun u w' => w'.Keeps i k ((u, operation.meaning A B) :: L))
      (fun _ w' => w'.Keeps i k ((s, A) :: L)) := by
  cases operation with
  | intersection => exact retainAll_keeps h ht
  | union => exact addAll_keeps h ht
  | difference => exact removeAll_keeps h ht

/-- The live sets and the mathematical sets are the two columns of one list, which the factory
keeps together with the sets of others. -/
def Agrees (owner : Nat) (R : Ledger) (w : Workspace) (sets : List LetterSet)
    (models : List (Set (Letter k))) : Prop :=
  Columns (Recorded owner R) (models = ·) sets w

theorem Call.left_map {α β : Type} (f : α → β) (sets : List α) (call : Call) :
    call.left (sets.map f) = (call.left sets).map f := by
  cases call with
  | absorb i j =>
      simp only [Call.left, List.eraseIdx_map, List.getElem?_map]
      cases sets[i]? <;> cases (sets.eraseIdx i)[j]? <;> rfl
  | _ => rfl

theorem Call.signed_of_lt (hk : k < 2 ^ 31) (call : Call) : call.Signed k := by
  have hlt : ∀ p ∈ call.fixes k, p < k := by
    cases call <;> simp [Call.fixes]
  intro p hp
  have hpk := hlt p hp
  omega

/-- If literals are made of all propositions, all of them have to fit. -/
private theorem lt_of_signed {call : Call} (hcall : call.Signed k)
    (hall : call.fixes k = {p | p < k}) : k < 2 ^ 31 := by
  cases k with
  | zero => decide
  | succ n => exact hcall n (hall ▸ Nat.lt_succ_self n)

/-- The call does to the live sets what it does to the mathematical ones, and if it fails it takes
no more away than what was to be given back. -/
def Call.Refines (owner : Nat) (R : Ledger) (E : List (LetterSet × Set (Letter k)))
    (w : Workspace) (call : Call) : Prop :=
  Outcome (call.perform owner (E.map Prod.fst)) w
    (fun sets w' => Agrees owner R w' sets (call.meaning (E.map Prod.snd)))
    (fun _ w' => Recorded owner R (call.left E) w')

section Calls
variable {E : List (LetterSet × Set (Letter k))}

private theorem made_agrees {x : WorkM LetterSet} {A : Set (Letter k)}
    (hx : Outcome x w
      (fun s w' => w'.Keeps owner k ((s, Set.preimage (letterAt k) A) :: (ledger E ++ R)))
      fun _ w' => w'.Keeps owner k (ledger E ++ R)) :
    Outcome (do return (← x) :: E.map Prod.fst) w
      (fun sets w' => Agrees owner R w' sets (A :: E.map Prod.snd))
      fun _ w' => Recorded owner R E w' :=
  made_columns (hx.imp fun _ _ hw' => ⟨A, rfl, hw'⟩)

private theorem run_agrees {x : WorkM LetterSet} {A : Set (Letter k)}
    (hx : ∃ s w', x w = .ok s w' ∧
      w'.Keeps owner k ((s, Set.preimage (letterAt k) A) :: (ledger E ++ R))) :
    Outcome (do return (← x) :: E.map Prod.fst) w
      (fun sets w' => Agrees owner R w' sets (A :: E.map Prod.snd))
      fun _ w' => Recorded owner R E w' := by
  obtain ⟨s, w', hrun, hw'⟩ := hx
  exact made_agrees (Outcome.of_run hrun hw')

variable (hE : Recorded owner R E w)
include hE

private theorem add_refines {i : Nat} {letter : BitSet} (hk : k < 2 ^ 31) :
    (Call.add i letter).Refines owner R E w := by
  apply select_outcome (fun _ _ => hE)
  intro s A hi
  rw [Call.meaning, modelAt_map hi, List.eraseIdx_map, List.eraseIdx_map]
  exact changed_columns (Recorded owner R) Recorded.perm hE hi fun hfront =>
    (add_keeps hk hfront letter).imp fun _ _ hw' => ⟨_, rfl, hw'⟩

private theorem merge_refines {operation : SetOperation} {i j : Nat} :
    (Call.merge operation i j).Refines owner R E w := by
  apply select₂_outcome (fun _ => hE)
  intro s A t B hi hj
  rw [Call.meaning, modelAt_map hi, modelAt_map hj, List.eraseIdx_map, List.eraseIdx_map]
  have hlisted := (pick_perm hi).mem_iff.1 (List.mem_of_getElem? hj)
  refine changed_columns (Recorded owner R) Recorded.perm hE hi fun hfront =>
    (merge_keeps' operation hfront (mem_ledger hlisted)).imp fun _ _ hw' => ⟨_, rfl, ?_⟩
  rwa [preimage_meaning] at hw'

private theorem absorb_refines {i j : Nat} : (Call.absorb i j).Refines owner R E w := by
  apply select_outcome (fun hi _ => by simpa only [Call.left, hi] using hE)
  intro s A hi
  rw [Call.meaning, modelAt_map hi]
  simp only [List.eraseIdx_map]
  apply select_outcome (fun hj _ => by simpa only [Call.left, hi, hj] using hE)
  intro t B hj
  rw [modelAt_map hj]
  simp only [Call.left, hi, hj]
  exact absorbed_columns (Recorded owner R) Recorded.perm hE hi hj fun hfront =>
    (absorb_keeps hfront).imp fun _ _ hw' => ⟨_, rfl, hw'⟩

private theorem complement_refines {i : Nat} : (Call.complement i).Refines owner R E w := by
  apply select_outcome (fun _ _ => hE)
  intro s A hi
  rw [Call.meaning, modelAt_map hi]
  exact run_agrees (complement_keeps hE (mem_ledger (List.mem_of_getElem? hi)))

private theorem combine_refines {operation : SetOperation} {i j : Nat} :
    (Call.combine operation i j).Refines owner R E w := by
  apply select₂_outcome (fun _ => hE)
  intro s A t B hi hj
  rw [Call.meaning, modelAt_map hi, modelAt_map hj]
  have happly := apply_keeps operation hE (mem_ledger (List.mem_of_getElem? hi))
    (mem_ledger (List.mem_of_getElem? hj))
  rw [preimage_meaning] at happly
  exact made_agrees happly

private theorem copy_refines {i : Nat} : (Call.copy i).Refines owner R E w := by
  apply select_outcome (fun _ _ => hE)
  intro s A hi
  rw [Call.meaning, modelAt_map hi]
  exact run_agrees (copy_keeps hE (mem_ledger (List.mem_of_getElem? hi)))

private theorem release_refines {i : Nat} : (Call.release i).Refines owner R E w := by
  apply select_outcome (fun _ _ => hE)
  intro s A hi
  exact released_columns (Recorded owner R) Recorded.perm hE hi (List.eraseIdx_map ..) release_keeps

private theorem containsAll_refines {i j : Nat} : (Call.containsAll i j).Refines owner R E w := by
  apply select₂_outcome (fun _ => hE)
  intro s A t B hi hj
  exact asked_columns rfl ((containsAll_keeps hE (mem_ledger (List.mem_of_getElem? hi))
    (mem_ledger (List.mem_of_getElem? hj))).imp fun _ _ hw' => hw'.1)

private theorem intersects_refines {i j : Nat} : (Call.intersects i j).Refines owner R E w := by
  apply select₂_outcome (fun _ => hE)
  intro s A t B hi hj
  exact asked_columns rfl ((intersects_keeps hE (mem_ledger (List.mem_of_getElem? hi))
    (mem_ledger (List.mem_of_getElem? hj))).imp fun _ _ hw' => hw'.1)

theorem Call.refines {call : Call} (hcall : call.Signed k) : call.Refines owner R E w := by
  cases call with
  | empty => exact run_agrees (empty_keeps hE)
  | all => exact run_agrees (all_keeps hE)
  | singleton letter => exact made_agrees (singleton_keeps (lt_of_signed hcall rfl) hE letter)
  | restricted letter alphabet =>
      exact made_agrees (restricted_keeps hE letter alphabet fun p hp hpk => hcall p ⟨hp, hpk⟩)
  | proposition p => exact made_agrees (proposition_keeps hE p)
  | ofLetters letters => exact made_agrees (ofLetters_keeps (lt_of_signed hcall rfl) hE letters)
  | add i letter => exact add_refines hE (lt_of_signed hcall rfl)
  | merge operation i j => exact merge_refines hE
  | absorb i j => exact absorb_refines hE
  | complement i => exact complement_refines hE
  | combine operation i j => exact combine_refines hE
  | copy i => exact copy_refines hE
  | release i => exact release_refines hE
  | containsAll i j => exact containsAll_refines hE
  | intersects i j => exact intersects_refines hE
  | collect =>
      exact Outcome.bind (Outcome.map ((collect_keeps hE).imp
        fun _ _ hw' => Outcome.pure ⟨E, rfl, rfl, hw'⟩))

end Calls

/-- One operation does to the live sets what it does to the mathematical ones, and if it fails
it takes no more away than what was to be given back. -/
theorem perform_agrees {call : Call} (hcall : call.Signed k) {sets : List LetterSet}
    {models : List (Set (Letter k))} (h : Agrees owner R w sets models) :
    Outcome (call.perform owner sets) w
      (fun sets' w' => Agrees owner R w' sets' (call.meaning models))
      (fun _ w' => Agrees owner R w' (call.left sets) (call.left models)) := by
  obtain ⟨E, rfl, rfl, hE⟩ := h
  rw [Call.left_map, Call.left_map]
  exact (Call.refines hE hcall).mono (fun _ _ hend => hend) fun _ _ hw' =>
    ⟨call.left E, rfl, rfl, hw'⟩

/-- A run does to the live sets what it does to the mathematical ones. -/
theorem performAll_agrees (hk : k < 2 ^ 31) {sets : List LetterSet}
    {models : List (Set (Letter k))} (h : Agrees owner R w sets models) (calls : List Call) :
    Outcome (performAll owner calls sets) w
      (fun sets' w' => Agrees owner R w' sets' (meaningAll calls models)) (fun _ _ => True) := by
  induction calls generalizing w sets models with
  | nil => exact Outcome.pure h
  | cons call rest ih =>
      rw [performAll, List.foldlM_cons]
      exact Outcome.bind_answers (perform_agrees (call.signed_of_lt hk) h) fun _ _ hw' => ih hw'

theorem Agrees.faithful (hk : k < 2 ^ 31) {sets : List LetterSet}
    {models : List (Set (Letter k))} (h : Agrees owner R w sets models) :
    Faithful w sets models := by
  obtain ⟨E, rfl, rfl, hE⟩ := h
  have hzip : (E.map Prod.fst).zip (E.map Prod.snd) = E := by
    rw [List.zip_map', List.map_id'']
    exact fun _ => rfl
  have hsurjective : Function.Surjective (letterAt k) := exists_letterAt hk
  refine ⟨by simp, ?_, ?_, ?_, ?_, ?_, ?_⟩ <;> rw [hzip]
  · intro s A hs letter
    obtain ⟨b, hb, hmem⟩ := contains_run hE (mem_ledger hs) letter
    refine ⟨b, hb, ?_⟩
    rw [hmem, Set.mem_preimage, letterAt_assignment hk]
  · intro s A hs
    rw [isEmpty_iff hE (mem_ledger hs), ← Set.preimage_empty (f := letterAt k),
      preimage_letterAt_inj hk]
  · intro s A hs
    rw [isAll_iff hE (mem_ledger hs), ← Set.preimage_univ (f := letterAt k),
      preimage_letterAt_inj hk]
  · intro s A t B hs ht
    rw [eq_iff hE (mem_ledger hs) (mem_ledger ht), preimage_letterAt_inj hk]
  · intro s A t B hs ht b w' hrun
    have hanswer := (containsAll_keeps hE (mem_ledger hs) (mem_ledger ht)).of_ok hrun
    rw [hanswer.2, hsurjective.preimage_subset_preimage_iff]
  · intro s A t B hs ht b w' hrun
    have hanswer := (intersects_keeps hE (mem_ledger hs) (mem_ledger ht)).of_ok hrun
    rw [hanswer.2, ← Set.preimage_inter]
    exact ⟨Set.nonempty_of_nonempty_preimage, fun hshared => hshared.preimage hsurjective⟩

end Steps

/-! ## Propositions beyond signed numbers -/

section Clash

/-- The first proposition whose literal does not fix its own variable. -/
private def clash : Nat := 2 ^ 31 - 1

/-- The cube that is made of it: the number of its variable is the least signed number. -/
private def clashCube : List Manager.Literal := [⟨Int32.minValue⟩]

private theorem clashCube_run :
    ∃ r m, Manager.mkCube clashCube smallManager = .ok r m := by
  have hsingle : ¬ Manager.Overflows clashCube := by decide
  rw [Manager.mkCube, if_neg hsingle, clashCube, List.mergeSort_singleton]
  exact ⟨_, _, rfl⟩

variable {k : Nat} {letter : BitSet} (hk : 2 ^ 31 ≤ k) (hlist : letter.toList = [clash])
variable (hmem : letter.contains clash = true)
include hk hlist hmem

private theorem clash_literals :
    (letter.toList.filter (· < k)).map (Factory.literal letter) = clashCube := by
  have hlt : clash < k := by
    rw [clash]
    omega
  simp only [hlist, List.filter_cons, hlt, decide_true, if_true, List.filter_nil,
    List.map_cons, List.map_nil, Factory.literal, hmem]
  rfl

private theorem restricted_clash_run :
    ∃ r w, restricted 0 letter letter (ofFactories [factoryOver k]) = .ok ⟨0, r⟩ w := by
  obtain ⟨r, m, hcube⟩ := clashCube_run
  have hfixed : (letter.toList.filter (· < k)).any (Factory.overflows letter) = false := by
    rw [List.any_eq_false]
    intro p hp
    rw [List.mem_filter, hlist, List.mem_singleton] at hp
    rw [Factory.overflows, hp.1, hmem]
    exact Bool.false_ne_true
  obtain ⟨-, w, hrun, -⟩ := restricted_run hfixed (clash_literals hk hlist hmem) hcube
  exact ⟨r, w, hrun⟩

/-- What is made means the letters without the proposition. -/
private theorem restricted_clash_keeps {w : Workspace} (hw : w.Keeps 0 k []) :
    Outcome (restricted 0 letter letter) w
      (fun s w' => w'.Keeps 0 k [(s, {a | Manager.satisfies clashCube a = true})])
      (fun _ w' => w'.Keeps 0 k []) := by
  refine make_keeps hw fun f hf =>
    Factory.holding_holds (Factory.safePoint_makes hf fun f hf => ?_)
  rw [← clash_literals hk hlist hmem]
  apply Factory.cube_builds hf
  rw [clash_literals hk hlist hmem]
  exact List.nodup_singleton _

/-- The letter with this proposition alone does not belong to its own set. -/
private theorem clash_not_faithful :
    ∃ sets w, performAll 0 [.restricted letter letter] []
        (ofFactories [factoryOver k]) = .ok sets w ∧
      ¬ Faithful w sets
        (meaningAll [.restricted letter letter] ([] : List (Set (Letter k)))) := by
  obtain ⟨r, w, hmake⟩ := restricted_clash_run hk hlist hmem
  have hstart : (ofFactories [factoryOver k]).Keeps 0 k [] :=
    ⟨by simp, _, rfl, Factory.ofSizing_holds (ofSizing_small k)⟩
  have hkeeps := (restricted_clash_keeps hk hlist hmem hstart).of_ok hmake
  have hperform : Call.perform 0 [] (.restricted letter letter)
      (ofFactories [factoryOver k]) = .ok [⟨0, r⟩] w := by
    calc
      Call.perform 0 [] (.restricted letter letter) (ofFactories [factoryOver k]) =
          (return [⟨0, r⟩] : WorkM (List LetterSet)) w := run_bind hmake
      _ = .ok [⟨0, r⟩] w := rfl
  have hrun : performAll 0 [.restricted letter letter] []
      (ofFactories [factoryOver k]) = .ok [⟨0, r⟩] w := by
    rw [performAll, List.foldlM_cons, run_bind hperform]
    rfl
  refine ⟨[⟨0, r⟩], w, hrun, fun hfaithful => ?_⟩
  obtain ⟨b, hb, hin⟩ := contains_run hkeeps List.mem_cons_self letter
  obtain ⟨b', hb', hin'⟩ := hfaithful.contains _ _ List.mem_cons_self letter
  have hbelongs : b' = true := hin'.2 fun p _ => Iff.rfl
  have hout : b ≠ true := by
    have hvariable : (⟨Int32.minValue⟩ : Manager.Literal).var.toNat - 1 = clash := rfl
    have hpositive : (⟨Int32.minValue⟩ : Manager.Literal).positive = false := rfl
    rw [Ne, hin]
    simp [Manager.satisfies, clashCube, BitSet.assignment, hvariable, hpositive, hmem]
  rw [hb] at hb'
  cases hb'
  exact hout hbelongs

end Clash

/-- Letter sets are sets of letters.  For every sizing of the tables, and so wherever
collections fall due, every run of operations that does not fail leaves exactly the
mathematical sets, and all questions about them are answered rightly, if and only if the
propositions of the alphabet are numbered below `2 ^ 31`. -/
theorem performAll_faithful_iff (k : Nat) :
    (∀ (sizing : Sizing) (f : Factory) (calls : List Call) (sets : List LetterSet)
        (w : Workspace), Factory.ofSizing k sizing = .ok f →
      performAll 0 calls [] (ofFactories [f]) = .ok sets w →
      Faithful w sets (meaningAll calls ([] : List (Set (Letter k))))) ↔ k < 2 ^ 31 := by
  constructor
  · intro h
    apply Nat.lt_of_not_le
    intro hk
    obtain ⟨letter, hlist⟩ := exists_alphabet (List.pairwise_singleton (· < ·) clash)
    have hmem : letter.contains clash = true :=
      BitSet.mem_toList.1 (hlist ▸ List.mem_singleton_self clash)
    obtain ⟨sets, w, hrun, hfaithful⟩ := clash_not_faithful hk hlist hmem
    exact hfaithful (h ⟨3, 2, 5⟩ _ _ sets w (ofSizing_small k) hrun)
  · intro hk sizing f calls sets w hnew hrun
    have hstart : Agrees 0 [] (ofFactories [f]) [] ([] : List (Set (Letter k))) :=
      ⟨[], rfl, rfl, by simp [ledger], f, rfl, Factory.ofSizing_holds hnew⟩
    exact ((performAll_agrees hk hstart calls).of_ok hrun).faithful hk

end LetterSet

end SymbolicOmega
