import SymbolicOmega.Proofs.Acceptance.Insertion
import SymbolicOmega.Proofs.Letters.Alphabet

/-!
# What was added to a set of transitions

A record lists, for a set of transitions, the letters that were added at each state.  The labels of
the set cover at each state what the record lists there: letters that are added go into the record,
a copy has the same record, and the last holder gives back the labels and nothing else.
-/

namespace SymbolicOmega

open Workspace

namespace TransitionSet

variable {S : Type}

/-! ## Records -/

/-- What was added to a set of transitions, one entry after the other: at a state some letters. -/
abbrev Insertions (S : Type) := List (S × Set BitSet)

/-- The letter was added at the state. -/
def Insertions.Has (H : Insertions S) (state : S) (letter : BitSet) : Prop :=
  ∃ entry ∈ H, entry.1 = state ∧ letter ∈ entry.2

theorem Insertions.has_append_singleton {H : Insertions S} {state x : S} {letters : Set BitSet}
    {letter : BitSet} :
    (H ++ [(state, letters)]).Has x letter ↔ H.Has x letter ∨ state = x ∧ letter ∈ letters := by
  simp [Has, or_and_right, exists_or]

section
variable [DecidableEq S]

/-! ## Accounts of a record -/

/-- The accounts `T` of the labels of a set cover what was added to it. -/
structure Records (k owner : Nat) (T : LabelAccounts S) (set : TransitionSet S)
    (H : Insertions S) : Prop where
  labels : set.labels = T.labels
  owner_eq : set.owner = owner
  states : T.map Prod.fst = (H.map Prod.fst).eraseDups
  covered : ∀ state (letter : BitSet), letter.assignment ∈ T.covered state ↔ H.Has state letter
  byLetters : ∀ state, ByLetters k (T.covered state)

namespace Records

variable {k owner : Nat} {T T' : LabelAccounts S} {set set' : TransitionSet S} {H : Insertions S}

theorem distinct (h : Records k owner T set H) : (T.map Prod.fst).Nodup :=
  h.states ▸ nodup_eraseDups _

theorem states_eq (h : Records k owner T set H) : set.states = (H.map Prod.fst).eraseDups := by
  rw [← h.states, TransitionSet.states, h.labels]
  simp [LabelAccounts.labels]

theorem empty (k owner ticket : Nat) : Records k owner ([] : LabelAccounts S) ⟨ticket, owner, []⟩ []
    where
  labels := rfl
  owner_eq := rfl
  states := rfl
  covered state letter := by simp [LabelAccounts.covered, Insertions.Has]
  byLetters _ := ByLetters.empty k

/-- More letters at a state go into the record. -/
theorem add (h : Records k owner T set H) {state : S} {A : Set Assignment} {letters : Set BitSet}
    (hletters : ∀ letter, letter ∈ letters ↔ letter.assignment ∈ A) (hA : ByLetters k A)
    (hlabels : set'.labels = T'.labels) (howner : set'.owner = set.owner)
    (hstates : T'.map Prod.fst = if state ∈ T.map Prod.fst then T.map Prod.fst
      else T.map Prod.fst ++ [state])
    (hcovered : T'.covered = Function.update T.covered state (T.covered state ∪ A)) :
    Records k owner T' set' (H ++ [(state, letters)]) where
  labels := hlabels
  owner_eq := howner.trans h.owner_eq
  states := by
    rw [hstates, List.map_append, List.map_singleton, eraseDups_append_singleton, h.states]
    simp only [List.mem_eraseDups]
  covered x letter := by
    rw [hcovered, Insertions.has_append_singleton, hletters, ← h.covered]
    by_cases hx : x = state
    · subst hx
      simp
    · simp [hx, Ne.symm hx]
  byLetters x := by
    rw [hcovered]
    by_cases hx : x = state
    · subst hx
      simpa using (h.byLetters x).union hA
    · simpa [hx] using h.byLetters x

end Records

section Adding
variable {k owner : Nat} {T : LabelAccounts S} {set : TransitionSet S} {H : Insertions S}
variable {w : Workspace} {R : Ledger}

/-- The books of a factory that has other sets, too. -/
theorem books_serves (k owner : Nat) (R : Ledger) :
    LabelAccounts.Books (fun L w => w.Serves owner k (Account.ledger L ++ R))
      (fun L => Lacks owner k (Account.ledger L ++ R)) where
  perm h hperm := h.perm ((hperm.map _).append_right R)
  left_perm h hperm := h.perm ((hperm.map _).append_right R)
  absorb {own _ _ _} h := (LetterSet.absorb_serves h).imp fun _ _ hw' => ⟨own.answers, hw'⟩

theorem insert_records (hrecords : Records k owner T set H) {label : LetterSet}
    {A : Set Assignment} {letters : Set BitSet}
    (hletters : ∀ letter, letter ∈ letters ↔ letter.assignment ∈ A) (hA : ByLetters k A)
    (h : w.Serves owner k ((label, A) :: (Account.ledger T.listed ++ R))) (state : S) :
    Outcome (set.insert state label) w
      (fun set' w' => ∃ T', Records k owner T' set' (H ++ [(state, letters)]) ∧
        w'.Serves owner k (Account.ledger T'.listed ++ R))
      (Lacks owner k (Account.ledger T.listed ++ R)) := by
  have hlisted : w.Serves owner k
      (Account.ledger (⟨label, readingOf A, A⟩ :: (T.listed ++ [])) ++ R) := by
    rwa [List.append_nil]
  refine (insert_outcome (books_serves k owner R) hrecords.labels hlisted).mono ?_
    fun fault w' hw' => by rwa [List.append_nil] at hw'
  rintro set' w' ⟨T', hlabels, howner, hstates, hcovered, hw'⟩
  rw [List.append_nil] at hw'
  exact ⟨T', hrecords.add hletters hA hlabels howner hstates hcovered, hw'⟩

theorem insertAll_records (hrecords : Records k owner T set H)
    (h : w.Serves owner k (Account.ledger T.listed ++ R)) (state : S) :
    Outcome (set.insertAll state) w
      (fun set' w' => ∃ T', Records k owner T' set' (H ++ [(state, Set.univ)]) ∧
        w'.Serves owner k (Account.ledger T'.listed ++ R))
      (Lacks owner k (Account.ledger T.listed ++ R)) := by
  obtain ⟨label, w₁, hall, hw₁⟩ := LetterSet.all_serves h
  rw [insertAll, hrecords.owner_eq]
  exact Outcome.bind_ok hall
    (insert_records hrecords (fun _ => Iff.rfl) (ByLetters.univ k) hw₁ state)

end Adding

section Copying
variable {k owner : Nat} {T T' : LabelAccounts S} {set own : TransitionSet S} {H : Insertions S}
variable {w : Workspace} {L : Ledger}

/-- What is covered depends on the states and the assignments alone. -/
theorem covered_congr (hsame : T'.map (fun entry => (entry.1, entry.2.assignments)) =
    T.map fun entry => (entry.1, entry.2.assignments)) : T'.covered = T.covered := by
  have hlookup : ∀ (U : LabelAccounts S) (state : S), U.covered state =
      ((U.map fun entry => (entry.1, entry.2.assignments)).lookup state).getD ∅ := by
    intro U state
    induction U with
    | nil => rfl
    | cons entry rest ih =>
        obtain ⟨x, account⟩ := entry
        cases hx : state == x with
        | true => simp [LabelAccounts.covered, List.lookup_cons, hx]
        | false => simpa [LabelAccounts.covered, List.lookup_cons, hx] using ih
  funext state
  rw [hlookup, hlookup, hsame]

theorem Records.of_copies (h : Records k owner T set H) (hlabels : own.labels = T'.labels)
    (howner : own.owner = set.owner) (hsame : T'.map (fun entry => (entry.1, entry.2.assignments)) =
      T.map fun entry => (entry.1, entry.2.assignments)) : Records k owner T' own H where
  labels := hlabels
  owner_eq := howner.trans h.owner_eq
  states := by
    have hstates := congrArg (List.map Prod.fst) hsame
    simp only [List.map_map, Function.comp_def] at hstates
    exact hstates.trans h.states
  covered := covered_congr hsame ▸ h.covered
  byLetters := covered_congr hsame ▸ h.byLetters

omit [DecidableEq S] in
theorem copyLabels_serves {T : LabelAccounts S} {w : Workspace} (h : w.Serves owner k L)
    (hlisted : Account.ledger T.listed ⊆ L) :
    ∃ (T' : LabelAccounts S) (w' : Workspace),
      (T.labels.mapM fun entry => do return (entry.1, ← entry.2.copy) :
        WorkM (List (S × LetterSet))) w = .ok T'.labels w' ∧
      T'.map (fun entry => (entry.1, entry.2.assignments)) =
        T.map (fun entry => (entry.1, entry.2.assignments)) ∧
      w'.Serves owner k (Account.ledger T'.listed ++ L) := by
  induction T generalizing w L with
  | nil => exact ⟨[], w, rfl, rfl, h⟩
  | cons entry rest ih =>
      obtain ⟨hentry, hrest⟩ := List.cons_subset.1 hlisted
      obtain ⟨copy, w₁, hcopy, hw₁⟩ := LetterSet.copy_serves h hentry
      obtain ⟨T', w₂, hcopies, hsame, hw₂⟩ := ih hw₁ (List.subset_cons_of_subset _ hrest)
      refine ⟨(entry.1, ⟨copy, entry.2.answers, entry.2.assignments⟩) :: T', w₂, ?_,
        congrArg (List.cons _) hsame, hw₂.perm List.perm_middle⟩
      have hfirst : (do return (entry.1, ← entry.2.set.copy) : WorkM (S × LetterSet)) w =
          .ok (entry.1, copy) w₁ := run_bind hcopy
      have hlabels : LabelAccounts.labels (entry :: rest) =
          (entry.1, entry.2.set) :: LabelAccounts.labels rest := rfl
      rw [hlabels, List.mapM_cons, run_bind hfirst, run_bind hcopies]
      rfl

/-- A copy has the same record. -/
theorem copy_records (hrecords : Records k owner T set H) (h : w.Serves owner k L)
    (hlisted : Account.ledger T.listed ⊆ L) :
    ∃ (own : TransitionSet S) (T' : LabelAccounts S) (w' : Workspace),
      set.copy w = .ok own w' ∧ Records k owner T' own H ∧
        w'.Serves owner k (Account.ledger T'.listed ++ L) := by
  obtain ⟨T', w₁, hcopies, hsame, hkeeps, hhistory⟩ := copyLabels_serves h hlisted
  rw [← hrecords.labels] at hcopies
  exact ⟨⟨w₁.nextTicket, set.owner, T'.labels⟩, T', _, run_bind hcopies,
    hrecords.of_copies rfl rfl hsame, hkeeps.of_factory rfl, hhistory⟩

end Copying

section LettingGo
variable {k owner : Nat} {T : LabelAccounts S} {set : TransitionSet S} {H : Insertions S}
variable {w : Workspace} {R : Ledger}

/-- The last holder gives the labels back. -/
theorem letGo_serves (hrecords : Records k owner T set H)
    (h : w.Serves owner k (Account.ledger T.listed ++ R))
    (hlast : w.holders.count set.ticket ≤ 1) :
    ∃ w', set.letGo w = .ok () w' ∧ w'.Serves owner k R := by
  have hgone : (w.holders.erase set.ticket).count set.ticket = 0 := by
    rw [List.count_erase_self]
    omega
  have hdrop : Workspace.letGo set.ticket w = .ok ((w.holders.erase set.ticket).count set.ticket)
      ⟨w.factories, w.holders.erase set.ticket, w.nextTicket⟩ := rfl
  rw [TransitionSet.letGo, run_bind hdrop, if_pos hgone, hrecords.labels]
  obtain ⟨w', hrelease, hw', -⟩ := LetterSet.releaseAll_serves
    (w := ⟨w.factories, w.holders.erase set.ticket, w.nextTicket⟩)
    ⟨h.keeps.of_factory rfl, h.history⟩
  have hlabels : T.labels.map Prod.snd = (Account.ledger T.listed).map Prod.fst := by
    simp [Account.ledger, LabelAccounts.listed, LabelAccounts.labels]
  exact ⟨w', hlabels ▸ hrelease, hw'⟩

end LettingGo

end

end TransitionSet

end SymbolicOmega
