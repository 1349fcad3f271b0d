import SymbolicOmega.Proofs.Letters.Calls

/-!
# Accounts

A set in custody is entered with what it answers, which holds over alphabets of any size, and with
the assignments it is made of, which it answers rightly for as long as proposition numbers fit a
signed number of 32 bits.  Both columns are kept by every operation, at either end.
-/

namespace SymbolicOmega

open Classical in
/-- What a set of these assignments answers. -/
noncomputable def readingOf (A : Set Assignment) : Reading :=
  fun letter => .ok (decide (letter.assignment ∈ A))

theorem readingOf_of_iff {A : Set Assignment} {letter : BitSet} {b : Bool}
    (h : b = true ↔ letter.assignment ∈ A) : readingOf A letter = .ok b := by
  classical
  rw [readingOf, Bool.eq_iff_iff.2 (decide_eq_true_iff.trans h.symm)]

/-- A set with what it answers and the assignments it is made of. -/
structure Account where
  set : LetterSet
  answers : Reading
  assignments : Set Assignment

namespace Account

def custody (L : List Account) : Custody :=
  L.map fun account => (account.set, account.answers)

def ledger (L : List Account) : Ledger :=
  L.map fun account => (account.set, account.assignments)

/-- The accounts are made of these sets of letters. -/
def Means {k : Nat} (L : List Account) (models : List (Set (Letter k))) : Prop :=
  L.map assignments = models.map (Set.preimage (letterAt k))

variable (L L' : List Account)

theorem custody_append : custody (L ++ L') = custody L ++ custody L' := List.map_append

theorem ledger_append : ledger (L ++ L') = ledger L ++ ledger L' := List.map_append

theorem sets_custody : (custody L).map Prod.fst = L.map Account.set := by simp [custody]

end Account

namespace Workspace

/-- The factory at position `i`, over `k` propositions, has exactly the listed sets. -/
structure Tends (w : Workspace) (i k : Nat) (L : List Account) : Prop where
  retains : w.Retains i k (Account.custody L)
  keeps : k < 2 ^ 31 → w.Keeps i k (Account.ledger L)

variable {w : Workspace} {i k : Nat} {L L' : List Account}

theorem Tends.perm (h : w.Tends i k L) (hperm : L.Perm L') : w.Tends i k L' :=
  ⟨h.retains.perm (hperm.map _), fun hk => (h.keeps hk).perm (hperm.map _)⟩

/-- What is in the ledger is in custody, and answers what it means. -/
theorem Keeps.retains {L : Ledger} (h : w.Keeps i k L) :
    w.Retains i k (L.map fun entry => (entry.1, readingOf entry.2)) := by
  obtain ⟨f, hf, hholds⟩ := h.holds
  refine ⟨?_, f, hf, hholds.alphabet, hholds.canonical.closed, fun _ => hholds.canonical, ?_,
    ?_, ?_⟩
  · exact List.forall_mem_map.2 h.owner
  · simpa [Ledger.roots, Custody.roots, Function.comp_def] using hholds.held
  · simp only [Custody.roots, List.mem_map, forall_exists_index, and_imp,
      forall_apply_eq_imp_iff₂]
    exact fun entry hentry => (LetterSet.means_of_mem hholds hentry).1
  · simp only [Custody.roots, List.mem_map, forall_exists_index, and_imp,
      forall_apply_eq_imp_iff₂]
    intro entry hentry
    funext letter
    obtain ⟨b, hb, hmem⟩ :=
      (LetterSet.means_of_mem hholds hentry).holdsIn hholds.canonical.reduced letter
    rw [hb, readingOf_of_iff hmem]

/-- While proposition numbers fit, what is in custody can be entered in a ledger. -/
theorem Retains.exists_keeps (hk : k < 2 ^ 31) {L : Custody} (h : w.Retains i k L) :
    ∃ M : Ledger, L = M.map (fun entry => (entry.1, readingOf entry.2)) ∧ w.Keeps i k M := by
  obtain ⟨f, hf, hholds⟩ := h.holds
  have hcanonical := hholds.canonical hk
  refine ⟨L.map fun entry => (entry.1, {a | f.manager.value entry.1.root a = true}), ?_, ?_⟩
  · rw [List.map_map]
    refine (List.map_id L).symm.trans (List.map_congr_left fun entry hentry => ?_)
    have hreads := hholds.reads (entry.1.root, entry.2) (List.mem_map_of_mem hentry)
    have hlive := hholds.live (entry.1.root, entry.2) (List.mem_map_of_mem hentry)
    refine Prod.ext rfl ?_
    funext letter
    dsimp only at hreads hlive
    rw [id, ← hreads, LetterSet.holdsIn, hcanonical.reduced.evaluate_eq hlive]
    exact (readingOf_of_iff Iff.rfl).symm
  · refine ⟨?_, f, hf, hholds.alphabet, hcanonical, ?_, ?_⟩
    · exact List.forall_mem_map.2 h.owner
    · simpa [Ledger.roots, Custody.roots, Function.comp_def] using hholds.held
    · simp only [Ledger.roots, List.mem_map, forall_exists_index, and_imp,
        forall_apply_eq_imp_iff₂]
      exact fun entry hentry =>
        ⟨hholds.live (entry.1.root, entry.2) (List.mem_map_of_mem hentry), fun _ => Iff.rfl⟩

end Workspace

namespace LetterSet

open Workspace

variable {w : Workspace} {i k : Nat} {L L' : List Account} {A B : Set Assignment}

/-- What both columns say of a run holds of one account. -/
private theorem outcome_of_columns {x : WorkM LetterSet}
    (hcustody : Outcome x w (fun s w' => ∃ F, w'.Retains i k ((s, F) :: Account.custody L))
      (fun _ w' => w'.Retains i k (Account.custody L')))
    (hledger : k < 2 ^ 31 → Outcome x w (fun s w' => w'.Keeps i k ((s, A) :: Account.ledger L))
      (fun _ w' => w'.Keeps i k (Account.ledger L'))) :
    Outcome x w (fun s w' => ∃ F, w'.Tends i k (⟨s, F, A⟩ :: L))
      (fun _ w' => w'.Tends i k L') := by
  refine Outcome.intro (fun s w' hrun => ?_) fun fault w' hrun => ?_
  · obtain ⟨F, hw'⟩ := hcustody.of_ok hrun
    exact ⟨F, hw', fun hk => (hledger hk).of_ok hrun⟩
  · exact ⟨hcustody.of_error hrun, fun hk => (hledger hk).of_error hrun⟩

theorem all_tends (h : w.Tends i k L) :
    Outcome (all i) w (fun s w' => ∃ F, w'.Tends i k (⟨s, F, Set.univ⟩ :: L))
      (fun _ w' => w'.Tends i k L) := by
  refine outcome_of_columns (all_adopts h.retains) fun hk => ?_
  obtain ⟨s, w', hrun, hw'⟩ := all_keeps (h.keeps hk)
  exact Outcome.of_run hrun hw'

theorem restricted_tends (h : w.Tends i k L) (letter alphabet : BitSet) :
    Outcome (restricted i letter alphabet) w
      (fun s w' => ∃ F, w'.Tends i k (⟨s, F, Set.preimage (letterAt k)
        (agreeing (letter.over k) (alphabet.over k))⟩ :: L))
      (fun _ w' => w'.Tends i k L) :=
  outcome_of_columns (restricted_adopts h.retains letter alphabet) fun hk =>
    restricted_keeps (h.keeps hk) letter alphabet fun p _ hp => by omega

theorem absorb_tends {s t : LetterSet} {F G : Reading}
    (h : w.Tends i k (⟨s, F, A⟩ :: ⟨t, G, B⟩ :: L)) :
    Outcome (s.absorb t) w (fun s' w' => ∃ F', w'.Tends i k (⟨s', F', A ∪ B⟩ :: L))
      (fun _ w' => w'.Tends i k (⟨s, F, A⟩ :: L)) :=
  outcome_of_columns (absorb_retains h.retains) fun hk => absorb_keeps (h.keeps hk)

theorem release_tends {account : Account} (h : w.Tends i k (account :: L)) :
    ∃ w', account.set.release w = .ok () w' ∧ w'.Tends i k L := by
  obtain ⟨w', hrun, hw'⟩ := release_retains h.retains
  refine ⟨w', hrun, hw', fun hk => ?_⟩
  obtain ⟨w'', hrun', hw''⟩ := release_keeps (h.keeps hk)
  rw [hrun] at hrun'
  cases hrun'
  exact hw''

theorem releaseAll_tends {E : List Account} (h : w.Tends i k (E ++ L)) :
    ∃ w', releaseAll (E.map Account.set) w = .ok () w' ∧ w'.Tends i k L := by
  induction E generalizing w with
  | nil => exact ⟨w, rfl, h⟩
  | cons account rest ih =>
      obtain ⟨w₁, hrun₁, hw₁⟩ := release_tends h
      obtain ⟨w₂, hrun₂, hw₂⟩ := ih hw₁
      exact ⟨w₂, (run_bind hrun₁).trans hrun₂, hw₂⟩

/-- A comparison keeps every set, and answers rightly while proposition numbers fit. -/
theorem containsAll_tends {own other : Account} (h : w.Tends i k L) (hown : own ∈ L)
    (hother : other ∈ L) :
    Outcome (own.set.containsAll other.set) w
      (fun b w' => w'.Tends i k L ∧
        (k < 2 ^ 31 → (b = true ↔ other.assignments ⊆ own.assignments)))
      (fun _ w' => w'.Tends i k L) := by
  have hcustody := containsAll_retains h.retains (List.mem_map_of_mem hown)
    (List.mem_map_of_mem hother)
  have hledger := fun hk => containsAll_keeps (h.keeps hk) (List.mem_map_of_mem hown)
    (List.mem_map_of_mem hother)
  refine Outcome.intro (fun b w' hrun => ?_) fun fault w' hrun => ?_
  · exact ⟨⟨hcustody.of_ok hrun, fun hk => ((hledger hk).of_ok hrun).1⟩,
      fun hk => ((hledger hk).of_ok hrun).2⟩
  · exact ⟨hcustody.of_error hrun, fun hk => (hledger hk).of_error hrun⟩

/-! ## Calls -/

section Columns
variable {E : List Account} {models : List (Set (Letter k))}

/-- The sets and what they are made of determine the ledger. -/
private theorem ledger_eq_of_columns {M : List (LetterSet × Set (Letter k))}
    (hsets : M.map Prod.fst = E.map Account.set) (hmeans : Account.Means E (M.map Prod.snd)) :
    LetterSet.ledger M = Account.ledger E := by
  induction E generalizing M with
  | nil =>
      obtain rfl := List.map_eq_nil_iff.1 hsets
      rfl
  | cons account rest ih =>
      obtain ⟨entry, M, rfl, hset, hsets⟩ := List.map_eq_cons_iff.1 hsets
      obtain ⟨hfirst, hrest⟩ := List.cons_eq_cons.1 hmeans
      have htail := ih hsets hrest
      simp only [LetterSet.ledger, Account.ledger, List.map_cons] at htail ⊢
      rw [htail, hset, hfirst]

private theorem exists_entries (hmeans : Account.Means E models) :
    ∃ M : List (LetterSet × Set (Letter k)), M.map Prod.fst = E.map Account.set ∧
      M.map Prod.snd = models ∧ LetterSet.ledger M = Account.ledger E := by
  have hlength : (E.map Account.set).length = models.length := by
    simpa using congrArg List.length hmeans
  have hsets := List.map_fst_zip hlength.le
  have hmodels := List.map_snd_zip hlength.ge
  exact ⟨_, hsets, hmodels, ledger_eq_of_columns hsets (by rwa [hmodels])⟩

/-- Two columns beside the same sets make a list of accounts. -/
private theorem exists_accounts {C : Custody} {M : List (LetterSet × Set (Letter k))}
    (h : C.map Prod.fst = M.map Prod.fst) :
    ∃ E : List Account, Account.custody E = C ∧ Account.Means E (M.map Prod.snd) ∧
      Account.ledger E = LetterSet.ledger M := by
  induction C generalizing M with
  | nil =>
      obtain rfl := List.map_eq_nil_iff.1 h.symm
      exact ⟨[], rfl, rfl, rfl⟩
  | cons c rest ih =>
      obtain ⟨entry, M, rfl, hfirst, hrest⟩ := List.map_eq_cons_iff.1 h.symm
      obtain ⟨E, rfl, hmeans, hledger⟩ := ih hrest.symm
      refine ⟨⟨c.1, c.2, Set.preimage (letterAt k) entry.2⟩ :: E, rfl, ?_, ?_⟩
      · exact congrArg _ hmeans
      · simp only [Account.ledger, LetterSet.ledger, List.map_cons] at hledger ⊢
        rw [hledger, hfirst]

/-- While proposition numbers fit, the sets are the sets of letters they are made of. -/
theorem agrees_of_tends (hk : k < 2 ^ 31) (h : w.Tends i k (E ++ L))
    (hmeans : Account.Means E models) :
    Agrees i (Account.ledger L) w (E.map Account.set) models := by
  obtain ⟨M, hM, hmodels, hsame⟩ := exists_entries hmeans
  refine ⟨M, hM.symm, hmodels.symm, ?_⟩
  rw [Recorded, hsame, ← Account.ledger_append]
  exact h.keeps hk

theorem Call.means_left (call : Call) (hmeans : Account.Means E models) :
    Account.Means (call.left E) (call.left models) := by
  unfold Account.Means at hmeans ⊢
  rw [← Call.left_map, ← Call.left_map, hmeans]

end Columns

/-- A call does to the sets what it does to their letters while proposition numbers fit, and
whatever they are it keeps the sets of others, and its own user's when it fails. -/
theorem Call.perform_tends (call : Call) {E : List Account} {models : List (Set (Letter k))}
    (h : w.Tends i k (E ++ L)) (hmeans : k < 2 ^ 31 → Account.Means E models) :
    Outcome (call.perform i (E.map Account.set)) w
      (fun sets' w' => ∃ E' : List Account, sets' = E'.map Account.set ∧
        (k < 2 ^ 31 → Account.Means E' (call.meaning models)) ∧ w'.Tends i k (E' ++ L))
      (fun _ w' => w'.Tends i k (call.left E ++ L)) := by
  have hcustody : Outcome (call.perform i (E.map Account.set)) w
      (fun sets' w' => ∃ C : Custody, sets' = C.map Prod.fst ∧
        w'.Retains i k (C ++ Account.custody L))
      (fun _ w' => w'.Retains i k (call.left (Account.custody E) ++ Account.custody L)) := by
    rw [← Account.sets_custody]
    exact call.perform_retains (Account.custody_append E L ▸ h.retains)
  have hledger : k < 2 ^ 31 → Outcome (call.perform i (E.map Account.set)) w
      (fun sets' w' => Agrees i (Account.ledger L) w' sets' (call.meaning models))
      (fun _ w' => Agrees i (Account.ledger L) w' (call.left (E.map Account.set))
        (call.left models)) :=
    fun hk => perform_agrees (call.signed_of_lt hk) (agrees_of_tends hk h (hmeans hk))
  refine Outcome.intro (fun sets' w' hrun => ?_) fun fault w' hrun => ?_
  · obtain ⟨C, rfl, hretains⟩ := hcustody.of_ok hrun
    by_cases hk : k < 2 ^ 31
    · obtain ⟨M, hM, hmodels, hkeeps⟩ := (hledger hk).of_ok hrun
      obtain ⟨E', rfl, hE', hsame⟩ := exists_accounts hM
      refine ⟨E', Account.sets_custody E', fun _ => hmodels ▸ hE', ?_, fun _ => ?_⟩
      · rwa [Account.custody_append]
      · rwa [Account.ledger_append, hsame]
    · have hcolumn : Account.custody (C.map fun entry => ⟨entry.1, entry.2, ∅⟩) = C := by
        simp [Account.custody, Function.comp_def]
      refine ⟨C.map fun entry => ⟨entry.1, entry.2, ∅⟩, by simp, fun h => absurd h hk, ?_,
        fun h => absurd h hk⟩
      rwa [Account.custody_append, hcolumn]
  · refine ⟨?_, fun hk => ?_⟩
    · rw [Account.custody_append, Account.custody, ← Call.left_map]
      exact hcustody.of_error hrun
    · obtain ⟨M, hM, hmodels, hkeeps⟩ := (hledger hk).of_error hrun
      rw [Call.left_map] at hM
      rw [Account.ledger_append]
      rwa [Recorded, ledger_eq_of_columns hM.symm (hmodels ▸ call.means_left (hmeans hk))] at hkeeps

end LetterSet

end SymbolicOmega
