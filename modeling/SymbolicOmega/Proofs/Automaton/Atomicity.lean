import SymbolicOmega.Proofs.Acceptance.Insertion
import SymbolicOmega.Proofs.Automaton.Grouping

/-!
# Failures are atomic

A program has letter sets, sets of transitions and an automaton in one factory.  Whatever it does
may fail, at whatever node the table turns out to be full.  Then everything it has is as it was,
but for a letter set that it had handed over; and as long as proposition numbers fit a signed number
of 32 bits, everything that is done later is done rightly.
-/

namespace SymbolicOmega

open Workspace

/-- Letter sets and sets of transitions, or what stands for them. -/
structure Holdings (α β : Type) where
  sets : List α
  transitions : List β

namespace LetterSet

/-- The sets that are handed over. -/
def Call.consumed {α : Type} (sets : List α) : Call → List α
  | absorb i j =>
      match sets[i]?, (sets.eraseIdx i)[j]? with
      | some _, some t => [t]
      | _, _ => []
  | _ => []

/-- What is handed over is all that is gone after a failure. -/
theorem Call.perm_left {α : Type} (sets : List α) (call : Call) :
    sets.Perm (call.consumed sets ++ call.left sets) := by
  cases call with
  | absorb i j =>
      simp only [consumed, left]
      cases hi : sets[i]? with
      | none => exact .refl _
      | some s =>
          cases hj : (sets.eraseIdx i)[j]? with
          | none => exact .refl _
          | some t => exact (pick_perm hi).trans (((pick_perm hj).cons _).trans (.swap ..))
  | _ => exact .refl _

end LetterSet

namespace Automaton

variable {S : Type}

/-- What a program does with what it has.  Letter sets and sets of transitions are named by
position, and new and changed ones come to the front. -/
inductive Action (S : Type) where
  | call (call : LetterSet.Call)
  /-- Make an empty set of transitions. -/
  | create
  /-- Add the letters of the set at `i` to the set of transitions at `t`. -/
  | insert (t : Nat) (state : S) (i : Nat)
  | insertAll (t : Nat) (state : S)
  | containsAllAt (t : Nat) (state : S) (i : Nat)
  | containsAll (t u : Nat)
  /-- Ask for the row of a state. -/
  | explore (state : S)

namespace Action

/-- What is handed over. -/
def consumed {α β : Type} (held : Holdings α β) : Action S → List α
  | call c => c.consumed held.sets
  | insert t _ i => if t < held.transitions.length then held.sets[i]?.toList else []
  | _ => []

/-- What the program still has after the action failed. -/
def left {α β : Type} (held : Holdings α β) : Action S → Holdings α β
  | call c => ⟨c.left held.sets, held.transitions⟩
  | insert t _ i =>
      if t < held.transitions.length then ⟨held.sets.eraseIdx i, held.transitions⟩ else held
  | _ => held

/-- What is handed over is all that is gone after a failure. -/
theorem perm_left {α β : Type} (held : Holdings α β) (action : Action S) :
    held.sets.Perm (action.consumed held ++ (action.left held).sets) := by
  cases action with
  | call c => exact c.perm_left held.sets
  | insert t state i =>
      rw [consumed, left]
      by_cases ht : t < held.transitions.length
      · rw [if_pos ht, if_pos ht]
        cases hi : held.sets[i]? with
        | none =>
            rw [List.eraseIdx_of_length_le (List.getElem?_eq_none_iff.1 hi)]
            exact .refl _
        | some label => exact LetterSet.pick_perm hi
      · rw [if_neg ht, if_neg ht]
        exact .refl _
  | create | insertAll | containsAllAt | containsAll | explore => exact .refl _

theorem transitions_left {α β : Type} (held : Holdings α β) (action : Action S) :
    (action.left held).transitions = held.transitions := by
  cases action with
  | insert t state i =>
      rw [left]
      split <;> rfl
  | call | create | insertAll | containsAllAt | containsAll | explore => rfl

variable [DecidableEq S]

/-- Carry out an action.  Answers what the program has then. -/
def perform (owner : Nat) (held : Holdings LetterSet (TransitionSet S)) :
    Action S → AutomatonM S (Holdings LetterSet (TransitionSet S))
  | call c => return ⟨← inWorkspace (c.perform owner held.sets), held.transitions⟩
  | create => return ⟨held.sets, (← inWorkspace (TransitionSet.create owner)) :: held.transitions⟩
  | insert t state i =>
      match held.transitions[t]?, held.sets[i]? with
      | some set, some label => do
          let changed ← inWorkspace (set.insert state label)
          return ⟨held.sets.eraseIdx i, changed :: held.transitions.eraseIdx t⟩
      | _, _ => throw .indexOutOfRange
  | insertAll t state =>
      match held.transitions[t]? with
      | some set => do
          let changed ← inWorkspace (set.insertAll state)
          return ⟨held.sets, changed :: held.transitions.eraseIdx t⟩
      | none => throw .indexOutOfRange
  | containsAllAt t state i =>
      match held.transitions[t]?, held.sets[i]? with
      | some set, some label => do
          let _ ← inWorkspace (set.containsAllAt state label)
          return held
      | _, _ => throw .indexOutOfRange
  | containsAll t u =>
      match held.transitions[t]?, held.transitions[u]? with
      | some set, some other => do
          let _ ← inWorkspace (set.containsAll other)
          return held
      | _, _ => throw .indexOutOfRange
  | explore state => do
      let _ ← Automaton.explore state
      return held

/-- The mathematical set of transitions at a position. -/
def transitionsAt {k : Nat} (models : Holdings (Set (Letter k)) (S → Set (Letter k))) (t : Nat) :
    S → Set (Letter k) :=
  models.transitions[t]?.getD fun _ => ∅

/-- What an action does to mathematical sets. -/
def meaning {k : Nat} (models : Holdings (Set (Letter k)) (S → Set (Letter k))) :
    Action S → Holdings (Set (Letter k)) (S → Set (Letter k))
  | call c => ⟨c.meaning models.sets, models.transitions⟩
  | create => ⟨models.sets, (fun _ => ∅) :: models.transitions⟩
  | insert t state i =>
      let T := transitionsAt models t
      ⟨models.sets.eraseIdx i,
        Function.update T state (T state ∪ LetterSet.modelAt models.sets i) ::
          models.transitions.eraseIdx t⟩
  | insertAll t state =>
      ⟨models.sets, Function.update (transitionsAt models t) state Set.univ ::
        models.transitions.eraseIdx t⟩
  | containsAllAt _ _ _ | containsAll _ _ | explore _ => models

end Action

section Histories
variable [DecidableEq S]

/-- What a program comes to that starts with a new factory and an automaton whose rows are found
letter by letter, and beside it the mathematical sets.  Any action may fail on the way. -/
inductive Reached (k : Nat) (sensitive : S → Option BitSet) (step : S → BitSet → Option (Edge S)) :
    Scene S → Holdings LetterSet (TransitionSet S) →
      Holdings (Set (Letter k)) (S → Set (Letter k)) → Prop
  | start {sizing : Sizing} {f : Factory} (initial : Initial S) (acceptance : Acceptance S) :
      Factory.ofSizing k sizing = .ok f →
        Reached k sensitive step
          ⟨create 0 (.ofStep sensitive step) acceptance initial, .ofFactories [f]⟩ ⟨[], []⟩ ⟨[], []⟩
  | answered {s s' : Scene S} {held held' : Holdings LetterSet (TransitionSet S)}
      {models : Holdings (Set (Letter k)) (S → Set (Letter k))} (action : Action S) :
      Reached k sensitive step s held models → action.perform 0 held s = .ok held' s' →
        Reached k sensitive step s' held' (action.meaning models)
  | failed {s s' : Scene S} {held : Holdings LetterSet (TransitionSet S)}
      {models : Holdings (Set (Letter k)) (S → Set (Letter k))} {fault : Fault}
      (action : Action S) :
      Reached k sensitive step s held models → action.perform 0 held s = .error fault s' →
        Reached k sensitive step s' (action.left held) (action.left models)

/-- Everything that the program has is what the mathematical sets say, all questions are answered
rightly, and the kept rows are the right ones. -/
structure Right {k : Nat} (sensitive : S → Option BitSet) (step : S → BitSet → Option (Edge S))
    (s : Scene S) (held : Holdings LetterSet (TransitionSet S))
    (models : Holdings (Set (Letter k)) (S → Set (Letter k))) : Prop where
  sets : LetterSet.Faithful s.workspace held.sets models.sets
  length : held.transitions.length = models.transitions.length
  contains : ∀ set T, (set, T) ∈ held.transitions.zip models.transitions → ∀ state letter,
    ∃ b, set.contains state letter s.workspace = .ok b s.workspace ∧
      (b = true ↔ letter.over k ∈ T state)
  containsAllAt : ∀ set T label A, (set, T) ∈ held.transitions.zip models.transitions →
    (label, A) ∈ held.sets.zip models.sets → ∀ state b w',
      set.containsAllAt state label s.workspace = .ok b w' → (b = true ↔ A ⊆ T state)
  containsAll : ∀ set T other U, (set, T) ∈ held.transitions.zip models.transitions →
    (other, U) ∈ held.transitions.zip models.transitions → ∀ b w',
      set.containsAll other s.workspace = .ok b w' → (b = true ↔ ∀ state, U state ⊆ T state)
  rows : ∀ x row, s.automaton.row? x = some row →
    row.Reads s.workspace (StateSpace.stepReading k (sensitive x) (step x))

end Histories

/-- The labels of everything that the program has. -/
def heldLabels (s : Scene S) (held : Holdings LetterSet (TransitionSet S)) : List LetterSet :=
  held.sets ++ (held.transitions.flatMap (fun set => set.labels.map Prod.snd) ++
    s.automaton.rows.flatMap fun entry => entry.2.labels)

/-- After a failed action the automaton with its rows is as before, the factory holds what it held
but for what was handed over, and everything that is left answers the same. -/
structure Untouched (owner : Nat) (action : Action S)
    (held : Holdings LetterSet (TransitionSet S)) (s s' : Scene S) : Prop where
  automaton : s'.automaton = s.automaton
  transitions : (action.left held).transitions = held.transitions
  sets : held.sets.Perm (action.consumed held ++ (action.left held).sets)
  roots : ∃ f f', s.workspace.factories[owner]? = some f ∧
    s'.workspace.factories[owner]? = some f' ∧
      (∀ root, f.roots.count root =
        ((action.consumed held).map LetterSet.root).count root + f'.roots.count root) ∧
      f.live = (action.consumed held).length + f'.live
  answers : ∀ label ∈ heldLabels s' (action.left held),
    ∃ F, label.Answers s.workspace F ∧ label.Answers s'.workspace F

/-! ## What the factory has -/

/-- The accounts of everything that a program has in a factory. -/
structure Inventory (S : Type) where
  sets : List Account
  transitions : List (TransitionSet S × LabelAccounts S)
  rows : List (S × AccountRow S)

namespace Inventory

/-- The accounts of the rows. -/
def rowAccounts (I : Inventory S) : List Account :=
  I.rows.flatMap fun entry => entry.2.accounts

/-- The accounts of the sets of transitions. -/
def transitionAccounts (transitions : List (TransitionSet S × LabelAccounts S)) : List Account :=
  transitions.flatMap fun entry => entry.2.listed

def accounts (I : Inventory S) : List Account :=
  I.sets ++ (transitionAccounts I.transitions ++ I.rowAccounts)

variable [DecidableEq S]

/-- What the mathematical sets of transitions cover, at each state. -/
def coverage {k : Nat} (models : List (S → Set (Letter k))) : List (S → Set Assignment) :=
  models.map fun T state => Set.preimage (letterAt k) (T state)

/-- The factory has what the program has and no more; while proposition numbers fit, it is made of
what the mathematical sets say. -/
structure Covers {k : Nat} (I : Inventory S) (owner : Nat) (sensitive : S → Option BitSet)
    (step : S → BitSet → Option (Edge S)) (s : Scene S)
    (held : Holdings LetterSet (TransitionSet S))
    (models : Holdings (Set (Letter k)) (S → Set (Letter k))) : Prop where
  space : s.automaton.space = .ofStep sensitive step
  owner_eq : s.automaton.owner = owner
  sets : held.sets = I.sets.map Account.set
  transitions : held.transitions = I.transitions.map Prod.fst
  labels : ∀ entry ∈ I.transitions, entry.1.labels = entry.2.labels ∧ entry.1.owner = owner ∧
    (entry.2.map Prod.fst).Nodup
  rows : s.automaton.rows = I.rows.map fun entry => (entry.1, entry.2.row)
  grouped : ∀ entry ∈ I.rows,
    entry.2.meaning = StateSpace.stepMeaning k (sensitive entry.1) (step entry.1)
  tends : s.workspace.Tends owner k I.accounts
  means : k < 2 ^ 31 → Account.Means I.sets models.sets
  covered : k < 2 ^ 31 →
    I.transitions.map (fun entry => entry.2.covered) = coverage models.transitions

section Positions
variable {I : Inventory S} {t : Nat} {entry : TransitionSet S × LabelAccounts S}

omit [DecidableEq S] in
/-- A set of transitions comes to the front with its labels. -/
theorem accounts_pick (ht : I.transitions[t]? = some entry) :
    I.accounts.Perm (entry.2.listed ++
      (I.sets ++ (transitionAccounts (I.transitions.eraseIdx t) ++ I.rowAccounts))) := by
  have htransitions : (transitionAccounts I.transitions).Perm
      (entry.2.listed ++ transitionAccounts (I.transitions.eraseIdx t)) :=
    (LetterSet.pick_perm ht).flatMap_right _
  have hmiddle := (htransitions.append_right I.rowAccounts).append_left I.sets
  refine hmiddle.trans ?_
  rw [List.append_assoc, ← List.append_assoc, ← List.append_assoc entry.2.listed]
  exact List.perm_append_comm.append_right _

omit [DecidableEq S] in
theorem listed_of_pick (ht : I.transitions[t]? = some entry) :
    ∀ a ∈ entry.2.listed, a ∈ I.accounts := fun _ ha =>
  (accounts_pick ht).mem_iff.2 (List.mem_append_left _ ha)

theorem coverage_at {k : Nat} {models : Holdings (Set (Letter k)) (S → Set (Letter k))}
    (hcovered : I.transitions.map (fun entry => entry.2.covered) = coverage models.transitions)
    (ht : I.transitions[t]? = some entry) :
    entry.2.covered = fun state =>
      Set.preimage (letterAt k) (Action.transitionsAt models t state) := by
  have hat := congrArg (·[t]?) hcovered
  simp only [List.getElem?_map, ht, coverage, Option.map_some] at hat
  obtain ⟨T, hT, hsame⟩ := Option.map_eq_some_iff.1 hat.symm
  rw [← hsame, Action.transitionsAt, hT]
  rfl

end Positions

/-- What is left after a failed action. -/
def left (I : Inventory S) (action : Action S) : Inventory S :=
  ⟨(action.left ⟨I.sets, I.transitions⟩).sets, I.transitions, I.rows⟩

section Actions
variable {I : Inventory S} {owner k : Nat} {sensitive : S → Option BitSet}
variable {step : S → BitSet → Option (Edge S)} {s : Scene S}
variable {held : Holdings LetterSet (TransitionSet S)}
variable {models : Holdings (Set (Letter k)) (S → Set (Letter k))}

theorem Covers.lengths (h : I.Covers owner sensitive step s held models) (hk : k < 2 ^ 31) :
    I.transitions.length = models.transitions.length := by
  simpa [coverage] using congrArg List.length (h.covered hk)

/-- With the same accounts the same things are covered. -/
theorem Covers.of_tends {w : Workspace} (h : I.Covers owner sensitive step s held models)
    (hw : w.Tends owner k I.accounts) :
    I.Covers owner sensitive step ⟨s.automaton, w⟩ held models :=
  ⟨h.space, h.owner_eq, h.sets, h.transitions, h.labels, h.rows, h.grouped, hw, h.means, h.covered⟩

/-- After a failure it is enough that the factory has the accounts that are left. -/
theorem Covers.left {w : Workspace} (h : I.Covers owner sensitive step s held models)
    (action : Action S) (hw : w.Tends owner k (I.left action).accounts) :
    (I.left action).Covers owner sensitive step ⟨s.automaton, w⟩ (action.left held)
      (action.left models) := by
  cases action with
  | call c =>
      refine ⟨h.space, h.owner_eq, ?_, h.transitions, h.labels, h.rows, h.grouped, hw,
        fun hk => c.means_left (h.means hk), h.covered⟩
      exact (congrArg c.left h.sets).trans (LetterSet.Call.left_map _ _ _)
  | insert t state i =>
      have hlength : held.transitions.length = I.transitions.length := by
        rw [h.transitions, List.length_map]
      by_cases ht : t < I.transitions.length
      · have hleft : I.left (.insert t state i) = ⟨I.sets.eraseIdx i, I.transitions, I.rows⟩ := by
          simp [Inventory.left, Action.left, ht]
        have hheld : (Action.insert t state i).left held =
            ⟨held.sets.eraseIdx i, held.transitions⟩ := by
          simp [Action.left, hlength, ht]
        rw [hleft] at hw ⊢
        rw [hheld]
        refine ⟨h.space, h.owner_eq, ?_, h.transitions, h.labels, h.rows, h.grouped, hw,
          fun hk => ?_, fun hk => ?_⟩
        · exact (congrArg (List.eraseIdx · i) h.sets).trans (List.eraseIdx_map ..)
        · have hmeans := h.means hk
          simp only [Action.left, ← h.lengths hk, ht, if_true, Account.Means] at hmeans ⊢
          rw [← List.eraseIdx_map, hmeans, List.eraseIdx_map]
        · simpa only [Action.left, ← h.lengths hk, ht, if_true] using h.covered hk
      · have hleft : I.left (.insert t state i) = I := by
          simp [Inventory.left, Action.left, ht]
        have hheld : (Action.insert t state i).left held = held := by
          simp [Action.left, hlength, ht]
        rw [hleft] at hw ⊢
        rw [hheld]
        refine ⟨h.space, h.owner_eq, h.sets, h.transitions, h.labels, h.rows, h.grouped, hw,
          fun hk => ?_, fun hk => ?_⟩
        · simpa only [Action.left, ← h.lengths hk, ht, if_false] using h.means hk
        · simpa only [Action.left, ← h.lengths hk, ht, if_false] using h.covered hk
  | create | insertAll | containsAllAt | containsAll | explore => exact h.of_tends hw

/-- What an action comes to: with an answer all is covered as the action means, and with a fault
only the workspace has changed, where the accounts that are left are kept. -/
def Carries (I : Inventory S) (owner : Nat) (sensitive : S → Option BitSet)
    (step : S → BitSet → Option (Edge S)) (s : Scene S)
    (held : Holdings LetterSet (TransitionSet S))
    (models : Holdings (Set (Letter k)) (S → Set (Letter k))) (action : Action S) : Prop :=
  Outcome (action.perform owner held) s
    (fun held' s' => ∃ I' : Inventory S,
      I'.Covers owner sensitive step s' held' (action.meaning models))
    (fun _ s' => s'.automaton = s.automaton ∧ s'.workspace.Tends owner k (I.left action).accounts)

variable (h : I.Covers owner sensitive step s held models)
include h

theorem Covers.call (c : LetterSet.Call) :
    I.Carries owner sensitive step s held models (.call c) := by
  have hrun := c.perform_tends h.tends h.means
  rw [← h.sets] at hrun
  refine Outcome.bind (inWorkspace_outcome (hrun.mono ?_ fun _ w hw => ⟨rfl, hw⟩))
  rintro _ w ⟨E, rfl, hmeans, hw⟩
  exact Outcome.pure ⟨⟨E, I.transitions, I.rows⟩, h.space, h.owner_eq, rfl, h.transitions,
    h.labels, h.rows, h.grouped, hw, hmeans, h.covered⟩

theorem Covers.create : I.Carries owner sensitive step s held models .create := by
  refine Outcome.bind (inWorkspace_outcome (Outcome.of_run rfl (Outcome.pure
    ⟨⟨I.sets, (⟨s.workspace.nextTicket, owner, []⟩, []) :: I.transitions, I.rows⟩,
      h.space, h.owner_eq, h.sets, congrArg _ h.transitions, ?_, h.rows, h.grouped,
      ⟨h.tends.retains.of_factories rfl, fun hk => (h.tends.keeps hk).of_factory rfl⟩, h.means,
      fun hk => ?_⟩)))
  · exact List.forall_mem_cons.2 ⟨⟨rfl, rfl, List.nodup_nil⟩, h.labels⟩
  · exact congrArg₂ List.cons (by funext; rfl) (h.covered hk)

/-- A changed set of transitions comes to the front. -/
private theorem Covers.replace {w : Workspace} {t : Nat} {E : List Account}
    {set : TransitionSet S} {T' : LabelAccounts S}
    {models' : Holdings (Set (Letter k)) (S → Set (Letter k))} {C : S → Set (Letter k)}
    (hset : set.labels = T'.labels ∧ set.owner = owner ∧ (T'.map Prod.fst).Nodup)
    (hw : w.Tends owner k (T'.listed ++
      (E ++ (transitionAccounts (I.transitions.eraseIdx t) ++ I.rowAccounts))))
    (hmeans : k < 2 ^ 31 → Account.Means E models'.sets)
    (hmodels : models'.transitions = C :: models.transitions.eraseIdx t)
    (hcovered : k < 2 ^ 31 → T'.covered = fun state => Set.preimage (letterAt k) (C state)) :
    (⟨E, (set, T') :: I.transitions.eraseIdx t, I.rows⟩ : Inventory S).Covers owner sensitive step
      ⟨s.automaton, w⟩ ⟨E.map Account.set, set :: held.transitions.eraseIdx t⟩ models' := by
  refine ⟨h.space, h.owner_eq, rfl, ?_, ?_, h.rows, h.grouped, hw.perm ?_, hmeans, fun hk => ?_⟩
  · rw [h.transitions, List.eraseIdx_map]
    rfl
  · exact List.forall_mem_cons.2
      ⟨hset, fun entry hentry => h.labels entry (List.mem_of_mem_eraseIdx hentry)⟩
  · exact (accounts_pick (I := ⟨E, (set, T') :: I.transitions.eraseIdx t, I.rows⟩)
      (t := 0) rfl).symm
  · rw [List.map_cons, ← List.eraseIdx_map, h.covered hk, hcovered hk, hmodels, coverage, coverage,
      List.eraseIdx_map]
    rfl

/-- What is at a position of what the program has is at that position of the inventory. -/
private theorem Covers.transitions_at {t : Nat} {set : TransitionSet S}
    (ht : held.transitions[t]? = some set) :
    ∃ T, I.transitions[t]? = some (set, T) := by
  rw [h.transitions, List.getElem?_map] at ht
  obtain ⟨⟨_, T⟩, hT, rfl⟩ := Option.map_eq_some_iff.1 ht
  exact ⟨T, hT⟩

private theorem Covers.sets_at {i : Nat} {label : LetterSet} (hi : held.sets[i]? = some label) :
    ∃ account, I.sets[i]? = some account ∧ account.set = label := by
  rw [h.sets, List.getElem?_map] at hi
  exact Option.map_eq_some_iff.1 hi

theorem Covers.insert (t : Nat) (state : S) (i : Nat) :
    I.Carries owner sensitive step s held models (.insert t state i) := by
  have hlength : held.transitions.length = I.transitions.length := by
    rw [h.transitions, List.length_map]
  rw [Carries, Action.perform]
  cases ht : held.transitions[t]? with
  | none =>
      have hout : ¬ t < I.transitions.length := by
        rw [← hlength]
        exact not_lt.2 (List.getElem?_eq_none_iff.1 ht)
      refine Outcome.throw ⟨rfl, ?_⟩
      simpa [Inventory.left, Action.left, hout] using h.tends
  | some set =>
      obtain ⟨T, hT⟩ := h.transitions_at ht
      have hin : t < I.transitions.length := (List.getElem?_eq_some_iff.1 hT).1
      have hleft : I.left (.insert t state i) = ⟨I.sets.eraseIdx i, I.transitions, I.rows⟩ := by
        simp [Inventory.left, Action.left, hin]
      rw [hleft]
      cases hi : held.sets[i]? with
      | none =>
          have hnone : I.sets.length ≤ i := by
            simpa [h.sets] using List.getElem?_eq_none_iff.1 hi
          refine Outcome.throw ⟨rfl, ?_⟩
          rw [List.eraseIdx_of_length_le hnone]
          exact h.tends
      | some label =>
          obtain ⟨account, haccount, rfl⟩ := h.sets_at hi
          obtain ⟨hlabels, howner, hdistinct⟩ := h.labels _ (List.mem_of_getElem? hT)
          have hpicked : s.workspace.Tends owner k (account :: (T.listed ++ (I.sets.eraseIdx i ++
              (transitionAccounts (I.transitions.eraseIdx t) ++ I.rowAccounts)))) :=
            h.tends.perm ((accounts_pick hT).trans ((((LetterSet.pick_perm haccount).append_right
              _).append_left T.listed).trans List.perm_middle))
          refine Outcome.bind (inWorkspace_outcome
            ((TransitionSet.insert_tends hlabels hpicked).mono ?_ fun _ w hw => ⟨rfl, hw.perm
              (accounts_pick (I := ⟨I.sets.eraseIdx i, I.transitions, I.rows⟩) hT).symm⟩))
          rintro set' w ⟨T', hlabels', howner', hdistinct', hcovered, hw⟩
          have hmeans : ∀ hk : k < 2 ^ 31, account.assignments =
              Set.preimage (letterAt k) (LetterSet.modelAt models.sets i) := fun hk => by
            have hat := congrArg (·[i]?) (h.means hk)
            simp only [List.getElem?_map, haccount, Option.map_some] at hat
            obtain ⟨A, hA, hsame⟩ := Option.map_eq_some_iff.1 hat.symm
            rw [← hsame, LetterSet.modelAt, hA]
            rfl
          refine Outcome.pure
            ⟨⟨I.sets.eraseIdx i, (set', T') :: I.transitions.eraseIdx t, I.rows⟩, ?_⟩
          rw [h.sets, List.eraseIdx_map]
          refine h.replace ⟨hlabels', howner'.trans howner, hdistinct' hdistinct⟩ hw
            (fun hk => ?_) rfl fun hk => ?_
          · have hsets := h.means hk
            simp only [Account.Means, Action.meaning] at hsets ⊢
            rw [← List.eraseIdx_map, hsets, List.eraseIdx_map]
          · funext x
            rw [hcovered, coverage_at (h.covered hk) hT, hmeans hk]
            by_cases hx : x = state
            · subst hx
              simp
            · simp [hx]

theorem Covers.insertAll (t : Nat) (state : S) :
    I.Carries owner sensitive step s held models (.insertAll t state) := by
  rw [Carries, Action.perform]
  cases ht : held.transitions[t]? with
  | none => exact Outcome.throw ⟨rfl, h.tends⟩
  | some set =>
      obtain ⟨T, hT⟩ := h.transitions_at ht
      obtain ⟨hlabels, howner, hdistinct⟩ := h.labels _ (List.mem_of_getElem? hT)
      refine Outcome.bind (inWorkspace_outcome
        ((TransitionSet.insertAll_tends howner hlabels (h.tends.perm (accounts_pick hT))).mono ?_
          fun _ w hw => ⟨rfl, hw.perm (accounts_pick hT).symm⟩))
      rintro set' w ⟨T', hlabels', howner', hdistinct', hcovered, hw⟩
      refine Outcome.pure ⟨⟨I.sets, (set', T') :: I.transitions.eraseIdx t, I.rows⟩, ?_⟩
      rw [h.sets]
      refine h.replace ⟨hlabels', howner'.trans howner, hdistinct' hdistinct⟩ hw h.means rfl
        fun hk => ?_
      funext x
      rw [hcovered, coverage_at (h.covered hk) hT]
      by_cases hx : x = state
      · subst hx
        simp
      · simp [hx]

/-- A question about what the program has changes nothing. -/
private theorem Covers.asked {x : WorkM Bool} {P : Bool → Prop} {action : Action S}
    (hmeaning : action.meaning models = models) (hleft : I.left action = I)
    (hx : Outcome x s.workspace (fun b w => w.Tends owner k I.accounts ∧ P b)
      (fun _ w => w.Tends owner k I.accounts)) :
    Outcome (do let _ ← inWorkspace x; return held) s
      (fun held' s' => ∃ I' : Inventory S,
        I'.Covers owner sensitive step s' held' (action.meaning models))
      (fun _ s' => s'.automaton = s.automaton ∧
        s'.workspace.Tends owner k (I.left action).accounts) := by
  rw [hmeaning, hleft]
  exact Outcome.bind (inWorkspace_outcome (hx.mono
    (fun _ _ hw => Outcome.pure ⟨I, h.of_tends hw.1⟩) fun _ _ hw => ⟨rfl, hw⟩))

theorem Covers.containsAllAt (t : Nat) (state : S) (i : Nat) :
    I.Carries owner sensitive step s held models (.containsAllAt t state i) := by
  rw [Carries, Action.perform]
  cases ht : held.transitions[t]? with
  | none => exact Outcome.throw ⟨rfl, h.tends⟩
  | some set =>
      cases hi : held.sets[i]? with
      | none => exact Outcome.throw ⟨rfl, h.tends⟩
      | some label =>
          obtain ⟨T, hT⟩ := h.transitions_at ht
          obtain ⟨account, haccount, rfl⟩ := h.sets_at hi
          exact h.asked rfl rfl (TransitionSet.containsAllAt_tends h.tends
            (h.labels _ (List.mem_of_getElem? hT)).1 (listed_of_pick hT)
            (List.mem_append_left _ (List.mem_of_getElem? haccount)))

theorem Covers.containsAll (t u : Nat) :
    I.Carries owner sensitive step s held models (.containsAll t u) := by
  rw [Carries, Action.perform]
  cases ht : held.transitions[t]? with
  | none => exact Outcome.throw ⟨rfl, h.tends⟩
  | some set =>
      cases hu : held.transitions[u]? with
      | none => exact Outcome.throw ⟨rfl, h.tends⟩
      | some other =>
          obtain ⟨T, hT⟩ := h.transitions_at ht
          obtain ⟨U, hU⟩ := h.transitions_at hu
          obtain ⟨hlabelsU, -, hdistinct⟩ := h.labels _ (List.mem_of_getElem? hU)
          exact h.asked rfl rfl (TransitionSet.containsAll_tends h.tends
            (h.labels _ (List.mem_of_getElem? hT)).1 (listed_of_pick hT) hlabelsU
            (listed_of_pick hU) hdistinct)

theorem Covers.explore (x : S) :
    I.Carries owner sensitive step s held models (.explore x) := by
  rw [Carries, Action.perform]
  cases hrow : s.automaton.row? x with
  | some row =>
      refine Outcome.bind (Outcome.bind_ok (current_run s) ?_)
      rw [hrow]
      exact Outcome.pure (Outcome.pure ⟨I, h⟩)
  | none =>
      have hx := isExplored_eq_false.2 hrow
      have hcompute : Outcome (s.automaton.space.row s.automaton.owner x) s.workspace
          (fun row w => ∃ E : AccountRow S, row = E.row ∧
            E.meaning = StateSpace.stepMeaning k (sensitive x) (step x) ∧
              w.Tends owner k (E.accounts ++ I.accounts))
          (fun _ w => w.Tends owner k I.accounts) := by
        rw [h.space, h.owner_eq]
        exact StateSpace.groupLetters_tends h.tends (sensitive x) (step x)
      cases hrun : s.automaton.space.row s.automaton.owner x s.workspace with
      | error fault w =>
          rw [Outcome]
          rw [run_bind_error (explore_of_error hx hrun)]
          exact ⟨rfl, hcompute.of_error hrun⟩
      | ok row w =>
          obtain ⟨E, rfl, hE, hw⟩ := hcompute.of_ok hrun
          refine Outcome.bind_ok (explore_of_ok hx hrun) (Outcome.pure
            ⟨⟨I.sets, I.transitions, I.rows ++ [(x, E)]⟩, h.space, h.owner_eq, h.sets,
              h.transitions, h.labels, ?_, ?_, hw.perm ?_, h.means, h.covered⟩)
          · simp [h.rows]
          · intro entry hentry
            obtain hentry | hentry := List.mem_append.1 hentry
            · exact h.grouped entry hentry
            · obtain rfl := List.mem_singleton.1 hentry
              exact hE
          · have hall : accounts ⟨I.sets, I.transitions, I.rows ++ [(x, E)]⟩ =
                I.accounts ++ E.accounts := by
              simp [accounts, rowAccounts]
            rw [hall]
            exact List.perm_append_comm

/-- Every action is carried out as it should be, or leaves things as they are. -/
theorem Covers.carries (action : Action S) :
    I.Carries owner sensitive step s held models action := by
  cases action with
  | call c => exact h.call c
  | create => exact h.create
  | insert t state i => exact h.insert t state i
  | insertAll t state => exact h.insertAll t state
  | containsAllAt t state i => exact h.containsAllAt t state i
  | containsAll t u => exact h.containsAll t u
  | explore x => exact h.explore x

end Actions

end Inventory

/-! ## What is right and what is untouched -/

section Ends
variable [DecidableEq S] {I : Inventory S} {owner k : Nat} {sensitive : S → Option BitSet}
variable {step : S → BitSet → Option (Edge S)} {s s' : Scene S}
variable {held : Holdings LetterSet (TransitionSet S)}
variable {models : Holdings (Set (Letter k)) (S → Set (Letter k))}

namespace Inventory

/-- A set of transitions beside its mathematical set, with its accounts. -/
private theorem Covers.transitions_zip (h : I.Covers owner sensitive step s held models)
    (hk : k < 2 ^ 31) {set : TransitionSet S} {C : S → Set (Letter k)}
    (hmem : (set, C) ∈ held.transitions.zip models.transitions) :
    ∃ T, (set, T) ∈ I.transitions ∧
      T.covered = fun state => Set.preimage (letterAt k) (C state) := by
  obtain ⟨t, ht, hat⟩ := List.mem_iff_getElem.1 hmem
  rw [List.getElem_zip, Prod.mk.injEq] at hat
  obtain ⟨hset, hC⟩ := hat
  obtain ⟨hlt, hlt'⟩ := lt_min_iff.1 (List.length_zip ▸ ht)
  obtain ⟨T, hT⟩ := h.transitions_at (List.getElem?_eq_some_iff.2 ⟨hlt, hset⟩)
  refine ⟨T, List.mem_of_getElem? hT, ?_⟩
  rw [coverage_at (h.covered hk) hT, Action.transitionsAt, List.getElem?_eq_getElem hlt', hC]
  rfl

/-- A letter set beside its mathematical set, with its account. -/
private theorem Covers.sets_zip (h : I.Covers owner sensitive step s held models)
    (hk : k < 2 ^ 31) {label : LetterSet} {A : Set (Letter k)}
    (hmem : (label, A) ∈ held.sets.zip models.sets) :
    ∃ account ∈ I.sets, account.set = label ∧
      account.assignments = Set.preimage (letterAt k) A := by
  obtain ⟨i, hi, hat⟩ := List.mem_iff_getElem.1 hmem
  rw [List.getElem_zip, Prod.mk.injEq] at hat
  obtain ⟨hlabel, hA⟩ := hat
  obtain ⟨hlt, hlt'⟩ := lt_min_iff.1 (List.length_zip ▸ hi)
  obtain ⟨account, haccount, rfl⟩ := h.sets_at (List.getElem?_eq_some_iff.2 ⟨hlt, hlabel⟩)
  refine ⟨account, List.mem_of_getElem? haccount, rfl, ?_⟩
  have hmeans := congrArg (·[i]?) (h.means hk)
  simp only [List.getElem?_map, haccount, List.getElem?_eq_getElem hlt', hA, Option.map_some]
    at hmeans
  exact Option.some.inj hmeans

omit [DecidableEq S] in
private theorem listed_of_mem {entry : TransitionSet S × LabelAccounts S}
    (hentry : entry ∈ I.transitions) : ∀ a ∈ entry.2.listed, a ∈ I.accounts := fun _ ha =>
  List.mem_append_right _ (List.mem_append_left _ (List.mem_flatMap.2 ⟨entry, hentry, ha⟩))

theorem Covers.right (h : I.Covers owner sensitive step s held models) (hk : k < 2 ^ 31) :
    Right sensitive step s held models := by
  have hsurjective : Function.Surjective (letterAt k) := exists_letterAt hk
  constructor
  · rw [h.sets]
    exact (LetterSet.agrees_of_tends hk h.tends (h.means hk)).faithful hk
  · rw [h.transitions, List.length_map, h.lengths hk]
  · intro set C hmem state letter
    obtain ⟨T, hT, hcovered⟩ := h.transitions_zip hk hmem
    obtain ⟨b, hb, hiff⟩ := TransitionSet.contains_run (h.tends.keeps hk)
      (TransitionSet.covers_of_accounts (h.labels _ hT).1 (listed_of_mem hT) state) letter
    refine ⟨b, hb, ?_⟩
    rw [hiff, hcovered, Set.mem_preimage, letterAt_assignment hk]
  · intro set C label A hset hlabel state b w' hrun
    obtain ⟨T, hT, hcovered⟩ := h.transitions_zip hk hset
    obtain ⟨account, haccount, rfl, hA⟩ := h.sets_zip hk hlabel
    have hanswer := ((TransitionSet.containsAllAt_tends h.tends (h.labels _ hT).1
      (listed_of_mem hT) (List.mem_append_left _ haccount)).of_ok hrun).2 hk
    rw [hanswer, hcovered, hA, hsurjective.preimage_subset_preimage_iff]
  · intro set C other D hset hother b w' hrun
    obtain ⟨T, hT, hcovered⟩ := h.transitions_zip hk hset
    obtain ⟨U, hU, hcovered'⟩ := h.transitions_zip hk hother
    have hanswer := ((TransitionSet.containsAll_tends h.tends (h.labels _ hT).1
      (listed_of_mem hT) (h.labels _ hU).1 (listed_of_mem hU) (h.labels _ hU).2.2).of_ok hrun).2 hk
    simp only [hanswer, hcovered, hcovered', hsurjective.preimage_subset_preimage_iff]
  · intro x row hrow
    obtain ⟨before, after, hsplit, -⟩ := List.lookup_eq_some_iff.1 hrow
    have hmem : (x, row) ∈ I.rows.map (fun entry => (entry.1, entry.2.row)) := by
      rw [← h.rows, hsplit]
      exact List.mem_append_right _ List.mem_cons_self
    obtain ⟨⟨y, E⟩, hentry, hsame⟩ := List.mem_map.1 hmem
    obtain ⟨rfl, rfl⟩ := Prod.mk.inj hsame
    rw [← StateSpace.reading_stepMeaning hk, ← h.grouped _ hentry]
    refine E.reads (h.tends.keeps hk) fun a ha => List.mem_append_right _
      (List.mem_append_right _ (List.mem_flatMap.2 ⟨_, hentry, ha⟩))

/-- What the program has is in the inventory. -/
private theorem Covers.exists_account (h : I.Covers owner sensitive step s held models)
    {label : LetterSet} (hlabel : label ∈ heldLabels s held) :
    ∃ account ∈ I.accounts, account.set = label := by
  obtain hset | hlabel := List.mem_append.1 hlabel
  · rw [h.sets] at hset
    obtain ⟨account, haccount, rfl⟩ := List.mem_map.1 hset
    exact ⟨account, List.mem_append_left _ haccount, rfl⟩
  obtain htransition | hrow := List.mem_append.1 hlabel
  · rw [h.transitions] at htransition
    obtain ⟨_, hset, hlabel⟩ := List.mem_flatMap.1 htransition
    obtain ⟨entry, hentry, rfl⟩ := List.mem_map.1 hset
    rw [(h.labels _ hentry).1] at hlabel
    obtain ⟨_, hpair, rfl⟩ := List.mem_map.1 hlabel
    obtain ⟨pair, hmem, rfl⟩ := List.mem_map.1 hpair
    exact ⟨pair.2, listed_of_mem hentry _ (List.mem_map_of_mem hmem), rfl⟩
  · rw [h.rows] at hrow
    obtain ⟨_, hmem, hlabel⟩ := List.mem_flatMap.1 hrow
    obtain ⟨entry, hentry, rfl⟩ := List.mem_map.1 hmem
    rw [AccountRow.labels_row] at hlabel
    obtain ⟨account, haccount, rfl⟩ := List.mem_map.1 hlabel
    exact ⟨account, List.mem_append_right _ (List.mem_append_right _
      (List.mem_flatMap.2 ⟨entry, hentry, haccount⟩)), rfl⟩

omit [DecidableEq S] in
/-- The factory holds the roots of the inventory. -/
private theorem roots_lists {w : Workspace} (h : w.Tends owner k I.accounts) :
    ∃ f, w.factories[owner]? = some f ∧
      f.roots.Lists (I.accounts.map fun account => account.set.root) := by
  obtain ⟨f, hf, hholds⟩ := h.retains.holds
  refine ⟨f, hf, ?_⟩
  simpa [Custody.roots, Account.custody, Function.comp_def] using hholds.held

/-- After a failed action nothing has changed but that what was handed over is gone. -/
theorem Covers.untouched (h : I.Covers owner sensitive step s held models) {action : Action S}
    (hautomaton : s'.automaton = s.automaton)
    (hw : s'.workspace.Tends owner k (I.left action).accounts) :
    Untouched owner action held s s' := by
  have hleft := h.left action hw
  have hscene : (⟨s.automaton, s'.workspace⟩ : Scene S) = s' := by rw [← hautomaton]
  rw [hscene] at hleft
  have hperm := action.perm_left held
  refine ⟨hautomaton, action.transitions_left held, hperm, ?_, fun label hlabel => ?_⟩
  · obtain ⟨f, hf, hlists⟩ := roots_lists h.tends
    obtain ⟨f', hf', hlists'⟩ := roots_lists hw
    have hroots : ∀ J : Inventory S, J.accounts.map (fun account => account.set.root) =
        (J.sets.map Account.set).map LetterSet.root ++
          (transitionAccounts J.transitions ++ J.rowAccounts).map
            fun account => account.set.root := fun J => by simp [accounts]
    have hboth : (I.accounts.map fun account => account.set.root).Perm
        ((action.consumed held).map LetterSet.root ++
          (I.left action).accounts.map fun account => account.set.root) := by
      rw [hroots I, hroots (I.left action), ← h.sets, ← hleft.sets, ← List.append_assoc,
        ← List.map_append]
      exact (hperm.map _).append_right _
    have hless := hlists.less hlists' hboth
    rw [List.length_map] at hless
    exact ⟨f, f', hf, hf', hless⟩
  · obtain ⟨account, haccount, rfl⟩ := hleft.exists_account hlabel
    have hbefore : account ∈ I.accounts := by
      obtain hset | hother := List.mem_append.1 haccount
      · exact List.mem_append_left _ ((action.perm_left ⟨I.sets, I.transitions⟩).mem_iff.2
          (List.mem_append_right _ hset))
      · exact List.mem_append_right _ hother
    have hcolumn : ∀ {E : List Account}, account ∈ E →
        (account.set, account.answers) ∈ Account.custody E := fun hmem => List.mem_map_of_mem hmem
    exact ⟨account.answers, LetterSet.answers_of_mem h.tends.retains (hcolumn hbefore),
      LetterSet.answers_of_mem hw.retains (hcolumn haccount)⟩

end Inventory

/-- Whatever was done and whatever failed, all is covered. -/
theorem Reached.covers (h : Reached k sensitive step s held models) :
    ∃ I : Inventory S, I.Covers 0 sensitive step s held models := by
  induction h with
  | start initial acceptance hnew =>
      refine ⟨⟨[], [], []⟩, rfl, rfl, rfl, rfl, by simp, rfl, by simp, ⟨?_, fun _ => ?_⟩,
        fun _ => rfl, fun _ => rfl⟩
      · exact ⟨by simp [Inventory.accounts, Inventory.transitionAccounts, Inventory.rowAccounts,
          Account.custody], _, rfl, Factory.ofSizing_retains hnew⟩
      · exact ⟨by simp [Inventory.accounts, Inventory.transitionAccounts, Inventory.rowAccounts,
          Account.ledger], _, rfl, Factory.ofSizing_holds hnew⟩
  | answered action _ hrun ih =>
      obtain ⟨I, hI⟩ := ih
      exact Outcome.of_ok (hI.carries action) hrun
  | failed action _ hrun ih =>
      obtain ⟨I, hI⟩ := ih
      obtain ⟨hautomaton, hw⟩ := Outcome.of_error (hI.carries action) hrun
      have hleft := hI.left action hw
      rw [← hautomaton] at hleft
      exact ⟨_, hleft⟩

/-- Failures are atomic.  After any history, with failures in it, an action that fails leaves
everything untouched but for a letter set that it was handed; and if the propositions are numbered
below `2 ^ 31`, everything that the program has is right, however often actions failed before. -/
theorem reached_atomic (h : Reached k sensitive step s held models) :
    (∀ action : Action S, Outcome (action.perform 0 held) s (fun _ _ => True)
      (fun _ s' => Untouched 0 action held s s')) ∧
    (k < 2 ^ 31 → Right sensitive step s held models) := by
  obtain ⟨I, hI⟩ := h.covers
  exact ⟨fun action => Outcome.mono (hI.carries action) (fun _ _ _ => trivial)
    fun _ _ hend => hI.untouched hend.1 hend.2, hI.right⟩

end Ends

private abbrev NatHoldings := Holdings LetterSet (TransitionSet Nat)

/-- Every state leads back to itself. -/
private def looping (state : Nat) (_ : BitSet) : Option (Edge Nat) :=
  some (Edge.of state)

private def emptyScene : Scene Nat where
  automaton := .create 0 (.ofStep (fun _ => none) looping) ⟨.marks .all, []⟩ (.resolved (some 0))
  workspace := .ofFactories [(Factory.ofSizing 2 ⟨2, 2, 3⟩).toOption.getD default]

/-- What a program has, and the scene, after an action. -/
private def next (now : NatHoldings × Scene Nat) (action : Action Nat) : NatHoldings × Scene Nat :=
  match action.perform 0 now.1 now.2 with
  | .ok held s => (held, s)
  | .error _ s => (action.left now.1, s)

private def fault? (now : NatHoldings × Scene Nat) (action : Action Nat) : Option Fault :=
  match action.perform 0 now.1 now.2 with
  | .ok _ _ => none
  | .error fault _ => some fault

/-- Whether all actions are answered, one after the other. -/
private def allAnswered : NatHoldings × Scene Nat → List (Action Nat) → Bool
  | _, [] => true
  | now, action :: rest => (fault? now action).isNone && allAnswered (next now action) rest

private theorem perform_of_none {now : NatHoldings × Scene Nat} {action : Action Nat}
    (hnone : (fault? now action).isNone = true) :
    action.perform 0 now.1 now.2 = .ok (next now action).1 (next now action).2 := by
  unfold next
  unfold fault? at hnone
  cases hrun : action.perform 0 now.1 now.2 with
  | ok held s => rfl
  | error fault s => simp [hrun] at hnone

private theorem Reached.next_foldl {k : Nat} (actions : List (Action Nat))
    (now : NatHoldings × Scene Nat) {models : Holdings (Set (Letter k)) (Nat → Set (Letter k))}
    (h : Reached k (fun _ => none) looping now.2 now.1 models)
    (hall : allAnswered now actions = true) :
    Reached k (fun _ => none) looping (actions.foldl next now).2 (actions.foldl next now).1
      (actions.foldl (fun models action => action.meaning models) models) := by
  induction actions generalizing now models with
  | nil => exact h
  | cons action rest ih =>
      obtain ⟨hnone, hrest⟩ := Bool.and_eq_true_iff.1 hall
      exact ih _ (h.answered action (perform_of_none hnone)) hrest

private theorem perform_of_some {now : NatHoldings × Scene Nat} {action : Action Nat}
    {fault : Fault} (hsome : fault? now action = some fault) :
    action.perform 0 now.1 now.2 = .error fault (next now action).2 := by
  unfold next
  unfold fault? at hsome
  cases hrun : action.perform 0 now.1 now.2 with
  | ok held s => simp [hrun] at hsome
  | error fault' s =>
      rw [hrun] at hsome
      obtain rfl := Option.some.inj hsome
      rfl

/-- The fault of an action in a scene where every failed action leaves things untouched. -/
private theorem untouched_of_run {now : NatHoldings × Scene Nat} {action : Action Nat}
    {fault : Fault} {s : Scene Nat}
    (h : ∀ action : Action Nat, Outcome (action.perform 0 now.1) now.2 (fun _ _ => True)
      (fun _ s' => Untouched 0 action now.1 now.2 s'))
    (hrun : action.perform 0 now.1 now.2 = .error fault s) :
    Untouched 0 action now.1 now.2 s :=
  (h action).of_error hrun

/-- Two propositions fill the table, and the second is covered at state 7. -/
private def filling : List (Action Nat) :=
  [.call (.proposition 0), .call (.proposition 1), .create, .insert 0 7 0]

private def full : NatHoldings × Scene Nat :=
  filling.foldl next (⟨[], []⟩, emptyScene)

private def fullModels : Holdings (Set (Letter 2)) (Nat → Set (Letter 2)) :=
  filling.foldl (fun models action => action.meaning models) ⟨[], []⟩

/-- The first proposition, too, is to be covered there, for which there is no cell. -/
private def refused : Action Nat :=
  .insert 0 7 0

private theorem full_reached :
    Reached 2 (fun _ => none) looping full.2 full.1 fullModels := by
  have hnew : Factory.ofSizing 2 ⟨2, 2, 3⟩ =
      .ok ((Factory.ofSizing 2 ⟨2, 2, 3⟩).toOption.getD default) := rfl
  have hstart : Reached 2 (fun _ => none) looping emptyScene ⟨[], []⟩ ⟨[], []⟩ :=
    .start (.resolved (some 0)) ⟨.marks .all, []⟩ hnew
  exact Reached.next_foldl filling (⟨[], []⟩, emptyScene) hstart (by decide +kernel)

private theorem full_fault : fault? full refused = some .storageFull := by
  decide +kernel

/-- The theorem where a set of transitions takes over a letter set and the table is full: the one
is as it was, and the other is gone. -/
theorem full_refuses :
    ∃ s, refused.perform 0 full.1 full.2 = .error .storageFull s ∧
      Untouched 0 refused full.1 full.2 s ∧
      Right (fun _ => none) looping s (refused.left full.1) (refused.left fullModels) := by
  have hrun := perform_of_some full_fault
  have huntouched := untouched_of_run (reached_atomic full_reached).1 hrun
  have hright := (reached_atomic (full_reached.failed refused hrun)).2 (by decide)
  exact ⟨(next full refused).2, hrun, huntouched, hright⟩

end Automaton

end SymbolicOmega
