import SymbolicOmega.Proofs.Acceptance.Splitting
import SymbolicOmega.Proofs.Automaton.Closure
import SymbolicOmega.Proofs.Letters.Accounts

/-!
# Adding transitions

A set of transitions is kept as accounts of its labels.  Adding letters at a state changes what is
covered there and nowhere else; if the letters cannot be added, the set is what it was and only the
letters that were handed over are gone.
-/

namespace SymbolicOmega

open Workspace LetterSet

/-- The accounts of the labels of a set of transitions. -/
abbrev LabelAccounts (S : Type) := List (S × Account)

namespace LabelAccounts

variable {S : Type}

def labels (T : LabelAccounts S) : List (S × LetterSet) :=
  T.map fun entry => (entry.1, entry.2.set)

def listed (T : LabelAccounts S) : List Account :=
  T.map Prod.snd

variable [DecidableEq S]

/-- What is covered at a state. -/
def covered (T : LabelAccounts S) (state : S) : Set Assignment :=
  match T.lookup state with
  | some account => account.assignments
  | none => ∅

theorem lookup_labels (T : LabelAccounts S) (state : S) :
    T.labels.lookup state = (T.lookup state).map Account.set := by
  induction T with
  | nil => rfl
  | cons entry rest ih =>
      obtain ⟨x, account⟩ := entry
      cases hx : state == x with
      | true => simp [labels, List.lookup_cons, hx]
      | false => simpa [labels, List.lookup_cons, hx] using ih

/-- Where no state has two labels, each label covers what it is made of. -/
theorem covered_of_mem {T : LabelAccounts S} (hdistinct : (T.map Prod.fst).Nodup)
    {entry : S × Account} (hentry : entry ∈ T) : T.covered entry.1 = entry.2.assignments := by
  rw [covered, lookup_of_mem hdistinct hentry]

/-- A state that comes last covers what its label is made of. -/
theorem covered_concat {T : LabelAccounts S} {state : S} (hnone : T.lookup state = none)
    (label : Account) :
    covered (T ++ [(state, label)]) =
      Function.update T.covered state (T.covered state ∪ label.assignments) := by
  funext x
  by_cases hx : x = state
  · subst hx
    simp [covered, List.lookup_append, hnone]
  · have hne : (x == state) = false := beq_eq_false_iff_ne.2 hx
    simp [covered, List.lookup_append, List.lookup_cons, hx, hne]

/-- The accounts before and after the first one at a state. -/
theorem exists_split {T : LabelAccounts S} {state : S} {own : Account}
    (h : T.lookup state = some own) :
    ∃ before after : LabelAccounts S, T = before ++ (state, own) :: after ∧
      ∀ entry ∈ before, (state == entry.1) = false := by
  obtain ⟨before, after, hsplit, hbefore⟩ := List.lookup_eq_some_iff.1 h
  exact ⟨before, after, hsplit, fun entry hentry => by simpa using hbefore entry hentry⟩

section Split
variable {before : LabelAccounts S} {state : S}

theorem lookup_split (hbefore : ∀ entry ∈ before, (state == entry.1) = false) (own : Account)
    (after : LabelAccounts S) (x : S) :
    (before ++ (state, own) :: after).lookup x =
      if x = state then some own else (before ++ after).lookup x := by
  rw [List.lookup_append, List.lookup_append, List.lookup_cons]
  by_cases hx : x = state
  · subst hx
    have hnone : before.lookup x = none := List.lookup_eq_none_iff.2 fun entry hentry => by
      simpa using hbefore entry hentry
    simp [hnone]
  · have hne : (x == state) = false := beq_eq_false_iff_ne.2 hx
    simp [hx, hne]

theorem setLabel_split (hbefore : ∀ entry ∈ before, (state == entry.1) = false) (own new : Account)
    (after : LabelAccounts S) :
    TransitionSet.setLabel state new.set (labels (before ++ (state, own) :: after)) =
      labels (before ++ (state, new) :: after) := by
  induction before with
  | nil => exact if_pos rfl
  | cons entry rest ih =>
      obtain ⟨hfirst, hrest⟩ := List.forall_mem_cons.1 hbefore
      have hne : entry.1 ≠ state := fun heq => by simp [heq] at hfirst
      change (if entry.1 = state then _ else _) = _
      rw [if_neg hne]
      exact congrArg _ (ih hrest)

/-- Another label at a state changes what is covered there. -/
theorem covered_split (hbefore : ∀ entry ∈ before, (state == entry.1) = false) (own new : Account)
    (after : LabelAccounts S) :
    covered (before ++ (state, new) :: after) =
      Function.update (covered (before ++ (state, own) :: after)) state new.assignments := by
  funext x
  by_cases hx : x = state
  · subst hx
    simp [covered, lookup_split hbefore]
  · simp [covered, lookup_split hbefore, hx]

omit [DecidableEq S] in
theorem listed_split (state : S) (own : Account) (before after : LabelAccounts S) :
    (listed (before ++ (state, own) :: after)).Perm (own :: listed (before ++ after)) := by
  simp [listed]

end Split

/-! ### Books -/

/-- Books of the labels in a factory, whatever is entered beside them.  That exactly these sets
are there is said by `listed`, and after a fault by `left`. -/
structure Books (listed : List Account → Workspace → Prop)
    (left : List Account → Fault → Workspace → Prop) : Prop where
  perm : ∀ {L L' w}, listed L w → L.Perm L' → listed L' w
  left_perm : ∀ {L L' fault w}, left L fault w → L.Perm L' → left L' fault w
  absorb : ∀ {own other L w}, listed (own :: other :: L) w →
    Outcome (own.set.absorb other.set) w
      (fun s w' => ∃ F, listed (⟨s, F, own.assignments ∪ other.assignments⟩ :: L) w')
      (left (own :: L))

theorem books_tends {i k : Nat} :
    Books (fun L w => w.Tends i k L) fun L _ w => w.Tends i k L where
  perm h := h.perm
  left_perm h := h.perm
  absorb := absorb_tends

end LabelAccounts

namespace TransitionSet

variable {S : Type} [DecidableEq S] {w : Workspace} {i k : Nat} {L : List Account}
variable {set : TransitionSet S} {T : LabelAccounts S} {state : S}

theorem label?_eq (hT : set.labels = T.labels) (state : S) :
    set.label? state = (T.lookup state).map Account.set := by
  rw [label?, hT, LabelAccounts.lookup_labels]

/-- What the accounts say is covered is covered. -/
theorem covers_of_accounts (hT : set.labels = T.labels) (hlisted : ∀ a ∈ T.listed, a ∈ L)
    (state : S) : set.Covers (Account.ledger L) state (T.covered state) := by
  rw [Covers, label?_eq hT, LabelAccounts.covered]
  cases hown : T.lookup state with
  | none => rfl
  | some own =>
      obtain ⟨before, after, rfl, -⟩ := LabelAccounts.exists_split hown
      exact List.mem_map_of_mem (f := fun account : Account => (account.set, account.assignments))
        (hlisted own (by simp [LabelAccounts.listed]))

/-- Asking what is covered at a state keeps every set, and is answered rightly. -/
theorem containsAllAt_tends {label : Account} (h : w.Tends i k L) (hT : set.labels = T.labels)
    (hlisted : ∀ a ∈ T.listed, a ∈ L) (hlabel : label ∈ L) :
    Outcome (set.containsAllAt state label.set) w
      (fun b w' => w'.Tends i k L ∧
        (k < 2 ^ 31 → (b = true ↔ label.assignments ⊆ T.covered state)))
      (fun _ w' => w'.Tends i k L) := by
  rw [containsAllAt, label?_eq hT, LabelAccounts.covered]
  cases hown : T.lookup state with
  | none =>
      refine Outcome.pure ⟨h, fun hk => ?_⟩
      rw [isEmpty_iff (h.keeps hk) (List.mem_map_of_mem hlabel), Set.subset_empty_iff]
  | some own =>
      obtain ⟨before, after, rfl, -⟩ := LabelAccounts.exists_split hown
      exact containsAll_tends h (hlisted own (by simp [LabelAccounts.listed])) hlabel

/-- Comparing two sets of transitions keeps every set, and is answered rightly. -/
theorem containsAll_tends {other : TransitionSet S} {U : LabelAccounts S} (h : w.Tends i k L)
    (hT : set.labels = T.labels) (hlistedT : ∀ a ∈ T.listed, a ∈ L)
    (hU : other.labels = U.labels) (hlistedU : ∀ a ∈ U.listed, a ∈ L)
    (hdistinct : (U.map Prod.fst).Nodup) :
    Outcome (set.containsAll other) w
      (fun b w' => w'.Tends i k L ∧
        (k < 2 ^ 31 → (b = true ↔ ∀ state, U.covered state ⊆ T.covered state)))
      (fun _ w' => w'.Tends i k L) := by
  have hstep : ∀ pair ∈ other.labels, ∀ w : Workspace, w.Tends i k L →
      Outcome (set.containsAllAt pair.1 pair.2) w
        (fun b w' => w'.Tends i k L ∧
          (k < 2 ^ 31 → (b = true ↔ U.covered pair.1 ⊆ T.covered pair.1)))
        (fun _ w' => w'.Tends i k L) := by
    intro pair hpair w hw
    rw [hU] at hpair
    obtain ⟨entry, hentry, rfl⟩ := List.mem_map.1 hpair
    rw [LabelAccounts.covered_of_mem hdistinct hentry]
    exact containsAllAt_tends hw hT hlistedT (hlistedU _ (List.mem_map_of_mem hentry))
  refine (Outcome.allM hstep h).imp fun b w' hend => ⟨hend.1, fun hk => ?_⟩
  rw [hend.2 hk]
  refine ⟨fun hall state => ?_, fun hall pair _ => hall pair.1⟩
  cases hown : U.lookup state with
  | none =>
      have hempty : U.covered state = ∅ := by rw [LabelAccounts.covered, hown]
      exact hempty ▸ Set.empty_subset _
  | some own =>
      obtain ⟨before, after, rfl, -⟩ := LabelAccounts.exists_split hown
      exact hall (state, own.set) (by simp [hU, LabelAccounts.labels])

/-- Letters are added at one state, or given back with the set left as it was, whatever books are
kept of the labels. -/
theorem insert_outcome {listed : List Account → Workspace → Prop}
    {left : List Account → Fault → Workspace → Prop} (hbooks : LabelAccounts.Books listed left)
    {label : Account} (hT : set.labels = T.labels) (h : listed (label :: (T.listed ++ L)) w) :
    Outcome (set.insert state label.set) w
      (fun set' w' => ∃ T' : LabelAccounts S, set'.labels = T'.labels ∧ set'.owner = set.owner ∧
        T'.map Prod.fst = (if state ∈ T.map Prod.fst then T.map Prod.fst
          else T.map Prod.fst ++ [state]) ∧
        T'.covered = Function.update T.covered state (T.covered state ∪ label.assignments) ∧
        listed (T'.listed ++ L) w')
      (left (T.listed ++ L)) := by
  rw [insert, label?_eq hT]
  cases hown : T.lookup state with
  | none =>
      have hnew : state ∉ T.map Prod.fst := by
        intro hmem
        obtain ⟨entry, hentry, rfl⟩ := List.mem_map.1 hmem
        simpa using List.lookup_eq_none_iff.1 hown entry hentry
      refine Outcome.pure ⟨T ++ [(state, label)], ?_, rfl, ?_,
        LabelAccounts.covered_concat hown label, hbooks.perm h ?_⟩
      · simp [LabelAccounts.labels, hT]
      · rw [if_neg hnew, List.map_append]
        rfl
      · simpa [LabelAccounts.listed] using List.perm_middle.symm
  | some own =>
      obtain ⟨before, after, rfl, hbefore⟩ := LabelAccounts.exists_split hown
      have hfront := LabelAccounts.listed_split state own before after
      have hpick : listed (own :: label :: (LabelAccounts.listed (before ++ after) ++ L)) w :=
        hbooks.perm h (((hfront.append_right L).cons _).trans (.swap ..))
      refine Outcome.bind ((hbooks.absorb hpick).mono ?_ fun _ w' hw' =>
        hbooks.left_perm hw' (hfront.append_right L).symm)
      rintro s w' ⟨F, hw'⟩
      have hlisted := LabelAccounts.listed_split state
        ⟨s, F, own.assignments ∪ label.assignments⟩ before after
      have hcovered : LabelAccounts.covered (before ++ (state, own) :: after) state =
          own.assignments := by
        simp [LabelAccounts.covered, LabelAccounts.lookup_split hbefore]
      refine Outcome.pure ⟨before ++ (state, ⟨s, F, own.assignments ∪ label.assignments⟩) :: after,
        ?_, rfl, ?_, ?_, hbooks.perm hw' (hlisted.append_right L).symm⟩
      · rw [hT]
        exact LabelAccounts.setLabel_split hbefore own
          ⟨s, F, own.assignments ∪ label.assignments⟩ after
      · simp
      · rw [hcovered]
        exact LabelAccounts.covered_split hbefore own _ after

/-- Letters are added at one state, or given back with the set left as it was. -/
theorem insert_tends {label : Account} (hT : set.labels = T.labels)
    (h : w.Tends i k (label :: (T.listed ++ L))) :
    Outcome (set.insert state label.set) w
      (fun set' w' => ∃ T' : LabelAccounts S, set'.labels = T'.labels ∧ set'.owner = set.owner ∧
        ((T.map Prod.fst).Nodup → (T'.map Prod.fst).Nodup) ∧
        T'.covered = Function.update T.covered state (T.covered state ∪ label.assignments) ∧
        w'.Tends i k (T'.listed ++ L))
      (fun _ w' => w'.Tends i k (T.listed ++ L)) := by
  refine (insert_outcome LabelAccounts.books_tends hT h).imp ?_
  rintro set' w' ⟨T', hlabels, howner, hstates, hcovered, hw'⟩
  refine ⟨T', hlabels, howner, fun hdistinct => ?_, hcovered, hw'⟩
  rw [hstates]
  split
  · exact hdistinct
  · rename_i hnew
    exact hdistinct.append (List.nodup_singleton state) (List.disjoint_singleton.2 hnew)

/-- All letters are added at one state, or nothing changes. -/
theorem insertAll_tends (howner : set.owner = i) (hT : set.labels = T.labels)
    (h : w.Tends i k (T.listed ++ L)) :
    Outcome (set.insertAll state) w
      (fun set' w' => ∃ T' : LabelAccounts S, set'.labels = T'.labels ∧ set'.owner = set.owner ∧
        ((T.map Prod.fst).Nodup → (T'.map Prod.fst).Nodup) ∧
        T'.covered = Function.update T.covered state Set.univ ∧ w'.Tends i k (T'.listed ++ L))
      (fun _ w' => w'.Tends i k (T.listed ++ L)) := by
  subst howner
  refine Outcome.andThen (all_tends h) ?_
  rintro label w' ⟨F, hw'⟩
  refine (insert_tends hT hw').imp ?_
  rintro set' w'' ⟨T', hlabels, howner', hdistinct, hcovered, hw''⟩
  exact ⟨T', hlabels, howner', hdistinct, by rw [hcovered, Set.union_univ], hw''⟩

end TransitionSet

end SymbolicOmega
