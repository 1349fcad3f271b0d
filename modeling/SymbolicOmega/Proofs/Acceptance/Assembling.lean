import Mathlib.Data.List.Perm.Basic
import SymbolicOmega.Proofs.Acceptance.Coarsest
import SymbolicOmega.Proofs.Acceptance.Implication
import SymbolicOmega.Proofs.Acceptance.Records

/-!
# How sets of transitions are put together

Beside the letter sets of a factory there are sets of transitions, to which letters are added at
states, in any order and with failures on the way.  Whatever the history, the factory holds the
letter sets and the labels of the sets of transitions and no others, and the labels of a set cover
what was added to it.
-/

namespace SymbolicOmega

open Workspace

namespace TransitionSet

variable {S : Type}

/-! ## Histories -/

/-- What a program has in a factory: letter sets, and sets of transitions with their records. -/
structure Assembly (S : Type) where
  sets : List LetterSet
  stock : List (TransitionSet S × Insertions S)
  workspace : Workspace

/-- The letter sets, and the labels of the sets of transitions. -/
def Assembly.labels (a : Assembly S) : List LetterSet :=
  a.sets ++ a.stock.flatMap fun entry => entry.1.labels.map Prod.snd

/-- The operation ends in the workspace, with an answer or a fault. -/
def Ends {β : Type} (x : WorkM β) (w w' : Workspace) : Prop :=
  (∃ b, x w = .ok b w') ∨ ∃ fault, x w = .error fault w'

theorem Ends.of_outcome {β : Type} {x : WorkM β} {w w' : Workspace} {P : Workspace → Prop}
    (h : Ends x w w') (hx : Outcome x w (fun _ u => P u) fun _ u => P u) : P w' := by
  rcases h with ⟨b, hrun⟩ | ⟨fault, hrun⟩
  · exact hx.of_ok hrun
  · exact hx.of_error hrun

section
variable [DecidableEq S]

/-- Some history of the factory at position `owner`, over `k` propositions, left this.  It starts
without any set, in tables of any size.  Letter sets are made by operations that make literals of
propositions that fit signed numbers only. -/
inductive Assembled (k owner : Nat) : Assembly S → Prop
  | new {sizing : Sizing} {f : Factory} {w : Workspace} (hnew : Factory.ofSizing k sizing = .ok f)
      (hplace : w.factories[owner]? = some f) (hhistory : w.HasHistory) :
      Assembled k owner ⟨[], [], w⟩
  | answered {sets sets' : List LetterSet} {stock : List (TransitionSet S × Insertions S)}
      {w w' : Workspace} (call : LetterSet.Call) (h : Assembled k owner ⟨sets, stock, w⟩)
      (hsigned : call.Signed k) (hrun : call.perform owner sets w = .ok sets' w') :
      Assembled k owner ⟨sets', stock, w'⟩
  | failed {sets : List LetterSet} {stock : List (TransitionSet S × Insertions S)}
      {w w' : Workspace} {fault : Fault} (call : LetterSet.Call)
      (h : Assembled k owner ⟨sets, stock, w⟩) (hsigned : call.Signed k)
      (hrun : call.perform owner sets w = .error fault w') :
      Assembled k owner ⟨call.left sets, stock, w'⟩
  | created {sets : List LetterSet} {stock : List (TransitionSet S × Insertions S)}
      {w w' : Workspace} {set : TransitionSet S} (h : Assembled k owner ⟨sets, stock, w⟩)
      (hrun : create owner w = .ok set w') : Assembled k owner ⟨sets, (set, []) :: stock, w'⟩
  /-- The first letter set is added to the first set of transitions. -/
  | inserted {label : LetterSet} {sets : List LetterSet} {set set' : TransitionSet S}
      {H : Insertions S} {stock : List (TransitionSet S × Insertions S)} {w w' : Workspace}
      (state : S) (h : Assembled k owner ⟨label :: sets, (set, H) :: stock, w⟩)
      (hrun : set.insert state label w = .ok set' w') :
      Assembled k owner ⟨sets, (set', H ++ [(state, label.contained w)]) :: stock, w'⟩
  | refused {label : LetterSet} {sets : List LetterSet} {set : TransitionSet S}
      {H : Insertions S} {stock : List (TransitionSet S × Insertions S)} {w w' : Workspace}
      {fault : Fault} (state : S) (h : Assembled k owner ⟨label :: sets, (set, H) :: stock, w⟩)
      (hrun : set.insert state label w = .error fault w') :
      Assembled k owner ⟨sets, (set, H) :: stock, w'⟩
  | insertedAll {sets : List LetterSet} {set set' : TransitionSet S} {H : Insertions S}
      {stock : List (TransitionSet S × Insertions S)} {w w' : Workspace} (state : S)
      (h : Assembled k owner ⟨sets, (set, H) :: stock, w⟩)
      (hrun : set.insertAll state w = .ok set' w') :
      Assembled k owner ⟨sets, (set', H ++ [(state, Set.univ)]) :: stock, w'⟩
  | refusedAll {sets : List LetterSet} {set : TransitionSet S} {H : Insertions S}
      {stock : List (TransitionSet S × Insertions S)} {w w' : Workspace} {fault : Fault} (state : S)
      (h : Assembled k owner ⟨sets, (set, H) :: stock, w⟩)
      (hrun : set.insertAll state w = .error fault w') :
      Assembled k owner ⟨sets, (set, H) :: stock, w'⟩
  | copied {sets : List LetterSet} {set own : TransitionSet S} {H : Insertions S}
      {stock : List (TransitionSet S × Insertions S)} {w w' : Workspace}
      (h : Assembled k owner ⟨sets, (set, H) :: stock, w⟩) (hrun : set.copy w = .ok own w') :
      Assembled k owner ⟨sets, (own, H) :: (set, H) :: stock, w'⟩
  /-- The last holder lets go of the first set of transitions. -/
  | dropped {sets : List LetterSet} {set : TransitionSet S} {H : Insertions S}
      {stock : List (TransitionSet S × Insertions S)} {w w' : Workspace}
      (h : Assembled k owner ⟨sets, (set, H) :: stock, w⟩) (hlast : w.holders.count set.ticket ≤ 1)
      (hrun : set.letGo w = .ok () w') : Assembled k owner ⟨sets, stock, w'⟩
  | askedAt {a : Assembly S} {w' : Workspace} {set : TransitionSet S} {H : Insertions S} (state : S)
      {label : LetterSet} (h : Assembled k owner a) (hset : (set, H) ∈ a.stock)
      (hlabel : label ∈ a.labels) (hends : Ends (set.containsAllAt state label) a.workspace w') :
      Assembled k owner { a with workspace := w' }
  | asked {a : Assembly S} {w' : Workspace} {set other : TransitionSet S} {H G : Insertions S}
      (h : Assembled k owner a) (hset : (set, H) ∈ a.stock) (hother : (other, G) ∈ a.stock)
      (hends : Ends (set.containsAll other) a.workspace w') :
      Assembled k owner { a with workspace := w' }
  /-- The order in which things are listed is no matter. -/
  | arranged {a a' : Assembly S} (h : Assembled k owner a) (hsets : a.sets.Perm a'.sets)
      (hstock : a.stock.Perm a'.stock) (hsame : a'.workspace = a.workspace) :
      Assembled k owner a'
  /-- What is done elsewhere leaves the factory alone. -/
  | elsewhere {a : Assembly S} {w' : Workspace} (h : Assembled k owner a)
      (hsame : w'.factories[owner]? = a.workspace.factories[owner]?) (hhistory : w'.HasHistory) :
      Assembled k owner { a with workspace := w' }

/-- Operations on letter sets, one after the other, go on with a history. -/
theorem Assembled.performAll {k owner : Nat} {sets sets' : List LetterSet}
    {stock : List (TransitionSet S × Insertions S)} {w w' : Workspace}
    {calls : List LetterSet.Call} (h : Assembled k owner ⟨sets, stock, w⟩)
    (hsigned : ∀ call ∈ calls, call.Signed k)
    (hrun : LetterSet.performAll owner calls sets w = .ok sets' w') :
    Assembled k owner ⟨sets', stock, w'⟩ :=
  LetterSet.performAll_keeps (P := fun sets w => Assembled k owner ⟨sets, stock, w⟩)
    (fun call hcall _ _ _ _ h => h.answered call (hsigned call hcall)) h hrun

/-! ## Accounts of everything -/

/-- The labels of all sets of transitions with what they are made of. -/
def stockLedger (D : List (LabelAccounts S × TransitionSet S × Insertions S)) : Ledger :=
  D.flatMap fun entry => Account.ledger entry.1.listed

/-- The factory has the letter sets of `E` and the labels of the sets of transitions of `D`, and no
others. -/
structure Accounted (k owner : Nat) (E : List (LetterSet × Set (Letter k)))
    (D : List (LabelAccounts S × TransitionSet S × Insertions S)) (w : Workspace) : Prop where
  records : ∀ entry ∈ D, Records k owner entry.1 entry.2.1 entry.2.2
  serves : w.Serves owner k (LetterSet.ledger E ++ stockLedger D)

namespace Accounted

variable {k owner : Nat} {E E' : List (LetterSet × Set (Letter k))} {w w' : Workspace}
variable {D D' : List (LabelAccounts S × TransitionSet S × Insertions S)}
variable {T : LabelAccounts S} {set other : TransitionSet S} {H G : Insertions S}
variable {label : LetterSet} {A : Set Assignment}

theorem perm (h : Accounted k owner E D w) (hE : E.Perm E') (hD : D.Perm D') :
    Accounted k owner E' D' w :=
  ⟨fun entry hentry => h.records entry (hD.mem_iff.2 hentry),
    h.serves.perm ((hE.map _).append (hD.flatMap_right _))⟩

/-- A set of transitions comes to the front with its labels. -/
theorem front (h : Accounted k owner E ((T, set, H) :: D) w) :
    w.Serves owner k (Account.ledger T.listed ++ (LetterSet.ledger E ++ stockLedger D)) :=
  h.serves.perm (List.perm_append_comm_assoc ..)

theorem of_front (hrecords : Records k owner T set H)
    (hrest : ∀ entry ∈ D, Records k owner entry.1 entry.2.1 entry.2.2)
    (h : w.Serves owner k (Account.ledger T.listed ++ (LetterSet.ledger E ++ stockLedger D))) :
    Accounted k owner E ((T, set, H) :: D) w :=
  ⟨List.forall_mem_cons.2 ⟨hrecords, hrest⟩, h.perm (List.perm_append_comm_assoc ..)⟩

/-- Whatever is done with letter sets, the sets of transitions stay as they are. -/
theorem perform (h : Accounted k owner E D w) {call : LetterSet.Call} (hsigned : call.Signed k) :
    Outcome (call.perform owner (E.map Prod.fst)) w
      (fun sets' w' => ∃ E', sets' = E'.map Prod.fst ∧ Accounted k owner E' D w')
      (fun _ w' => ∃ E', call.left (E.map Prod.fst) = E'.map Prod.fst ∧
        Accounted k owner E' D w') := by
  have hagrees : LetterSet.Agrees owner (stockLedger D) w (E.map Prod.fst) (E.map Prod.snd) :=
    ⟨E, rfl, rfl, h.serves.keeps⟩
  refine ((LetterSet.perform_agrees hsigned hagrees).and (LetterSet.Call.perform_upholds
    Manager.hasHistory_lasting owner (E.map Prod.fst) call w h.serves.history)).mono ?_ ?_
  · rintro sets' w' ⟨⟨E', hsets, -, hkeeps⟩, hhistory⟩
    exact ⟨E', hsets, h.records, hkeeps, hhistory⟩
  · rintro fault w' ⟨⟨E', hsets, -, hkeeps⟩, hhistory⟩
    exact ⟨E', hsets, h.records, hkeeps, hhistory⟩

theorem create (h : Accounted k owner E D w) :
    ∃ (set : TransitionSet S) (w' : Workspace), TransitionSet.create owner w = .ok set w' ∧
      Accounted k owner E (([], set, []) :: D) w' :=
  ⟨⟨w.nextTicket, owner, []⟩, ⟨w.factories, w.nextTicket :: w.holders, w.nextTicket + 1⟩, rfl,
    of_front (Records.empty k owner w.nextTicket) h.records
      ⟨h.serves.keeps.of_factory rfl, h.serves.history⟩⟩

/-- A letter set goes into the record of a set of transitions, or is gone. -/
theorem insert {M : Set (Letter k)}
    (h : Accounted k owner ((label, M) :: E) ((T, set, H) :: D) w) (state : S) :
    Outcome (set.insert state label) w
      (fun set' w' => ∃ T', Accounted k owner E
        ((T', set', H ++ [(state, label.contained w)]) :: D) w')
      (fun _ w' => Accounted k owner E ((T, set, H) :: D) w') := by
  obtain ⟨hrecords, hrest⟩ := List.forall_mem_cons.1 h.records
  have hlisted : (label, Set.preimage (letterAt k) M) ∈
      LetterSet.ledger ((label, M) :: E) ++ stockLedger ((T, set, H) :: D) := List.mem_cons_self
  have hpicked : w.Serves owner k ((label, Set.preimage (letterAt k) M) ::
      (Account.ledger T.listed ++ (LetterSet.ledger E ++ stockLedger D))) :=
    h.serves.perm ((List.perm_append_comm_assoc ..).cons _)
  have hletters : ∀ letter : BitSet, letter ∈ label.contained w ↔
      letter.assignment ∈ Set.preimage (letterAt k) M :=
    LetterSet.contains_iff h.serves.keeps hlisted
  refine (insert_records hrecords hletters (h.serves.keeps.byLetters hlisted) hpicked state).mono ?_
    fun _ w' hw' => of_front hrecords hrest hw'.serves
  rintro set' w' ⟨T', hrecords', hw'⟩
  exact ⟨T', of_front hrecords' hrest hw'⟩

theorem insertAll (h : Accounted k owner E ((T, set, H) :: D) w) (state : S) :
    Outcome (set.insertAll state) w
      (fun set' w' => ∃ T', Accounted k owner E ((T', set', H ++ [(state, Set.univ)]) :: D) w')
      (fun _ w' => Accounted k owner E ((T, set, H) :: D) w') := by
  obtain ⟨hrecords, hrest⟩ := List.forall_mem_cons.1 h.records
  refine (insertAll_records hrecords h.front state).mono ?_
    fun _ w' hw' => of_front hrecords hrest hw'.serves
  rintro set' w' ⟨T', hrecords', hw'⟩
  exact ⟨T', of_front hrecords' hrest hw'⟩

theorem copy (h : Accounted k owner E ((T, set, H) :: D) w) :
    ∃ (own : TransitionSet S) (T' : LabelAccounts S) (w' : Workspace), set.copy w = .ok own w' ∧
      Accounted k owner E ((T', own, H) :: (T, set, H) :: D) w' := by
  obtain ⟨hrecords, hrest⟩ := List.forall_mem_cons.1 h.records
  obtain ⟨own, T', w', hrun, hrecords', hw'⟩ :=
    copy_records hrecords h.front (List.subset_append_left ..)
  exact ⟨own, T', w', hrun, of_front hrecords' h.records
    (hw'.perm ((List.perm_append_comm_assoc ..).append_left _))⟩

theorem letGo (h : Accounted k owner E ((T, set, H) :: D) w)
    (hlast : w.holders.count set.ticket ≤ 1) :
    ∃ w', set.letGo w = .ok () w' ∧ Accounted k owner E D w' := by
  obtain ⟨hrecords, hrest⟩ := List.forall_mem_cons.1 h.records
  obtain ⟨w', hrun, hw'⟩ := letGo_serves hrecords h.front hlast
  exact ⟨w', hrun, hrest, hw'⟩

theorem covers (h : Accounted k owner E D w)
    {entry : LabelAccounts S × TransitionSet S × Insertions S} (hentry : entry ∈ D) (state : S) :
    entry.2.1.Covers (LetterSet.ledger E ++ stockLedger D) state (entry.1.covered state) :=
  (covers_of_accounts (h.records entry hentry).labels (fun _ ha => ha) state).mono
    fun _ hlisted => List.mem_append_right _ (List.mem_flatMap.2 ⟨entry, hentry, hlisted⟩)

theorem askAt (h : Accounted k owner E D w)
    {entry : LabelAccounts S × TransitionSet S × Insertions S} (hentry : entry ∈ D)
    (hlabel : (label, A) ∈ LetterSet.ledger E ++ stockLedger D) (state : S) :
    Outcome (entry.2.1.containsAllAt state label) w
      (fun b w' => Accounted k owner E D w' ∧ (b = true ↔ A ⊆ entry.1.covered state))
      (fun fault w' => Accounted k owner E D w' ∧ NoCell owner fault w') :=
  (containsAllAt_outcome LetterSet.books_serves h.serves (h.covers hentry state) hlabel).mono
    (fun _ _ hend => ⟨⟨h.records, hend.1⟩, hend.2⟩)
    fun _ _ hend => ⟨⟨h.records, hend.serves⟩, hend.noCell⟩

theorem ask (h : Accounted k owner E D w)
    {entry entry' : LabelAccounts S × TransitionSet S × Insertions S} (hentry : entry ∈ D)
    (hentry' : entry' ∈ D) :
    Outcome (entry.2.1.containsAll entry'.2.1) w
      (fun b w' => Accounted k owner E D w' ∧
        (b = true ↔ ∀ state, entry'.1.covered state ⊆ entry.1.covered state))
      (fun fault w' => Accounted k owner E D w' ∧ NoCell owner fault w') := by
  have hdistinct : entry'.2.1.states.Nodup :=
    (h.records entry' hentry').states_eq ▸ nodup_eraseDups _
  exact (containsAll_serves h.serves (h.covers hentry) (h.covers hentry') hdistinct).mono
    (fun _ _ hend => ⟨⟨h.records, hend.1⟩, hend.2⟩)
    fun _ _ hend => ⟨⟨h.records, hend.serves⟩, hend.noCell⟩

/-- What is listed as live is live, and told by letters. -/
theorem exists_listed (h : Accounted k owner E D w)
    (hlabel : label ∈ E.map Prod.fst ++
      (D.map Prod.snd).flatMap fun entry => entry.1.labels.map Prod.snd) :
    ∃ A, (label, A) ∈ LetterSet.ledger E ++ stockLedger D ∧ ByLetters k A := by
  rcases List.mem_append.1 hlabel with hset | hstock
  · obtain ⟨entry, hentry, rfl⟩ := List.mem_map.1 hset
    have hlisted : (entry.1, Set.preimage (letterAt k) entry.2) ∈
        LetterSet.ledger E ++ stockLedger D :=
      List.mem_append_left _ (List.mem_map_of_mem
        (f := fun entry => (entry.1, Set.preimage (letterAt k) entry.2)) hentry)
    exact ⟨_, hlisted, h.serves.keeps.byLetters hlisted⟩
  · obtain ⟨stocked, hstocked, hlabel⟩ := List.mem_flatMap.1 hstock
    obtain ⟨entry, hentry, rfl⟩ := List.mem_map.1 hstocked
    have hrecords := h.records entry hentry
    rw [hrecords.labels] at hlabel
    obtain ⟨own, hown, rfl⟩ := List.mem_map.1 hlabel
    obtain ⟨⟨state, account⟩, haccount, rfl⟩ := List.mem_map.1 hown
    have hcovered : entry.1.covered state = account.assignments :=
      LabelAccounts.covered_of_mem hrecords.distinct haccount
    refine ⟨account.assignments, List.mem_append_right _ (List.mem_flatMap.2 ⟨entry, hentry, ?_⟩),
      hcovered ▸ hrecords.byLetters state⟩
    exact List.mem_map_of_mem (List.mem_map_of_mem haccount)

end Accounted

section Columns
variable {α β : Type} {D : List (α × β)} {b : β} {rest : List β}

theorem exists_mem_of_snd (h : b ∈ D.map Prod.snd) : ∃ a, (a, b) ∈ D := by
  simpa using h

theorem exists_cons_of_snd (h : b :: rest = D.map Prod.snd) :
    ∃ a D', D = (a, b) :: D' ∧ rest = D'.map Prod.snd := by
  obtain ⟨entry, D', rfl, rfl, rfl⟩ := List.map_eq_cons_iff.1 h.symm
  exact ⟨entry.1, D', rfl, rfl⟩

/-- When one column is rearranged, the other ones may go along. -/
theorem exists_perm_of_map_perm {f : α → β} {list : List α} {images : List β}
    (h : (list.map f).Perm images) : ∃ list', images = list'.map f ∧ list.Perm list' := by
  have hcomp : Relation.Comp (· = List.map f ·) List.Perm images list :=
    (congrFun (congrFun (List.eq_map_comp_perm f) images) list).mpr h.symm
  obtain ⟨list', himages, hperm⟩ := hcomp
  exact ⟨list', himages, hperm.symm⟩

end Columns

/-- Whatever the history, the factory has what is listed and no more, and each set of transitions
covers what was added to it. -/
theorem Assembled.accounted {k owner : Nat} {a : Assembly S} (h : Assembled k owner a) :
    ∃ (E : List (LetterSet × Set (Letter k)))
      (D : List (LabelAccounts S × TransitionSet S × Insertions S)),
      a.sets = E.map Prod.fst ∧ a.stock = D.map Prod.snd ∧ Accounted k owner E D a.workspace := by
  induction h with
  | new hnew hplace hhistory =>
      exact ⟨[], [], rfl, rfl, by simp, ⟨by simp [LetterSet.ledger, stockLedger], _, hplace,
        Factory.ofSizing_holds hnew⟩, hhistory⟩
  | answered call _ hsigned hrun ih =>
      obtain ⟨E, D, rfl, rfl, hE⟩ := ih
      obtain ⟨E', rfl, hE'⟩ := (hE.perform hsigned).of_ok hrun
      exact ⟨E', D, rfl, rfl, hE'⟩
  | failed call _ hsigned hrun ih =>
      obtain ⟨E, D, rfl, rfl, hE⟩ := ih
      obtain ⟨E', hleft, hE'⟩ := (hE.perform hsigned).of_error hrun
      exact ⟨E', D, hleft, rfl, hE'⟩
  | created _ hrun ih =>
      obtain ⟨E, D, rfl, rfl, hE⟩ := ih
      obtain ⟨set, w', hcreate, hw'⟩ := hE.create
      cases hcreate.symm.trans hrun
      exact ⟨E, ([], _, []) :: D, rfl, rfl, hw'⟩
  | inserted state _ hrun ih =>
      obtain ⟨_, _, hsets, hstock, hE⟩ := ih
      obtain ⟨⟨label, M⟩, E, rfl, rfl, rfl⟩ := List.map_eq_cons_iff.1 hsets.symm
      obtain ⟨T, D, rfl, rfl⟩ := exists_cons_of_snd hstock
      obtain ⟨T', hw'⟩ := (hE.insert state).of_ok hrun
      exact ⟨E, (T', _, _) :: D, rfl, rfl, hw'⟩
  | refused state _ hrun ih =>
      obtain ⟨_, _, hsets, hstock, hE⟩ := ih
      obtain ⟨⟨label, M⟩, E, rfl, rfl, rfl⟩ := List.map_eq_cons_iff.1 hsets.symm
      obtain ⟨T, D, rfl, rfl⟩ := exists_cons_of_snd hstock
      exact ⟨E, (T, _, _) :: D, rfl, rfl, (hE.insert state).of_error hrun⟩
  | insertedAll state _ hrun ih =>
      obtain ⟨E, _, rfl, hstock, hE⟩ := ih
      obtain ⟨T, D, rfl, rfl⟩ := exists_cons_of_snd hstock
      obtain ⟨T', hw'⟩ := (hE.insertAll state).of_ok hrun
      exact ⟨E, (T', _, _) :: D, rfl, rfl, hw'⟩
  | refusedAll state _ hrun ih =>
      obtain ⟨E, _, rfl, hstock, hE⟩ := ih
      obtain ⟨T, D, rfl, rfl⟩ := exists_cons_of_snd hstock
      exact ⟨E, (T, _, _) :: D, rfl, rfl, (hE.insertAll state).of_error hrun⟩
  | copied _ hrun ih =>
      obtain ⟨E, _, rfl, hstock, hE⟩ := ih
      obtain ⟨T, D, rfl, rfl⟩ := exists_cons_of_snd hstock
      obtain ⟨own, T', w', hcopy, hw'⟩ := hE.copy
      cases hcopy.symm.trans hrun
      exact ⟨E, (T', _, _) :: (T, _, _) :: D, rfl, rfl, hw'⟩
  | dropped _ hlast hrun ih =>
      obtain ⟨E, _, rfl, hstock, hE⟩ := ih
      obtain ⟨T, D, rfl, rfl⟩ := exists_cons_of_snd hstock
      obtain ⟨w', hletGo, hw'⟩ := hE.letGo hlast
      cases hletGo.symm.trans hrun
      exact ⟨E, D, rfl, rfl, hw'⟩
  | askedAt state _ hset hlabel hends ih =>
      obtain ⟨E, D, hsets, hstock, hE⟩ := ih
      rw [Assembly.labels, hsets, hstock] at hlabel
      obtain ⟨A, hlisted, -⟩ := hE.exists_listed hlabel
      obtain ⟨T, hentry⟩ := exists_mem_of_snd (hstock ▸ hset)
      exact ⟨E, D, hsets, hstock, hends.of_outcome ((hE.askAt hentry hlisted state).mono
        (fun _ _ hend => hend.1) fun _ _ hend => hend.1)⟩
  | asked _ hset hother hends ih =>
      obtain ⟨E, D, hsets, hstock, hE⟩ := ih
      obtain ⟨T, hentry⟩ := exists_mem_of_snd (hstock ▸ hset)
      obtain ⟨U, hentry'⟩ := exists_mem_of_snd (hstock ▸ hother)
      exact ⟨E, D, hsets, hstock, hends.of_outcome ((hE.ask hentry hentry').mono
        (fun _ _ hend => hend.1) fun _ _ hend => hend.1)⟩
  | arranged _ hsets' hstock' hsame ih =>
      obtain ⟨E, D, hsets, hstock, hE⟩ := ih
      obtain ⟨E', hE', hpermE⟩ := exists_perm_of_map_perm (hsets ▸ hsets')
      obtain ⟨D', hD', hpermD⟩ := exists_perm_of_map_perm (hstock ▸ hstock')
      exact ⟨E', D', hE', hD', hsame ▸ hE.perm hpermE hpermD⟩
  | elsewhere _ hsame hhistory ih =>
      obtain ⟨E, D, hsets, hstock, hE⟩ := ih
      exact ⟨E, D, hsets, hstock, hE.records, hE.serves.keeps.of_factory hsame, hhistory⟩

end

end TransitionSet

end SymbolicOmega
