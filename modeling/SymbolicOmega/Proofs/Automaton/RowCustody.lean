import SymbolicOmega.Automaton.Query
import SymbolicOmega.Proofs.Automaton.Closure
import SymbolicOmega.Proofs.Letters.Calls

/-!
# Rows in custody

The labels of kept rows are sets like those of any other user of the factory.  Every operation of
an automaton keeps the labels of the rows that stay, with the letters they had, and the sets of
the other users; a removal gives back the labels that go, and those alone.
-/

namespace SymbolicOmega

/-- What the edges of a row are, in order, and what their labels answer. -/
abbrev RowReading (S : Type) := List (Edge S × Reading)

/-- The row has these edges in this order, and its labels answer so. -/
def Row.Reads {S : Type} (row : Row S) (w : Workspace) (reading : RowReading S) : Prop :=
  List.Forall₂ (fun entry read => entry.1 = read.1 ∧ entry.2.Answers w read.2) row reading

/-- A row with what its labels answer beside it. -/
abbrev ReadRow (S : Type) := List ((Edge S × LetterSet) × Reading)

namespace ReadRow

variable {S : Type}

def row (E : ReadRow S) : Row S :=
  E.map Prod.fst

def reading (E : ReadRow S) : RowReading S :=
  E.map fun entry => (entry.1.1, entry.2)

def custody (E : ReadRow S) : Custody :=
  E.map fun entry => (entry.1.2, entry.2)

/-- The entries whose edges do not lead to a state that is gone. -/
def staying (gone : S → Bool) (E : ReadRow S) : ReadRow S :=
  E.filter fun entry => !gone entry.1.1.successor

/-- The entries whose edges lead to a state that is gone. -/
def leaving (gone : S → Bool) (E : ReadRow S) : ReadRow S :=
  E.filter fun entry => gone entry.1.1.successor

@[simp]
theorem labels_row (E : ReadRow S) : E.row.labels = E.custody.map Prod.fst := by
  simp [row, Row.labels, custody]

theorem row_staying (gone : S → Bool) (E : ReadRow S) :
    (E.staying gone).row = E.row.filter fun edge => !gone edge.1.successor := by
  simp [row, staying, List.filter_map, Function.comp_def]

theorem row_leaving (gone : S → Bool) (E : ReadRow S) :
    (E.leaving gone).row = E.row.filter fun edge => gone edge.1.successor := by
  simp [row, leaving, List.filter_map, Function.comp_def]

theorem reading_staying (gone : S → Bool) (E : ReadRow S) :
    (E.staying gone).reading = E.reading.filter fun read => !gone read.1.successor := by
  simp [reading, staying, List.filter_map, Function.comp_def]

/-- A row whose labels are in custody reads as is noted beside it. -/
theorem reads {w : Workspace} {i k : Nat} {L : Custody} {E : ReadRow S} (h : w.Retains i k L)
    (hlisted : ∀ entry ∈ E.custody, entry ∈ L) : E.row.Reads w E.reading := by
  unfold Row.Reads row reading
  rw [List.forall₂_map_left_iff, List.forall₂_map_right_iff, List.forall₂_same]
  exact fun entry hentry =>
    ⟨rfl, LetterSet.answers_of_mem h (hlisted _ (List.mem_map_of_mem hentry))⟩

end ReadRow

/-- The labels of all rows. -/
def rowsCustody {S : Type} (R : List (S × ReadRow S)) : Custody :=
  R.flatMap fun entry => entry.2.custody

@[simp]
theorem rowsCustody_cons {S : Type} (entry : S × ReadRow S) (R : List (S × ReadRow S)) :
    rowsCustody (entry :: R) = entry.2.custody ++ rowsCustody R :=
  List.flatMap_cons

@[simp]
theorem rowsCustody_append {S : Type} (R R' : List (S × ReadRow S)) :
    rowsCustody (R ++ R') = rowsCustody R ++ rowsCustody R' :=
  List.flatMap_append

/-- Row functions are pure up to denotation: whenever a row can be computed while the sets that
the states hold are in custody, its edges and what its labels answer are as expected, and no set
but these labels is left behind or lost. -/
def StateSpace.Pure {S : Type} (space : StateSpace S) (owner k : Nat) (held : Custody)
    (expected : S → RowReading S) : Prop :=
  ∀ (w : Workspace) (L : Custody) (x : S), w.Retains owner k (held ++ L) →
    Outcome (space.row owner x) w
      (fun row w' => ∃ E : ReadRow S, E.row = row ∧ E.reading = expected x ∧
        w'.Retains owner k (E.custody ++ (held ++ L)))
      (fun _ w' => w'.Retains owner k (held ++ L))

namespace Automaton

open Workspace

variable {S : Type}

/-- What a row reads as when the edges to removed states are left out. -/
def without (gone : S → Bool) (reading : RowReading S) : RowReading S :=
  reading.filter fun read => !gone read.1.successor

theorem without_without (gone gone' : S → Bool) (reading : RowReading S) :
    without gone' (without gone reading) = without (fun y => gone y || gone' y) reading := by
  simp [without, List.filter_filter, Bool.and_comm]

variable [DecidableEq S]

/-- The kept rows read as expected but for the edges to states removed since, and the factory has
their labels, the sets that the states hold and those of other users. -/
structure Tracked (owner k : Nat) (held : Custody) (expected : S → RowReading S) (others : List LetterSet)
    (removed : S → S → Bool) (s : Scene S) : Prop where
  pure : s.automaton.space.Pure owner k held expected
  owner_eq : s.automaton.owner = owner
  distinct : s.automaton.states.Nodup
  /-- Nothing was removed since a state was explored that is not explored. -/
  fresh : ∀ x, s.automaton.isExplored x = false → removed x = fun _ => false
  custody : ∃ (R : List (S × ReadRow S)) (L : Custody),
    s.automaton.rows = R.map (fun entry => (entry.1, entry.2.row)) ∧
      others = L.map Prod.fst ∧ s.workspace.Retains owner k (rowsCustody R ++ (held ++ L)) ∧
        ∀ entry ∈ R, entry.2.reading = without (removed entry.1) (expected entry.1)

variable {owner k : Nat} {held : Custody} {expected : S → RowReading S}
variable {others : List LetterSet} {removed : S → S → Bool} {s : Scene S}

/-- A kept row reads as expected but for the edges to states removed since. -/
theorem Tracked.reads (h : Tracked owner k held expected others removed s) {x : S} {row : Row S}
    (hrow : s.automaton.row? x = some row) :
    row.Reads s.workspace (without (removed x) (expected x)) := by
  obtain ⟨R, L, hrows, -, hretains, hreads⟩ := h.custody
  obtain ⟨before, after, hsplit, -⟩ := List.lookup_eq_some_iff.1 hrow
  have hmem : (x, row) ∈ R.map (fun entry => (entry.1, entry.2.row)) := by
    rw [← hrows, hsplit]
    exact List.mem_append_right _ List.mem_cons_self
  obtain ⟨⟨y, E⟩, hentry, hsame⟩ := List.mem_map.1 hmem
  obtain ⟨rfl, rfl⟩ := Prod.mk.inj hsame
  rw [← hreads _ hentry]
  exact ReadRow.reads hretains fun label hlabel =>
    List.mem_append_left _ (List.mem_flatMap.2 ⟨_, hentry, hlabel⟩)

/-- The labels of all kept rows are listed. -/
def Lists (a : Automaton S) (L : Custody) : Prop :=
  ∀ entry ∈ a.rows, ∀ label ∈ entry.2.labels, ∃ F, (label, F) ∈ L

/-- What keeps every list of sets with the labels of the rows in it keeps track of the rows. -/
theorem Tracked.of_retains {w : Workspace} (h : Tracked owner k held expected others removed s)
    (hw : ∀ L, s.automaton.Lists L → s.workspace.Retains owner k L → w.Retains owner k L) :
    Tracked owner k held expected others removed ⟨s.automaton, w⟩ := by
  obtain ⟨R, L, hrows, hothers, hretains, hreads⟩ := h.custody
  refine ⟨h.pure, h.owner_eq, h.distinct, h.fresh, R, L, hrows, hothers, hw _ ?_ hretains, hreads⟩
  intro entry hentry label hlabel
  rw [hrows] at hentry
  obtain ⟨⟨x, E⟩, hmem, rfl⟩ := List.mem_map.1 hentry
  rw [ReadRow.labels_row] at hlabel
  obtain ⟨⟨_, F⟩, hlisted, rfl⟩ := List.mem_map.1 hlabel
  exact ⟨F, List.mem_append_left _ (List.mem_flatMap.2 ⟨_, hmem, hlisted⟩)⟩

/-! ## Exploring -/

/-- The rows are tracked, and those of `a₀` are kept. -/
def Watched (a₀ : Automaton S) (owner k : Nat) (held : Custody) (expected : S → RowReading S)
    (others : List LetterSet) (removed : S → S → Bool) (s : Scene S) : Prop :=
  Tracked owner k held expected others removed s ∧ a₀.Extends s.automaton

/-- A new row is computed as expected, and it leaves the others as they are. -/
theorem Tracked.append (h : Tracked owner k held expected others removed s) {x : S}
    (hx : s.automaton.isExplored x = false) :
    Outcome (s.automaton.space.row s.automaton.owner x) s.workspace
      (fun row w' => Tracked owner k held expected others removed
        ⟨{ s.automaton with rows := s.automaton.rows ++ [(x, row)] }, w'⟩)
      (fun _ w' => Tracked owner k held expected others removed ⟨s.automaton, w'⟩) := by
  obtain ⟨R, L, hrows, hothers, hretains, hreads⟩ := h.custody
  have hperm : (rowsCustody R ++ (held ++ L)).Perm (held ++ (rowsCustody R ++ L)) :=
    List.perm_append_comm_assoc ..
  rw [h.owner_eq]
  refine (h.pure _ _ x (hretains.perm hperm)).mono ?_ fun _ w' hw' =>
    ⟨h.pure, h.owner_eq, h.distinct, h.fresh, R, L, hrows, hothers, hw'.perm hperm.symm, hreads⟩
  rintro _ w' ⟨E, rfl, hE, hw'⟩
  have hadds := adds_append E.row hx
  have hnew : x ∉ s.automaton.states := by
    rw [← isExplored_iff_mem_states]
    simp [hx]
  refine ⟨h.pure, h.owner_eq, ?_, fun y hy => h.fresh y (hadds.kept.fresh hy),
    R ++ [(x, E)], L, ?_, hothers, (hw'.perm (hperm.symm.append_left _)).perm ?_, ?_⟩
  · rw [states, List.map_append]
    exact h.distinct.append (List.nodup_singleton x) (List.disjoint_singleton.2 hnew)
  · simp [hrows]
  · have hlast : rowsCustody [(x, E)] = E.custody := List.append_nil _
    rw [← List.append_assoc, rowsCustody_append, hlast]
    exact List.perm_append_comm.append_right (held ++ L)
  · intro entry hentry
    obtain hentry | hentry := List.mem_append.1 hentry
    · exact hreads entry hentry
    · obtain rfl := List.mem_singleton.1 hentry
      rw [hE, h.fresh x hx]
      simp [without]

theorem explore_watched {a₀ : Automaton S} (x : S) :
    Upholds (Watched a₀ owner k held expected others removed) (explore x) := by
  rintro s ⟨h, hkept⟩
  cases hrow : s.automaton.row? x with
  | some row =>
      apply Outcome.bind_ok (current_run s)
      rw [hrow]
      exact Outcome.pure ⟨h, hkept⟩
  | none =>
      have hx := isExplored_eq_false.2 hrow
      have hnew := h.append hx
      cases hrun : s.automaton.space.row s.automaton.owner x s.workspace with
      | ok row w =>
          exact Outcome.of_run (explore_of_ok hx hrun)
            ⟨hnew.of_ok hrun, hkept.trans (adds_append row hx).kept⟩
      | error fault w =>
          rw [Outcome]
          rw [explore_of_error hx hrun]
          exact ⟨hnew.of_error hrun, hkept⟩

section Walks
variable {a₀ : Automaton S}

theorem generateFrom_watched (bound : Nat) (seed : Option S) :
    Upholds (Watched a₀ owner k held expected others removed) (generateFrom bound seed) :=
  .of_secures (generateFrom_secures (fun x => (explore_watched x).secures) trivial bound seed)

theorem reachable_watched (bound : Nat) (seeds : List S) :
    Upholds (Watched a₀ owner k held expected others removed) (reachable bound seeds) :=
  .of_secures (reachable_secures (fun x => (explore_watched x).secures) trivial bound seeds)

/-- What is kept track of does not depend on the initial state. -/
theorem initialState_watched :
    Upholds (Watched a₀ owner k held expected others removed) initialState := by
  rintro s ⟨h, hkept⟩
  obtain ⟨builds, hrun⟩ := initialState_run s
  exact Outcome.of_run hrun ⟨⟨h.pure, h.owner_eq, h.distinct, h.fresh, h.custody⟩,
    ⟨hkept.rows, hkept.space, hkept.owner⟩⟩

theorem generate_watched (bound : Nat) :
    Upholds (Watched a₀ owner k held expected others removed) (generate bound) :=
  initialState_watched.bind fun seed => generateFrom_watched bound seed

end Walks

section Queries
variable {β : Type} {a₀ : Automaton S}

/-- A question that keeps every list of sets with the labels of the rows in it. -/
def Asks (a : Automaton S) (owner k : Nat) (x : WorkM β) : Prop :=
  ∀ L : Custody, a.Lists L → Upholds (fun w : Workspace => w.Retains owner k L) x

theorem Watched.asked {x : WorkM β} (h : Watched a₀ owner k held expected others removed s)
    (hx : s.automaton.Asks owner k x) :
    Outcome (inWorkspace x) s (fun _ s' => Watched a₀ owner k held expected others removed s')
      (fun _ s' => Watched a₀ owner k held expected others removed s') := by
  refine inWorkspace_outcome (Outcome.intro (fun b w' hrun => ?_) fun fault w' hrun => ?_)
  · exact ⟨h.1.of_retains fun L hlists hw => (hx L hlists _ hw).of_ok hrun, h.2⟩
  · exact ⟨h.1.of_retains fun L hlists hw => (hx L hlists _ hw).of_error hrun, h.2⟩

omit [DecidableEq S] in
theorem contains_asks {a : Automaton S} (label : LetterSet) (letter : BitSet) :
    a.Asks owner k (label.contains letter) :=
  fun _ _ => askFactory_upholds _ _

omit [DecidableEq S] in
theorem edgeOn?_asks {a : Automaton S} (row : Row S) (letter : BitSet) :
    a.Asks owner k (row.edgeOn? letter) := fun L hlists =>
  (Upholds.findM? (fun entry => contains_asks entry.2 letter L hlists) row).bind
    fun _ => Upholds.pure _

theorem targetsOn_asks {a : Automaton S} (row : Row S) (letter : BitSet) :
    a.Asks owner k (row.targetsOn letter) := fun L hlists =>
  (Upholds.filterM (fun entry => contains_asks entry.2 letter L hlists) row).bind
    fun _ => Upholds.pure _

omit [DecidableEq S] in
/-- The set of the letters seen is given back at either end. -/
theorem disjointFrom_retains {w : Workspace} {L : Custody} {seen : LetterSet} {F : Reading}
    {labels : List LetterSet} (hlabels : ∀ label ∈ labels, ∃ G, (label, G) ∈ L)
    (h : w.Retains owner k ((seen, F) :: L)) :
    Outcome (disjointFrom seen labels) w (fun _ w' => w'.Retains owner k L)
      (fun _ w' => w'.Retains owner k L) := by
  induction labels generalizing w seen F with
  | nil =>
      obtain ⟨w', hrun, hw'⟩ := LetterSet.release_retains h
      exact Outcome.bind_ok hrun (Outcome.pure hw')
  | cons label rest ih =>
      obtain ⟨⟨G, hlabel⟩, hrest⟩ := List.forall_mem_cons.1 hlabels
      have hlisted := List.mem_cons_of_mem (seen, F) hlabel
      refine Outcome.andThen (LetterSet.onFault_release_retains
        ((LetterSet.intersects_retains h List.mem_cons_self hlisted).mono (fun _ _ hw => hw)
          fun _ _ hw => ⟨F, hw⟩)) fun shared w₁ hw₁ => ?_
      cases shared with
      | true =>
          obtain ⟨w', hrun, hw'⟩ := LetterSet.release_retains hw₁
          exact Outcome.bind_ok hrun (Outcome.pure hw')
      | false =>
          refine Outcome.andThen (LetterSet.onFault_release_retains
            ((LetterSet.addAll_retains hw₁ hlisted).mono (fun _ _ hw => hw)
              fun _ _ hw => ⟨F, hw⟩)) ?_
          rintro seen' w₂ ⟨H, hw₂⟩
          exact ih hrest hw₂

theorem isDeterministicAt_asks {a : Automaton S} (howner : a.owner = owner) (x : S) :
    a.Asks owner k (a.isDeterministicAt x) := by
  intro L hlists
  subst howner
  rw [isDeterministicAt]
  cases hrow : a.row? x with
  | none => exact Upholds.pure true
  | some row =>
      intro w hw
      obtain ⟨before, after, hsplit, -⟩ := List.lookup_eq_some_iff.1 hrow
      have hmem : (x, row) ∈ a.rows := by
        rw [hsplit]
        exact List.mem_append_right _ List.mem_cons_self
      refine Outcome.andThen (LetterSet.empty_adopts hw) ?_
      rintro seen w₁ ⟨F, hw₁⟩
      exact disjointFrom_retains (hlists _ hmem) hw₁

theorem isDeterministic_asks {a : Automaton S} (howner : a.owner = owner) :
    a.Asks owner k a.isDeterministic := fun L hlists =>
  Upholds.allM (fun x => isDeterministicAt_asks howner x L hlists) a.states

end Queries

/-! ## Removing -/

omit [DecidableEq S] in
/-- The entries of the rows are those that a removal takes out and those that stay. -/
theorem perm_pruned {E : Type} (gone : S → Bool) (leads : E → Bool) (rows : List (S × List E)) :
    (rows.flatMap Prod.snd).Perm
      ((rows.flatMap fun entry => if gone entry.1 then entry.2 else entry.2.filter leads) ++
        (rows.filter fun entry => !gone entry.1).flatMap fun entry =>
          entry.2.filter fun e => !leads e) := by
  induction rows with
  | nil => exact .refl _
  | cons entry rest ih =>
      obtain ⟨x, row⟩ := entry
      cases hx : gone x with
      | true => simpa [hx] using ih.append_left row
      | false =>
          have hfirst := (List.filter_append_perm leads row).symm.append ih
          simp only [hx, List.flatMap_cons, List.filter_cons, Bool.not_false, if_true,
            Bool.false_eq_true, if_false, List.append_assoc] at hfirst ⊢
          exact hfirst.trans (.append_left _ (List.perm_append_comm_assoc ..))

omit [DecidableEq S] in
/-- The labels of the rows are those that pruning gives back and those that stay. -/
theorem rowsCustody_perm (gone : S → Bool) (R : List (S × ReadRow S)) :
    ∃ out : Custody,
      prunedLabels gone (R.map fun entry => (entry.1, entry.2.row)) = out.map Prod.fst ∧
        (rowsCustody R).Perm (out ++ rowsCustody ((R.filter fun entry => !gone entry.1).map
          fun entry => (entry.1, entry.2.staying gone))) := by
  have hrows : ∀ R : List (S × ReadRow S), rowsCustody R =
      (R.flatMap Prod.snd).map fun e => (e.1.2, e.2) := fun R => List.map_flatMap.symm
  let leaving : List ((Edge S × LetterSet) × Reading) := R.flatMap fun entry =>
    if gone entry.1 then entry.2 else entry.2.leaving gone
  refine ⟨leaving.map fun e => (e.1.2, e.2), ?_, ?_⟩
  · rw [prunedLabels, List.flatMap_map, List.map_map, List.map_flatMap]
    refine List.flatMap_congr fun entry _ => ?_
    cases gone entry.1 <;> simp [← ReadRow.row_leaving, ReadRow.custody]
  · have hperm := (perm_pruned gone (fun e : (Edge S × LetterSet) × Reading =>
      gone e.1.1.successor) R).map fun e => (e.1.2, e.2)
    rw [List.map_append] at hperm
    rw [hrows, hrows, List.flatMap_map]
    exact hperm

/-- What is removed since the states were explored that are explored after a removal. -/
def removedAfter (removed : S → S → Bool) (gone : S → Bool) (a : Automaton S) (x y : S) : Bool :=
  a.isExplored x && (removed x y || gone y)

/-- A removal cannot fail. -/
theorem removeIf_tracked (gone : S → Bool) (h : Tracked owner k held expected others removed s) :
    Outcome (removeIf gone) s
      (fun _ s' => Tracked owner k held expected others
        (removedAfter removed gone s'.automaton) s')
      (fun _ _ => False) := by
  obtain ⟨a, w⟩ := s
  obtain ⟨R, L, hrows, hothers, hretains, hreads⟩ := h.custody
  dsimp only at hrows hretains
  obtain ⟨out, hlabels, hperm⟩ := rowsCustody_perm gone R
  have hout : w.Retains owner k (out ++ (rowsCustody ((R.filter fun entry => !gone entry.1).map
      fun entry => (entry.1, entry.2.staying gone)) ++ (held ++ L))) := by
    rw [← List.append_assoc]
    exact hretains.perm (hperm.append_right (held ++ L))
  obtain ⟨w', hrelease, hw'⟩ := LetterSet.releaseAll_retains hout
  rw [← hlabels, ← hrows] at hrelease
  have hinside : inWorkspace (LetterSet.releaseAll (prunedLabels gone a.rows)) ⟨a, w⟩ =
      .ok () ⟨a, w'⟩ := by
    simp only [inWorkspace, hrelease]
  refine Outcome.bind_ok (current_run _) (Outcome.bind_ok hinside (Outcome.of_run rfl ?_))
  refine ⟨h.pure, h.owner_eq, ?_, ?_, _, L, ?_, hothers, hw', ?_⟩
  · rw [states, states_prunedRows]
    exact h.distinct.filter _
  · intro x hx
    funext y
    rw [removedAfter, hx, Bool.false_and]
  · simp [prunedRows, hrows, List.filter_map, Function.comp_def, ReadRow.row_staying]
  · intro entry hentry
    obtain ⟨⟨x, E⟩, hkept, rfl⟩ := List.mem_map.1 hentry
    obtain ⟨hmem, hstays⟩ := List.mem_filter.1 hkept
    have hexplored : ({ a with
        rows := prunedRows gone a.rows
        initial := if a.initial.state?.any gone then .resolved none else a.initial } :
          Automaton S).isExplored x = true := by
      rw [isExplored_iff_mem_states, states, states_prunedRows, hrows]
      exact List.mem_filter.2 ⟨List.mem_map_of_mem (List.mem_map_of_mem hmem), hstays⟩
    have hafter : removedAfter removed gone { a with
        rows := prunedRows gone a.rows
        initial := if a.initial.state?.any gone then .resolved none else a.initial } x =
          fun y => removed x y || gone y := by
      funext y
      rw [removedAfter, hexplored, Bool.true_and]
    rw [ReadRow.reading_staying, hreads _ hmem]
    rw [hafter]
    exact without_without (removed x) gone (expected x)

end Automaton

end SymbolicOmega
