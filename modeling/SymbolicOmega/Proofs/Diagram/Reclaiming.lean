import SymbolicOmega.Proofs.Diagram.Canonicity
import SymbolicOmega.Proofs.Diagram.Runs
import SymbolicOmega.Proofs.Diagram.Tally

/-!
# What a collection drops

Marking finds exactly the nodes that the roots reach, within its bound, and a sweep drops
exactly the others.  So the references that are reached stay what they were, and as long as
later collections are given the same roots, whoever rebuilds one of their functions is handed
the old reference again, whatever has been stored in the cells that came free.
-/

namespace SymbolicOmega

namespace Manager

variable {m m' : Manager} {roots todo : List Ref} {marked alive : Std.HashSet Nat} {index : Nat}

/-- The indices that the roots come to through low and high children. -/
inductive Reaches (m : Manager) (roots : List Ref) : Nat → Prop where
  | root {r : Ref} (hr : r ∈ roots) : Reaches m roots r.index
  | child {index : Nat} {node : Node} {child : Ref} (h : Reaches m roots index)
      (hindex : index ≠ 1) (hstored : m.nodes.stored? index = some node)
      (hchild : child ∈ [node.low, node.high]) : Reaches m roots child.index

/-- The terminal is kept with what the roots reach. -/
def Survives (m : Manager) (roots : List Ref) (index : Nat) : Prop :=
  index = 1 ∨ m.Reaches roots index

theorem Reaches.stored (hm : m.Reduced) (hroots : ∀ r ∈ roots, m.Live r)
    (h : m.Reaches roots index) : ∃ node, m.nodes.stored? index = some node := by
  induction h with
  | root hr => exact hroots _ hr
  | child _ hindex hstored hchild _ => exact (hm.proper _ _ hindex hstored).live _ hchild

theorem Survives.stored (hm : m.Reduced) (hroots : ∀ r ∈ roots, m.Live r)
    (h : m.Survives roots index) : ∃ node, m.nodes.stored? index = some node := by
  rcases h with rfl | h
  · exact ⟨_, hm.terminal⟩
  · exact h.stored hm hroots

/-- Where the reached nodes are stored as they were, the same indices are reached. -/
theorem Reaches.of_same (h : m.Reaches roots index)
    (hsame : ∀ index node, m.Reaches roots index → m.nodes.stored? index = some node →
      m'.nodes.stored? index = some node) {others : List Ref} (hsubset : roots ⊆ others) :
    m'.Reaches others index := by
  induction h with
  | root hr => exact .root (hsubset hr)
  | child h hindex hstored hchild ih => exact .child ih hindex (hsame _ _ h hstored) hchild

/-- The cells that are not marked yet. -/
def unmarked (m : Manager) (marked : Std.HashSet Nat) : Finset Nat :=
  (Finset.range m.nodes.cells.size).filter fun index => marked.contains index = false

theorem card_unmarked_insert (hlt : index < m.nodes.cells.size)
    (hindex : marked.contains index = false) :
    (m.unmarked (marked.insert index)).card + 1 = (m.unmarked marked).card := by
  have hmem : index ∈ m.unmarked marked :=
    Finset.mem_filter.2 ⟨Finset.mem_range.2 hlt, hindex⟩
  have herase : m.unmarked (marked.insert index) = (m.unmarked marked).erase index := by
    ext other
    simp only [unmarked, Finset.mem_filter, Finset.mem_range, Finset.mem_erase,
      Std.HashSet.contains_insert, Bool.or_eq_false_iff, beq_eq_false_iff_ne]
    rw [ne_comm, and_left_comm]
  rw [herase]
  exact Finset.card_erase_add_one hmem

/-- Marking ends within its bound and marks only what survives: a marked cell is looked at once,
and each of its children once more. -/
theorem markWithin_sound (hm : m.Reduced) (hroots : ∀ r ∈ roots, m.Live r) {bound : Nat}
    (hone : marked.contains 1 = true)
    (hmarked : ∀ index, marked.contains index = true → m.Survives roots index)
    (htodo : ∀ r ∈ todo, m.Survives roots r.index)
    (hbound : todo.length + 2 * (m.unmarked marked).card ≤ bound) :
    ∃ result, m.markWithin bound todo marked = .ok result ∧ result.contains 1 = true ∧
      ∀ index, result.contains index = true → m.Survives roots index := by
  induction bound generalizing todo marked with
  | zero =>
      cases todo with
      | nil => exact ⟨marked, rfl, hone, hmarked⟩
      | cons r rest => simp at hbound
  | succ bound ih =>
      cases todo with
      | nil => exact ⟨marked, rfl, hone, hmarked⟩
      | cons r rest =>
          obtain ⟨hr, hrest⟩ := List.forall_mem_cons.1 htodo
          rw [List.length_cons] at hbound
          rw [markWithin]
          cases hdone : marked.contains r.index with
          | true =>
              rw [if_pos rfl]
              exact ih hone hmarked hrest (by omega)
          | false =>
              have hindex : r.index ≠ 1 := by
                intro heq
                rw [heq, hone] at hdone
                cases hdone
              have hreached := hr.resolve_left hindex
              rcases hreached.stored hm hroots with ⟨node, hstored⟩
              have hchildren : ∀ child ∈ [node.low, node.high], m.Survives roots child.index :=
                fun child hchild => Or.inr (.child hreached hindex hstored hchild)
              have hcard := card_unmarked_insert (UniqueTable.lt_size_of_stored hstored) hdone
              rw [if_neg (by simp), node_of_stored hstored]
              apply ih
              · simp [Std.HashSet.contains_insert, hone]
              · intro index hin
                rw [Std.HashSet.contains_insert, Bool.or_eq_true, beq_iff_eq] at hin
                rcases hin with rfl | hin
                · exact hr
                · exact hmarked index hin
              · intro child hchild
                simp only [List.mem_cons] at hchild
                rcases hchild with rfl | rfl | hchild
                · exact hchildren _ (by simp)
                · exact hchildren _ (by simp)
                · exact hrest child hchild
              · simp only [List.length_cons]
                omega

/-- The descendants are the terminal and what the roots reach. -/
theorem descendants_exact (hm : m.Reduced) (hroots : ∀ r ∈ roots, m.Live r) :
    ∃ alive, m.descendants roots = .ok alive ∧
      ∀ index, alive.contains index = true ↔ m.Survives roots index := by
  have hbound : roots.length + 2 * (m.unmarked (.ofList [Ref.one.index])).card ≤
      roots.length + 2 * m.nodes.cells.size := by
    have hcard := Finset.card_filter_le (Finset.range m.nodes.cells.size)
      fun index => (Std.HashSet.ofList [Ref.one.index]).contains index = false
    rw [Finset.card_range] at hcard
    exact Nat.add_le_add_left (Nat.mul_le_mul_left 2 hcard) _
  have hstart : ∀ index, (Std.HashSet.ofList [Ref.one.index]).contains index = true →
      m.Survives roots index := by
    intro index hin
    have hindex : Ref.one.index = index := by simpa using hin
    exact Or.inl hindex.symm
  rcases markWithin_sound hm hroots (by simp [Ref.one]) hstart
      (fun r hr => Or.inr (.root hr)) hbound with ⟨alive, hrun, hone, hsound⟩
  have hclosed := descendants_ok hrun
  refine ⟨alive, hrun, fun index => ⟨hsound index, ?_⟩⟩
  rintro (rfl | hreached)
  · exact hone
  · induction hreached with
    | root hr => exact hclosed.1 _ hr
    | child _ hindex hstored hchild ih => exact hclosed.2 _ _ hindex ih hstored _ hchild

theorem size_eq_card {s : Finset Nat} (h : ∀ index, alive.contains index = true ↔ index ∈ s) :
    alive.size = s.card := by
  have hnodup : alive.toList.Nodup := by
    simpa [List.Nodup] using alive.distinct_toList
  have hset : alive.toList.toFinset = s := by
    ext index
    rw [List.mem_toFinset, Std.HashSet.mem_toList, ← Std.HashSet.contains_iff_mem, h]
  rw [← hset, List.toFinset_card_of_nodup hnodup, Std.HashSet.length_toList]

/-! ## The count along runs -/

theorem ofSizing_tallied {sizing : Sizing} (h : ofSizing sizing = .ok m) : m.nodes.Tallied := by
  have hlayout := (ofSizing_canonical h).consed.layout
  obtain ⟨t, u, index, computed, hbits, halloc, -, rfl⟩ := ofSizing_eq_ok h
  have hstored := (UniqueTable.alloc_ofBits hbits halloc).2
  have hpopulation : u.population = {1} := by
    ext other
    rw [UniqueTable.mem_population, hstored, Finset.mem_singleton]
    by_cases hother : other = 1 <;> simp [hother]
  have hoccupied : u.occupied = t.occupied + 1 :=
    Outcome.of_ok (UniqueTable.alloc_occupied t) halloc
  have hempty : t.occupied = 0 := by
    rw [UniqueTable.ofBits] at hbits
    split at hbits
    · cases hbits
      rfl
    · cases hbits
  refine ⟨hlayout, ?_⟩
  rw [UniqueTable.Counted, hpopulation, hoccupied, hempty]
  rfl

/-- How a collection ends when the marking does. -/
theorem collect_run {sweep : UniqueTable.Sweep} {u : UniqueTable Node}
    (hmark : m.descendants roots = .ok alive)
    (hretain : UniqueTable.retain alive.contains m.nodes = .ok sweep u) :
    ∃ threshold, collect roots m =
      .ok sweep.dropped ⟨u, m.computed.clear, m.sizing, threshold⟩ := by
  have hforget : forgetComputed m = .ok () { m with computed := m.computed.clear } := rfl
  have hsame : Manager.descendants { m with computed := m.computed.clear } roots =
      m.descendants roots := by
    apply descendants_congr
    rfl
  have hmark' : ask (·.descendants roots) { m with computed := m.computed.clear } =
      .ok alive { m with computed := m.computed.clear } := ask_run (hsame.trans hmark)
  have hsweep : onNodes (UniqueTable.retain alive.contains)
      { m with computed := m.computed.clear } =
      .ok sweep { m with nodes := u, computed := m.computed.clear } := onNodes_run hretain
  refine ⟨max (min (2 * alive.size) (u.capacity / 8 * 7)) m.sizing.collectAbove, ?_⟩
  rw [collect, run_bind hforget, run_bind hmark', run_bind hsweep]
  rfl

/-- What a collection did, to the cells, to the count and to the computed results. -/
theorem collect_exact (hm : m.Canonical) (htallied : m.nodes.Tallied)
    (hroots : ∀ r ∈ roots, m.Live r) :
    ∃ dropped m', collect roots m = .ok dropped m' ∧ m'.Canonical ∧ m'.nodes.Tallied ∧
      (∀ index node, m'.nodes.stored? index = some node ↔
        m.nodes.stored? index = some node ∧ m.Survives roots index) ∧
      m'.size + dropped = m.size ∧
      ∀ (slot : Nat) (key : Triple) (r : Ref), m'.computed.slots[slot]? ≠ some (some (key, r)) := by
  rcases descendants_exact hm.reduced hroots with ⟨alive, hmark, halive⟩
  rcases UniqueTable.retain_run hm.consed alive.contains with ⟨sweep, u, hretain, -, hloses⟩
  rcases collect_run hmark hretain with ⟨threshold, hrun⟩
  have hcount := UniqueTable.retain_tallied alive.contains htallied hretain
  refine ⟨_, _, hrun, (Outcome.of_ok (collect_outcome hm roots) hrun).1, hcount.1, ?_, hcount.2, ?_⟩
  · intro index node
    have hgone : (¬ (¬ index = 1 ∧ alive.contains index = false)) ↔ m.Survives roots index := by
      rw [← halive]
      cases hcontains : alive.contains index with
      | true => simp
      | false =>
          have hnot : ¬ m.Survives roots index := by
            rw [← halive, hcontains]
            simp
          simpa using fun hone => hnot (Or.inl hone)
    rw [hloses index node, hgone]
  · exact fun slot key r hslot => absurd hslot (m.computed.slot_of_clear slot key r)

theorem put_upholds (node : Node) :
    Upholds (fun m : Manager => m.nodes.Tallied) (onNodes (UniqueTable.put node)) :=
  onNodes_upholds (UniqueTable.put_tallied node)

theorem steps_tallied : Steps (fun m => m.nodes.Tallied) fun _ => True where
  toPuts := puts_of_upholds put_upholds
  computed _ _ hm := hm

theorem Canonical.perform_tallied (hm : m.Canonical) (htallied : m.nodes.Tallied) {call : Call}
    (hlive : ∀ r ∈ call.operands, m.Live r) :
    Outcome call.perform m (fun _ m' => m'.nodes.Tallied) (fun _ m' => m'.nodes.Tallied) := by
  have hcollect : ∀ roots, call = .collect roots → Outcome (collect roots) m
      (fun _ m' => m'.nodes.Tallied) fun _ m' => True ∧ m'.nodes.Tallied := by
    rintro roots rfl
    obtain ⟨dropped, m', hrun, -, hend, -⟩ := collect_exact hm htallied hlive
    exact Outcome.of_run hrun hend
  exact (steps_tallied.computes.perform htallied hcollect).mono (fun _ _ hend => hend)
    fun _ _ hend => hend.2

theorem Reached.tallied (h : Reached m) : m.nodes.Tallied := by
  induction h with
  | new hnew => exact ofSizing_tallied hnew
  | answered call hm hlive _ hrun ih =>
      exact (hm.canonical.perform_tallied ih hlive).of_ok hrun
  | failed call hm hlive _ hrun ih =>
      exact (hm.canonical.perform_tallied ih hlive).of_error hrun

/-- The managers that a run comes to whose collections are given `roots` among others. -/
inductive Later (roots : List Ref) (m : Manager) : Manager → Prop where
  | refl : Later roots m m
  | answered {m' m'' : Manager} (call : Call) (h : Later roots m m')
      (hlive : ∀ r ∈ call.operands, m'.Live r) (hordered : call.Ordered m')
      (hroots : ∀ others, call = .collect others → roots ⊆ others)
      (hrun : call.perform m' = .ok () m'') : Later roots m m''
  | failed {m' m'' : Manager} (call : Call) {fault : Fault} (h : Later roots m m')
      (hlive : ∀ r ∈ call.operands, m'.Live r) (hordered : call.Ordered m')
      (hroots : ∀ others, call = .collect others → roots ⊆ others)
      (hrun : call.perform m' = .error fault m'') : Later roots m m''

/-- What is stored at the indices that the roots reach is still stored there. -/
def Holds (m : Manager) (roots : List Ref) (m' : Manager) : Prop :=
  ∀ index node, m.Reaches roots index → m.nodes.stored? index = some node →
    m'.nodes.stored? index = some node

/-- A call holds what a collection for its roots would keep. -/
theorem Canonical.perform_holds (hm : m'.Canonical) (htallied : m'.nodes.Tallied)
    (hholds : m.Holds roots m') {call : Call} (hlive : ∀ r ∈ call.operands, m'.Live r)
    (hordered : call.Ordered m') (hroots : ∀ others, call = .collect others → roots ⊆ others) :
    Outcome call.perform m' (fun _ m'' => m.Holds roots m'') (fun _ m'' => m.Holds roots m'') := by
  by_cases hcollect : ∃ others, call = .collect others
  · rcases hcollect with ⟨others, rfl⟩
    rcases collect_exact hm htallied hlive with ⟨dropped, w, hrun, -, -, hexact, -⟩
    apply Outcome.of_run (run_map hrun)
    intro index node hreached hstored
    have hreached' := hreached.of_same hholds (hroots others rfl)
    exact (hexact index node).2 ⟨hholds index node hreached hstored, Or.inr hreached'⟩
  · have hgrows := hm.perform_grows hlive hordered fun others heq => hcollect ⟨others, heq⟩
    exact Outcome.mono hgrows
      (fun _ _ hend index node hreached hstored =>
        hend.2.1 index node (hholds index node hreached hstored))
      (fun _ _ hend index node hreached hstored =>
        hend.2 index node (hholds index node hreached hstored))

/-- However a run goes on, what the roots reach stays where it is. -/
theorem Later.holds (hm : m.Canonical) (htallied : m.nodes.Tallied) (h : Later roots m m') :
    m'.Canonical ∧ m'.nodes.Tallied ∧ m.Holds roots m' := by
  induction h with
  | refl => exact ⟨hm, htallied, fun _ _ _ hstored => hstored⟩
  | answered call _ hlive hordered hroots hrun ih =>
      obtain ⟨hcanonical, htallied', hholds⟩ := ih
      exact ⟨(hcanonical.perform hlive hordered).of_ok hrun,
        (hcanonical.perform_tallied htallied' hlive).of_ok hrun,
        (hcanonical.perform_holds htallied' hholds hlive hordered hroots).of_ok hrun⟩
  | failed call _ hlive hordered hroots hrun ih =>
      obtain ⟨hcanonical, htallied', hholds⟩ := ih
      exact ⟨(hcanonical.perform hlive hordered).of_error hrun,
        (hcanonical.perform_tallied htallied' hlive).of_error hrun,
        (hcanonical.perform_holds htallied' hholds hlive hordered hroots).of_error hrun⟩

/-- A reached reference keeps its values where the reached nodes are stored as they were. -/
theorem Holds.evaluate (hm : m.Reduced) (hm' : m'.Reduced) (hroots : ∀ r ∈ roots, m.Live r)
    (h : m.Holds roots m') {r : Ref} (hr : m.Reaches roots r.index) :
    m'.Live r ∧ ∀ a, m'.evaluate r a = m.evaluate r a := by
  have hlive := hr.stored hm hroots
  have hlive' : m'.Live r := hlive.imp fun node hstored => h _ node hr hstored
  refine ⟨hlive', fun a => ?_⟩
  rw [hm'.evaluate_eq hlive', hm.evaluate_eq hlive]
  congr 1
  have hvalue : m.Reaches roots r.index → m'.value r a = m.value r a := by
    refine hm.induction (P := fun r => m.Reaches roots r.index → m'.value r a = m.value r a)
      ?_ ?_ hlive
    · intro r hindex _
      rw [Reduced.value_of_index_one hindex, Reduced.value_of_index_one hindex]
    · intro r node hindex hstored ihLow ihHigh hreached
      rw [hm'.value_node hindex (h _ node hreached hstored), hm.value_node hindex hstored,
        ihLow (.child hreached hindex hstored (by simp)),
        ihHigh (.child hreached hindex hstored (by simp))]
  exact hvalue hr

/-! ## Collections -/

/-- What a collection for `roots` leaves of `m`, having dropped so many nodes. -/
structure Reclaimed (m : Manager) (roots : List Ref) (dropped : Nat) (m' : Manager) : Prop where
  /-- A node is dropped if and only if it is not the terminal and no root reaches it. -/
  kept : ∀ index node, m'.nodes.stored? index = some node ↔
    m.nodes.stored? index = some node ∧ (index = 1 ∨ m.Reaches roots index)
  descendants : ∃ alive, m'.descendants roots = .ok alive ∧ m'.size = alive.size
  dropped : m'.size + dropped = m.size
  reached : ∀ r : Ref, m.Reaches roots r.index →
    m'.node r.index = m.node r.index ∧ ∀ a, m'.evaluate r a = m.evaluate r a
  forgotten : ∀ (slot : Nat) (key : Triple) (r : Ref),
    m'.computed.slots[slot]? ≠ some (some (key, r))
  consed : m'.nodes.Consed (· = 1)
  reduced : m'.Reduced
  canonical : ∀ f g, m'.Live f → m'.Live g → (f = g ↔ ∀ a, m'.evaluate f a = m'.evaluate g a)
  /-- A function that survived has its old reference for as long as it is kept, whatever else is
  stored or dropped meanwhile. -/
  rebuilt : ∀ m'', Later roots m' m'' → ∀ r : Ref, m.Reaches roots r.index →
    m''.Live r ∧ ∀ f, m''.Live f → (∀ a, m''.evaluate f a = m.evaluate r a) → f = r

/-- A collection drops exactly the nodes that no root reaches.  It never fails, it reports how
many nodes it dropped, and it leaves every survivor as it was. -/
theorem collect_reclaims (h : Reached m) (hroots : ∀ r ∈ roots, m.Live r) :
    ∃ dropped m', collect roots m = .ok dropped m' ∧ m.Reclaimed roots dropped m' := by
  have hm := h.canonical
  rcases collect_exact hm h.tallied hroots with
    ⟨dropped, m', hrun, hcanonical, htallied, hexact, hdropped, hforgotten⟩
  have hholds : m.Holds roots m' := fun index node hreached hstored =>
    (hexact index node).2 ⟨hstored, Or.inr hreached⟩
  have hroots' : ∀ r ∈ roots, m'.Live r := fun r hr =>
    (hroots r hr).imp fun node hstored => hholds _ node (.root hr) hstored
  have hback : m'.Holds roots m := fun index node _ hstored => ((hexact index node).1 hstored).1
  have hreaches : ∀ index, m'.Reaches roots index ↔ m.Reaches roots index := fun index =>
    ⟨fun h => h.of_same hback (List.Subset.refl roots),
      fun h => h.of_same hholds (List.Subset.refl roots)⟩
  refine ⟨dropped, m', hrun, hexact, ?_, hdropped, ?_, hforgotten, hcanonical.consed,
    hcanonical.reduced, ?_, ?_⟩
  · rcases descendants_exact hcanonical.reduced hroots' with ⟨alive, hmark, halive⟩
    refine ⟨alive, hmark, htallied.2.trans (size_eq_card fun index => ?_).symm⟩
    rw [halive, UniqueTable.mem_population]
    constructor
    · exact Survives.stored hcanonical.reduced hroots'
    · rintro ⟨node, hstored⟩
      exact ((hexact index node).1 hstored).2.imp_right (hreaches index).2
  · intro r hr
    rcases hr.stored hm.reduced hroots with ⟨node, hstored⟩
    have hstored' := hholds _ node hr hstored
    exact ⟨(node_of_stored hstored').trans (node_of_stored hstored).symm,
      (hholds.evaluate hm.reduced hcanonical.reduced hroots hr).2⟩
  · intro f g hf hg
    exact ⟨fun heq a => by rw [heq], hcanonical.reduced.eq_of_evaluate_eq hf hg⟩
  · intro m'' hlater r hr
    rcases hlater.holds hcanonical htallied with ⟨hcanonical'', -, hholds''⟩
    have hr' := (hreaches _).2 hr
    have hthere := hholds.evaluate hm.reduced hcanonical.reduced hroots hr
    have hlater' := hholds''.evaluate hcanonical.reduced hcanonical''.reduced hroots' hr'
    refine ⟨hlater'.1, fun f hf hsame => ?_⟩
    apply hcanonical''.reduced.eq_of_evaluate_eq hf hlater'.1
    intro a
    rw [hsame, hlater'.2, hthere.2]

/-- A run that makes two variables. -/
private def twoVariables : Manager :=
  match ofSizing ⟨3, 2, 5⟩ with
  | .error _ => default
  | .ok m =>
    match Call.perform (.var 1) m with
    | .error _ m' => m'
    | .ok _ m' =>
      match Call.perform (.var 2) m' with
      | .error _ m'' => m''
      | .ok _ m'' => m''

private theorem twoVariables_reached : Reached twoVariables := by
  have hrun : ∃ m m', ofSizing ⟨3, 2, 5⟩ = .ok m ∧ Call.perform (.var 1) m = .ok () m' ∧
      Call.perform (.var 2) m' = .ok () twoVariables := ⟨_, _, rfl, rfl, rfl⟩
  rcases hrun with ⟨m, m', hnew, hfirst, hsecond⟩
  have hm' := Reached.answered (.var 1) (.new hnew) (by simp [Call.operands]) trivial hfirst
  exact Reached.answered (.var 2) hm' (by simp [Call.operands]) trivial hsecond

/-- The theorem at a collection for one of two variables, which drops the other one. -/
theorem collect_reclaims_twoVariables :
    Reached twoVariables ∧ (∀ r ∈ [(⟨2, false⟩ : Ref)], twoVariables.Live r) ∧
      (∃ node, twoVariables.nodes.stored? 3 = some node) ∧
      ∃ dropped m', collect [⟨2, false⟩] twoVariables = .ok dropped m' ∧
        twoVariables.Reclaimed [⟨2, false⟩] dropped m' ∧ m'.nodes.stored? 3 = none := by
  have hstored : twoVariables.nodes.stored? 2 = some ⟨1, Ref.zero, Ref.one⟩ := by decide +kernel
  have hlive : ∀ r ∈ [(⟨2, false⟩ : Ref)], twoVariables.Live r := by
    simpa using ⟨_, hstored⟩
  have hreaches : ∀ index, twoVariables.Reaches [⟨2, false⟩] index → index = 2 ∨ index = 1 := by
    intro index h
    induction h with
    | root hr => exact Or.inl (by rw [List.mem_singleton.1 hr])
    | child _ hindex hnode hchild ih =>
        rw [ih.resolve_right hindex, hstored] at hnode
        cases hnode
        simp only [List.mem_cons, List.not_mem_nil, or_false] at hchild
        rcases hchild with rfl | rfl <;> exact Or.inr rfl
  rcases collect_reclaims twoVariables_reached hlive with ⟨dropped, m', hrun, hreclaimed⟩
  refine ⟨twoVariables_reached, hlive, ⟨⟨2, Ref.zero, Ref.one⟩, by decide +kernel⟩, dropped, m',
    hrun, hreclaimed, ?_⟩
  cases hgone : m'.nodes.stored? 3 with
  | none => rfl
  | some node =>
      have hkept := ((hreclaimed.kept 3 node).1 hgone).2
      rcases hkept with hone | hreached
      · cases hone
      · rcases hreaches 3 hreached with htwo | hone <;> contradiction

end Manager

end SymbolicOmega
