import SymbolicOmega.Proofs.Diagram.Canonicity
import SymbolicOmega.Proofs.Diagram.Persistence
import SymbolicOmega.Proofs.Diagram.Preservation

/-!
# Runs on any operands

A cube may repeat a variable and a node may be asked for above its children, and then the stored
nodes are no ordered diagram until a collection drops what broke the order.  Of such a run less
can be said at every moment: what stored nodes and computed results name is stored, and whenever
the nodes are a reduced and ordered diagram, no computed result is wrong.
-/

namespace SymbolicOmega

namespace Manager

variable {m m' : Manager}

/-- The managers that operations on references that are not dangling lead to from a new one, with
the causes of those that failed, the latest first. -/
inductive Run (sizing : Sizing) : List Fault → Manager → Prop where
  | new {m : Manager} (hnew : ofSizing sizing = .ok m) : Run sizing [] m
  | answered {faults : List Fault} {m m' : Manager} (call : Call) (hm : Run sizing faults m)
      (hlive : ∀ r ∈ call.operands, m.Live r) (hrun : call.perform m = .ok () m') :
      Run sizing faults m'
  | failed {faults : List Fault} {m m' : Manager} (call : Call) {fault : Fault}
      (hm : Run sizing faults m) (hlive : ∀ r ∈ call.operands, m.Live r)
      (hrun : call.perform m = .error fault m') : Run sizing (fault :: faults) m'

/-- Runs that respect the order of variables are runs. -/
theorem Reached.run (h : Reached m) : ∃ sizing faults, Run sizing faults m := by
  induction h with
  | @new sizing m hnew => exact ⟨sizing, [], .new hnew⟩
  | answered call _ hlive _ hrun ih =>
      obtain ⟨sizing, faults, h⟩ := ih
      exact ⟨sizing, faults, h.answered call hlive hrun⟩
  | failed call _ hlive _ hrun ih =>
      obtain ⟨sizing, faults, h⟩ := ih
      exact ⟨sizing, _, h.failed call hlive hrun⟩

/-- What the steps carry to their answers, and a collection too, every operation does. -/
theorem Computes.perform {P : Manager → Prop} {bad : Fault → Manager → Prop} (h : Computes P bad)
    (hm : P m) {call : Call} (hcollect : ∀ roots, call = .collect roots →
      Outcome (Manager.collect roots) m (fun _ m' => P m') bad) :
    Outcome call.perform m (fun _ m' => P m') bad := by
  cases call with
  | var v => exact (h.mkNode v _ _).map m hm
  | cube literals => exact (h.mkCube literals).map m hm
  | node v low high => exact (h.mkNode v low high).map m hm
  | ite f g h' => exact (h.iteWithin stepBound _).map m hm
  | conj u v => exact (h.iteWithin stepBound _).map m hm
  | disj u v => exact (h.iteWithin stepBound _).map m hm
  | diff u v => exact (h.iteWithin stepBound _).map m hm
  | disjAll rs => exact (h.disjAll rs).map m hm
  | collect roots => exact Outcome.map (hcollect roots rfl)

/-! ## What every run keeps -/

/-- What the steps and a collection keep, every operation keeps. -/
theorem Lasting.perform {P : Manager → Prop} (hP : Lasting P) (call : Call) :
    Upholds P call.perform := by
  intro m hm
  have hcollect : ∀ roots, Outcome (Manager.collect roots) m (fun _ m' => P m')
      fun _ m' => True ∧ P m' := fun roots => (hP.collect roots).secures m hm
  exact (hP.steps.computes.perform hm fun roots _ => hcollect roots).mono (fun _ _ hend => hend)
    fun _ _ hend => hend.2

theorem Run.lasting {P : Manager → Prop} {sizing : Sizing} {faults : List Fault} (hP : Lasting P)
    (hnew : ∀ m, ofSizing sizing = .ok m → P m) (h : Run sizing faults m) : P m := by
  induction h with
  | new hm => exact hnew _ hm
  | answered call _ _ hrun ih => exact (hP.perform call _ ih).of_ok hrun
  | failed call _ _ hrun ih => exact (hP.perform call _ ih).of_error hrun

/-- A diagram that only grew was reduced before, if it is reduced now. -/
theorem Extends.reduced (h : m.Extends m') (hm : m.Closed) (hm' : m'.Reduced) : m.Reduced := by
  refine ⟨hm.terminal, fun index node hindex hstored => ?_, fun i j node hi hj =>
    hm'.unique i j node (h _ _ hi) (h _ _ hj)⟩
  have hproper := hm'.proper index node hindex (h _ _ hstored)
  have hlive := hm.child index node hindex hstored
  refine ⟨hproper.var_ne_zero, hproper.low_ne_high, hproper.high_positive, hlive,
    fun child hchild hterminal => ?_⟩
  obtain ⟨below, hbelow⟩ := hlive child hchild
  obtain ⟨below', hbelow', hlt⟩ := hproper.ordered child hchild hterminal
  have hsame : below = below' := Option.some.inj ((h _ _ hbelow).symm.trans hbelow')
  exact ⟨below, hbelow, hsame ▸ hlt⟩

/-- What is named is stored, and the computed results are right if the nodes are reduced. -/
structure Sound (m : Manager) : Prop where
  closed : m.Closed
  canonical : m.Reduced → m.Canonical

theorem Canonical.sound (hm : m.Canonical) : m.Sound := ⟨hm.closed, fun _ => hm⟩

/-- Where a diagram grew only an end that is reduced has to be looked at, and then the diagram
was canonical before. -/
theorem Sound.of_extends (hm : m.Sound) (hm' : m'.Closed) (h : m.Extends m')
    (hend : m.Canonical → m'.Reduced → m'.Canonical) : m'.Sound :=
  ⟨hm', fun hreduced => hend (hm.canonical (h.reduced hm.closed hreduced)) hreduced⟩

/-- Making nodes leaves the computed results alone. -/
private theorem Sound.makes {β : Type} {x : ManagerM β} {good : β → Manager → Prop}
    (hm : m.Sound) (hwidens : m.Widens x good)
    (hcomputed : Secures (fun m' => m'.computed.slots = m.computed.slots) (fun _ => True) x) :
    Outcome x m (fun _ m' => m'.Sound) fun _ m' => m'.Sound := by
  have hend : ∀ {m' : Manager}, m'.Closed → m.Extends m' →
      m'.computed.slots = m.computed.slots → m'.Sound := fun hm' hextends hslots =>
    hm.of_extends hm' hextends fun hcanonical hreduced =>
      hcanonical.of_extends hm'.consed hreduced hextends hslots
  exact (Outcome.and hwidens (hcomputed m rfl)).mono
    (fun _ _ h => hend h.1.1 h.1.2.1 h.2) fun _ _ h => hend h.1.1 h.1.2 h.2.2

/-- What grows from every canonical manager is sound in the end. -/
private theorem Sound.grows {β : Type} {x : ManagerM β} {good good' : β → Manager → Prop}
    (hm : m.Sound) (hwidens : m.Widens x good) (hgrows : m.Canonical → m.Grows x good') :
    Outcome x m (fun _ m' => m'.Sound) fun _ m' => m'.Sound := by
  by_cases hcanonical : m.Canonical
  · exact Outcome.mono (hgrows hcanonical) (fun _ _ h => h.1.sound) fun _ _ h => h.1.sound
  · have hend : ∀ {m' : Manager}, m'.Closed → m.Extends m' → m'.Sound := fun hm' hextends =>
      hm.of_extends hm' hextends fun h => absurd h hcanonical
    exact Outcome.mono hwidens (fun _ _ h => hend h.1 h.2.1) fun _ _ h => hend h.1 h.2

private theorem Sound.collect (hm : m.Sound) (roots : List Ref) :
    Outcome (collect roots) m (fun _ m' => m'.Sound) fun _ m' => m'.Sound := by
  have hforgotten : ∀ {m' : Manager}, m'.Closed →
      (∀ (slot : Nat) (key : Triple) (r : Ref),
        m'.computed.slots[slot]? ≠ some (some (key, r))) → m'.Sound := fun hm' hempty =>
    ⟨hm', fun hreduced =>
      ⟨hm'.consed, hreduced, fun slot key r hslot => absurd hslot (hempty slot key r)⟩⟩
  apply (collect_sweeps hm.closed.consed roots).mono
  · rintro dropped m' ⟨marked, h⟩
    exact hforgotten (h.closed_manager hm.closed) h.forgotten
  · rintro fault m' ⟨hnodes, hempty⟩
    exact hforgotten (hm.closed.of_nodes_eq hnodes fun slot key r hslot =>
      absurd hslot (hempty slot key r)) hempty

/-- Every operation on references that are not dangling leaves a sound manager. -/
theorem Sound.perform (hm : m.Sound) {call : Call} (hlive : ∀ r ∈ call.operands, m.Live r) :
    Outcome call.perform m (fun _ m' => m'.Sound) fun _ m' => m'.Sound := by
  have hputs : Puts (fun m' => m'.computed.slots = m.computed.slots) fun _ => True :=
    puts_of_upholds fun node m' hslots => by
      unfold Outcome onNodes
      dsimp only
      cases UniqueTable.put node m'.nodes <;> exact hslots
  cases call with
  | var v => exact Outcome.map (hm.makes (mkVar_widens hm.closed v) (hputs.mkNode v _ _))
  | cube literals =>
      exact Outcome.map (hm.makes (mkCube_widens hm.closed literals) (hputs.mkCube literals))
  | node v low high =>
      obtain ⟨hlow, hhigh⟩ : m.Live low ∧ m.Live high := by simpa [Call.operands] using hlive
      exact Outcome.map (hm.makes (mkNode_widens hm.closed v hlow hhigh) (hputs.mkNode v low high))
  | ite f g h =>
      obtain ⟨hf, hg, hh⟩ : m.Live f ∧ m.Live g ∧ m.Live h := by
        simpa [Call.operands] using hlive
      exact Outcome.map (hm.grows (iteWithin_widens stepBound hm.closed ⟨hf, hg, hh⟩)
        fun hcanonical => ite_grows hcanonical hf hg hh)
  | conj u v =>
      obtain ⟨hu, hv⟩ : m.Live u ∧ m.Live v := by simpa [Call.operands] using hlive
      exact Outcome.map (hm.grows (conj_widens hm.closed hu hv)
        fun hcanonical => conj_grows hcanonical hu hv)
  | disj u v =>
      obtain ⟨hu, hv⟩ : m.Live u ∧ m.Live v := by simpa [Call.operands] using hlive
      exact Outcome.map (hm.grows (disj_widens hm.closed hu hv)
        fun hcanonical => disj_grows hcanonical hu hv)
  | diff u v =>
      obtain ⟨hu, hv⟩ : m.Live u ∧ m.Live v := by simpa [Call.operands] using hlive
      exact Outcome.map (hm.grows (diff_widens hm.closed hu hv)
        fun hcanonical => diff_grows hcanonical hu hv)
  | disjAll rs =>
      exact Outcome.map (hm.grows (disjAll_widens hm.closed hlive)
        fun hcanonical => disjAll_grows hcanonical hlive)
  | collect roots => exact Outcome.map (hm.collect roots)

theorem Run.sound {sizing : Sizing} {faults : List Fault} (h : Run sizing faults m) :
    m.Sound := by
  induction h with
  | new hnew => exact (ofSizing_canonical hnew).sound
  | answered call _ hlive hrun ih => exact (ih.perform hlive).of_ok hrun
  | failed call _ hlive hrun ih => exact (ih.perform hlive).of_error hrun

/-! ## A small run -/

/-- What a run comes to that makes two variables in a table of eight cells. -/
def pair : Manager :=
  match ofSizing ⟨3, 2, 5⟩ with
  | .error _ => default
  | .ok m =>
    match Call.perform (.var 1) m with
    | .error _ m' => m'
    | .ok _ m' =>
      match Call.perform (.var 2) m' with
      | .error _ m'' => m''
      | .ok _ m'' => m''

/-- The run answers both times, and its diagram is reduced. -/
theorem pair_run : Run ⟨3, 2, 5⟩ [] pair ∧ pair.Reduced := by
  have hrun : ∃ m m', ofSizing ⟨3, 2, 5⟩ = .ok m ∧ Call.perform (.var 1) m = .ok () m' ∧
      Call.perform (.var 2) m' = .ok () pair := ⟨_, _, rfl, rfl, rfl⟩
  obtain ⟨m, m', hnew, hfirst, hsecond⟩ := hrun
  have hnone : ∀ {m : Manager} v, ∀ r ∈ (Call.var v).operands, m.Live r := by
    simp [Call.operands]
  have hreached := ((Reached.new hnew).answered _ (hnone 1) trivial hfirst).answered _ (hnone 2)
    trivial hsecond
  exact ⟨((Run.new hnew).answered _ (hnone 1) hfirst).answered _ (hnone 2) hsecond,
    hreached.canonical.reduced⟩

-- what is said of the run does not depend on how its tables are computed
attribute [irreducible] pair

theorem pair_live (negated : Bool) : pair.Live ⟨2, negated⟩ ∧ pair.Live ⟨3, negated⟩ := by
  have hfirst : pair.nodes.stored? 2 = some ⟨1, Ref.zero, Ref.one⟩ := by decide +kernel
  have hsecond : pair.nodes.stored? 3 = some ⟨2, Ref.zero, Ref.one⟩ := by decide +kernel
  exact ⟨⟨_, hfirst⟩, ⟨_, hsecond⟩⟩

end Manager

end SymbolicOmega
