import SymbolicOmega.Proofs.Diagram.Canonicity
import SymbolicOmega.Proofs.Diagram.Preservation
import SymbolicOmega.Proofs.Diagram.Recall

/-!
# Transparency of the computed table

Two managers with computed tables of different sizes are given the same requests.  They hit
and miss differently, but a hit of one is a computation of the other that stores nothing, so
after every request both show the same answer or the same fault and hold the same nodes at the
same places.
-/

namespace SymbolicOmega

namespace Manager

variable {β γ : Type} {m m' : Manager} {t key : Triple} {v : UInt32}

/-- Two managers that differ in their computed tables at most. -/
structure Agrees (m m' : Manager) : Prop where
  nodes : m'.nodes = m.nodes
  threshold : m'.threshold = m.threshold
  collectAbove : m'.sizing.collectAbove = m.sizing.collectAbove

theorem Agrees.extends (h : m.Agrees m') : m.Extends m' :=
  Extends.of_nodes_eq h.nodes

/-- From two managers an operation comes to the same answer or to the same fault, and to
managers that are related again. -/
def Alike (R : Manager → Manager → Prop) (x : ManagerM β) (m m' : Manager) : Prop :=
  match x m, x m' with
  | .ok b u, .ok b' u' => b' = b ∧ R u u'
  | .error fault u, .error fault' u' => fault' = fault ∧ R u u'
  | _, _ => False

namespace Alike

variable {R S : Manager → Manager → Prop} {x : ManagerM β}

theorem of_ok {b : β} {u u' : Manager} (hrun : x m = .ok b u) (hrun' : x m' = .ok b u')
    (h : R u u') : Alike R x m m' := by
  rw [Alike, hrun, hrun']
  exact ⟨rfl, h⟩

protected theorem pure (h : R m m') (b : β) : Alike R (pure b) m m' :=
  of_ok rfl rfl h

protected theorem throw (h : R m m') (fault : Fault) :
    Alike R (throw fault : ManagerM β) m m' :=
  ⟨rfl, h⟩

/-- What follows starts from related managers, after the same answer.  A fault is the end of
both runs. -/
protected theorem bind {f : β → ManagerM γ} (h : Alike R x m m')
    (hf : ∀ b u u', x m = .ok b u → x m' = .ok b u' → R u u' → Alike R (f b) u u') :
    Alike R (x >>= f) m m' := by
  rw [Alike] at h
  rw [Alike]
  cases hrun : x m with
  | ok b u =>
      cases hrun' : x m' with
      | ok b' u' =>
          rw [hrun, hrun'] at h
          obtain ⟨rfl, hend⟩ := h
          rw [run_bind hrun, run_bind hrun']
          exact hf b' u u' hrun hrun' hend
      | error fault u' => simp [hrun, hrun'] at h
  | error fault u =>
      cases hrun' : x m' with
      | ok b' u' => simp [hrun, hrun'] at h
      | error fault' u' =>
          rw [hrun, hrun'] at h
          rw [run_bind_error hrun, run_bind_error hrun']
          exact h

protected theorem map {f : β → γ} (h : Alike R x m m') : Alike R (f <$> x) m m' := by
  rw [map_eq_pure_bind]
  exact h.bind fun b u u' _ _ hend => Alike.pure hend (f b)

/-- What is known of each run alone may be used of the two ends. -/
theorem mono {good : β → Manager → Prop} {bad : Fault → Manager → Prop}
    {good' : β → Manager → Prop} {bad' : Fault → Manager → Prop} (h : Alike R x m m')
    (hx : Outcome x m good bad) (hx' : Outcome x m' good' bad')
    (hgood : ∀ b u u', R u u' → good b u → good' b u' → S u u')
    (hbad : ∀ fault u u', R u u' → bad fault u → bad' fault u' → S u u') : Alike S x m m' := by
  rw [Alike] at h
  rw [Alike]
  cases hrun : x m with
  | ok b u =>
      cases hrun' : x m' with
      | ok b' u' =>
          rw [hrun, hrun'] at h
          obtain ⟨rfl, hend⟩ := h
          exact ⟨rfl, hgood _ u u' hend (hx.of_ok hrun) (hx'.of_ok hrun')⟩
      | error fault u' => simp [hrun, hrun'] at h
  | error fault u =>
      cases hrun' : x m' with
      | ok b' u' => simp [hrun, hrun'] at h
      | error fault' u' =>
          rw [hrun, hrun'] at h
          obtain ⟨rfl, hend⟩ := h
          exact ⟨rfl, hbad _ u u' hend (hx.of_error hrun) (hx'.of_error hrun')⟩

protected theorem ask {question : Manager → Except Fault β} (h : R m m')
    (hsame : question m' = question m) : Alike R (ask question) m m' := by
  rw [Alike]
  simp only [Manager.ask, hsame]
  cases question m with
  | ok b => exact ⟨rfl, h⟩
  | error fault => exact ⟨rfl, h⟩

/-- An operation on the nodes sees nothing else. -/
protected theorem onNodes (x : TableM Node β) (h : m.Agrees m') :
    Alike Agrees (Manager.onNodes x) m m' := by
  rw [Alike]
  simp only [Manager.onNodes, h.nodes]
  cases x m.nodes with
  | ok b nodes => exact ⟨rfl, rfl, h.threshold, h.collectAbove⟩
  | error fault nodes => exact ⟨rfl, rfl, h.threshold, h.collectAbove⟩

end Alike

theorem mkNode_alike (h : m.Agrees m') (v : UInt32) (low high : Ref) :
    Alike Agrees (mkNode v low high) m m' := by
  have hstore : ∀ low high, Alike Agrees (storeNode v low high) m m' := by
    intro low high
    rw [storeNode]
    split_ifs with hsame
    · exact Alike.pure h low
    · apply (Alike.onNodes _ h).bind
      intro index u u' _ _ hagrees
      cases Ref.ofIndex? index false with
      | some r => exact Alike.pure hagrees r
      | none => exact Alike.throw hagrees _
  rw [mkNode]
  split_ifs with hzero hnegated
  · exact Alike.throw h _
  · exact (hstore _ _).bind fun r u u' _ _ hagrees => Alike.pure hagrees (-r)
  · exact hstore low high

theorem mkCube_alike (h : m.Agrees m') (literals : List Literal) :
    Alike Agrees (mkCube literals) m m' := by
  rw [mkCube]
  split_ifs
  · exact Alike.throw h _
  induction literals.mergeSort fun a b => a.number.abs ≤ b.number.abs with
  | nil => exact Alike.pure h Ref.one
  | cons literal rest ih =>
      rw [List.foldrM_cons]
      apply ih.bind
      intro r u u' _ _ hagrees
      rw [conjoinLiteral]
      split_ifs
      · exact mkNode_alike hagrees _ _ _
      · exact mkNode_alike hagrees _ _ _

/-- Two managers that agree, each with results that can be computed again. -/
structure Twins (m m' : Manager) : Prop where
  agrees : m.Agrees m'
  left : m.Faithful
  right : m'.Faithful

theorem Twins.of_recollects {x : ManagerM Ref} {r : Ref} {u u' : Manager} (hagrees : u.Agrees u')
    (h : m.Recollects t x) (h' : m'.Recollects t x) (hrun : x m = .ok r u)
    (hrun' : x m' = .ok r u') : Twins u u' :=
  ⟨hagrees, (Outcome.of_ok h hrun).1, (Outcome.of_ok h' hrun').1⟩

theorem Twins.iteWithin {u u' : Manager} {bound : Nat} {r : Ref} (h : Twins m m')
    (ht : m.Operands t) (hrun : iteWithin bound t m = .ok r u)
    (hrun' : iteWithin bound t m' = .ok r u') (hagrees : u.Agrees u') :
    Twins u u' ∧ m.Extends u :=
  ⟨.of_recollects hagrees (iteWithin_recollects bound h.left ht)
    (iteWithin_recollects bound h.right (ht.extends h.agrees.extends)) hrun hrun',
    (Outcome.of_ok (iteWithin_recollects bound h.left ht) hrun).2.1⟩

private theorem splitAt_alike {bound : Nat}
    (hanswer : ∀ {m m' : Manager} {t : Triple}, Twins m m' → m.Operands t →
      m.effort t ≤ bound → Alike Agrees (Manager.iteWithin bound t) m m')
    (h : Twins m m') (hkey : m.Operands key) (hfirst : v.toNat = m.firstRank key)
    (hbound : m.effort key ≤ bound + 1) :
    Alike Agrees (splitAt (Manager.iteWithin bound) key v) m m' := by
  have hreduced := h.left.canonical.reduced
  have hextends := h.agrees.extends
  have hhalves := fun bit => halves_operands hreduced hkey hfirst bit
  have hleft : ∀ bit, m.effort (m.halves bit v key) ≤ bound := fun bit =>
    Nat.le_of_lt_succ (Nat.lt_of_lt_of_le (hhalves bit).2 hbound)
  rw [Alike, splitAt_eq hreduced hkey hfirst, splitAt_eq h.right.canonical.reduced
    (hkey.extends hextends) (hfirst.trans (hextends.firstRank hkey).symm),
    hextends.halves hkey, hextends.halves hkey]
  apply Alike.bind (hanswer h (hhalves false).1 (hleft false))
  intro low u u' hlow hlow' hagrees
  have htwins := h.iteWithin (hhalves false).1 hlow hlow' hagrees
  have hhalf := (hhalves true).1
  apply Alike.bind (hanswer htwins.1 (hhalf.extends htwins.2)
    (by rw [htwins.2.effort hhalf]; exact hleft true))
  intro high w w' _ _ hagrees
  apply (mkNode_alike hagrees v low high).bind
  intro r y y' _ _ hagrees
  exact Alike.of_ok rfl rfl ⟨hagrees.nodes, hagrees.threshold, hagrees.collectAbove⟩

/-- A hit of either manager is answered by the other one as well, and stores nothing there. -/
private theorem resolve_alike {bound : Nat}
    (hanswer : ∀ {m m' : Manager} {t : Triple}, Twins m m' → m.Operands t →
      m.effort t ≤ bound → Alike Agrees (Manager.iteWithin bound t) m m')
    (h : Twins m m') (hkey : m.Operands key) (hfirst : v.toNat = m.firstRank key)
    (hbound : m.effort key ≤ bound + 1) : Alike Agrees (resolve bound v key) m m' := by
  have hreduced := h.left.canonical.reduced
  have hextends := h.agrees.extends
  have hback : m'.Extends m := Extends.of_nodes_eq h.agrees.nodes.symm
  have hkey' := hkey.extends hextends
  have hfirst' := hfirst.trans (hextends.firstRank hkey).symm
  have hhit : ∀ r, m.Retraces v key r → Alike Agrees (resolve bound v key) m m' := by
    intro r hretraces
    rcases hretraces.run h.left hkey hfirst hbound with ⟨computed, hrun⟩
    have hretraces' := hretraces.extends hreduced hextends hkey hfirst
    rcases hretraces'.run h.right hkey' hfirst' (by rwa [hextends.effort hkey]) with
      ⟨computed', hrun'⟩
    exact Alike.of_ok hrun hrun' ⟨h.agrees.nodes, h.agrees.threshold, h.agrees.collectAbove⟩
  cases hfound : m.computed.find? key with
  | some r => exact hhit r (retraces_of_find? h.left hfirst hfound)
  | none =>
  cases hfound' : m'.computed.find? key with
  | some r =>
      have hretraces := retraces_of_find? h.right hfirst' hfound'
      exact hhit r (hretraces.extends h.right.canonical.reduced hback hkey' hfirst')
  | none =>
      rw [Alike, resolve_of_miss bound hfound, resolve_of_miss bound hfound']
      have hlooked : m.Extends (m.lookedUp key) := Extends.of_nodes_eq rfl
      have htwins : Twins (m.lookedUp key) (m'.lookedUp key) :=
        ⟨⟨h.agrees.nodes, h.agrees.threshold, h.agrees.collectAbove⟩, h.left.lookedUp key,
          h.right.lookedUp key⟩
      exact splitAt_alike hanswer htwins (hkey.extends hlooked)
        (hfirst.trans (hlooked.firstRank hkey).symm) (by rwa [hlooked.effort hkey])

/-- If-then-else ends alike with either computed table. -/
theorem iteWithin_alike (bound : Nat) : ∀ {m m' : Manager} {t : Triple}, Twins m m' →
    m.Operands t → m.effort t ≤ bound → Alike Agrees (Manager.iteWithin bound t) m m' := by
  induction bound with
  | zero => exact fun _ _ hbound => absurd hbound (Nat.not_succ_le_zero _)
  | succ bound ih =>
      intro m m' t h ht hbound
      have hreduced := h.left.canonical.reduced
      rw [Alike, iteWithin_succ hreduced ht,
        iteWithin_succ h.right.canonical.reduced (ht.extends h.agrees.extends),
        h.agrees.extends.phase ht]
      cases hphase : m.phase t with
      | answer r => exact ⟨rfl, h.agrees⟩
      | again t' =>
          have hnext := phase_again hreduced ht hphase
          exact ih h hnext.1 (Nat.le_of_lt_succ (Nat.lt_of_lt_of_le hnext.2 hbound))
      | split v =>
          have hkey := (regular_choice hreduced ht).1
          have hfirst := (phase_split hreduced ht hphase).trans (firstRank_regular t).symm
          rw [← effort_regular] at hbound
          exact (resolve_alike ih h hkey hfirst hbound).map

theorem ite_alike (h : Twins m m') {f g e : Ref} (ht : m.Operands ⟨f, g, e⟩) :
    Alike Agrees (ite f g e) m m' :=
  iteWithin_alike stepBound h ht (effort_le_stepBound h.left.canonical.reduced ht)

/-! ## Results that can be computed again -/

/-- Whether it answers or fails, an operation keeps the remembered results computable. -/
def KeepsFaithful (m : Manager) (x : ManagerM β) : Prop :=
  Outcome x m (fun _ m' => m'.Faithful) (fun _ m' => m'.Faithful)

/-- An operation that leaves the computed table alone. -/
def SparesResults (x : ManagerM β) : Prop :=
  ∀ computed, Upholds (fun m : Manager => m.computed = computed) x

theorem onNodes_spares (x : TableM Node β) : SparesResults (onNodes x) := by
  intro computed m hm
  unfold Outcome onNodes
  dsimp only
  cases x m.nodes <;> exact hm

theorem mkNode_spares (v : UInt32) (low high : Ref) : SparesResults (mkNode v low high) :=
  fun computed => .of_secures
    ((puts_of_upholds fun _ => onNodes_spares _ computed).mkNode v low high)

theorem mkCube_spares (literals : List Literal) : SparesResults (mkCube literals) :=
  fun computed => .of_secures
    ((puts_of_upholds fun _ => onNodes_spares _ computed).mkCube literals)

/-- An operation that only adds nodes keeps what is remembered. -/
theorem Grows.keepsFaithful {x : ManagerM β} {good : β → Manager → Prop} (hm : m.Faithful)
    (hgrows : m.Grows x good) (hspares : SparesResults x) : m.KeepsFaithful x :=
  (Outcome.and hgrows (hspares m.computed m rfl)).mono
    (fun _ _ hend => ⟨hend.1.1, hm.remembers_extends hend.1.2.1 (by rw [hend.2])⟩)
    (fun _ _ hend => ⟨hend.1.1, hm.remembers_extends hend.1.2 (by rw [hend.2])⟩)

theorem ite_keepsFaithful (hm : m.Faithful) (ht : m.Operands t) :
    m.KeepsFaithful (ite t.f t.g t.h) :=
  (iteWithin_recollects stepBound hm ht).mono (fun _ _ hend => hend.1) fun _ _ hend => hend.1

/-- After a collection, failed or not, nothing is remembered. -/
theorem collect_keepsFaithful (hm : m.Faithful) (roots : List Ref) :
    m.KeepsFaithful (collect roots) := by
  have hforget : forgetComputed m = .ok () { m with computed := m.computed.clear } := rfl
  have hrest : SparesResults do
      let alive ← ask (·.descendants roots)
      let sweep ← onNodes (UniqueTable.retain alive.contains)
      raiseThreshold alive.size
      return sweep.dropped := by
    intro computed
    apply (ask_upholds _).bind
    intro alive
    apply (onNodes_spares _ computed).bind
    exact fun sweep _ hm => hm
  have hslots : Outcome (collect roots) m (fun _ m' => m'.computed = m.computed.clear)
      (fun _ m' => m'.computed = m.computed.clear) :=
    Outcome.bind_ok hforget (hrest m.computed.clear _ rfl)
  have hempty : ∀ m' : Manager, m'.computed = m.computed.clear → m'.Remembers := by
    intro m' hsame slot key r hslot
    rw [hsame] at hslot
    exact absurd hslot (m.computed.slot_of_clear slot key r)
  exact (Outcome.and (collect_outcome hm.canonical roots) hslots).mono
    (fun _ m' hend => ⟨hend.1.1, hempty m' hend.2⟩)
    (fun _ m' hend => ⟨hend.1.1, hempty m' hend.2⟩)

theorem collect_alike (h : m.Agrees m') (roots : List Ref) : Alike Agrees (collect roots) m m' := by
  have hforget : Alike Agrees forgetComputed m m' :=
    Alike.of_ok rfl rfl ⟨h.nodes, h.threshold, h.collectAbove⟩
  apply hforget.bind
  intro _ u u' _ _ hagrees
  apply (Alike.ask hagrees (descendants_congr hagrees.nodes roots)).bind
  intro alive w w' _ _ hagrees
  apply (Alike.onNodes _ hagrees).bind
  intro sweep y y' _ _ hagrees
  have hraise : Alike Agrees (raiseThreshold alive.size) y y' := by
    apply Alike.of_ok rfl rfl
    exact ⟨hagrees.nodes, by simp only [hagrees.nodes, hagrees.collectAbove], hagrees.collectAbove⟩
  exact hraise.bind fun _ _ _ _ _ hend => Alike.pure hend sweep.dropped

/-- What a manager answers. -/
inductive Answer where
  | ref (r : Ref)
  | truth (b : Bool)
  | count (n : Nat)
deriving DecidableEq

/-- The operation of a call with its answer. -/
def Call.answer : Call → ManagerM Answer
  | var v => .ref <$> mkVar v
  | cube literals => .ref <$> mkCube literals
  | node v low high => .ref <$> mkNode v low high
  | ite f g h => .ref <$> Manager.ite f g h
  | conj u v => .ref <$> Manager.conj u v
  | disj u v => .ref <$> Manager.disj u v
  | diff u v => .ref <$> Manager.diff u v
  | disjAll rs => .ref <$> Manager.disjAll rs
  | collect roots => .count <$> Manager.collect roots

/-- A call, or a question about two references. -/
inductive Request where
  | call (call : Call)
  | implies (u v : Ref)
  | disjoint (u v : Ref)

namespace Request

def answer : Request → ManagerM Answer
  | call c => c.answer
  | implies u v => .truth <$> Manager.implies u v
  | disjoint u v => .truth <$> Manager.disjoint u v

def operands : Request → List Ref
  | call c => c.operands
  | implies u v | disjoint u v => [u, v]

def Ordered (m : Manager) : Request → Prop
  | call c => c.Ordered m
  | _ => True

end Request

theorem Alike.twins {x : ManagerM β} (h : Alike Agrees x m m') (hx : m.KeepsFaithful x)
    (hx' : m'.KeepsFaithful x) : Alike Twins x m m' :=
  h.mono hx hx' (fun _ _ _ hagrees hu hu' => ⟨hagrees, hu, hu'⟩)
    fun _ _ _ hagrees hu hu' => ⟨hagrees, hu, hu'⟩

theorem Twins.ite (h : Twins m m') {f g e : Ref} (ht : m.Operands ⟨f, g, e⟩) :
    Alike Twins (Manager.ite f g e) m m' :=
  (ite_alike h ht).twins (ite_keepsFaithful h.left ht)
    (ite_keepsFaithful h.right (ht.extends h.agrees.extends))

/-- Requests that only make nodes do not see the computed table. -/
theorem Twins.of_grows (h : Twins m m') {x : ManagerM β} {good good' : β → Manager → Prop}
    (halike : Alike Agrees x m m') (hspares : SparesResults x) (hgrows : m.Grows x good)
    (hgrows' : m'.Grows x good') : Alike Twins x m m' :=
  halike.twins (hgrows.keepsFaithful h.left hspares) (hgrows'.keepsFaithful h.right hspares)

theorem Twins.disjAll (h : Twins m m') {rs : List Ref} (hrs : ∀ r ∈ rs, m.Live r) :
    Alike Twins (Manager.disjAll rs) m m' := by
  have hstart := h.left.canonical.reduced.live_zero
  rw [Manager.disjAll]
  generalize Ref.zero = start at hstart
  induction rs generalizing m m' start with
  | nil => exact Alike.pure h start
  | cons first rest ih =>
      have hfirst := hrs first List.mem_cons_self
      have ht : m.Operands ⟨start, Ref.one, first⟩ :=
        ⟨hstart, h.left.canonical.reduced.live_one, hfirst⟩
      rw [List.foldlM_cons]
      apply (h.ite ht).bind
      intro r u u' hrun _ hend
      have hgrows := Outcome.of_ok (disj_grows h.left.canonical hstart hfirst) hrun
      exact ih hend (fun r hr => hgrows.2.1.live (hrs r (List.mem_cons_of_mem _ hr))) r hgrows.2.2.1

/-- One request is answered alike by twins, and leaves twins. -/
theorem Twins.request (h : Twins m m') {request : Request}
    (hlive : ∀ r ∈ request.operands, m.Live r) (hordered : request.Ordered m) :
    Alike Twins request.answer m m' := by
  have hm := h.left.canonical
  have hm' := h.right.canonical
  have hextends := h.agrees.extends
  have hone := hm.reduced.live_one
  have hzero := hm.reduced.live_zero
  have hpair : ∀ {u v : Ref}, (∀ r ∈ [u, v], m.Live r) → m.Live u ∧ m.Live v := fun h =>
    ⟨h _ (by simp), h _ (by simp)⟩
  cases request with
  | implies u v =>
      have huv := hpair hlive
      exact ((h.ite ⟨huv.2, hzero, huv.1⟩).bind fun _ _ _ _ _ hend => Alike.pure hend _).map
  | disjoint u v =>
      have huv := hpair hlive
      exact ((h.ite ⟨huv.1, huv.2, hzero⟩).bind fun _ _ _ _ _ hend => Alike.pure hend _).map
  | call call =>
  cases call with
  | var v =>
      exact (h.of_grows (mkNode_alike h.agrees _ _ _) (mkNode_spares _ _ _) (mkVar_grows hm v)
        (mkVar_grows hm' v)).map
  | cube literals =>
      exact (h.of_grows (mkCube_alike h.agrees _) (mkCube_spares _) (mkCube_grows hm hordered)
        (mkCube_grows hm' hordered)).map
  | node v low high =>
      have hchildren := hpair hlive
      have hlow : v.toNat < m'.rank low := (hextends.rank hchildren.1).symm ▸ hordered.1
      have hhigh : v.toNat < m'.rank high := (hextends.rank hchildren.2).symm ▸ hordered.2
      exact (h.of_grows (mkNode_alike h.agrees _ _ _) (mkNode_spares _ _ _)
        (mkNode_grows hm hchildren.1 hchildren.2 hordered.1 hordered.2)
        (mkNode_grows hm' (hextends.live hchildren.1) (hextends.live hchildren.2) hlow hhigh)).map
  | ite f g e =>
      have ht : m.Operands ⟨f, g, e⟩ :=
        ⟨hlive f (by simp [Request.operands, Call.operands]),
          hlive g (by simp [Request.operands, Call.operands]),
          hlive e (by simp [Request.operands, Call.operands])⟩
      exact (h.ite ht).map
  | conj u v => exact (h.ite ⟨(hpair hlive).1, (hpair hlive).2, hzero⟩).map
  | disj u v => exact (h.ite ⟨(hpair hlive).1, hone, (hpair hlive).2⟩).map
  | diff u v => exact (h.ite ⟨(hpair hlive).2, hzero, (hpair hlive).1⟩).map
  | disjAll rs => exact (h.disjAll hlive).map
  | collect roots =>
      exact ((collect_alike h.agrees roots).twins (collect_keepsFaithful h.left roots)
        (collect_keepsFaithful h.right roots)).map

/-! ## Runs -/

/-- What can be seen of a step: how it ended, and the nodes and the threshold it left. -/
structure Step where
  result : Except Fault Answer
  nodes : UniqueTable Node
  threshold : Nat

/-- How a request ends, and the manager it leaves. -/
def step (request : Request) (m : Manager) : Except Fault Answer × Manager :=
  match request.answer m with
  | .ok answer m' => (.ok answer, m')
  | .error fault m' => (.error fault, m')

/-- What can be seen of a run of requests.  It goes on after a request that failed. -/
def transcript : List Request → Manager → List Step
  | [], _ => []
  | request :: rest, m =>
      let (result, m') := step request m
      ⟨result, m'.nodes, m'.threshold⟩ :: transcript rest m'

/-- No request of a run has a dangling operand, and each is in order. -/
def Admissible : List Request → Manager → Prop
  | [], _ => True
  | request :: rest, m =>
      (∀ r ∈ request.operands, m.Live r) ∧ request.Ordered m ∧ Admissible rest (step request m).2

instance (m : Manager) (r : Ref) : Decidable (m.Live r) :=
  decidable_of_iff (m.nodes.stored? r.index).isSome Option.isSome_iff_exists

instance (m : Manager) : (call : Call) → Decidable (call.Ordered m)
  | .cube literals => inferInstanceAs (Decidable (literals.map (·.var)).Nodup)
  | .node v low high => inferInstanceAs (Decidable (v.toNat < m.rank low ∧ v.toNat < m.rank high))
  | .var _ | .ite .. | .conj .. | .disj .. | .diff .. | .disjAll _ | .collect _ =>
      inferInstanceAs (Decidable True)

instance (m : Manager) : (request : Request) → Decidable (request.Ordered m)
  | .call call => inferInstanceAs (Decidable (call.Ordered m))
  | .implies .. | .disjoint .. => inferInstanceAs (Decidable True)

instance decidableAdmissible : (requests : List Request) → (m : Manager) →
    Decidable (Admissible requests m)
  | [], _ => inferInstanceAs (Decidable True)
  | request :: rest, m =>
      have := decidableAdmissible rest (step request m).2
      inferInstanceAs (Decidable ((∀ r ∈ request.operands, m.Live r) ∧ request.Ordered m ∧
        Admissible rest (step request m).2))

theorem Twins.step (h : Twins m m') {request : Request}
    (hlive : ∀ r ∈ request.operands, m.Live r) (hordered : request.Ordered m) :
    (Manager.step request m').1 = (Manager.step request m).1 ∧
      Twins (Manager.step request m).2 (Manager.step request m').2 := by
  have halike := h.request hlive hordered
  rw [Alike] at halike
  unfold Manager.step
  cases hrun : request.answer m with
  | ok answer u =>
      cases hrun' : request.answer m' with
      | ok answer' u' => simpa [hrun, hrun'] using halike
      | error fault u' => simp [hrun, hrun'] at halike
  | error fault u =>
      cases hrun' : request.answer m' with
      | ok answer' u' => simp [hrun, hrun'] at halike
      | error fault' u' => simpa [hrun, hrun'] using halike

theorem Twins.transcript (h : Twins m m') {requests : List Request}
    (hadmissible : Admissible requests m) :
    Manager.transcript requests m' = Manager.transcript requests m := by
  induction requests generalizing m m' with
  | nil => rfl
  | cons request rest ih =>
      obtain ⟨hlive, hordered, hrest⟩ := hadmissible
      have hstep := h.step hlive hordered
      have hagrees := hstep.2.agrees
      simp only [Manager.transcript, hstep.1, hagrees.nodes, hagrees.threshold, ih hstep.2 hrest]

theorem ofSizing_faithful {sizing : Sizing} (h : ofSizing sizing = .ok m) : m.Faithful := by
  have hcanonical := ofSizing_canonical h
  obtain ⟨t, u, index, computed, -, -, hcomputed, rfl⟩ := ofSizing_eq_ok h
  exact ⟨hcanonical, fun slot key r hslot => absurd hslot
    (ComputedTable.slot_of_ofBits hcomputed slot key r)⟩

/-- New managers whose sizings differ only in the computed table are twins. -/
theorem ofSizing_twins {sizing : Sizing} {bits : Nat} (hm : ofSizing sizing = .ok m)
    (hm' : ofSizing { sizing with computedBits := bits } = .ok m') : Twins m m' := by
  have hleft := ofSizing_faithful hm
  have hright := ofSizing_faithful hm'
  obtain ⟨t, u, index, computed, hbits, halloc, -, rfl⟩ := ofSizing_eq_ok hm
  obtain ⟨t', u', index', computed', hbits', halloc', -, rfl⟩ := ofSizing_eq_ok hm'
  have htables : t' = t := Except.ok.inj (hbits'.symm.trans hbits)
  subst htables
  have hnodes : u' = u := by
    rw [halloc] at halloc'
    cases halloc'
    rfl
  exact ⟨⟨hnodes, rfl, rfl⟩, hleft, hright⟩

/-- The computed table is invisible.  Managers with computed tables of different sizes are
given the same requests, a collection among them any number of times.  At every step they give
the same answer or fail with the same fault, and they hold the same nodes in the same cells. -/
theorem transcript_computedBits {sizing : Sizing} {bits : Nat} (hm : ofSizing sizing = .ok m)
    (hm' : ofSizing { sizing with computedBits := bits } = .ok m') {requests : List Request}
    (hadmissible : Admissible requests m) :
    m'.nodes = m.nodes ∧ transcript requests m' = transcript requests m :=
  ⟨(ofSizing_twins hm hm').agrees.nodes, (ofSizing_twins hm hm').transcript hadmissible⟩

/-- A conjunction that is asked for twice, with another one between. -/
private def repeated : List Request :=
  [.call (.var 1), .call (.var 2), .call (.var 3),
    .call (.conj ⟨2, false⟩ ⟨3, false⟩), .call (.conj ⟨3, false⟩ ⟨4, false⟩),
    .call (.conj ⟨2, false⟩ ⟨3, false⟩), .implies ⟨5, false⟩ ⟨2, false⟩]

/-- The number of hits of a run. -/
private def hits (requests : List Request) (m : Manager) : Nat :=
  (requests.foldl (fun m request => (step request m).2) m).computed.hits

/-- The theorem at a run that hits with four slots, where a single slot has lost the result. -/
theorem transcript_repeated :
    ∃ m m', ofSizing ⟨3, 2, 5⟩ = .ok m ∧ ofSizing ⟨3, 0, 5⟩ = .ok m' ∧ Admissible repeated m ∧
      hits repeated m = 1 ∧ hits repeated m' = 0 ∧ m'.nodes = m.nodes ∧
      transcript repeated m' = transcript repeated m := by
  have hwide : ∃ m, ofSizing ⟨3, 2, 5⟩ = .ok m ∧ Admissible repeated m ∧ hits repeated m = 1 :=
    ⟨_, rfl, by decide +kernel, by decide +kernel⟩
  have hnarrow : ∃ m, ofSizing ⟨3, 0, 5⟩ = .ok m ∧ hits repeated m = 0 :=
    ⟨_, rfl, by decide +kernel⟩
  obtain ⟨m, hm, hadmissible, hhits⟩ := hwide
  obtain ⟨m', hm', hhits'⟩ := hnarrow
  exact ⟨m, m', hm, hm', hadmissible, hhits, hhits', transcript_computedBits hm hm' hadmissible⟩

end Manager

end SymbolicOmega
