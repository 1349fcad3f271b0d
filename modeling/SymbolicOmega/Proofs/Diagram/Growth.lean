import SymbolicOmega.Diagram.IfThenElse
import SymbolicOmega.Proofs.Diagram.HashConsing
import SymbolicOmega.Proofs.Diagram.LastWrites
import SymbolicOmega.Proofs.Diagram.Values

/-!
# Growing diagrams

Between two collections a manager only stores more nodes, and the references there
were keep their ranks and values.  This module states what a manager keeps at either
end of every operation and shows it of a new manager and of making nodes.
-/

namespace SymbolicOmega

namespace Manager

open Function

/-- Every node of `m` is stored at the same index of `m'`. -/
def Extends (m m' : Manager) : Prop :=
  ∀ index node, m.nodes.stored? index = some node → m'.nodes.stored? index = some node

/-- `r` names a stored node, and its values are those of `F`. -/
def Denotes (m : Manager) (r : Ref) (F : (UInt32 → Bool) → Bool) : Prop :=
  m.Live r ∧ ∀ a, m.value r a = F a

namespace Extends

variable {m m' m'' : Manager} {r : Ref}

theorem refl (m : Manager) : m.Extends m := fun _ _ h => h

theorem trans (h : m.Extends m') (h' : m'.Extends m'') : m.Extends m'' :=
  fun index node hstored => h' index node (h index node hstored)

theorem live (h : m.Extends m') (hr : m.Live r) : m'.Live r :=
  hr.imp fun node hstored => h r.index node hstored

/-- A stored node keeps its values. -/
theorem value (h : m.Extends m') (hm : m.Reduced) (hm' : m'.Reduced) (hr : m.Live r)
    (a : UInt32 → Bool) : m'.value r a = m.value r a := by
  refine hm.induction (P := fun r => m'.value r a = m.value r a) ?_ ?_ hr
  · intro r hindex
    rw [Reduced.value_of_index_one hindex, Reduced.value_of_index_one hindex]
  · intro r node hindex hstored hlow hhigh
    rw [hm'.value_node hindex (h _ _ hstored), hm.value_node hindex hstored, hlow, hhigh]

theorem rank (h : m.Extends m') (hr : m.Live r) : m'.rank r = m.rank r := by
  obtain ⟨node, hstored⟩ := hr
  simp only [Manager.rank, hstored, h _ _ hstored]

theorem denotes (h : m.Extends m') (hm : m.Reduced) (hm' : m'.Reduced)
    {F : (UInt32 → Bool) → Bool} (hr : m.Denotes r F) : m'.Denotes r F :=
  ⟨h.live hr.1, fun a => (h.value hm hm' hr.1 a).trans (hr.2 a)⟩

end Extends

theorem Reduced.denotes_neg {m : Manager} (hm : m.Reduced) {r : Ref}
    {F : (UInt32 → Bool) → Bool} (hr : m.Denotes r F) : m.Denotes (-r) fun a => !F a :=
  ⟨hr.1, fun a => by rw [hm.value_neg hr.1, hr.2]⟩

/-- Canonicity, for a function that is given by its values. -/
theorem Reduced.eq_iff_of_denotes {m : Manager} (hm : m.Reduced) {r s : Ref}
    {F G : (UInt32 → Bool) → Bool} (hr : m.Denotes r F) (hs : m.Denotes s G) :
    r = s ↔ ∀ a, F a = G a := by
  refine ⟨?_, fun h => hm.eq_of_value_eq hr.1 hs.1 fun a => ?_⟩
  · rintro rfl a
    rw [← hr.2, hs.2]
  · rw [hr.2, hs.2, h]

theorem Reduced.denotes_zero {m : Manager} (hm : m.Reduced) :
    m.Denotes Ref.zero fun _ => false :=
  ⟨hm.live_zero, fun a => value_zero a⟩

/-! ## Canonical managers -/

/-- The three references of a triple name stored nodes. -/
structure Operands (m : Manager) (t : Triple) : Prop where
  f : m.Live t.f
  g : m.Live t.g
  h : m.Live t.h

/-- The function that a triple stands for. -/
def choice (m : Manager) (t : Triple) (a : UInt32 → Bool) : Bool :=
  if m.value t.f a then m.value t.g a else m.value t.h a

/-- What a manager keeps: the nodes are consed and reduced, the terminal being the only node
outside every chain, and no computed result is wrong. -/
structure Canonical (m : Manager) : Prop where
  consed : m.nodes.Consed (· = 1)
  reduced : m.Reduced
  computed : ∀ (slot : Nat) (key : Triple) (r : Ref),
    m.computed.slots[slot]? = some (some (key, r)) → m.Operands key ∧ m.Denotes r (m.choice key)

theorem Operands.extends {m m' : Manager} {t : Triple} (ht : m.Operands t) (h : m.Extends m') :
    m'.Operands t :=
  ⟨h.live ht.f, h.live ht.g, h.live ht.h⟩

theorem Extends.choice {m m' : Manager} {t : Triple} (h : m.Extends m') (hm : m.Reduced)
    (hm' : m'.Reduced) (ht : m.Operands t) : m'.choice t = m.choice t := by
  funext a
  simp only [Manager.choice, h.value hm hm' ht.f, h.value hm hm' ht.g, h.value hm hm' ht.h]

/-- Both ends of an operation leave a canonical manager with all the nodes there were; `good`
says what else holds at an answer. -/
def Grows {β : Type} (m : Manager) (x : ManagerM β) (good : β → Manager → Prop) : Prop :=
  Outcome x m (fun b m' => m'.Canonical ∧ m.Extends m' ∧ good b m')
    (fun _ m' => m'.Canonical ∧ m.Extends m')

theorem ask_run {β : Type} {question : Manager → Except Fault β} {m : Manager} {b : β}
    (hanswer : question m = .ok b) : ask question m = .ok b m := by
  simp only [ask, hanswer]

namespace Grows

variable {β γ : Type} {m : Manager} {x : ManagerM β} {good : β → Manager → Prop}

theorem mono {good' : β → Manager → Prop} (h : m.Grows x good)
    (hgood : ∀ b m', m'.Canonical → m.Extends m' → good b m' → good' b m') :
    m.Grows x good' :=
  Outcome.imp h fun b m' hend => ⟨hend.1, hend.2.1, hgood b m' hend.1 hend.2.1 hend.2.2⟩

/-- A reference that denotes a function denotes it under any other description. -/
theorem denotes_congr {x : ManagerM Ref} {F G : (UInt32 → Bool) → Bool}
    (h : m.Grows x fun r m' => m'.Denotes r F) (hsame : ∀ a, F a = G a) :
    m.Grows x fun r m' => m'.Denotes r G := by
  rwa [← funext hsame]

protected theorem pure (hm : m.Canonical) {b : β} (h : good b m) : m.Grows (pure b) good :=
  Outcome.pure ⟨hm, Extends.refl m, h⟩

protected theorem throw (hm : m.Canonical) {fault : Fault} :
    m.Grows (throw fault : ManagerM β) good :=
  Outcome.throw ⟨hm, Extends.refl m⟩

/-- What follows an operation starts from a canonical manager with more nodes. -/
protected theorem bind {f : β → ManagerM γ} {good' : γ → Manager → Prop} (h : m.Grows x good)
    (hf : ∀ b m', m'.Canonical → m.Extends m' → good b m' →
      m'.Grows (f b) good') : m.Grows (x >>= f) good' :=
  Outcome.andThen h fun b m' ⟨hm', hextends, hgood⟩ =>
    Outcome.mono (hf b m' hm' hextends hgood)
      (fun _ _ hend => ⟨hend.1, hextends.trans hend.2.1, hend.2.2⟩)
      fun _ _ hend => ⟨hend.1, hextends.trans hend.2⟩

theorem throw_bind (hm : m.Canonical) {fault : Fault} {f : β → ManagerM γ}
    {good' : γ → Manager → Prop} : m.Grows ((throw fault : ManagerM β) >>= f) good' :=
  Outcome.bind (Outcome.throw ⟨hm, Extends.refl m⟩)

/-- A question that has an answer changes nothing. -/
theorem ask_bind {question : Manager → Except Fault β} {f : β → ManagerM γ} {b : β}
    {good' : γ → Manager → Prop} (hanswer : question m = .ok b) (h : m.Grows (f b) good') :
    m.Grows (Manager.ask question >>= f) good' :=
  Outcome.bind_ok (ask_run hanswer) h

end Grows

/-- A consed table over one terminal is a reduced diagram if its other nodes are proper. -/
theorem Reduced.of_consed {m : Manager} (hconsed : m.nodes.Consed (· = 1))
    (hterminal : m.nodes.stored? 1 = some Node.blank)
    (hproper : ∀ index node, index ≠ 1 → m.nodes.stored? index = some node → m.Proper node) :
    m.Reduced := by
  refine ⟨hterminal, hproper, fun i j node hi hj => ?_⟩
  obtain ⟨chain, hlinked⟩ := hconsed.linked
  have hblank : ∀ index, index ≠ 1 → m.nodes.stored? index ≠ some Node.blank := fun index hne h =>
    (hproper index _ hne h).var_ne_zero rfl
  by_cases hione : i = 1 <;> by_cases hjone : j = 1
  · rw [hione, hjone]
  · rw [hione, hterminal] at hi
    exact absurd (hi ▸ hj) (hblank j hjone)
  · rw [hjone, hterminal] at hj
    exact absurd (hj ▸ hi) (hblank i hione)
  · exact hlinked.distinct i j node hione hjone hi hj

/-- The tables of a new manager. -/
theorem ofSizing_eq_ok {sizing : Sizing} {m : Manager} (h : ofSizing sizing = .ok m) :
    ∃ (t u : UniqueTable Node) (index : Nat) (computed : ComputedTable Triple Ref),
      UniqueTable.ofBits sizing.storageBits = .ok t ∧ UniqueTable.alloc t = .ok index u ∧
        ComputedTable.ofBits sizing.computedBits = .ok computed ∧
        m = ⟨u, computed, sizing, sizing.collectAbove⟩ := by
  cases hbits : UniqueTable.ofBits (α := Node) sizing.storageBits with
  | error fault => simp [ofSizing, hbits, bind, Except.bind] at h
  | ok t =>
  cases halloc : UniqueTable.alloc t with
  | error fault u =>
      simp [ofSizing, hbits, halloc, bind, Except.bind, throw, throwThe,
        MonadExceptOf.throw] at h
  | ok index u =>
  cases hcomputed : ComputedTable.ofBits (κ := Triple) (ν := Ref) sizing.computedBits with
  | error fault => simp [ofSizing, hbits, halloc, hcomputed, bind, Except.bind] at h
  | ok computed =>
  refine ⟨t, u, index, computed, rfl, halloc, rfl, ?_⟩
  simpa [ofSizing, hbits, halloc, hcomputed, bind, Except.bind, pure, Except.pure, eq_comm] using h

/-- A new manager holds the terminal alone. -/
theorem ofSizing_canonical {sizing : Sizing} {m : Manager} (h : ofSizing sizing = .ok m) :
    m.Canonical := by
  obtain ⟨t, u, index, computed, hbits, halloc, hcomputed, rfl⟩ := ofSizing_eq_ok h
  obtain ⟨hconsed, hstored⟩ := UniqueTable.alloc_ofBits hbits halloc
  refine ⟨hconsed, Reduced.of_consed hconsed (by rw [hstored, update_self]; rfl) ?_,
    fun slot key r hslot => absurd hslot (ComputedTable.slot_of_ofBits hcomputed slot key r)⟩
  intro index node hindex hnode
  rw [hstored, update_of_ne hindex] at hnode
  cases hnode

theorem onComputed_run {β : Type} (x : ComputedTable Triple Ref → β × ComputedTable Triple Ref)
    (m : Manager) :
    onComputed x m = .ok (x m.computed).1 { m with computed := (x m.computed).2 } := rfl

theorem onNodes_run {β : Type} {x : TableM Node β} {m : Manager} {b : β} {u : UniqueTable Node}
    (hrun : x m.nodes = .ok b u) : onNodes x m = .ok b { m with nodes := u } := by
  rw [onNodes]
  simp only [hrun]

/-- What is asked of a node before it is stored. -/
structure Fits (m : Manager) (node : Node) : Prop where
  var_ne_zero : node.var ≠ 0
  low_ne_high : node.low ≠ node.high
  high_positive : node.high.negated = false
  live : ∀ child ∈ [node.low, node.high], m.Live child
  lt_rank : ∀ child ∈ [node.low, node.high], node.var.toNat < m.rank child

theorem Fits.proper {m m' : Manager} {node : Node} (h : m.Fits node) (hextends : m.Extends m') :
    m'.Proper node := by
  refine ⟨h.var_ne_zero, h.low_ne_high, h.high_positive,
    fun child hchild => hextends.live (h.live child hchild), fun child hchild hterminal => ?_⟩
  obtain ⟨below, hbelow⟩ := h.live child hchild
  have hindex : child.index ≠ 1 := fun hone => by
    simp [Ref.isTerminal_iff.2 hone] at hterminal
  have hlt := h.lt_rank child hchild
  rw [rank_of_stored hindex hbelow] at hlt
  exact ⟨below, hextends _ _ hbelow, UInt32.lt_iff_toNat_lt.2 hlt⟩

theorem Proper.extends {m m' : Manager} {node : Node} (h : m.Proper node)
    (hextends : m.Extends m') : m'.Proper node := by
  refine ⟨h.var_ne_zero, h.low_ne_high, h.high_positive,
    fun child hchild => hextends.live (h.live child hchild), fun child hchild hterminal => ?_⟩
  obtain ⟨below, hbelow, hlt⟩ := h.ordered child hchild hterminal
  exact ⟨below, hextends _ _ hbelow, hlt⟩

/-- The computed results stay right while the diagram grows. -/
theorem Canonical.of_extends {m m' : Manager} (hm : m.Canonical)
    (hconsed : m'.nodes.Consed (· = 1)) (hreduced : m'.Reduced) (hextends : m.Extends m')
    (hcomputed : m'.computed.slots = m.computed.slots) : m'.Canonical := by
  refine ⟨hconsed, hreduced, fun slot key r hslot => ?_⟩
  rw [hcomputed] at hslot
  obtain ⟨hkey, hr⟩ := hm.computed slot key r hslot
  refine ⟨hkey.extends hextends, ?_⟩
  rw [hextends.choice hm.reduced hreduced hkey]
  exact hextends.denotes hm.reduced hreduced hr

theorem Extends.of_nodes_eq {m m' : Manager} (h : m'.nodes = m.nodes) : m.Extends m' :=
  fun _ _ hstored => by rwa [h]

/-- Being reduced is a matter of the nodes alone. -/
theorem Reduced.of_nodes_eq {m m' : Manager} (hm : m.Reduced) (h : m'.nodes = m.nodes) :
    m'.Reduced := by
  refine ⟨by rw [h]; exact hm.terminal, fun index node hindex hstored => ?_, by
    rw [h]; exact hm.unique⟩
  rw [h] at hstored
  exact (hm.proper index node hindex hstored).extends (Extends.of_nodes_eq h)

/-- With the same nodes only the computed results have to be looked at. -/
theorem Canonical.of_nodes_eq {m m' : Manager} (hm : m.Canonical) (h : m'.nodes = m.nodes)
    (hcomputed : ∀ (slot : Nat) (key : Triple) (r : Ref),
      m'.computed.slots[slot]? = some (some (key, r)) →
        m.Operands key ∧ m.Denotes r (m.choice key)) : m'.Canonical := by
  have hextends := Extends.of_nodes_eq h
  have hreduced := hm.reduced.of_nodes_eq h
  refine ⟨by rw [h]; exact hm.consed, hreduced, fun slot key r hslot => ?_⟩
  obtain ⟨hkey, hr⟩ := hcomputed slot key r hslot
  refine ⟨hkey.extends hextends, ?_⟩
  rw [hextends.choice hm.reduced hreduced hkey]
  exact hextends.denotes hm.reduced hreduced hr

/-- A manager with other nodes and otherwise the same. -/
private def withNodes (m : Manager) (nodes : UniqueTable Node) : Manager :=
  { m with nodes }

/-- A fitting node has one index afterwards, which is not that of the terminal. -/
theorem put_grows {m : Manager} (hm : m.Canonical) {node : Node} (hnode : m.Fits node) :
    m.Grows (onNodes (UniqueTable.put node)) fun index m' =>
      index ≠ 1 ∧ m'.nodes.stored? index = some node := by
  have hput := UniqueTable.put_outcome (v := node) hm.consed
  unfold Grows Outcome onNodes
  simp only
  cases hrun : UniqueTable.put node m.nodes with
  | error fault u =>
      obtain ⟨hconsed, hcells⟩ := hput.of_error hrun
      have hstored : u.stored? = m.nodes.stored? :=
        funext fun _ => UniqueTable.stored?_congr (by rw [hcells.cells])
      have hextends : m.Extends (m.withNodes u) := fun index other h => by
        simpa only [withNodes, hstored] using h
      have hreduced : (m.withNodes u).Reduced := by
        refine Reduced.of_consed hconsed (by simpa only [withNodes, hstored] using
          hm.reduced.terminal) fun index other hne h => ?_
        simp only [withNodes, hstored] at h
        exact (hm.reduced.proper index other hne h).extends hextends
      exact ⟨hm.of_extends hconsed hreduced hextends rfl, hextends⟩
  | ok index u =>
      obtain ⟨hconsed, hstrict, hindex, hchange⟩ := hput.of_ok hrun
      have hextends : m.Extends (m.withNodes u) := by
        intro other otherNode h
        rcases hchange with rfl | ⟨hfree, hstored⟩
        · exact h
        · have hne : other ≠ index := fun heq => by simp [heq, hfree] at h
          simpa only [withNodes, hstored, update_of_ne hne] using h
      have hreduced : (m.withNodes u).Reduced := by
        refine Reduced.of_consed hconsed (hextends _ _ hm.reduced.terminal)
          fun other otherNode hne h => ?_
        rcases hchange with rfl | ⟨hfree, hstored⟩
        · exact (hm.reduced.proper _ _ hne h).extends hextends
        · by_cases heq : other = index
          · subst heq
            have hsame : otherNode = node := Option.some.inj (h.symm.trans hindex)
            exact hsame ▸ hnode.proper hextends
          · simp only [withNodes, hstored, update_of_ne heq] at h
            exact (hm.reduced.proper _ _ hne h).extends hextends
      exact ⟨hm.of_extends hconsed hreduced hextends rfl, hextends, hstrict, hindex⟩

/-! ## Making nodes -/

section MakingNodes
variable {m : Manager} {v : UInt32} {low high : Ref}

private theorem storeNode_grows (hm : m.Canonical) (hv : v ≠ 0) (hpositive : high.negated = false)
    (hlow : m.Live low) (hhigh : m.Live high) (hltLow : v.toNat < m.rank low)
    (hltHigh : v.toNat < m.rank high) :
    m.Grows (storeNode v low high) fun r m' =>
      m'.Denotes r fun a => if a v then m.value high a else m.value low a := by
  rw [storeNode]
  by_cases hsame : low = high
  · rw [if_pos hsame]
    exact Grows.pure hm ⟨hlow, fun a => by simp [hsame]⟩
  · rw [if_neg hsame]
    have hfits : m.Fits ⟨v, low, high⟩ :=
      ⟨hv, hsame, hpositive, by simp [hlow, hhigh], by simp [hltLow, hltHigh]⟩
    refine Grows.bind (put_grows hm hfits) fun index m' hm' hextends ⟨hindex, hstored⟩ => ?_
    cases hof : Ref.ofIndex? index false with
    | none => exact Grows.throw hm'
    | some r =>
        have hr : r = ⟨index, false⟩ := by
          rw [Ref.ofIndex?] at hof
          split at hof
          · exact (Option.some.inj hof).symm
          · cases hof
        subst hr
        refine Grows.pure hm' ⟨⟨_, hstored⟩, fun a => ?_⟩
        rw [hm'.reduced.value_node hindex hstored,
          hextends.value hm.reduced hm'.reduced hlow, hextends.value hm.reduced hm'.reduced hhigh]
        simp

/-- A made node decides its variable between the two functions given, which come after it. -/
theorem mkNode_grows (hm : m.Canonical) (hlow : m.Live low) (hhigh : m.Live high)
    (hltLow : v.toNat < m.rank low) (hltHigh : v.toNat < m.rank high) :
    m.Grows (mkNode v low high) fun r m' =>
      m'.Denotes r fun a => if a v then m.value high a else m.value low a := by
  rw [mkNode]
  by_cases hv : v = 0
  · rw [if_pos hv]
    exact Grows.throw hm
  rw [if_neg hv]
  by_cases hnegated : high.negated = true
  · rw [if_pos hnegated]
    have hpositive : (-high).negated = false := by simp [hnegated]
    refine Grows.bind (storeNode_grows hm hv hpositive (live_neg.2 hlow) (live_neg.2 hhigh)
      (by simpa using hltLow) (by simpa using hltHigh)) fun r m' hm' hextends hr => ?_
    refine Grows.pure hm' ⟨live_neg.2 hr.1, fun a => ?_⟩
    apply ((hm'.reduced.denotes_neg hr).2 a).trans
    simp only [hm.reduced.value_neg hlow, hm.reduced.value_neg hhigh]
    cases a v <;> simp
  · rw [if_neg hnegated]
    exact storeNode_grows hm hv (by simpa using hnegated) hlow hhigh hltLow hltHigh

theorem mkVar_grows (hm : m.Canonical) (v : UInt32) :
    m.Grows (mkVar v) fun r m' => m'.Denotes r fun a => a v := by
  have hlt : ∀ r : Ref, r.index = 1 → v.toNat < m.rank r := fun r hr => by
    rw [rank_of_index_one hr]
    exact v.toNat_lt_size
  apply (mkNode_grows hm hm.reduced.live_zero hm.reduced.live_one (hlt _ rfl)
    (hlt _ rfl)).denotes_congr
  intro a
  simp

/-- Whether an assignment satisfies all of the literals. -/
def satisfies (literals : List Literal) (a : UInt32 → Bool) : Bool :=
  literals.all fun literal => a literal.var == literal.positive

/-- A literal in front of a function over later variables. -/
private theorem conjoinLiteral_grows (hm : m.Canonical) {rest : Ref} (hrest : m.Live rest)
    {literal : Literal} (hlt : literal.var.toNat < m.rank rest) :
    m.Grows (conjoinLiteral literal rest) fun r m' =>
      m'.Denotes r fun a => (a literal.var == literal.positive) && m.value rest a := by
  have hzero : literal.var.toNat < m.rank Ref.zero := by
    rw [rank_of_index_one rfl]
    exact literal.var.toNat_lt_size
  rw [conjoinLiteral]
  cases hpositive : literal.positive with
  | true =>
      apply (mkNode_grows hm hm.reduced.live_zero hrest hzero hlt).denotes_congr
      intro a
      cases a literal.var <;> simp
  | false =>
      apply (mkNode_grows hm hrest hm.reduced.live_zero hlt hzero).denotes_congr
      intro a
      cases a literal.var <;> simp

/-- Literals in increasing order are conjoined from the last one up, each in front of a function
over the variables behind it. -/
private theorem conjoinLiterals_grows (hm : m.Canonical) {literals : List Literal}
    (hsorted : literals.Pairwise fun l l' => l.var < l'.var) :
    m.Grows (literals.foldrM conjoinLiteral Ref.one) fun r m' =>
      m'.Denotes r (satisfies literals) := by
  induction literals with
  | nil => exact Grows.pure hm ⟨hm.reduced.live_one, fun a => by simp [satisfies]⟩
  | cons literal rest ih =>
      obtain ⟨hfirst, hrest⟩ := List.pairwise_cons.1 hsorted
      rw [List.foldrM_cons]
      apply Grows.bind (ih hrest)
      intro r m' hm' _ hr
      have hlt : literal.var.toNat < m'.rank r := by
        apply hm'.reduced.lt_rank hr.1
        intro a b hagree
        rw [hr.2, hr.2]
        rw [satisfies, satisfies, Bool.eq_iff_iff, List.all_eq_true, List.all_eq_true]
        apply forall₂_congr
        intro l hl
        rw [hagree l.var (UInt32.lt_iff_toNat_lt.1 (hfirst l hl))]
      apply (conjoinLiteral_grows hm' hr.1 hlt).denotes_congr
      intro a
      simp only [hr.2, satisfies, List.all_cons]

/-- Literals in the order in which a cube takes them. -/
theorem sorted_le (literals : List Literal) :
    (literals.mergeSort fun l l' => l.var ≤ l'.var).Pairwise fun l l' => l.var ≤ l'.var := by
  have htrans : ∀ a b c : Literal, decide (a.var ≤ b.var) = true →
      decide (b.var ≤ c.var) = true → decide (a.var ≤ c.var) = true := fun a b c hab hbc =>
    decide_eq_true (UInt32.le_trans (of_decide_eq_true hab) (of_decide_eq_true hbc))
  have htotal : ∀ a b : Literal, (decide (a.var ≤ b.var) || decide (b.var ≤ a.var)) = true :=
    fun a b => by simpa using UInt32.le_total a.var b.var
  exact (List.pairwise_mergeSort htrans htotal literals).imp of_decide_eq_true

/-- The order is strict exactly if no variable is repeated. -/
theorem sorted_lt_iff {literals : List Literal} :
    ((literals.mergeSort fun l l' => l.var ≤ l'.var).Pairwise fun l l' => l.var < l'.var) ↔
      (literals.map (·.var)).Nodup := by
  have hperm := (literals.mergeSort_perm fun l l' => l.var ≤ l'.var).map (·.var)
  rw [← hperm.nodup_iff, List.Nodup, List.pairwise_map]
  constructor
  · exact fun h => h.imp fun hlt => UInt32.ne_of_lt hlt
  · exact fun h => ((sorted_le literals).and h).imp fun h => UInt32.lt_of_le_of_ne h.1 h.2

/-- Absolute values are ordered as the variables are. -/
private theorem abs_le_iff {a b : Int32} (ha : a ≠ Int32.minValue) (hb : b ≠ Int32.minValue) :
    a.abs ≤ b.abs ↔ a.abs.toUInt32 ≤ b.abs.toUInt32 := by
  have hmsb : ∀ n : Int32, n ≠ Int32.minValue → n.abs.toBitVec.msb = false := fun n hn => by
    have hne : n.toBitVec ≠ BitVec.intMin 32 := fun h => hn (Int32.toBitVec_inj.1 h)
    simp [BitVec.msb_abs, hne]
  rw [Int32.le_iff_toBitVec_sle, UInt32.le_iff_toBitVec_le,
    BitVec.sle_eq_ule_of_msb_eq ((hmsb a ha).trans (hmsb b hb).symm), BitVec.ule_iff_le]
  rfl

/-- A cube is made in the order of the variables. -/
theorem mkCube_of_not_overflows {literals : List Literal} (h : ¬ Overflows literals) :
    mkCube literals =
      (literals.mergeSort fun l l' => l.var ≤ l'.var).foldrM conjoinLiteral Ref.one := by
  rw [mkCube, if_neg h]
  by_cases htwo : 2 ≤ literals.length
  · have hne : ∀ l ∈ literals, l.number ≠ Int32.minValue := fun l hl hmin => h ⟨htwo, hmin ▸ hl⟩
    have hsorted := @List.map_mergeSort Literal Literal (fun l l' => l.number.abs ≤ l'.number.abs)
      (fun l l' => l.var ≤ l'.var) id literals fun l hl l' hl' =>
        decide_eq_decide.2 (abs_le_iff (hne l hl) (hne l' hl'))
    rw [List.map_id, List.map_id] at hsorted
    rw [hsorted]
  · match literals with
    | [] => simp
    | [_] => simp
    | _ :: _ :: _ => exact absurd (by simp) htwo

/-- A cube of literals over distinct variables holds where all of them do. -/
theorem mkCube_grows (hm : m.Canonical) {literals : List Literal}
    (hdistinct : (literals.map (·.var)).Nodup) :
    m.Grows (mkCube literals) fun r m' => m'.Denotes r (satisfies literals) := by
  by_cases hoverflows : Overflows literals
  · rw [mkCube, if_pos hoverflows]
    exact Grows.throw hm
  · rw [mkCube_of_not_overflows hoverflows]
    apply (conjoinLiterals_grows hm (sorted_lt_iff.2 hdistinct)).denotes_congr
    intro a
    exact (literals.mergeSort_perm _).all_eq

end MakingNodes

end Manager

end SymbolicOmega
