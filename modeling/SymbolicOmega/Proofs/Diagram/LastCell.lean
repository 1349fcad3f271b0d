import SymbolicOmega.Proofs.Diagram.LastWrites
import SymbolicOmega.Proofs.Diagram.Recall
import SymbolicOmega.Proofs.Diagram.Refusals
import SymbolicOmega.Proofs.Diagram.Runs

/-!
# References to cells

A table of `2^bits` cells hands out the indices below `2^bits`, and references name the indices
below `2^31 - 1`; the index `2^31 - 1` itself marks a node that was never filled in.  So up to 30
bits every cell has a reference, and a node that is made gets the reference of its cell or finds
the storage full.  The largest table has one cell more than there are references.  When all others
are taken the next new node goes there, and then making it fails though the storage was not full.
This is the one case in which capacity and references do not agree.
-/

namespace SymbolicOmega

open Function

namespace UniqueTable

variable {α : Type} [DecidableEq α] [Hashable α] [Inhabited α] {t : UniqueTable α}
variable {loose : Nat → Prop}

/-- What putting a value does to a table that refused none so far.  A value on a chain is found
there; another one gets the lowest free cell or finds the table full. -/
theorem Sound.put_cases (h : t.Sound loose false) (v : α) :
    Outcome (put v) t
      (fun index u => u.Sound loose false ∧ u.capacity = t.capacity ∧
        (¬ loose index ∧ t.stored? index = some v ∧ u = t ∨
          t.NeedsCell loose (.put v) ∧ t.LowestFree index ∧ index < t.capacity ∧
            u.stored? = update t.stored? index (some v)))
      (fun fault u => t.NeedsCell loose (.put v) ∧ t.Full ∧ fault = .storageFull ∧
        u.stored? = t.stored?) := by
  have hrequest : Outcome (put v) t _ _ := h.request (.put v)
  have hput := (put_outcome (v := v) h.consed).and (put_lowestFree h.consed h.packed v)
  apply (hrequest.and (hput.and (put_capacity v t rfl))).mono
  · rintro index u ⟨⟨hsound, -⟩, ⟨hput, hwhere⟩, hcapacity⟩
    have hlt : index < t.capacity :=
      calc
        index < u.cells.size := lt_size_of_stored hput.stored
        _ ≤ u.capacity := hsound.consed.layout.size_le
        _ = t.capacity := hcapacity
    refine ⟨hsound, hcapacity, ?_⟩
    rcases hwhere with hfound | ⟨hnew, hlowest, -⟩
    · exact Or.inl hfound
    · rcases hput.change with rfl | ⟨-, hstored⟩
      · exact absurd hput.stored (hnew index hput.strict)
      · exact Or.inr ⟨hnew, hlowest, hlt, hstored⟩
  · rintro fault u ⟨⟨-, hrefusal⟩, ⟨⟨-, hcells⟩, -, hfull, -⟩, -⟩
    exact ⟨hrefusal.needsCell, hfull, hrefusal.cause,
      funext fun index => stored?_congr (by rw [hcells.cells])⟩

section Put
variable {v : α} (h : t.Sound loose false) (hlacks : ∀ index, t.stored? index ≠ some v)
include h hlacks

/-- A value that no cell holds gets the lowest free one. -/
theorem Sound.put_new (hroom : ¬ t.Full) :
    ∃ index u, put v t = .ok index u ∧ t.LowestFree index ∧ index < t.capacity ∧
      u.stored? = update t.stored? index (some v) := by
  have hput := h.put_cases v
  cases hrun : put v t with
  | error fault u => exact absurd (hput.of_error hrun).2.1 hroom
  | ok index u =>
      obtain ⟨-, -, ⟨-, hfound, -⟩ | ⟨-, hlowest, hlt, hstored⟩⟩ := hput.of_ok hrun
      · exact absurd hfound (hlacks index)
      · exact ⟨index, u, rfl, hlowest, hlt, hstored⟩

theorem Sound.put_full (hfull : t.Full) : ∃ u, put v t = .error .storageFull u := by
  have hput := h.put_cases v
  cases hrun : put v t with
  | error fault u => exact ⟨u, (hput.of_error hrun).2.2.1 ▸ rfl⟩
  | ok index u =>
      obtain ⟨-, -, ⟨-, hfound, -⟩ | ⟨-, hlowest, hlt, -⟩⟩ := hput.of_ok hrun
      · exact absurd hfound (hlacks index)
      · exact absurd hfull (hlowest.not_full hlt)

end Put

omit [DecidableEq α] in
/-- A new table of more than one cell has one for the first request. -/
theorem exists_alloc_ofBits {bits : Nat} (hnew : ofBits bits = .ok t) (hpos : 0 < bits) :
    ∃ index u, alloc t = .ok index u := by
  have hfresh := ofBits_sound hnew
  have halloc := alloc_refusal hfresh.consed.layout hfresh.packed hfresh.marked
  cases hrun : alloc t with
  | ok index u => exact ⟨index, u, rfl⟩
  | error fault u =>
      have hcapacity : 1 < t.capacity := by
        rw [(ofBits_capacity hnew).2]
        exact Nat.one_lt_two_pow hpos.ne'
      obtain ⟨w, hw⟩ := (halloc.of_error hrun).1 1 one_ne_zero hcapacity
      simp [(ofBits_fresh hnew).2.1] at hw

end UniqueTable

/-- The node that stands for this one in the table: its high child is not negated. -/
def Node.regular (node : Node) : Node :=
  ⟨node.var, node.low.negateIf node.high.negated, node.high.negateIf node.high.negated⟩

namespace Manager

variable {m m' : Manager} {v : UInt32} {low high : Ref} {bits : Nat} {sizing : Sizing}

/-! ## Managers that never failed -/

/-- The managers that operations lead to from a new one, on any operands, when all of them were
answered. -/
inductive Answered (sizing : Sizing) : Manager → Prop where
  | new {m : Manager} (hnew : ofSizing sizing = .ok m) : Answered sizing m
  | call {m m' : Manager} (call : Call) (hm : Answered sizing m)
      (hrun : call.perform m = .ok () m') : Answered sizing m'

/-- A run without failures is one of answers. -/
theorem Run.all_answered {faults : List Fault} (h : Run sizing faults m) (hnone : faults = []) :
    Answered sizing m := by
  induction h with
  | new hnew => exact .new hnew
  | answered call _ _ hrun ih => exact (ih hnone).call call hrun
  | failed => cases hnone

/-- A table of nodes that refused nothing.  Its first cell holds the terminal, and references name
all cells that hold a node. -/
structure Addressable (bits : Nat) (t : UniqueTable Node) : Prop where
  sound : t.Sound (· = 1) false
  capacity : t.capacity = 2 ^ bits
  terminal : t.stored? 1 = some Node.blank
  named : ∀ index node, t.stored? index = some node → index < Ref.indexLimit

section Addressable
variable {t u : UniqueTable Node} {node : Node} {index : Nat}

theorem Addressable.lt_two_pow (h : Addressable bits t) (hstored : t.stored? index = some node) :
    index < 2 ^ bits :=
  calc
    index < t.cells.size := UniqueTable.lt_size_of_stored hstored
    _ ≤ t.capacity := h.sound.consed.layout.size_le
    _ = 2 ^ bits := h.capacity

/-- A node that is stored in a free cell leaves all others where they are. -/
theorem Addressable.of_stored (h : Addressable bits t) (hsound : u.Sound (· = 1) false)
    (hcapacity : u.capacity = t.capacity) (hfree : t.stored? index = none)
    (hlimit : index < Ref.indexLimit) (hstored : u.stored? = update t.stored? index (some node)) :
    Addressable bits u := by
  have hone : 1 ≠ index := by
    rintro rfl
    simp [h.terminal] at hfree
  refine ⟨hsound, hcapacity.trans h.capacity, ?_, fun other node' hother => ?_⟩
  · rw [hstored, update_of_ne hone, h.terminal]
  · rw [hstored] at hother
    by_cases heq : other = index
    · exact heq ▸ hlimit
    · rw [update_of_ne heq] at hother
      exact h.named other node' hother

/-- A sweep only takes nodes away, and never the terminal. -/
theorem Addressable.retain (h : Addressable bits t) (keep : Nat → Bool) :
    ∃ sweep u, UniqueTable.retain keep t = .ok sweep u ∧ Addressable bits u := by
  obtain ⟨sweep, u, hrun, hsound, -⟩ := h.sound.retain keep
  obtain ⟨sweep', u', hrun', -, hloses⟩ := UniqueTable.retain_run h.sound.consed keep
  rw [hrun] at hrun'
  cases hrun'
  refine ⟨sweep, u, hrun, hsound, ?_, ?_, fun index node hstored => ?_⟩
  · exact (UniqueTable.retain_capacity keep t h.capacity).of_ok hrun
  · exact (hloses 1 _).2 ⟨h.terminal, fun hgone => hgone.1 rfl⟩
  · exact h.named index node ((hloses index node).1 hstored).1

end Addressable

/-- While making a node is answered, references name all cells in use. -/
theorem mkNode_addressable (v : UInt32) (low high : Ref) :
    Carries (fun m => Addressable bits m.nodes) (fun _ _ => True) (mkNode v low high) := by
  intro m h
  by_cases hv : v = 0
  · rw [mkNode, if_pos hv]
    exact Outcome.throw trivial
  by_cases hsame : low = high
  · exact Outcome.of_run (mkNode_of_same hv hsame m) h
  have hput := h.sound.put_cases (Node.mk v low high).regular
  apply Outcome.intro _ fun _ _ _ => trivial
  intro r m' hrun
  cases hcell : UniqueTable.put (Node.mk v low high).regular m.nodes with
  | error fault u =>
      rw [mkNode_of_refused hv hsame hcell] at hrun
      cases hrun
  | ok index u =>
      rw [mkNode_of_put hv hsame hcell] at hrun
      by_cases hlimit : index < Ref.indexLimit
      · rw [if_pos hlimit] at hrun
        cases hrun
        obtain ⟨hsound, hcapacity, ⟨-, -, rfl⟩ | ⟨-, hlowest, -, hstored⟩⟩ := hput.of_ok hcell
        · exact h
        · exact h.of_stored hsound hcapacity hlowest.free hlimit hstored
      · rw [if_neg hlimit] at hrun
        cases hrun

theorem computes_addressable (bits : Nat) :
    Computes (fun m => Addressable bits m.nodes) fun _ _ => True where
  causes _ _ _ _ := trivial
  mkNode := mkNode_addressable
  computed _ _ hm := hm

theorem collect_addressable (roots : List Ref) :
    Upholds (fun m => Addressable bits m.nodes) (collect roots) := by
  apply collect_upholds
  intro keep t h
  obtain ⟨sweep, u, hrun, hend⟩ := h.retain keep
  exact Outcome.of_run hrun hend

theorem ofSizing_bits (hnew : ofSizing sizing = .ok m) : sizing.storageBits ≤ 31 := by
  obtain ⟨t, u, index, computed, hbits, -, -, -⟩ := ofSizing_eq_ok hnew
  exact (UniqueTable.ofBits_capacity hbits).1

/-- A new manager stores the terminal alone. -/
theorem ofSizing_stored (hnew : ofSizing sizing = .ok m) :
    m.nodes.stored? = update (fun _ => none) 1 (some Node.blank) := by
  obtain ⟨t, u, index, computed, hbits, halloc, -, rfl⟩ := ofSizing_eq_ok hnew
  exact (UniqueTable.alloc_ofBits hbits halloc).2

theorem ofSizing_addressable (hnew : ofSizing sizing = .ok m) :
    Addressable sizing.storageBits m.nodes := by
  have hstored := ofSizing_stored hnew
  obtain ⟨t, u, index, computed, hbits, halloc, -, rfl⟩ := ofSizing_eq_ok hnew
  have hfresh := UniqueTable.ofBits_sound hbits
  have hlayout := hfresh.consed.layout
  have hmarked :=
    ((UniqueTable.alloc_refusal hlayout hfresh.packed hfresh.marked).of_ok halloc).2
  refine ⟨⟨(UniqueTable.alloc_ofBits hbits halloc).1, ?_, ?_, hmarked⟩, ?_, ?_, ?_⟩
  · exact (UniqueTable.alloc_tallied t hfresh.tallied).of_ok halloc
  · exact (UniqueTable.alloc_packed hlayout hfresh.packed).of_ok halloc
  · exact (UniqueTable.alloc_capacity t (UniqueTable.ofBits_capacity hbits).2).of_ok halloc
  · rw [hstored, update_self]
  · intro other node hother
    rw [hstored] at hother
    by_cases hone : other = 1
    · rw [hone]
      decide
    · rw [update_of_ne hone] at hother
      cases hother

/-- Managers are made with up to 31 bits for either table and a cell for the terminal. -/
theorem exists_ofSizing_iff : (∃ m, ofSizing sizing = .ok m) ↔
    0 < sizing.storageBits ∧ sizing.storageBits ≤ 31 ∧ sizing.computedBits ≤ 31 := by
  constructor
  · rintro ⟨m, hnew⟩
    have hnodes := ofSizing_addressable hnew
    have hlt : 1 < 2 ^ sizing.storageBits := hnodes.lt_two_pow hnodes.terminal
    obtain ⟨t, u, index, computed, -, -, hcomputed, -⟩ := ofSizing_eq_ok hnew
    exact ⟨(Nat.one_lt_two_pow_iff.1 hlt).bot_lt, ofSizing_bits hnew,
      (ComputedTable.ofBits_eq_ok hcomputed).1⟩
  · rintro ⟨hpos, hbits, hcomputed⟩
    obtain ⟨t, ht⟩ : ∃ t, UniqueTable.ofBits (α := Node) sizing.storageBits = .ok t :=
      ⟨_, if_pos hbits⟩
    obtain ⟨index, u, hrun⟩ := UniqueTable.exists_alloc_ofBits ht hpos
    refine ⟨⟨u, ⟨Array.replicate (1 <<< sizing.computedBits) none, 0, 0⟩, sizing,
      sizing.collectAbove⟩, ?_⟩
    simp [ofSizing, ht, hrun, ComputedTable.ofBits, hcomputed, bind, Except.bind, pure,
      Except.pure]

/-- Whatever the operations were, as long as all were answered the table is intact. -/
theorem Answered.addressable (h : Answered sizing m) : Addressable sizing.storageBits m.nodes := by
  induction h with
  | new hnew => exact ofSizing_addressable hnew
  | call call _ hrun ih =>
      refine ((computes_addressable _).perform ih fun roots _ => ?_).of_ok hrun
      exact (collect_addressable roots _ ih).mono (fun _ _ hend => hend) fun _ _ _ => trivial

/-- No cell holds the node. -/
def Lacks (m : Manager) (node : Node) : Prop :=
  ∀ index, m.nodes.stored? index ≠ some node

/-- The reference has the index of the cell that holds the node, and it is neither of the two that
stand for a node that was never filled in. -/
structure Names (m : Manager) (r : Ref) (node : Node) : Prop where
  stored : m.nodes.stored? r.index = some node
  ne_invalid : r ≠ Ref.invalid
  ne_neg_invalid : r ≠ -Ref.invalid

/-- Making a node that decides `v` answers a reference that names the cell of the node.  This is
the one that holds the node already, or else the lowest free one; when there is none, the storage
is full. -/
structure Delivers (m : Manager) (v : UInt32) (low high : Ref) : Prop where
  finds : ∀ index, m.nodes.stored? index = some (Node.mk v low high).regular →
    mkNode v low high m = .ok ⟨index, high.negated⟩ m ∧
      m.Names ⟨index, high.negated⟩ (Node.mk v low high).regular
  stores : m.Lacks (Node.mk v low high).regular → ¬ m.nodes.Full →
    ∃ index m', mkNode v low high m = .ok ⟨index, high.negated⟩ m' ∧
      m'.Names ⟨index, high.negated⟩ (Node.mk v low high).regular ∧
      m.nodes.LowestFree index ∧
      m'.nodes.stored? = update m.nodes.stored? index (some (Node.mk v low high).regular)
  refuses : m.Lacks (Node.mk v low high).regular → m.nodes.Full →
    ∃ fault m', mkNode v low high m = .error fault m' ∧ fault.message = "Storage is full"

/-- A node that no cell holds is to be made, and the one cell left is that without a reference. -/
structure LastCellNeeded (m : Manager) (node : Node) : Prop where
  lacks : m.Lacks node
  lowest : m.nodes.LowestFree Ref.indexLimit

theorem Addressable.index_ne_one (h : Addressable bits m.nodes) {index : Nat} {node : Node}
    (hvar : node.var ≠ 0) (hstored : m.nodes.stored? index = some node) : index ≠ 1 := by
  rintro rfl
  rw [h.terminal] at hstored
  cases hstored
  exact hvar rfl

theorem Names.of_lt {index : Nat} {negated : Bool} {node : Node}
    (hstored : m.nodes.stored? index = some node) (hlt : index < Ref.indexLimit) :
    m.Names ⟨index, negated⟩ node := by
  have hindex : index ≠ Ref.invalid.index := Nat.ne_of_lt hlt
  exact ⟨hstored, fun heq => hindex (congrArg Ref.index heq),
    fun heq => hindex (congrArg Ref.index heq)⟩

section Delivering
variable (h : Addressable bits m.nodes) (hv : v ≠ 0) (hne : low ≠ high)
include h

/-- Only the largest table has the cell without a reference. -/
theorem Addressable.bits_of_lowestFree (hbits : bits ≤ 31)
    (hlowest : m.nodes.LowestFree Ref.indexLimit) : bits = 31 := by
  -- the cell before it is taken, so there are more than `2 ^ 30` cells
  obtain ⟨w, hw⟩ := hlowest.below (Ref.indexLimit - 1) (by decide) (by decide)
  have hlt := h.lt_two_pow hw
  by_contra hother
  have hle : 2 ^ bits ≤ 2 ^ 30 := Nat.pow_le_pow_right (by decide) (by omega)
  rw [Ref.indexLimit] at hlt
  omega

/-- All other cells have one. -/
theorem Addressable.lt_indexLimit (hbits : bits ≤ 31) {index : Nat}
    (hlt : index < m.nodes.capacity) (hother : index ≠ Ref.indexLimit) :
    index < Ref.indexLimit := by
  have hcapacity : m.nodes.capacity ≤ 2 ^ 31 :=
    h.capacity.trans_le (Nat.pow_le_pow_right (by decide) hbits)
  rw [Ref.indexLimit] at hother ⊢
  omega

include hv hne

/-- The last cell of the largest table is handed out like any other, but then no reference can
name it. -/
theorem Addressable.mkNode_lastCell (hbits : bits ≤ 31)
    (hlast : m.LastCellNeeded (Node.mk v low high).regular) :
    ¬ m.nodes.Full ∧ ∃ m', mkNode v low high m = .error .nodeIndexTooLarge m' ∧
      m'.nodes.stored? = update m.nodes.stored? Ref.indexLimit
        (some (Node.mk v low high).regular) := by
  have hcapacity : Ref.indexLimit < m.nodes.capacity := by
    rw [h.capacity, h.bits_of_lowestFree hbits hlast.lowest]
    decide
  have hroom := hlast.lowest.not_full hcapacity
  obtain ⟨index, u, hrun, hlowest, -, hstored⟩ := h.sound.put_new hlast.lacks hroom
  obtain rfl := hlowest.unique hlast.lowest
  refine ⟨hroom, { m with nodes := u }, ?_, hstored⟩
  rw [mkNode_of_put hv hne hrun, if_neg (Nat.lt_irrefl _)]

/-- In every other case the node is found, made, or the storage is full. -/
theorem Addressable.delivers (hbits : bits ≤ 31)
    (hlast : ¬ m.LastCellNeeded (Node.mk v low high).regular) : m.Delivers v low high := by
  refine ⟨fun index hstored => ?_, fun hlacks hroom => ?_, fun hlacks hfull => ?_⟩
  · have hone := h.index_ne_one hv hstored
    have hlimit := h.named index _ hstored
    refine ⟨?_, Names.of_lt hstored hlimit⟩
    rw [mkNode_of_put hv hne (UniqueTable.put_of_stored h.sound.consed hone hstored),
      if_pos hlimit]
  · obtain ⟨index, u, hrun, hlowest, hlt, hstored⟩ := h.sound.put_new hlacks hroom
    have hlimit : index < Ref.indexLimit :=
      h.lt_indexLimit hbits hlt fun heq => hlast ⟨hlacks, heq ▸ hlowest⟩
    refine ⟨index, { m with nodes := u }, ?_, Names.of_lt ?_ hlimit, hlowest, hstored⟩
    · rw [mkNode_of_put hv hne hrun, if_pos hlimit]
    · rw [hstored, update_self]
  · obtain ⟨u, hrun⟩ := h.sound.put_full hlacks hfull
    exact ⟨.storageFull, { m with nodes := u }, mkNode_of_refused hv hne hrun, rfl⟩

theorem Addressable.delivers_iff (hbits : bits ≤ 31) :
    m.Delivers v low high ↔ ¬ m.LastCellNeeded (Node.mk v low high).regular := by
  refine ⟨fun hdelivers hlast => ?_, h.delivers hv hne hbits⟩
  obtain ⟨hroom, m', hrun, -⟩ := h.mkNode_lastCell hv hne hbits hlast
  obtain ⟨index, m'', hrun', -⟩ := hdelivers.stores hlast.lacks hroom
  rw [hrun] at hrun'
  cases hrun'

end Delivering

/-! ## The largest table -/

/-- The first cells hold the terminal and the variables up to `k`. -/
structure Filled (k : Nat) (m : Manager) : Prop where
  lowest : m.nodes.LowestFree (k + 2)
  bounded : ∀ index node, m.nodes.stored? index = some node → index < k + 2 ∧ node.var.toNat ≤ k

theorem Filled.lacks {k : Nat} (h : Filled k m) {node : Node} (hvar : k < node.var.toNat) :
    m.Lacks node := by
  intro index hstored
  have hle := (h.bounded index node hstored).2
  omega

theorem ofSizing_filled (hnew : ofSizing sizing = .ok m) : Filled 0 m := by
  have hstored := ofSizing_stored hnew
  refine ⟨⟨by decide, ?_, fun other hpos hlt => ?_⟩, fun index node hindex => ?_⟩
  · rw [hstored, update_of_ne (by decide)]
  · obtain rfl : other = 1 := by omega
    exact ⟨Node.blank, by rw [hstored, update_self]⟩
  · rw [hstored] at hindex
    by_cases hone : index = 1
    · subst hone
      rw [update_self] at hindex
      cases hindex
      exact ⟨by decide, by decide⟩
    · rw [update_of_ne hone] at hindex
      cases hindex

/-- One more variable takes one more cell. -/
theorem Filled.next {k : Nat} (h : Filled k m) {node : Node} (hvar : node.var.toNat = k + 1)
    (hstored : m'.nodes.stored? = update m.nodes.stored? (k + 2) (some node)) :
    Filled (k + 1) m' := by
  refine ⟨⟨by omega, ?_, fun other hpos hlt => ?_⟩, fun index node' hindex => ?_⟩
  · rw [hstored, update_of_ne (by omega), Option.eq_none_iff_forall_ne_some]
    intro node' hindex
    have hlt := (h.bounded _ node' hindex).1
    omega
  · by_cases heq : other = k + 2
    · exact ⟨node, by rw [hstored, heq, update_self]⟩
    · rw [hstored, update_of_ne heq]
      exact h.lowest.below other hpos (by omega)
  · rw [hstored] at hindex
    by_cases heq : index = k + 2
    · rw [heq, update_self] at hindex
      cases hindex
      omega
    · rw [update_of_ne heq] at hindex
      have hold := h.bounded index node' hindex
      omega

/-- While cells are left below the one without a reference, the next variable takes the next
cell. -/
theorem Answered.exists_next {k : Nat} (h : Answered sizing m) (hbits : sizing.storageBits ≤ 31)
    (hfilled : Filled k m) (hlimit : k + 2 < Ref.indexLimit)
    (hroom : k + 2 < 2 ^ sizing.storageBits) : ∃ m', Answered sizing m' ∧ Filled (k + 1) m' := by
  have hvar : (UInt32.ofNat (k + 1)).toNat = k + 1 := by
    apply UInt32.toNat_ofNat_of_lt'
    calc
      k + 1 < Ref.indexLimit := by omega
      _ < UInt32.size := by decide
  have hne : UInt32.ofNat (k + 1) ≠ 0 := by
    intro hzero
    rw [hzero] at hvar
    exact absurd hvar (Nat.succ_ne_zero k).symm
  have hlast : ¬ m.LastCellNeeded (Node.mk (.ofNat (k + 1)) Ref.zero Ref.one).regular := by
    intro hlast
    have heq := hlast.lowest.unique hfilled.lowest
    omega
  have hopen := hfilled.lowest.not_full (hroom.trans_eq h.addressable.capacity.symm)
  have hdelivers := h.addressable.delivers hne (by decide) hbits hlast
  have hlacks : m.Lacks (Node.mk (.ofNat (k + 1)) Ref.zero Ref.one).regular := by
    apply hfilled.lacks
    have hsame : (Node.mk (.ofNat (k + 1)) Ref.zero Ref.one).regular.var.toNat = k + 1 := hvar
    omega
  obtain ⟨index, m', hrun, -, hlowest, hstored⟩ := hdelivers.stores hlacks hopen
  obtain rfl := hlowest.unique hfilled.lowest
  have hperform : Call.perform (.var (.ofNat (k + 1))) m = .ok () m' := run_map hrun
  exact ⟨m', h.call _ hperform, hfilled.next hvar hstored⟩

/-- Variables that are made one after the other fill the table from its first cell on. -/
theorem exists_filled (hnew : ofSizing sizing = .ok m) (k : Nat) (hlimit : k + 2 ≤ Ref.indexLimit)
    (hroom : k + 2 ≤ 2 ^ sizing.storageBits) : ∃ m, Answered sizing m ∧ Filled k m := by
  induction k with
  | zero => exact ⟨m, .new hnew, ofSizing_filled hnew⟩
  | succ k ih =>
      obtain ⟨m', hm', hfilled⟩ := ih (by omega) (by omega)
      exact hm'.exists_next (ofSizing_bits hnew) hfilled (by omega) (by omega)

/-- In a largest table the operations lead to where all cells are taken but the one that no
reference can name. -/
theorem exists_lastCellNeeded (hnew : ofSizing sizing = .ok m) (hbits : sizing.storageBits = 31) :
    ∃ m, Answered sizing m ∧ m.LastCellNeeded (Node.mk 2147483646 Ref.zero Ref.one).regular := by
  have hroom : Ref.indexLimit ≤ 2 ^ sizing.storageBits := by
    rw [hbits]
    decide
  -- the terminal and as many variables take all cells below the last one
  obtain ⟨m', hm', hfilled⟩ := exists_filled hnew 2147483645 (Nat.le_refl _) hroom
  exact ⟨m', hm', hfilled.lacks (by decide), hfilled.lowest⟩

/-- As long as no operation failed, making a node answers the reference of its cell or finds the
storage full, whatever its children are, with one exception: the node is new and the only cell
left is the last one of the largest table.  Then it is stored there, and the call fails because
no reference can name it.  The operations lead there from every new manager with the largest
table, and from no other. -/
theorem answered_delivers {m₀ : Manager} (hnew : ofSizing sizing = .ok m₀) :
    (∀ m, Answered sizing m → m.nodes.capacity = 2 ^ sizing.storageBits ∧
      ∀ v low high, v ≠ 0 → low ≠ high →
        (m.Delivers v low high ↔ ¬ m.LastCellNeeded (Node.mk v low high).regular) ∧
        (m.LastCellNeeded (Node.mk v low high).regular → ¬ m.nodes.Full ∧
          ∃ fault m', mkNode v low high m = .error fault m' ∧
            fault.message = "Node index out of range" ∧
            m'.nodes.stored? = update m.nodes.stored? Ref.indexLimit
              (some (Node.mk v low high).regular))) ∧
    ((∀ m, Answered sizing m → ∀ v low high, v ≠ 0 → low ≠ high → m.Delivers v low high) ↔
      sizing.storageBits ≤ 30) := by
  have hbits := ofSizing_bits hnew
  refine ⟨fun m hm => ?_, ?_⟩
  · have hnodes := hm.addressable
    refine ⟨hnodes.capacity, fun v low high hv hne => ?_⟩
    refine ⟨hnodes.delivers_iff hv hne hbits, fun hlast => ?_⟩
    obtain ⟨hroom, m', hrun, hstored⟩ := hnodes.mkNode_lastCell hv hne hbits hlast
    exact ⟨hroom, .nodeIndexTooLarge, m', hrun, rfl, hstored⟩
  constructor
  · intro hdelivers
    by_contra hmore
    obtain ⟨m, hm, hlast⟩ := exists_lastCellNeeded hnew (by omega)
    have hmade := hdelivers m hm 2147483646 Ref.zero Ref.one (by decide) (by decide)
    exact (hm.addressable.delivers_iff (by decide) (by decide) hbits).1 hmade hlast
  · intro hless m hm v low high hv hne
    apply hm.addressable.delivers hv hne hbits
    intro hlast
    have hmost := hm.addressable.bits_of_lowestFree hbits hlast.lowest
    omega

/-- In a table of eight cells the node of every variable is made. -/
theorem pair_delivers : Answered ⟨3, 2, 5⟩ pair ∧ pair.nodes.capacity = 8 ∧
    ∀ v low high, v ≠ 0 → low ≠ high → pair.Delivers v low high := by
  have hpair := pair_run.1.all_answered rfl
  obtain ⟨m₀, hnew⟩ : ∃ m₀, ofSizing ⟨3, 2, 5⟩ = .ok m₀ := exists_ofSizing_iff.2 (by decide)
  have htheorem := answered_delivers hnew
  exact ⟨hpair, (htheorem.1 pair hpair).1, htheorem.2.2 (by decide) pair hpair⟩

/-- In the largest table the node of a variable is not made, though the storage is not full. -/
theorem largestTable_lastCell :
    ∃ m m', Answered (Sizing.ofStorageBits 31) m ∧ ¬ m.nodes.Full ∧
      m.Lacks ⟨2147483646, Ref.zero, Ref.one⟩ ∧
      mkNode 2147483646 Ref.zero Ref.one m = .error .nodeIndexTooLarge m' ∧
      m'.nodes.stored? Ref.indexLimit = some ⟨2147483646, Ref.zero, Ref.one⟩ := by
  obtain ⟨m₀, hnew⟩ : ∃ m₀, ofSizing (Sizing.ofStorageBits 31) = .ok m₀ :=
    exists_ofSizing_iff.2 (by decide)
  obtain ⟨m, hm, hlast⟩ := exists_lastCellNeeded hnew rfl
  obtain ⟨hroom, m', hrun, hstored⟩ :=
    hm.addressable.mkNode_lastCell (by decide) (by decide) (by decide) hlast
  exact ⟨m, m', hm, hroom, hlast.lacks, hrun, by rw [hstored, update_self]; rfl⟩

end Manager

end SymbolicOmega
