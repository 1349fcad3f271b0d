import SymbolicOmega.Diagram.Collection
import SymbolicOmega.Proofs.Diagram.Growth
import SymbolicOmega.Proofs.Diagram.Sweep

/-!
# Collecting

The marked nodes contain the roots and are closed under children, so what a sweep
leaves is again a reduced diagram in which the roots have the values they had.  No
computed result outlives a collection.
-/

namespace SymbolicOmega

namespace Manager

variable {m : Manager} {marked result : Std.HashSet Nat} {todo : List Ref}

/-! ## Marking -/

/-- The children of every marked node are marked or still to do. -/
private def Settled (m : Manager) (marked : Std.HashSet Nat) (todo : List Ref) : Prop :=
  ∀ index node, index ≠ 1 → marked.contains index = true → m.nodes.stored? index = some node →
    ∀ child ∈ [node.low, node.high], marked.contains child.index = true ∨ child ∈ todo

private theorem Settled.skip {r : Ref} (h : m.Settled marked (r :: todo))
    (hr : marked.contains r.index = true) : m.Settled marked todo := by
  intro index node hindex hmarked hstored child hchild
  rcases h index node hindex hmarked hstored child hchild with hdone | hleft
  · exact Or.inl hdone
  · rcases List.mem_cons.1 hleft with rfl | hleft
    · exact Or.inl hr
    · exact Or.inr hleft

private theorem Settled.mark {r : Ref} {node : Node} (h : m.Settled marked (r :: todo))
    (hnode : m.node r.index = .ok node) :
    m.Settled (marked.insert r.index) (node.low :: node.high :: todo) := by
  intro index other hindex hmarked hstored child hchild
  by_cases hsame : index = r.index
  · subst hsame
    have hother : other = node := by
      simpa [node_of_stored hstored] using hnode
    subst hother
    right
    rcases List.mem_cons.1 hchild with rfl | hchild
    · simp
    · simp [List.mem_singleton.1 hchild]
  · have hold : marked.contains index = true := by
      simpa [Std.HashSet.contains_insert, Ne.symm hsame] using hmarked
    rcases h index other hindex hold hstored child hchild with hdone | hleft
    · left
      simp [Std.HashSet.contains_insert, hdone]
    · rcases List.mem_cons.1 hleft with rfl | hleft
      · left
        simp [Std.HashSet.contains_insert]
      · right
        simp [hleft]

/-- Marking keeps what was marked, marks what was to do and leaves nothing to do. -/
private theorem markWithin_ok {bound : Nat} (hrun : m.markWithin bound todo marked = .ok result)
    (hsettled : m.Settled marked todo) :
    (∀ index, marked.contains index = true → result.contains index = true) ∧
      (∀ r ∈ todo, result.contains r.index = true) ∧ m.Settled result [] := by
  induction bound generalizing todo marked with
  | zero =>
      cases todo with
      | nil =>
          cases hrun
          exact ⟨fun _ h => h, by simp, hsettled⟩
      | cons r rest => cases hrun
  | succ bound ih =>
      cases todo with
      | nil =>
          cases hrun
          exact ⟨fun _ h => h, by simp, hsettled⟩
      | cons r rest =>
          rw [markWithin] at hrun
          by_cases hdone : marked.contains r.index = true
          · rw [if_pos hdone] at hrun
            obtain ⟨hkept, htodo, hend⟩ := ih hrun (hsettled.skip hdone)
            exact ⟨hkept, List.forall_mem_cons.2 ⟨hkept _ hdone, htodo⟩, hend⟩
          · rw [if_neg hdone] at hrun
            cases hnode : m.node r.index with
            | error fault => simp [hnode] at hrun
            | ok node =>
                simp only [hnode] at hrun
                obtain ⟨hkept, htodo, hend⟩ := ih hrun (hsettled.mark hnode)
                refine ⟨fun index hindex => hkept index ?_, List.forall_mem_cons.2
                  ⟨hkept _ ?_, fun r' hr' => htodo r' (by simp [hr'])⟩, hend⟩
                · simp [Std.HashSet.contains_insert, hindex]
                · simp [Std.HashSet.contains_insert]

/-- Marking reads the nodes alone. -/
theorem markWithin_congr {m' : Manager} (h : m'.nodes = m.nodes) (bound : Nat) (todo : List Ref)
    (marked : Std.HashSet Nat) :
    m'.markWithin bound todo marked = m.markWithin bound todo marked := by
  induction bound generalizing todo marked with
  | zero => cases todo <;> rfl
  | succ bound ih =>
      cases todo with
      | nil => rfl
      | cons r rest => simp only [markWithin, node, h, ih]

theorem descendants_congr {m' : Manager} (h : m'.nodes = m.nodes) (roots : List Ref) :
    m'.descendants roots = m.descendants roots := by
  rw [descendants, h, markWithin_congr h, descendants]

/-- The descendants contain the roots and, with a node, its children. -/
theorem descendants_ok {roots : List Ref} (hrun : m.descendants roots = .ok result) :
    (∀ r ∈ roots, result.contains r.index = true) ∧
      ∀ index node, index ≠ 1 → result.contains index = true →
        m.nodes.stored? index = some node →
        ∀ child ∈ [node.low, node.high], result.contains child.index = true := by
  have hstart : m.Settled (.ofList [Ref.one.index]) roots := by
    intro index node hindex hmarked
    simp [Ref.one, Ne.symm hindex] at hmarked
  obtain ⟨-, hroots, hend⟩ := markWithin_ok hrun hstart
  refine ⟨hroots, fun index node hindex hmarked hstored child hchild => ?_⟩
  exact (hend index node hindex hmarked hstored child hchild).resolve_right (by simp)

/-! ## Sweeping -/

/-- What a collection leaves: no computed result, and of the nodes those that are marked, among
them the roots and the children of whatever is left. -/
structure Collected (m m' : Manager) (roots : List Ref) (marked : Std.HashSet Nat) : Prop where
  forgotten : ∀ (slot : Nat) (key : Triple) (r : Ref),
    m'.computed.slots[slot]? ≠ some (some (key, r))
  consed : m'.nodes.Consed (· = 1)
  loses : m.nodes.Loses m'.nodes fun index => ¬ index = 1 ∧ marked.contains index = false
  closed : ∀ index node, index ≠ 1 → marked.contains index = true →
    m.nodes.stored? index = some node →
    ∀ child ∈ [node.low, node.high], marked.contains child.index = true
  roots : ∀ r ∈ roots, marked.contains r.index = true

namespace Collected

variable {m' : Manager} {roots : List Ref}

theorem extends_left (h : m.Collected m' roots marked) : m'.Extends m := fun index node hstored =>
  ((h.loses index node).1 hstored).1

theorem stored (h : m.Collected m' roots marked) {index : Nat} {node : Node}
    (hmarked : marked.contains index = true) (hstored : m.nodes.stored? index = some node) :
    m'.nodes.stored? index = some node :=
  (h.loses index node).2 ⟨hstored, fun hgone => by simp [hmarked] at hgone⟩

theorem live (h : m.Collected m' roots marked) {r : Ref} (hmarked : marked.contains r.index = true)
    (hr : m.Live r) : m'.Live r :=
  hr.imp fun _ hstored => h.stored hmarked hstored

theorem live_root (h : m.Collected m' roots marked) {r : Ref} (hroot : r ∈ roots)
    (hr : m.Live r) : m'.Live r :=
  h.live (h.roots r hroot) hr

/-- The terminal is left, and a node that is left was there and was marked with its children. -/
theorem origin (h : m.Collected m' roots marked) {index : Nat} {node : Node} (hindex : index ≠ 1)
    (hstored : m'.nodes.stored? index = some node) :
    m.nodes.stored? index = some node ∧
      ∀ child ∈ [node.low, node.high], marked.contains child.index = true := by
  obtain ⟨hold, halive⟩ := (h.loses index node).1 hstored
  have hmarked : marked.contains index = true := by simpa [hindex] using halive
  exact ⟨hold, h.closed index node hindex hmarked hold⟩

theorem terminal (h : m.Collected m' roots marked)
    (hterminal : m.nodes.stored? 1 = some Node.blank) : m'.nodes.stored? 1 = some Node.blank :=
  (h.loses 1 _).2 ⟨hterminal, fun hgone => hgone.1 rfl⟩

/-- A canonical manager without the unmarked nodes is canonical. -/
theorem canonical (h : m.Collected m' roots marked) (hm : m.Canonical) : m'.Canonical := by
  have hreduced : m'.Reduced := by
    refine Reduced.of_consed h.consed (h.terminal hm.reduced.terminal)
      fun index node hindex hstored => ?_
    obtain ⟨hold, hchild⟩ := h.origin hindex hstored
    have hproper := hm.reduced.proper index node hindex hold
    refine ⟨hproper.var_ne_zero, hproper.low_ne_high, hproper.high_positive,
      fun child hmem => h.live (hchild child hmem) (hproper.live child hmem),
      fun child hmem hterminal => ?_⟩
    obtain ⟨below, hbelow, hlt⟩ := hproper.ordered child hmem hterminal
    exact ⟨below, h.stored (hchild child hmem) hbelow, hlt⟩
  exact ⟨h.consed, hreduced, fun slot key r hslot => absurd hslot (h.forgotten slot key r)⟩

end Collected

/-- A collection marks and sweeps.  It fails, if at all, before a node is dropped. -/
theorem collect_sweeps (hconsed : m.nodes.Consed (· = 1)) (roots : List Ref) :
    Outcome (collect roots) m (fun _ m' => ∃ marked, m.Collected m' roots marked)
      (fun _ m' => m'.nodes = m.nodes ∧ ∀ (slot : Nat) (key : Triple) (r : Ref),
        m'.computed.slots[slot]? ≠ some (some (key, r))) := by
  have hforget : forgetComputed m = .ok () { m with computed := m.computed.clear } := rfl
  have hempty : ∀ (slot : Nat) (key : Triple) (r : Ref),
      m.computed.clear.slots[slot]? ≠ some (some (key, r)) := m.computed.slot_of_clear
  apply Outcome.bind_ok hforget
  cases hmark : Manager.descendants { m with computed := m.computed.clear } roots with
  | error fault =>
      apply Outcome.bind
      simp only [Outcome, ask, hmark]
      exact ⟨trivial, hempty⟩
  | ok alive =>
      obtain ⟨hroots, hclosed⟩ := descendants_ok hmark
      obtain ⟨sweep, u, hretain, hconsed', hloses⟩ :=
        UniqueTable.retain_run hconsed alive.contains
      refine Outcome.bind_ok (ask_run hmark) (Outcome.bind_ok (onNodes_run hretain) ?_)
      exact Outcome.bind_ok rfl (Outcome.pure ⟨alive, hempty, hconsed', hloses, hclosed, hroots⟩)

/-- A collection leaves nothing that was not there, and the roots that were.  It fails, if at
all, before a node is dropped. -/
theorem collect_outcome (hm : m.Canonical) (roots : List Ref) :
    Outcome (collect roots) m
      (fun _ m' => m'.Canonical ∧ m'.Extends m ∧ ∀ r ∈ roots, m.Live r → m'.Live r)
      (fun _ m' => m'.Canonical ∧ m.Extends m' ∧ m'.Extends m) := by
  apply (collect_sweeps hm.consed roots).mono
  · rintro dropped m' ⟨marked, h⟩
    exact ⟨h.canonical hm, h.extends_left, fun r hroot => h.live_root hroot⟩
  · rintro fault m' ⟨hnodes, hempty⟩
    exact ⟨hm.of_nodes_eq hnodes fun slot key r hslot => absurd hslot (hempty slot key r),
      Extends.of_nodes_eq hnodes, Extends.of_nodes_eq hnodes.symm⟩

end Manager

end SymbolicOmega
