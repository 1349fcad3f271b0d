import SymbolicOmega.Proofs.Program.Commands

/-!
# Commands keep the balance

Whatever a program does, its factory holds what the program has and no more.  A command that fails
does so for another reason than that a root was given back which no set holds.
-/

namespace SymbolicOmega

open Workspace

variable {S : Type}

namespace Program

/-- The factory holds what the program has, and no more. -/
structure Sound (P : Program S) : Prop where
  automata : ∀ a ∈ P.automata, a.owner = 0 ∧ a.space.Lawful
  balanced : P.workspace.Balanced 0 P.held P.references

variable {P : Program S}

theorem references_perm_transition {t : Nat} {set : TransitionSet S}
    (ht : P.transitions[t]? = some set) :
    P.references.Perm
      (set :: { P with transitions := P.transitions.eraseIdx t : Program S }.references) :=
  (LetterSet.pick_perm ht).append_right _

theorem references_perm_condition {c : Nat} {a : Acceptance S} (hc : P.conditions[c]? = some a) :
    P.references.Perm (a.references ++
      { P with conditions := P.conditions.eraseIdx c : Program S }.references) := by
  have hfront := (LetterSet.pick_perm hc).flatMap_right Acceptance.references
  refine ((hfront.append_right _).append_left P.transitions).trans ?_
  rw [List.flatMap_cons, List.append_assoc]
  exact List.perm_append_comm_assoc ..

theorem references_perm_automaton {j : Nat} {a : Automaton S} (ha : P.automata[j]? = some a) :
    P.references.Perm (a.acceptance.references ++
      { P with automata := P.automata.eraseIdx j : Program S }.references) := by
  have hfront := (LetterSet.pick_perm ha).flatMap_right fun a => a.acceptance.references
  rw [List.flatMap_cons] at hfront
  refine ((hfront.append_left _).append_left P.transitions).trans ?_
  exact ((List.perm_append_comm_assoc ..).append_left _).trans (List.perm_append_comm_assoc ..)

theorem held_perm_automaton {j : Nat} {a : Automaton S} (ha : P.automata[j]? = some a) :
    P.held.Perm (a.labels ++
      { P with automata := P.automata.eraseIdx j : Program S }.held) := by
  have hfront := (LetterSet.pick_perm ha).flatMap_right Automaton.labels
  rw [List.flatMap_cons] at hfront
  exact (hfront.append_left P.sets).trans (List.perm_append_comm_assoc ..)

theorem Sound.set_owner (h : P.Sound) : ∀ s ∈ P.sets, s.owner = 0 :=
  fun s hs => h.balanced.owner s (List.mem_append_left _ hs)

theorem Sound.label_owner (h : P.Sound) {a : Automaton S} (ha : a ∈ P.automata) :
    ∀ s ∈ a.labels, s.owner = 0 :=
  fun s hs => h.balanced.owner s (List.mem_append_right _ (List.mem_flatMap.2 ⟨a, ha, hs⟩))

theorem Sound.handles_owner (h : P.Sound) {references : List (TransitionSet S)}
    (hreferences : references ⊆ P.references) :
    ∀ set ∈ references, ∀ s ∈ set.handles, s.owner = 0 :=
  fun _ hset => h.balanced.handles_owner (hreferences hset)

section Conditions
variable {β : Type} {place : Place} {f : Acceptance S → WorkM β}

/-- What a condition refers to, the program refers to. -/
theorem conditionAt_outcome {w : Workspace} {good : β → Workspace → Prop}
    {bad : Fault → Workspace → Prop} (hnone : bad .indexOutOfRange w)
    (hsome : ∀ a : Acceptance S, a.references ⊆ P.references → Outcome (f a) w good bad) :
    Outcome (P.conditionAt place >>= f) w good bad := by
  cases place with
  | alone c =>
      exact pickAt_outcome hnone fun a ha => hsome a fun set hset =>
        (references_perm_condition ha).mem_iff.2 (List.mem_append_left _ hset)
  | ofAutomaton j =>
      rw [conditionAt, bind_assoc]
      refine pickAt_outcome hnone fun a ha => ?_
      rw [pure_bind]
      exact hsome a.acceptance fun set hset =>
        (references_perm_automaton ha).mem_iff.2 (List.mem_append_left _ hset)

theorem conditionAt_secures {invariant : Workspace → Prop}
    (hf : ∀ a : Acceptance S, a.references ⊆ P.references →
      Secures invariant Fault.Orderly (f a)) :
    Secures invariant Fault.Orderly (P.conditionAt place >>= f) := fun w hw =>
  conditionAt_outcome ⟨fun _ => Fault.noConfusion, hw⟩ fun a ha => hf a ha w hw

theorem conditionAt_trades {i : Nat} {sets : List LetterSet} {after : β → List LetterSet}
    (hf : ∀ a : Acceptance S, a.references ⊆ P.references → Trades i (f a) sets after sets) :
    Trades i (P.conditionAt place >>= f) sets after sets := fun w tickets rest hw =>
  conditionAt_outcome ⟨fun _ => Fault.noConfusion, hw⟩ fun a ha => hf a ha w tickets rest hw

end Conditions

end Program

/-! ## What commands do in the workspace -/

section Workspaces
variable [DecidableEq S] {P : Program S}

section Operands
variable {β : Type} {f : LetterSet → WorkM β}

/-- An operand is a set of the factory. -/
theorem Operand.find_outcome (h : P.Sound) (operand : Operand S) {w : Workspace}
    {good : β → Workspace → Prop} {bad : Fault → Workspace → Prop} (hnone : bad .indexOutOfRange w)
    (hsome : ∀ s, s.owner = 0 → Outcome (f s) w good bad) :
    Outcome (operand.find P >>= f) w good bad := by
  cases operand with
  | own j =>
      exact pickAt_outcome hnone fun s hs => hsome s (h.set_owner s (List.mem_of_getElem? hs))
  | label a state n =>
      rw [find, bind_assoc]
      refine pickAt_outcome hnone fun m hm => ?_
      rw [bind_assoc]
      refine pickAt_outcome hnone fun entry hentry => ?_
      rw [pure_bind]
      refine hsome _ (h.label_owner (List.mem_of_getElem? hm) _ ?_)
      cases hrow : m.row? state with
      | none => simp [hrow] at hentry
      | some row =>
          rw [hrow] at hentry
          exact Automaton.mem_labels hrow (List.mem_of_getElem? hentry)
  | covered t state =>
      rw [find, bind_assoc]
      refine pickAt_outcome hnone fun set hset => ?_
      cases hown : set.label? state with
      | none => exact Outcome.bind (Outcome.throw hnone)
      | some own =>
          exact hsome own (h.handles_owner (List.subset_append_left ..) set
            (List.mem_of_getElem? hset) own (TransitionSet.mem_handles_of_label? hown))

theorem Operand.find_secures (h : P.Sound) (operand : Operand S) {invariant : Workspace → Prop}
    (hf : ∀ s, s.owner = 0 → Secures invariant Fault.Orderly (f s)) :
    Secures invariant Fault.Orderly (operand.find P >>= f) := fun w hw =>
  operand.find_outcome h ⟨fun _ => Fault.noConfusion, hw⟩ fun s hs => hf s hs w hw

theorem Operand.find_trades (h : P.Sound) (operand : Operand S) {sets : List LetterSet}
    {after : β → List LetterSet} (hf : ∀ s, s.owner = 0 → Trades 0 (f s) sets after sets) :
    Trades 0 (operand.find P >>= f) sets after sets := fun w tickets rest hw =>
  operand.find_outcome h ⟨fun _ => Fault.noConfusion, hw⟩ fun s hs => hf s hs w tickets rest hw

end Operands

theorem Question.run_secures (h : P.Sound) (question : Question S) {tickets : List Nat × Nat}
    {rest : List LetterSet} :
    Secures (fun w : Workspace => w.Books 0 tickets rest) Fault.Orderly (question.run P) := by
  have hcovers : ∀ set ∈ P.transitions, ∀ s ∈ set.handles, s.owner = 0 :=
    h.handles_owner (List.subset_append_left ..)
  cases question with
  | contains s letter =>
      exact s.find_secures h fun s _ => (LetterSet.contains_secures s letter).map
  | size s => exact s.find_secures h fun s _ => (LetterSet.size_secures s).map
  | formula s shown =>
      exact s.find_secures h fun s _ => (LetterSet.formulaWith_secures s shown).map
  | intersects s t =>
      exact s.find_secures h fun s hs => t.find_secures h fun t _ =>
        (LetterSet.intersects_secures hs t).map
  | containsAll s t =>
      exact s.find_secures h fun s hs => t.find_secures h fun t _ =>
        (LetterSet.containsAll_secures hs t).map
  | hasTransition t state letter =>
      exact pickAt_secures fun set _ => (TransitionSet.contains_secures set state letter).map
  | covers t state s =>
      exact pickAt_secures fun set hset => s.find_secures h fun s _ =>
        (TransitionSet.containsAllAt_secures (hcovers set hset) state s).map
  | coversAll t u =>
      exact pickAt_secures fun set hset => pickAt_secures fun other _ =>
        (TransitionSet.containsAll_secures (hcovers set hset) other).map
  | implies place n l =>
      refine Program.conditionAt_secures fun a ha => ?_
      obtain ⟨condition, annotations⟩ := a
      cases condition with
      | marks c => exact Secures.pure ()
      | rabin r =>
          exact (Rabin.implies_secures (fun set hset =>
            h.handles_owner ha set (List.mem_append_left _ hset)) n l).map
  | covering place state s =>
      refine Program.conditionAt_secures fun a ha => s.find_secures h fun s _ => ?_
      obtain ⟨condition, annotations⟩ := a
      cases condition with
      | marks c => exact Secures.pure ()
      | rabin r =>
          exact (Rabin.covering_secures (fun set hset =>
            h.handles_owner ha set (List.mem_append_right _ hset)) state s).map

theorem Source.run_trades (h : P.Sound) (source : Source S) :
    Trades 0 (source.run P) [] (fun sets => sets) [] := by
  have hone : ∀ {x : WorkM LetterSet}, Trades 0 x [] (fun s => [s]) [] →
      Trades 0 (do return [← x]) [] (fun sets => sets) [] := fun hx =>
    hx.bind fun s => Trades.pure (fun sets => sets) [s]
  cases source with
  | copy s => exact s.find_trades h fun s hs => hone (LetterSet.copy_trades hs)
  | complement s => exact s.find_trades h fun s hs => hone (LetterSet.complement_trades hs)
  | combine operation s t =>
      exact s.find_trades h fun s hs => t.find_trades h fun t _ =>
        hone (LetterSet.apply_trades operation hs t)
  | split place state edge s =>
      refine Program.conditionAt_trades fun a ha => s.find_trades h fun s hs => ?_
      exact (Acceptance.split_trades (h.handles_owner ha) state edge hs).bind
        fun pieces => Trades.pure (fun sets => sets) (pieces.map Prod.fst)
  | pieces place state s =>
      refine Program.conditionAt_trades fun a ha => s.find_trades h fun s hs => ?_
      obtain ⟨condition, annotations⟩ := a
      cases condition with
      | marks c => exact Trades.pure (fun sets => sets) []
      | rabin r =>
          exact Rabin.pieces_trades (fun set hset =>
            h.handles_owner ha set (List.mem_append_right _ hset)) state hs

omit [DecidableEq S] in
theorem Acceptance.sets_subset_references (a : Acceptance S) : a.sets ⊆ a.references := by
  obtain ⟨condition, annotations⟩ := a
  cases condition with
  | marks c => exact List.nil_subset _
  | rabin r => exact List.subset_append_left ..

omit [DecidableEq S] in
/-- There is one more reference, if any. -/
theorem Origin.run_outcome (h : P.Sound) (origin : Origin) :
    Outcome (origin.run P) P.workspace
      (fun set w => w.Balanced 0 P.held (set :: P.references))
      (fun fault w => fault.Orderly ∧ w.Balanced 0 P.held P.references) := by
  have hshare : ∀ {set : TransitionSet S}, set ∈ P.references →
      Outcome (do set.share; return set) P.workspace
        (fun set w => w.Balanced 0 P.held (set :: P.references))
        (fun fault w => fault.Orderly ∧ w.Balanced 0 P.held P.references) := by
    intro set hset
    obtain ⟨w, hrun, hw⟩ := h.balanced.share hset
    exact Outcome.bind_ok hrun (Outcome.pure hw)
  have hnone : Fault.Orderly .indexOutOfRange ∧ P.workspace.Balanced 0 P.held P.references :=
    ⟨fun _ => Fault.noConfusion, h.balanced⟩
  cases origin with
  | create =>
      obtain ⟨set, w, hrun, hw⟩ := h.balanced.create
      exact Outcome.of_run hrun hw
  | copy t =>
      refine pickAt_outcome hnone fun set ht => ?_
      obtain ⟨own, w, hrun, hw, -⟩ := h.balanced.copy
        (List.mem_append_left _ (List.mem_of_getElem? ht))
      exact Outcome.of_run hrun hw
  | share t =>
      exact pickAt_outcome hnone fun set ht =>
        hshare (List.mem_append_left _ (List.mem_of_getElem? ht))
  | ofPair place n =>
      exact Program.conditionAt_outcome hnone fun a ha => pickAt_outcome hnone fun set hset =>
        hshare (ha (a.sets_subset_references (List.mem_of_getElem? hset)))

end Workspaces

theorem mem_of_mapM {α β : Type} {f : α → Option β} {list : List α} {answers : List β}
    (h : list.mapM f = some answers) : ∀ b ∈ answers, ∃ a, f a = some b := by
  induction list generalizing answers with
  | nil =>
      cases h
      simp
  | cons first rest ih =>
      rw [List.mapM_cons] at h
      obtain ⟨b, hb, h⟩ := Option.bind_eq_some_iff.1 h
      obtain ⟨later, hlater, h⟩ := Option.bind_eq_some_iff.1 h
      cases h
      exact List.forall_mem_cons.2 ⟨⟨first, hb⟩, ih hlater⟩

section Edits
variable {w : Workspace} {i : Nat} {sets : List LetterSet}
variable {transitions references : List (TransitionSet S)}

theorem PairEdit.onPairs_outcome {r : Rabin S} (edit : PairEdit)
    (h : w.Balanced i sets (r.references ++ references)) (htransitions : transitions ⊆ references) :
    Outcome (edit.onPairs transitions r) w
      (fun r' w' => w'.Balanced i sets (r'.references ++ references))
      (fun fault w' => fault.Orderly ∧ w'.Balanced i sets (r.references ++ references)) := by
  have hnone : Fault.Orderly .indexOutOfRange ∧ w.Balanced i sets (r.references ++ references) :=
    ⟨fun _ => Fault.noConfusion, h⟩
  have hadd : ∀ pair : RabinPair S, pair.sets ⊆ r.references ++ references →
      Outcome (do Rabin.sharePair pair; return r.addPairs [pair]) w
        (fun r' w' => w'.Balanced i sets (r'.references ++ references))
        (fun fault w' => fault.Orderly ∧ w'.Balanced i sets (r.references ++ references)) := by
    intro pair hpair
    obtain ⟨w', hrun, hw'⟩ := Rabin.addPairs_balanced h hpair
    exact Outcome.bind_ok hrun (Outcome.pure hw')
  cases edit with
  | add fin infs =>
      refine pickAt_outcome hnone fun fin hfin => ?_
      cases hinfs : infs.mapM (transitions[·]?) with
      | none => exact Outcome.throw hnone
      | some infs =>
          refine hadd ⟨fin, infs⟩ fun set hset => List.mem_append_right _ (htransitions ?_)
          obtain rfl | hset := List.mem_cons.1 hset
          · exact List.mem_of_getElem? hfin
          · obtain ⟨t, ht⟩ := mem_of_mapM hinfs set hset
            exact List.mem_of_getElem? ht
  | addCopy n =>
      rw [onPairs, Rabin.pairAt]
      cases hpair : r.pairs[n]? with
      | none => exact Outcome.bind (Outcome.throw hnone)
      | some pair =>
          exact hadd pair fun set hset => List.mem_append_left _ (List.mem_append_left _
            (List.mem_flatMap.2 ⟨pair, List.mem_of_getElem? hpair, hset⟩))
  | removePositions positions =>
      obtain ⟨r', w', hrun, hw'⟩ := Rabin.removePositions_balanced h positions
      exact Outcome.of_run hrun hw'
  | removeAll =>
      obtain ⟨r', w', hrun, hw'⟩ := Rabin.removeAll_balanced h
      exact Outcome.of_run hrun hw'
  | renumber =>
      obtain ⟨w', hrun, hw'⟩ := Rabin.renumber_balanced h
      exact Outcome.of_run hrun hw'

theorem PairEdit.run_outcome {a : Acceptance S} (edit : PairEdit)
    (h : w.Balanced i sets (a.references ++ references)) (htransitions : transitions ⊆ references) :
    Outcome (edit.run transitions a) w
      (fun a' w' => w'.Balanced i sets (a'.references ++ references))
      (fun fault w' => fault.Orderly ∧ w'.Balanced i sets (a.references ++ references)) := by
  obtain ⟨condition, annotations⟩ := a
  cases condition with
  | marks c => exact Outcome.pure h
  | rabin r => exact Outcome.andThen (edit.onPairs_outcome h htransitions) fun r' w' hw' =>
      Outcome.pure hw'

theorem PairEdit.within_outcome {s : Scene S} (edit : PairEdit)
    (hs : s.Balanced i sets references) (htransitions : transitions ⊆ references) :
    Outcome (edit.within transitions) s (fun _ s' => s'.Balanced i sets references)
      (fun fault s' => fault.Orderly ∧ s'.Balanced i sets references) := by
  apply Outcome.bind_ok (Automaton.current_run s)
  refine Outcome.bind (Automaton.inWorkspace_outcome ((edit.run_outcome hs.held htransitions).mono
    (fun a w hw => Outcome.of_run rfl ⟨hs.lawful, hs.owner_eq, hw⟩)
    fun fault w hend => ⟨hend.1, hs.lawful, hs.owner_eq, hend.2⟩))

end Edits

/-! ## Programs -/

theorem Automaton.discard_discharges {i : Nat} (a : Automaton S) :
    Discharges i a.discard a.labels a.acceptance.references := by
  have hrows : GivesBack i (a.rows.forM fun entry => entry.2.release) a.labels :=
    GivesBack.forM (fun entry : S × Row S => LetterSet.releaseAll_givesBack entry.2.labels) _
  have hdiscard := hrows.discharges.bind (Acceptance.letGo_discharges a.acceptance)
  rwa [List.append_nil] at hdiscard

namespace Program

variable {P : Program S}

theorem act_outcome {β : Type} {x : WorkM β} {put : β → Program S → Program S}
    {lost : Program S → Program S} {good : β → Program S → Prop}
    {bad : Fault → Program S → Prop}
    (h : Outcome x P.workspace (fun b w => good b (put b { P with workspace := w }))
      (fun fault w => bad fault (lost { P with workspace := w }))) :
    Outcome (act x put lost) P good bad := by
  unfold Outcome act
  cases hrun : x P.workspace with
  | ok b w => exact h.of_ok hrun
  | error fault w => exact h.of_error hrun

/-- An operation that fails leaves what was there before. -/
theorem Sound.act_outcome {β : Type} (h : P.Sound) {x : WorkM β}
    {put : β → Program S → Program S}
    (hx : Outcome x P.workspace (fun b w => (put b { P with workspace := w }).Sound)
      (fun fault w => fault.Orderly ∧ w.Balanced 0 P.held P.references)) :
    Outcome (act x put id) P (fun _ P' => P'.Sound) (fun fault P' => fault.Orderly ∧ P'.Sound) :=
  Program.act_outcome (hx.mono (fun _ _ hend => hend)
    fun _ _ hend => ⟨hend.1, h.automata, hend.2⟩)

/-- An automaton stands in its workspace beside what else the program has. -/
theorem Sound.scene (h : P.Sound) {j : Nat} {a : Automaton S} (ha : P.automata[j]? = some a) :
    Scene.Balanced 0 { P with automata := P.automata.eraseIdx j : Program S }.held
      { P with automata := P.automata.eraseIdx j : Program S }.references ⟨a, P.workspace⟩ where
  lawful := (h.automata a (List.mem_of_getElem? ha)).2
  owner_eq := (h.automata a (List.mem_of_getElem? ha)).1
  held := h.balanced.perm (held_perm_automaton ha) (references_perm_automaton ha)

/-- An operation on an automaton that keeps the balance of everything else. -/
theorem tend_outcome {j : Nat} {x : AutomatonM S Unit} (h : P.Sound)
    (hx : ∀ (sets : List LetterSet) (references : List (TransitionSet S)) (s : Scene S),
      P.transitions ⊆ references → s.Balanced 0 sets references →
        Outcome x s (fun _ s' => s'.Balanced 0 sets references)
          (fun fault s' => fault.Orderly ∧ s'.Balanced 0 sets references)) :
    Outcome (tend j x) P (fun _ P' => P'.Sound) (fun fault P' => fault.Orderly ∧ P'.Sound) := by
  unfold Outcome tend
  cases hj : P.automata[j]? with
  | none => exact ⟨fun _ => Fault.noConfusion, h⟩
  | some a =>
      let others : Program S := { P with automata := P.automata.eraseIdx j }
      have hothers : ∀ b ∈ P.automata.eraseIdx j, b.owner = 0 ∧ b.space.Lawful := fun b hb =>
        h.automata b (List.mem_of_mem_eraseIdx hb)
      let put (s : Scene S) : Program S :=
        { P with workspace := s.workspace, automata := s.automaton :: P.automata.eraseIdx j }
      have hput : ∀ s : Scene S, s.Balanced 0 others.held others.references → (put s).Sound :=
        fun s hs => ⟨List.forall_mem_cons.2 ⟨⟨hs.owner_eq, hs.lawful⟩, hothers⟩,
          hs.held.perm (held_perm_automaton (P := put s) (j := 0) rfl).symm
            (references_perm_automaton (P := put s) (j := 0) rfl).symm⟩
      have hrun := hx others.held others.references ⟨a, P.workspace⟩
        (List.subset_append_left ..) (h.scene hj)
      dsimp only
      cases hend : x ⟨a, P.workspace⟩ with
      | ok _ s => exact hput s (hrun.of_ok hend)
      | error fault s => exact ⟨(hrun.of_error hend).1, hput s (hrun.of_error hend).2⟩

/-- A set of transitions takes over what it is handed; if it cannot grow, that is gone. -/
theorem growAt_outcome [DecidableEq S] {t : Nat} {handed sets : List LetterSet}
    {grown : TransitionSet S → WorkM (TransitionSet S)} (h : P.Sound)
    (hsets : P.sets.Perm (handed ++ sets))
    (hgrown : ∀ own : TransitionSet S, own.owner = 0 →
      Trades 0 (grown own) (own.handles ++ handed) TransitionSet.handles own.handles ∧
        own.Renews (grown own)) :
    Outcome (growAt t sets grown) P (fun _ P' => P'.Sound)
      (fun fault P' => fault.Orderly ∧ P'.Sound) := by
  refine Outcome.bind_ok rfl (pickAt_outcome ⟨fun _ => Fault.noConfusion, h⟩ fun set ht => ?_)
  have hfront := h.balanced.perm (.refl _) (references_perm_transition ht)
  obtain ⟨own, w, hunshared, hw, hsole⟩ := hfront.unshared
  refine Outcome.bind (act_outcome (Outcome.of_run hunshared ?_))
  obtain ⟨htrades, hrenews⟩ := hgrown own (hw.set_owner List.mem_cons_self)
  have hheld : P.held.Perm (handed ++ (sets ++ P.automata.flatMap Automaton.labels)) := by
    rw [← List.append_assoc]
    exact hsets.append_right _
  have hgrow := TransitionSet.grow (hw.perm hheld (.refl _)) hsole htrades hrenews
  refine Outcome.bind (act_outcome (hgrow.mono (fun set' w' hw' => Outcome.pure ?_)
    fun fault w' hend => ?_))
  · exact ⟨h.automata, hw'⟩
  · exact ⟨hend.1, h.automata, hend.2⟩

end Program

section Commands
variable [DecidableEq S] [ToString S] {P : Program S}

open Program

/-- The command leaves the program with just what the factory holds, whether it is answered or
fails. -/
def Command.Balances (P : Program S) (command : Command S) : Prop :=
  Outcome command.perform P (fun _ P' => P'.Sound) (fun fault P' => fault.Orderly ∧ P'.Sound)

section Cases
variable (h : P.Sound)
include h

omit [DecidableEq S] [ToString S] in
private theorem Program.Sound.nowhere : Fault.Orderly .indexOutOfRange ∧ P.Sound :=
  ⟨fun _ => Fault.noConfusion, h⟩

omit [DecidableEq S] [ToString S] in
/-- The answer of an operation is of no more use once the program has it. -/
private theorem Program.Sound.act_done {β : Type} {x : WorkM β} {put : β → Program S → Program S}
    (hx : Outcome x P.workspace (fun b w => (put b { P with workspace := w }).Sound)
      (fun fault w => fault.Orderly ∧ w.Balanced 0 P.held P.references)) :
    Outcome (do let _ ← act x put id) P (fun _ P' => P'.Sound)
      (fun fault P' => fault.Orderly ∧ P'.Sound) :=
  Outcome.andThen (h.act_outcome hx) fun _ _ hP' => Outcome.pure hP'

theorem Command.call_balances (c : LetterSet.Call) : (Command.call c).Balances P := by
  refine Outcome.bind_ok rfl (Outcome.andThen (act_outcome ?_) fun _ _ hP' => Outcome.pure hP')
  have hcall := h.balanced.trade (c.perform_trades P.sets)
  exact hcall.mono (fun _ _ hw => ⟨h.automata, hw⟩)
    fun _ _ hend => ⟨hend.1, h.automata, hend.2⟩

theorem Command.merge_balances (operation : SetOperation) (j : Nat) (operand : Operand S) :
    (Command.merge operation j operand).Balances P := by
  refine Outcome.bind_ok rfl (pickAt_outcome h.nowhere fun s hj => ?_)
  have hmerge : Trades 0 (do operation.merge s (← operand.find P)) [s] (fun s' => [s']) [s] :=
    operand.find_trades h fun t _ => LetterSet.mergeWith_trades operation s t
  have hfront : P.held.Perm ([s] ++ (P.sets.eraseIdx j ++ P.automata.flatMap Automaton.labels)) :=
    (LetterSet.pick_perm hj).append_right _
  exact h.act_done (((h.balanced.perm hfront (.refl _)).trade hmerge).mono
    (fun s' w hw => ⟨h.automata, hw⟩)
    fun fault w hend => ⟨hend.1, hend.2.perm hfront.symm (.refl _)⟩)

theorem Command.take_balances (source : Source S) : (Command.take source).Balances P := by
  refine Outcome.bind_ok rfl (h.act_done
    ((h.balanced.gain (source.run_trades h)).imp fun sets w hw => ⟨h.automata, ?_⟩))
  rwa [Program.held, ← List.append_assoc] at hw

theorem Command.grow_balances (t : Nat) (growth : Growth S) :
    (Command.grow t growth).Balances P := by
  cases growth with
  | insert state j =>
      refine Outcome.bind_ok rfl (pickAt_outcome h.nowhere fun label hj => ?_)
      exact growAt_outcome h (LetterSet.pick_perm hj) fun own _ =>
        ⟨own.insert_trades state label, own.insert_renews state label⟩
  | insertAll state =>
      have hsets : P.sets.Perm ([] ++ P.sets) := .refl _
      refine Outcome.bind_ok rfl (growAt_outcome h hsets fun own howner => ?_)
      rw [List.append_nil]
      exact ⟨own.insertAll_trades howner state, own.insertAll_renews state⟩

theorem Command.letGo_balances (t : Nat) : (Command.letGo t).Balances P := by
  refine Outcome.bind_ok rfl (pickAt_outcome h.nowhere fun set ht => h.act_outcome ?_)
  obtain ⟨w, hrun, hw⟩ := (h.balanced.perm (.refl _) (references_perm_transition ht)).letGo
  exact Outcome.of_run hrun ⟨h.automata, hw⟩

/-- The condition comes to the front, is edited there and goes back if that fails. -/
theorem Command.edit_balances (place : Place) (e : PairEdit) :
    (Command.edit place e).Balances P := by
  cases place with
  | alone c =>
      refine Outcome.bind_ok rfl (pickAt_outcome h.nowhere fun a hc => ?_)
      let others : Program S := { P with conditions := P.conditions.eraseIdx c }
      have hfront : P.references.Perm (a.references ++ others.references) :=
        references_perm_condition hc
      have htransitions : P.transitions ⊆ others.references := List.subset_append_left ..
      have hedit := e.run_outcome (h.balanced.perm (.refl _) hfront) htransitions
      refine h.act_done (hedit.mono (fun a' w hw => ?_)
        fun fault w hend => ⟨hend.1, hend.2.perm (.refl _) hfront.symm⟩)
      let edited : Program S := { others with conditions := a' :: others.conditions }
      have hback : edited.references.Perm (a'.references ++ others.references) :=
        references_perm_condition (P := edited) (c := 0) rfl
      exact ⟨h.automata, hw.perm (.refl _) hback.symm⟩
  | ofAutomaton j =>
      exact Outcome.bind_ok rfl (tend_outcome h fun sets references s htransitions hs =>
        e.within_outcome hs htransitions)

theorem Command.letGoCondition_balances (c : Nat) :
    (Command.letGoCondition c).Balances P := by
  refine Outcome.bind_ok rfl (pickAt_outcome h.nowhere fun a hc => h.act_outcome ?_)
  obtain ⟨w, hrun, hw⟩ := a.letGo_discharges _ _ _
    (h.balanced.perm (.refl _) (references_perm_condition hc))
  exact Outcome.of_run hrun ⟨h.automata, hw⟩

/-- The automaton takes the references of its condition over. -/
theorem Command.found_balances (space : LawfulSpace S) (initial : Initial S) (c : Nat) :
    (Command.found space initial c).Balances P := by
  refine Outcome.bind_ok rfl (pickAt_outcome h.nowhere fun a hc => Outcome.of_run rfl ?_)
  let others : Program S := { P with conditions := P.conditions.eraseIdx c }
  let founded : Program S :=
    { others with automata := .create 0 space.1 a initial :: others.automata }
  have hback : founded.references.Perm (a.references ++ others.references) :=
    references_perm_automaton (P := founded) (j := 0) rfl
  exact ⟨List.forall_mem_cons.2 ⟨⟨rfl, space.2⟩, h.automata⟩,
    h.balanced.perm (.refl _) ((references_perm_condition hc).trans hback.symm)⟩

theorem Command.free_balances (j : Nat) : (Command.free j).Balances P := by
  refine Outcome.bind_ok rfl (pickAt_outcome h.nowhere fun a hj => act_outcome ?_)
  obtain ⟨w, hrun, hw⟩ := a.discard_discharges _ _ _
    (h.balanced.perm (held_perm_automaton hj) (references_perm_automaton hj))
  exact Outcome.of_run hrun ⟨fun b hb => h.automata b (List.mem_of_mem_eraseIdx hb), hw⟩

end Cases

theorem Command.perform_outcome (command : Command S) (h : P.Sound) : command.Balances P := by
  cases command with
  | call c => exact call_balances h c
  | merge operation j operand => exact merge_balances h operation j operand
  | ask question =>
      exact Outcome.bind_ok rfl (h.act_outcome
        ((h.balanced.ask fun _ _ => question.run_secures h).imp fun _ w hw => ⟨h.automata, hw⟩))
  | take source => exact take_balances h source
  | refer origin =>
      exact Outcome.bind_ok rfl (h.act_done
        ((origin.run_outcome h).imp fun set w hw => ⟨h.automata, hw⟩))
  | grow t growth => exact grow_balances h t growth
  | letGo t => exact letGo_balances h t
  | marks condition annotations => exact Outcome.of_run rfl ⟨h.automata, h.balanced⟩
  | rabin annotations => exact Outcome.of_run rfl ⟨h.automata, h.balanced⟩
  | edit place e => exact edit_balances h place e
  | letGoCondition c => exact letGoCondition_balances h c
  | found space initial c => exact found_balances h space initial c
  | operate j operation =>
      exact tend_outcome h fun sets references s _ hs => operation.run_secures s hs
  | document j style =>
      exact tend_outcome h fun sets references s _ hs =>
        (Hoa.Document.ofAutomaton_secures style).map s hs
  | free j => exact free_balances h j

end Commands

end SymbolicOmega
