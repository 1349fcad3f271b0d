import SymbolicOmega.Proofs.Program.Balance

/-!
# The accounts of a program

A program starts with a new factory and carries out commands, of which some may fail.  At every
point each root is held once for each live set that has it, no command gives back a root that is not
held, and when everything is given back the factory is as good as new.
-/

namespace SymbolicOmega

open Workspace

variable {S : Type}

/-- The sets that there are references to, each once. -/
def TransitionSet.distinct (references : List (TransitionSet S)) : List (TransitionSet S) :=
  references.eraseDupsBy fun a b => a.ticket == b.ticket

/-- A ticket stands for one set. -/
def TransitionSet.Told (references : List (TransitionSet S)) : Prop :=
  ∀ set ∈ references, ∀ other ∈ references, set.ticket = other.ticket → set = other

theorem pairwise_eraseDupsBy {α : Type} (same : α → α → Bool) (list : List α) :
    (list.eraseDupsBy same).Pairwise fun a b => same b a = false := by
  match list with
  | [] => exact List.Pairwise.nil
  | x :: rest =>
      rw [List.eraseDupsBy_cons]
      refine List.pairwise_cons.2 ⟨fun b hb => ?_, pairwise_eraseDupsBy same _⟩
      have hkept := (Rabin.eraseDupsBy_sublist same _).subset hb
      simpa using (List.mem_filter.1 hkept).2
termination_by list.length
decreasing_by exact Nat.lt_succ_of_le (List.length_filter_le ..)

namespace TransitionSet

variable {references : List (TransitionSet S)}

theorem distinct_tickets (references : List (TransitionSet S)) :
    ((distinct references).map ticket).Nodup := by
  refine List.pairwise_map.2 ((pairwise_eraseDupsBy _ references).imp fun {a b} hne hsame => ?_)
  simp [hsame] at hne

theorem distinct_nodup (references : List (TransitionSet S)) : (distinct references).Nodup :=
  List.Nodup.of_map ticket (distinct_tickets references)

theorem Told.mem_distinct (h : Told references) {set : TransitionSet S} :
    set ∈ distinct references ↔ set ∈ references := by
  refine ⟨fun hset => (Rabin.eraseDupsBy_sublist _ _).subset hset, fun hset => ?_⟩
  obtain ⟨other, hother, hsame⟩ := Rabin.exists_mem_eraseDupsBy
    (fun a b : TransitionSet S => a.ticket == b.ticket) (fun _ => beq_self_eq_true _) hset
  have hreferred := (Rabin.eraseDupsBy_sublist _ _).subset hother
  rwa [h set hset other hreferred (beq_iff_eq.1 hsame)]

theorem Told.distinct_perm {references' : List (TransitionSet S)} (h : Told references)
    (hperm : references.Perm references') : (distinct references).Perm (distinct references') := by
  have h' : Told references' := fun set hset other hother =>
    h set (hperm.mem_iff.2 hset) other (hperm.mem_iff.2 hother)
  refine (List.perm_ext_iff_of_nodup (distinct_nodup _) (distinct_nodup _)).2 fun set => ?_
  rw [h.mem_distinct, h'.mem_distinct, hperm.mem_iff]

/-- The sets of `dropped` that nothing in `kept` refers to. -/
def sole (dropped kept : List (TransitionSet S)) : List (TransitionSet S) :=
  (distinct dropped).filter fun set => !(kept.map ticket).contains set.ticket

/-- What is referred to is referred to by what is kept, or by what is dropped alone. -/
theorem Told.distinct_append {dropped kept : List (TransitionSet S)}
    (h : Told (dropped ++ kept)) :
    (distinct (dropped ++ kept)).Perm (sole dropped kept ++ distinct kept) := by
  have hdropped : Told dropped := fun set hset other hother =>
    h set (List.mem_append_left _ hset) other (List.mem_append_left _ hother)
  have hkept : Told kept := fun set hset other hother =>
    h set (List.mem_append_right _ hset) other (List.mem_append_right _ hother)
  have hsole : ∀ set, set ∈ sole dropped kept ↔ set ∈ dropped ∧ set.ticket ∉ kept.map ticket := by
    intro set
    rw [sole, List.mem_filter, hdropped.mem_distinct]
    simp
  have hnodup : (sole dropped kept ++ distinct kept).Nodup := by
    refine List.nodup_append'.2 ⟨(distinct_nodup dropped).filter _, distinct_nodup kept, ?_⟩
    intro set hset hother
    exact ((hsole set).1 hset).2 (List.mem_map_of_mem (hkept.mem_distinct.1 hother))
  refine (List.perm_ext_iff_of_nodup (distinct_nodup _) hnodup).2 fun set => ?_
  rw [h.mem_distinct, List.mem_append, List.mem_append, hsole, hkept.mem_distinct]
  constructor
  · rintro (hset | hset)
    · by_cases hticket : set.ticket ∈ kept.map ticket
      · obtain ⟨other, hother, hsame⟩ := List.mem_map.1 hticket
        have hthat := h set (List.mem_append_left _ hset) other
          (List.mem_append_right _ hother) hsame.symm
        exact .inr (hthat ▸ hother)
      · exact .inl ⟨hset, hticket⟩
    · exact .inr hset
  · rintro (⟨hset, -⟩ | hset)
    · exact .inl hset
    · exact .inr hset

end TransitionSet

theorem Automaton.labels_length (a : Automaton S) : a.labels.length = a.labelCount := by
  have hlabels : a.labels = (a.rows.flatMap Prod.snd).map Prod.snd := List.map_flatMap.symm
  rw [hlabels, List.length_map, labelCount]

namespace Workspace

variable {w : Workspace} {i : Nat} {sets : List LetterSet}
variable {stock references : List (TransitionSet S)}

theorem Stocks.told (h : w.Stocks i sets stock references) : TransitionSet.Told references :=
  fun set hset other hother => h.eq_of_ticket ((h.referred set).2 hset) ((h.referred other).2 hother)

theorem Stocks.perm_distinct (h : w.Stocks i sets stock references) :
    stock.Perm (TransitionSet.distinct references) :=
  (List.perm_ext_iff_of_nodup (List.Nodup.of_map _ h.tickets)
    (TransitionSet.distinct_nodup references)).2 fun set =>
      (h.referred set).trans h.told.mem_distinct.symm

end Workspace

/-! ## Live sets -/

namespace Program

/-- All live sets: those that the program has, the labels of kept rows, and the labels of each set
of transitions that there are references to. -/
def liveSets (P : Program S) : List LetterSet :=
  P.held ++ (TransitionSet.distinct P.references).flatMap TransitionSet.handles

/-- How many live sets the factory knows of. -/
def live (P : Program S) : Option Nat :=
  P.workspace.factories[0]?.map Factory.live

/-- The labels that only the condition of an automaton keeps alive. -/
def soleLabels (P : Program S) (j : Nat) (a : Automaton S) : List LetterSet :=
  (TransitionSet.sole a.acceptance.references
    { P with automata := P.automata.eraseIdx j : Program S }.references).flatMap
      TransitionSet.handles

/-- Give back everything. -/
def close (P : Program S) : WorkM Unit := do
  LetterSet.releaseAll P.sets
  P.transitions.forM TransitionSet.letGo
  P.conditions.forM Acceptance.letGo
  P.automata.forM Automaton.discard

/-- Each root is held once for each of the sets that have it, and all of them are counted. -/
def Holds (P : Program S) (sets : List LetterSet) : Prop :=
  ∃ f, P.workspace.factories[0]? = some f ∧ f.live = sets.length ∧
    ∀ root, f.roots.count root = (sets.map LetterSet.root).count root

variable {P : Program S}

theorem Sound.holds (h : P.Sound) : P.Holds P.liveSets := by
  obtain ⟨stock, hstock⟩ := h.balanced
  have hperm := (hstock.perm_distinct.flatMap_right TransitionSet.handles).append_left P.held
  obtain ⟨f, hf, hbooks⟩ := (hstock.books.perm hperm).holds
  refine ⟨f, hf, ?_, hbooks.held.count⟩
  rw [Factory.live, hbooks.held.live, List.length_map, liveSets]

theorem Sound.live_eq (h : P.Sound) : P.live = some P.liveSets.length := by
  obtain ⟨f, hf, hlive, -⟩ := h.holds
  rw [live, hf, Option.map_some, hlive]

/-- An automaton keeps its labels alive, and what nothing but its condition refers to. -/
theorem Sound.liveSets_length (h : P.Sound) {j : Nat} {a : Automaton S}
    (ha : P.automata[j]? = some a) :
    P.liveSets.length = { P with automata := P.automata.eraseIdx j : Program S }.liveSets.length +
      a.labelCount + (P.soleLabels j a).length := by
  obtain ⟨stock, hstock⟩ := h.balanced
  have hreferences := references_perm_automaton ha
  have htold : TransitionSet.Told (a.acceptance.references ++
      { P with automata := P.automata.eraseIdx j : Program S }.references) :=
    fun set hset other hother => hstock.told set (hreferences.mem_iff.2 hset) other
      (hreferences.mem_iff.2 hother)
  have hstocked := (((hstock.told.distinct_perm hreferences).trans
    htold.distinct_append).flatMap_right TransitionSet.handles).length_eq
  rw [List.flatMap_append, List.length_append] at hstocked
  have hheld := (held_perm_automaton ha).length_eq
  rw [List.length_append, Automaton.labels_length] at hheld
  rw [liveSets, liveSets, List.length_append, List.length_append, hheld, hstocked, soleLabels]
  omega

theorem start_sound {k : Nat} {sizing : Sizing} {f : Factory}
    (hnew : Factory.ofSizing k sizing = .ok f) : (start f : Program S).Sound where
  automata := by simp [start]
  balanced := ⟨[], ⟨⟨by simp [start, held], ⟨f, rfl, Factory.ofSizing_books hnew⟩, rfl⟩, by simp,
    by simp, by simp, by simp [start, references], .refl _⟩⟩

theorem close_discharges (P : Program S) : Discharges 0 P.close P.held P.references := by
  have hsets : Discharges 0 (LetterSet.releaseAll P.sets) P.sets ([] : List (TransitionSet S)) :=
    (LetterSet.releaseAll_givesBack P.sets).discharges
  have htransitions : Discharges 0 (P.transitions.forM TransitionSet.letGo) [] P.transitions :=
    TransitionSet.letGoAll_discharges P.transitions
  have hconditions : Discharges 0 (P.conditions.forM Acceptance.letGo) []
      (P.conditions.flatMap Acceptance.references) :=
    Discharges.forM_nil Acceptance.letGo_discharges P.conditions
  have hautomata : Discharges 0 (P.automata.forM Automaton.discard)
      (P.automata.flatMap Automaton.labels)
      (P.automata.flatMap fun a => a.acceptance.references) :=
    Discharges.forM Automaton.discard_discharges P.automata
  exact hsets.bind (htransitions.bind (hconditions.bind hautomata))

/-- When everything is given back, nothing is held, and a collection leaves the terminal alone. -/
theorem Sound.close (h : P.Sound) :
    ∃ w f dropped f', P.close P.workspace = .ok () w ∧ w.factories[0]? = some f ∧
      f.live = 0 ∧ f.roots.counts = [] ∧ Factory.collect f = .ok dropped f' ∧ f'.manager.size = 1 := by
  have hall := h.balanced
  rw [← List.append_nil P.held, ← List.append_nil P.references] at hall
  obtain ⟨w, hrun, stock, hstock⟩ := P.close_discharges _ _ _ hall
  have hnone : stock = [] := List.eq_nil_iff_forall_not_mem.2 fun set hset =>
    List.not_mem_nil ((hstock.referred set).1 hset)
  subst hnone
  obtain ⟨f, hf, hbooks⟩ := hstock.books.holds
  have hroots : f.roots = Roots.none := hbooks.held.eq_none
  obtain ⟨dropped, f', hcollect, hsize⟩ := Factory.collect_books_nil hbooks
  exact ⟨w, f, dropped, f', hrun, hf, congrArg Roots.live hroots, congrArg Roots.counts hroots,
    hcollect, hsize⟩

variable [DecidableEq S] [ToString S]

/-- Giving an automaton back never fails. -/
theorem Sound.free (h : P.Sound) {j : Nat} {a : Automaton S} (ha : P.automata[j]? = some a) :
    ∃ P' : Program S, (Command.free j).perform P = .ok () P' ∧ P'.Sound ∧
      P.liveSets.length = P'.liveSets.length + a.labelCount + (P.soleLabels j a).length := by
  obtain ⟨w, hrun, -⟩ := a.discard_discharges _ _ _
    (h.balanced.perm (held_perm_automaton ha) (references_perm_automaton ha))
  let P' : Program S := { P with workspace := w, automata := P.automata.eraseIdx j }
  have hperform : (Command.free j).perform P = .ok () P' := by
    have hget : (get : ProgramM S (Program S)) P = .ok P P := rfl
    have hpick : (pickAt P.automata j : ProgramM S (Automaton S)) P = .ok a P := by
      rw [pickAt, ha]
      rfl
    rw [Command.perform, run_bind hget, run_bind hpick, act, hrun]
  exact ⟨P', hperform, ((Command.free j).perform_outcome h).of_ok hperform, h.liveSets_length ha⟩

/-! ## Any sequence of commands -/

/-- What a program has after some commands, of which any may have failed. -/
def afterAll (P : Program S) (commands : List (Command S)) : Program S :=
  commands.foldl after P

theorem Sound.afterAll (h : P.Sound) (commands : List (Command S)) :
    (P.afterAll commands).Sound := by
  induction commands generalizing P with
  | nil => exact h
  | cons command rest ih =>
      refine ih ?_
      have hend := command.perform_outcome h
      rw [after]
      cases hrun : command.perform P with
      | ok _ P' => exact hend.of_ok hrun
      | error fault P' => exact (hend.of_error hrun).2

/-- What the roots that are held say of a program and what it does next. -/
structure Accounted (P : Program S) : Prop where
  /-- Each root is held once for each live set that has it, and the live sets are counted. -/
  held : P.Holds P.liveSets
  /-- Nothing is given back that is not held. -/
  orderly : ∀ (command : Command S) (fault : Fault) (P' : Program S),
    command.perform P = .error fault P' → ∀ root, fault ≠ .rootNotHeld root
  /-- Freeing an automaton lowers the count by the number that it answers, and by the labels that
  only the condition of the automaton kept alive. -/
  freed : ∀ (j : Nat) (a : Automaton S), P.automata[j]? = some a → ∃ (P' : Program S) (n : Nat),
    (Command.free j).perform P = .ok () P' ∧ P'.live = some n ∧
      P.live = some (n + a.labelCount + (P.soleLabels j a).length)
  /-- Everything can be given back; then nothing is held, and a collection leaves the terminal. -/
  closed : ∃ w f dropped f', P.close P.workspace = .ok () w ∧ w.factories[0]? = some f ∧
    f.live = 0 ∧ f.roots.counts = [] ∧ Factory.collect f = .ok dropped f' ∧ f'.manager.size = 1

/-- The accounts of a program are right after any sequence of commands. -/
theorem afterAll_accounted {k : Nat} {sizing : Sizing} {f : Factory}
    (hnew : Factory.ofSizing k sizing = .ok f) (commands : List (Command S)) :
    Accounted ((start f).afterAll commands) := by
  have hsound := (start_sound hnew).afterAll commands
  refine ⟨hsound.holds, fun command fault P' hrun =>
    ((command.perform_outcome hsound).of_error hrun).1, fun j a ha => ?_, hsound.close⟩
  obtain ⟨P', hfree, hsound', hlength⟩ := hsound.free ha
  refine ⟨P', P'.liveSets.length, hfree, hsound'.live_eq, ?_⟩
  rw [hsound.live_eq, hlength]

/-- Letters with the proposition lead to `other`, the others back to `self`. -/
private def turning (self other : Nat) : StateRules Nat :=
  ⟨none, [⟨[0], [], some (Edge.of other)⟩, ⟨[], [], some (Edge.of self)⟩], none, []⟩

private def twoStates : LawfulSpace Nat :=
  RuleTable.lawfulSpace [(0, turning 0 1), (1, turning 1 0)]

/-- A set of transitions is left to the condition of an automaton, which is then generated; the last
command fails. -/
private def history : List (Command Nat) :=
  [.call .all, .refer .create, .grow 0 (.insert 0 0), .rabin [], .edit (.alone 0) (.add 0 []),
    .letGo 0, .found twoStates (.resolved (some 0)) 0, .operate 0 (.edit (.generate 5)),
    .call (.proposition 0), .call (.proposition 7)]

private def smallFactory : Factory :=
  (Factory.ofSizing 1 ⟨3, 2, 5⟩).toOption.getD default

private def generatedProgram : Program Nat :=
  (start smallFactory).afterAll history

/-- The theorem where an automaton has four labels and its condition one more. -/
theorem generatedProgram_accounted :
    Factory.ofSizing 1 ⟨3, 2, 5⟩ = .ok smallFactory ∧ generatedProgram.live = some 6 ∧
      generatedProgram.automata.map (fun a => (a.labelCount,
        (generatedProgram.soleLabels 0 a).length)) = [(4, 1)] ∧
      Accounted generatedProgram :=
  have hnew : Factory.ofSizing 1 ⟨3, 2, 5⟩ = .ok smallFactory := rfl
  ⟨hnew, by decide +kernel, by decide +kernel, afterAll_accounted hnew history⟩

end Program

end SymbolicOmega
