import SymbolicOmega.Proofs.Formula.Folding
import SymbolicOmega.Proofs.Letters.Releasing
import SymbolicOmega.Proofs.Program.Accounting

/-!
# Numbers by first reference

The sets of a condition are numbered when its formula is built: each set that comes up
gets the next number unless it came up before.  A set is told by its ticket, so what was
numbered before plays no part, and neither do pairs that are gone.  Every number in the
formula, and every mark given until the pairs change, is the number of one of the sets.
-/

namespace SymbolicOmega

open Workspace

section FirstOccurrences

variable {α : Type}

theorem eraseDupsBy_concat (same : α → α → Bool) (list : List α) (a : α) :
    (list ++ [a]).eraseDupsBy same =
      if (list.eraseDupsBy same).any (same a) then list.eraseDupsBy same
      else list.eraseDupsBy same ++ [a] := by
  have hloop : ∀ seen : List α, List.eraseDupsBy.loop same (list ++ [a]) seen =
      if (List.eraseDupsBy.loop same list seen).any (same a) then
        List.eraseDupsBy.loop same list seen
      else List.eraseDupsBy.loop same list seen ++ [a] := by
    induction list with
    | nil => intro seen; cases hseen : seen.any (same a) <;> simp [List.eraseDupsBy.loop, hseen]
    | cons b rest ih =>
        intro seen
        cases hseen : seen.any (same b) <;> simp only [List.cons_append, List.eraseDupsBy.loop, hseen, ih]
  exact hloop []

variable [DecidableEq α]

/-- What occurs before the end has its position whatever comes later. -/
theorem idxOf_eraseDups_append {list : List α} {a : α} (ha : a ∈ list) (later : List α) :
    (list ++ later).eraseDups.idxOf a = list.eraseDups.idxOf a := by
  rw [List.eraseDups_append, List.idxOf_append_of_mem (List.mem_eraseDups.2 ha)]

/-- What is new at the end has the next position. -/
theorem idxOf_eraseDups_concat (list : List α) (a : α) :
    (list ++ [a]).eraseDups.idxOf a = list.eraseDups.idxOf a := by
  by_cases ha : a ∈ list
  · exact idxOf_eraseDups_append ha [a]
  · have hnew : a ∉ list.eraseDups := mt List.mem_eraseDups.1 ha
    rw [eraseDups_append_singleton, if_neg ha, List.idxOf_append_of_notMem hnew,
      List.idxOf_cons_self, Nat.add_zero, List.idxOf_eq_length hnew]

/-- From the left, the positions come up in their order. -/
theorem eraseDups_map_idxOf (list : List α) :
    (list.map list.eraseDups.idxOf).eraseDups = List.range list.eraseDups.length := by
  induction list using List.reverseRecOn with
  | nil => rfl
  | append_singleton list a ih =>
      have hearlier : list.map (list ++ [a]).eraseDups.idxOf = list.map list.eraseDups.idxOf :=
        List.map_congr_left fun b hb => idxOf_eraseDups_append hb [a]
      rw [List.map_append, hearlier, List.map_singleton, idxOf_eraseDups_concat,
        eraseDups_append_singleton, eraseDups_append_singleton, ih]
      by_cases ha : a ∈ list
      · rw [if_pos (List.mem_map_of_mem ha), if_pos ha]
      · have hnew : list.eraseDups.idxOf a = list.eraseDups.length :=
          List.idxOf_eq_length (mt List.mem_eraseDups.1 ha)
        have hfresh : list.eraseDups.idxOf a ∉ list.map list.eraseDups.idxOf := by
          intro hmem
          obtain ⟨b, hb, hsame⟩ := List.mem_map.1 hmem
          have hlt := List.idxOf_lt_length_of_mem (List.mem_eraseDups.2 hb)
          omega
        rw [if_neg hfresh, if_neg ha, hnew, List.length_append, List.length_singleton,
          List.range_succ]

end FirstOccurrences

theorem filterM_subset {σ α : Type} (p : α → EStateM Fault σ Bool) (list : List α) (s : σ) :
    Outcome (list.filterM p) s (fun kept _ => kept ⊆ list) fun _ _ => True := by
  have haux : ∀ (seen : List α) (s : σ), Outcome (list.filterAuxM p seen) s
      (fun kept _ => ∀ a ∈ kept, a ∈ list ∨ a ∈ seen) fun _ _ => True := by
    induction list with
    | nil => exact fun seen s => Outcome.pure fun a ha => .inr ha
    | cons x rest ih =>
        intro seen s
        refine Outcome.andThen (Outcome.always (p x) s) fun b t _ => (ih _ t).imp
          fun kept _ hkept a ha => ?_
        rcases hkept a ha with hrest | hseen
        · exact .inl (List.mem_cons_of_mem x hrest)
        · cases b with
          | true =>
              rcases List.mem_cons.1 hseen with rfl | hold
              · exact .inl List.mem_cons_self
              · exact .inr hold
          | false => exact .inr hseen
  refine Outcome.andThen (haux [] s) fun kept t hkept => Outcome.pure fun a ha => ?_
  exact (hkept a (List.mem_reverse.1 ha)).resolve_right List.not_mem_nil

variable {S : Type}

namespace TransitionSet

theorem distinct_concat (referred : List (TransitionSet S)) (set : TransitionSet S) :
    distinct (referred ++ [set]) =
      if Rabin.number (distinct referred) set < (distinct referred).length then distinct referred
      else distinct referred ++ [set] := by
  have hseen : (distinct referred).any (set.ticket == ·.ticket) = true ↔
      Rabin.number (distinct referred) set < (distinct referred).length := by
    rw [Rabin.number, List.findIdx_lt_length, List.any_eq_true]
    exact exists_congr fun other => and_congr_right fun _ => by
      rw [beq_iff_eq, beq_iff_eq, eq_comm]
  rw [distinct, eraseDupsBy_concat]
  exact if_congr hseen rfl rfl

theorem distinct_map_ticket (referred : List (TransitionSet S)) :
    (distinct referred).map ticket = (referred.map ticket).eraseDups := by
  induction referred using List.reverseRecOn with
  | nil => rfl
  | append_singleton referred set ih =>
      have hseen : Rabin.number (distinct referred) set < (distinct referred).length ↔
          set.ticket ∈ referred.map ticket := by
        rw [← List.mem_eraseDups, ← ih, Rabin.number, List.findIdx_lt_length, List.mem_map]
        simp only [beq_iff_eq]
      rw [distinct_concat, List.map_append, List.map_singleton, eraseDups_append_singleton, ← ih]
      by_cases hold : set.ticket ∈ referred.map ticket
      · rw [if_pos (hseen.2 hold), if_pos hold]
      · rw [if_neg (mt hseen.1 hold), if_neg hold, List.map_append, List.map_singleton]

end TransitionSet

namespace Rabin

open TransitionSet

/-- The number of a set is the position of its ticket among those that came up. -/
theorem number_distinct (referred : List (TransitionSet S)) (set : TransitionSet S) :
    number (distinct referred) set = (referred.map ticket).eraseDups.idxOf set.ticket := by
  rw [← distinct_map_ticket, number, List.idxOf, List.findIdx_map]
  rfl

theorem number_distinct_append {referred : List (TransitionSet S)} {set : TransitionSet S}
    (hset : set ∈ referred) (later : List (TransitionSet S)) :
    number (distinct (referred ++ later)) set = number (distinct referred) set := by
  rw [number_distinct, number_distinct, List.map_append,
    idxOf_eraseDups_append (List.mem_map_of_mem hset)]

theorem number_distinct_concat (referred : List (TransitionSet S)) (set : TransitionSet S) :
    number (distinct (referred ++ [set])) set = number (distinct referred) set := by
  rw [number_distinct, number_distinct, List.map_append, List.map_singleton,
    idxOf_eraseDups_concat]

/-- The number of a set that comes up.  A new set gets the next one. -/
def refer (set : TransitionSet S) : StateM (List (TransitionSet S)) Nat := fun numbered =>
  let n := number numbered set
  (n, if n < numbered.length then numbered else numbered ++ [set])

/-- The part of the formula for a pair. -/
def conjunction (number : TransitionSet S → Nat) (pair : RabinPair S) : Formula AcceptanceAtom :=
  Formula.conjAll (.atom (.fin (number pair.fin)) ::
    pair.infs.map fun set => .atom (.inf (number set)))

/-- The part of the formula for a pair, whose sets come up one after the other. -/
def referPair (pair : RabinPair S) :
    StateM (List (TransitionSet S)) (Formula AcceptanceAtom) := do
  let fin ← refer pair.fin
  let infs ← pair.infs.mapM refer
  return Formula.conjAll (.atom (.fin fin) :: infs.map fun n => .atom (.inf n))

/-- The formula of a list of pairs, whose sets come up one after the other. -/
def referPairs (pairs : List (RabinPair S)) :
    StateM (List (TransitionSet S)) (Formula AcceptanceAtom) := do
  return Formula.disjAll (← pairs.mapM referPair)

theorem stateM_bind {σ α β : Type} {x : StateM σ α} {f : α → StateM σ β} {s t : σ} {a : α}
    (h : x s = (a, t)) : (x >>= f) s = f a t := by
  change f (x s).1 (x s).2 = f a t
  rw [h]

theorem refer_run (referred : List (TransitionSet S)) (set : TransitionSet S) :
    refer set (distinct referred) =
      (number (distinct (referred ++ [set])) set, distinct (referred ++ [set])) := by
  rw [number_distinct_concat, distinct_concat]
  rfl

theorem mapM_refer_run (sets : List (TransitionSet S)) (referred : List (TransitionSet S)) :
    sets.mapM refer (distinct referred) =
      (sets.map (number (distinct (referred ++ sets))), distinct (referred ++ sets)) := by
  induction sets generalizing referred with
  | nil => rw [List.append_nil]; rfl
  | cons set rest ih =>
      have hlater : referred ++ set :: rest = (referred ++ [set]) ++ rest := by simp
      have hset : number (distinct ((referred ++ [set]) ++ rest)) set =
          number (distinct (referred ++ [set])) set :=
        number_distinct_append (List.mem_append_right _ List.mem_cons_self) rest
      rw [List.mapM_cons, stateM_bind (refer_run referred set), stateM_bind (ih _), hlater,
        List.map_cons, hset]
      rfl

theorem conjunction_congr {number number' : TransitionSet S → Nat} {pair : RabinPair S}
    (h : ∀ set ∈ pair.sets, number set = number' set) :
    conjunction number pair = conjunction number' pair := by
  obtain ⟨hfin, hinfs⟩ := List.forall_mem_cons.1 h
  rw [conjunction, conjunction, hfin, List.map_congr_left fun set hset => by rw [hinfs set hset]]

theorem referPair_run (referred : List (TransitionSet S)) (pair : RabinPair S) :
    referPair pair (distinct referred) =
      (conjunction (number (distinct (referred ++ pair.sets))) pair,
        distinct (referred ++ pair.sets)) := by
  have hlater : referred ++ pair.sets = (referred ++ [pair.fin]) ++ pair.infs := by
    simp [RabinPair.sets]
  have hfin : number (distinct ((referred ++ [pair.fin]) ++ pair.infs)) pair.fin =
      number (distinct (referred ++ [pair.fin])) pair.fin :=
    number_distinct_append (List.mem_append_right _ List.mem_cons_self) pair.infs
  rw [referPair, stateM_bind (refer_run referred pair.fin), stateM_bind (mapM_refer_run ..), hlater,
    conjunction, hfin, List.map_map]
  rfl

theorem mapM_referPair_run (pairs : List (RabinPair S)) (referred : List (TransitionSet S)) :
    pairs.mapM referPair (distinct referred) =
      (pairs.map (conjunction (number (distinct (referred ++ pairs.flatMap RabinPair.sets)))),
        distinct (referred ++ pairs.flatMap RabinPair.sets)) := by
  induction pairs generalizing referred with
  | nil => rw [List.flatMap_nil, List.append_nil]; rfl
  | cons pair rest ih =>
      have hlater : referred ++ (pair :: rest).flatMap RabinPair.sets =
          (referred ++ pair.sets) ++ rest.flatMap RabinPair.sets := by simp
      have hpair : conjunction (number (distinct ((referred ++ pair.sets) ++
          rest.flatMap RabinPair.sets))) pair =
            conjunction (number (distinct (referred ++ pair.sets))) pair :=
        conjunction_congr fun set hset =>
          number_distinct_append (List.mem_append_right referred hset) _
      rw [List.mapM_cons, stateM_bind (referPair_run referred pair), stateM_bind (ih _), hlater,
        List.map_cons, hpair]
      rfl

/-- Building the formula from nothing numbers the sets as `renumber` does. -/
theorem referPairs_run (r : Rabin S) :
    referPairs r.pairs [] = (r.formula, r.numberedAnew.numbered) :=
  stateM_bind (mapM_referPair_run r.pairs [])

/-- The atoms of the part of the formula for a pair. -/
def pairAtoms (number : TransitionSet S → Nat) (pair : RabinPair S) : List AcceptanceAtom :=
  .fin (number pair.fin) :: pair.infs.map fun set => .inf (number set)

theorem atoms_conjunction (number : TransitionSet S → Nat) (pair : RabinPair S) :
    (conjunction number pair).Proper ∧ (conjunction number pair).atoms = pairAtoms number pair := by
  have hinfs : ∀ e ∈ pair.infs.map fun set => Formula.atom (AcceptanceAtom.inf (number set)),
      e.Proper := List.forall_mem_map.2 fun set _ => Formula.proper_atom _
  obtain ⟨hconj, hatoms⟩ :=
    Formula.atoms_conjAll (Formula.proper_atom (.fin (number pair.fin))) hinfs
  refine ⟨hconj, hatoms.trans ?_⟩
  rw [List.flatMap_map, pairAtoms, List.map_eq_flatMap]
  rfl

theorem atoms_formula (r : Rabin S) :
    r.formula.atoms = r.pairs.flatMap (pairAtoms (number r.distinctSets)) := by
  have hformula : r.formula = Formula.disjAll (r.pairs.map (conjunction (number r.distinctSets))) :=
    rfl
  rw [hformula, Formula.atoms_disjAll (List.forall_mem_map.2 fun pair _ =>
    (atoms_conjunction _ pair).1), List.flatMap_map]
  exact List.flatMap_congr fun pair _ => (atoms_conjunction _ pair).2

theorem map_set_atoms (r : Rabin S) :
    r.formula.atoms.map AcceptanceAtom.set = r.sets.map (number r.distinctSets) := by
  rw [atoms_formula, sets, List.map_flatMap, List.map_flatMap]
  refine List.flatMap_congr fun pair _ => ?_
  rw [pairAtoms, RabinPair.sets, List.map_cons, List.map_cons, List.map_map]
  rfl

/-! ## Marks -/

section Marks
variable [DecidableEq S]

/-- Every mark is the number of a numbered set. -/
def MarksBelow (r : Rabin S) (marks : BitSet) : Prop :=
  ∀ j, marks.contains j = true → j < r.numbered.length

theorem covering_marksBelow (r : Rabin S) (state : S) (label : LetterSet) (w : Workspace) :
    Outcome (r.covering state label) w (fun marks _ => r.MarksBelow marks) fun _ _ => True := by
  refine Outcome.andThen (filterM_subset _ _ w) fun kept w' hkept => Outcome.pure fun j hj => ?_
  rw [BitSet.contains_ofList, decide_eq_true_eq] at hj
  obtain ⟨entry, hentry, rfl⟩ := List.mem_map.1 hj
  exact (List.getElem?_eq_some_iff.1 (List.mem_zipIdx_iff_getElem?.1 (hkept hentry))).1

theorem markPieces_marksBelow (r : Rabin S) (state : S) (pieces : List LetterSet) (w : Workspace) :
    Outcome (r.markPieces state pieces) w
      (fun marked _ => ∀ piece ∈ marked, r.MarksBelow piece.2) fun _ _ => True := by
  induction pieces generalizing w with
  | nil => exact Outcome.pure fun _ hpiece => absurd hpiece List.not_mem_nil
  | cons piece rest ih =>
      refine Outcome.andThen (onFault_outcome ((covering_marksBelow r state piece w).mono
        (fun _ _ hmarks => hmarks) fun _ _ _ => Outcome.always _ _)) fun marks w₁ hmarks => ?_
      refine Outcome.andThen (onFault_outcome ((ih w₁).mono
        (fun _ _ hmarks => hmarks) fun _ _ _ => Outcome.always _ _)) fun later w₂ hlater => ?_
      exact Outcome.pure (List.forall_mem_cons.2 ⟨hmarks, hlater⟩)

theorem split_marksBelow (r : Rabin S) (state : S) (label : LetterSet) (w : Workspace) :
    Outcome (r.split state label) w
      (fun marked _ => ∀ piece ∈ marked, r.MarksBelow piece.2) fun _ _ => True :=
  Outcome.andThen (Outcome.always _ w) fun pieces w' _ => markPieces_marksBelow r state pieces w'

end Marks

end Rabin

/-! ## Numbering anew -/

namespace Workspace.HasLive

variable {w w' : Workspace} {sets : List LetterSet}

theorem letGo {set : TransitionSet S} (h : w.HasLive (set.handles ++ sets)) :
    ∃ w', set.letGo w = .ok () w' ∧ w'.HasLive sets := by
  obtain ⟨w₁, hdrop, hfactories⟩ : ∃ w₁, Workspace.letGo set.ticket w =
      .ok ((w.holders.erase set.ticket).count set.ticket) w₁ ∧ w₁.factories = w.factories :=
    ⟨_, rfl, rfl⟩
  have h₁ := h.of_factories hfactories
  rw [TransitionSet.letGo, run_bind hdrop]
  by_cases hlast : (w.holders.erase set.ticket).count set.ticket = 0
  · rw [if_pos hlast]
    exact ⟨_, LetterSet.releaseAll_run h₁.left, h₁.right⟩
  · rw [if_neg hlast]
    exact ⟨w₁, rfl, (h₁.perm List.perm_append_comm).left⟩

theorem letGoAll {dropped : List (TransitionSet S)} :
    ∀ {w : Workspace}, w.HasLive (dropped.flatMap TransitionSet.handles) →
      ∃ w', dropped.forM TransitionSet.letGo w = .ok PUnit.unit w' := by
  induction dropped with
  | nil => exact fun _ => ⟨_, rfl⟩
  | cons set rest ih =>
      intro w h
      obtain ⟨w₁, hfirst, h₁⟩ := letGo h
      obtain ⟨w₂, hrest⟩ := ih h₁
      exact ⟨w₂, (run_bind hfirst).trans hrest⟩

end Workspace.HasLive

theorem TransitionSet.shareAll_run (sets : List (TransitionSet S)) :
    ∀ w : Workspace, ∃ w', sets.forM TransitionSet.share w = .ok PUnit.unit w' ∧
      w'.factories = w.factories := by
  induction sets with
  | nil => exact fun w => ⟨w, rfl, rfl⟩
  | cons set rest ih =>
      intro w
      have hshare : set.share w = .ok () ⟨w.factories, set.ticket :: w.holders, w.nextTicket⟩ := rfl
      obtain ⟨w', hrun, hsame⟩ := ih ⟨w.factories, set.ticket :: w.holders, w.nextTicket⟩
      exact ⟨w', (run_bind hshare).trans hrun, hsame⟩

namespace Rabin

open TransitionSet

/-- The sets that are numbered can be let go of, so numbering anew succeeds. -/
theorem renumber_ok {r : Rabin S} {w : Workspace}
    (h : w.HasLive (r.numbered.flatMap handles)) :
    ∃ w', r.renumber w = .ok r.numberedAnew w' := by
  obtain ⟨w₁, hshare, hsame⟩ := shareAll_run r.distinctSets w
  obtain ⟨w₂, hletGo⟩ := (h.of_factories hsame).letGoAll
  refine ⟨w₂, ?_⟩
  rw [renumber, run_bind hshare, run_bind hletGo]
  rfl

/-- The sets of `r` have the numbers of their first references in `r'`. -/
structure ByReference [DecidableEq S] (r r' : Rabin S) : Prop where
  pairs : r'.pairs = r.pairs
  atoms : r'.formula.atoms = r.pairs.flatMap (pairAtoms (number r'.numbered))
  number_iff : ∀ set ∈ r.sets, ∀ other ∈ r.sets,
    number r'.numbered set = number r'.numbered other ↔ set.ticket = other.ticket
  first : (r'.formula.atoms.map AcceptanceAtom.set).eraseDups = List.range r'.numbered.length
  built : referPairs r.pairs [] = (r'.formula, r'.numbered)
  fresh : ∀ w, ∃ w', (ofPairs r.pairs).renumber w = .ok r' w'
  below : ∀ atom ∈ r'.formula.atoms, atom.set < r'.numbered.length
  covering : ∀ state label w,
    Outcome (r'.covering state label) w (fun marks _ => r'.MarksBelow marks) fun _ _ => True
  split : ∀ state label w, Outcome (r'.split state label) w
    (fun marked _ => ∀ piece ∈ marked, r'.MarksBelow piece.2) fun _ _ => True
  count : r'.numbered.length = (r.sets.map ticket).toFinset.card
  count_le : r'.numbered.length ≤ r'.setCount

variable [DecidableEq S]

theorem numberedAnew_byReference (r : Rabin S) : r.ByReference r.numberedAnew := by
  have htickets : (r.distinctSets).map ticket = (r.sets.map ticket).eraseDups :=
    distinct_map_ticket r.sets
  have hlength : r.distinctSets.length = (r.sets.map ticket).eraseDups.length := by
    rw [← htickets, List.length_map]
  have hnumbers : r.sets.map (number r.distinctSets) =
      (r.sets.map ticket).map (r.sets.map ticket).eraseDups.idxOf := by
    rw [List.map_map]
    exact List.map_congr_left fun set _ => number_distinct r.sets set
  have hfirst : (r.formula.atoms.map AcceptanceAtom.set).eraseDups =
      List.range r.distinctSets.length := by
    rw [map_set_atoms, hnumbers, eraseDups_map_idxOf, hlength]
  refine {
    pairs := rfl
    atoms := atoms_formula r
    number_iff := fun set hset other hother => ?_
    first := hfirst
    built := referPairs_run r
    fresh := fun w => ?_
    below := fun atom hatom => ?_
    covering := covering_marksBelow _
    split := split_marksBelow _
    count := ?_
    count_le := (eraseDupsBy_sublist _ _).length_le }
  · have hmem : set.ticket ∈ (r.sets.map ticket).eraseDups :=
      List.mem_eraseDups.2 (List.mem_map_of_mem hset)
    have hset' : number r.distinctSets set = _ := number_distinct r.sets set
    have hother' : number r.distinctSets other = _ := number_distinct r.sets other
    rw [numberedAnew, hset', hother', List.idxOf_inj hmem]
  · exact renumber_ok (.nil w)
  · have hmem : atom.set ∈ (r.formula.atoms.map AcceptanceAtom.set).eraseDups :=
      List.mem_eraseDups.2 (List.mem_map_of_mem hatom)
    rw [hfirst] at hmem
    exact List.mem_range.1 hmem
  · have hsame : (r.sets.map ticket).eraseDups.toFinset = (r.sets.map ticket).toFinset := by
      ext t
      rw [List.mem_toFinset, List.mem_toFinset, List.mem_eraseDups]
    rw [← hsame, List.toFinset_card_of_nodup (nodup_eraseDups _)]
    exact hlength

/-- Numbering anew numbers the sets by first reference, whatever had a number before: the atoms
list the numbers in the order of the references, a set object has one number, the numbers come up
as 0, 1, 2 and so on, and no mark is given that is not one of them. -/
theorem renumber_byReference {r : Rabin S} {w : Workspace}
    (h : w.HasLive (r.numbered.flatMap handles)) :
    (∃ w', r.renumber w = .ok r.numberedAnew w') ∧ r.ByReference r.numberedAnew :=
  ⟨renumber_ok h, numberedAnew_byReference r⟩

end Rabin

namespace Program

/-- Every condition that a program has can be numbered anew. -/
theorem Sound.renumber_ok {P : Program S} (h : P.Sound) {a : Acceptance S}
    (ha : a ∈ P.conditions ++ P.automata.map (·.acceptance)) :
    ∃ w', a.renumber P.workspace = .ok a.numberedAnew w' := by
  have hrest : ∃ rest, P.references.Perm (a.references ++ rest) := by
    rcases List.mem_append.1 ha with hcondition | hautomaton
    · obtain ⟨c, hc⟩ := List.getElem?_of_mem hcondition
      exact ⟨_, references_perm_condition hc⟩
    · obtain ⟨m, hm, rfl⟩ := List.mem_map.1 hautomaton
      obtain ⟨j, hj⟩ := List.getElem?_of_mem hm
      exact ⟨_, references_perm_automaton hj⟩
  obtain ⟨rest, hperm⟩ := hrest
  obtain ⟨w', hrun, -⟩ := Acceptance.renumber_balanced (h.balanced.perm (.refl _) hperm)
  exact ⟨w', hrun⟩

/-- Two sets of transitions, of which one covers all letters at a state, in two pairs.  They are
numbered, then the first pair is removed. -/
private def renumbering : List (Command Nat) :=
  [.call .all, .refer .create, .grow 0 (.insert 0 0), .refer .create, .rabin [],
    .edit (.alone 0) (.add 0 [1]), .edit (.alone 0) (.add 1 [0, 1]), .edit (.alone 0) .renumber,
    .edit (.alone 0) (.removePositions [0])]

private def renumberedProgram : Program Nat :=
  (start ((Factory.ofSizing 1 ⟨3, 2, 5⟩).toOption.getD default)).afterAll renumbering

private def removedPair : Rabin Nat :=
  match renumberedProgram.conditions with
  | [⟨.rabin r, _⟩] => r
  | _ => .ofPairs []

/-- The theorem where the numbers are from before: the numbers 1 and 0 of the two sets become 0
and 1. -/
theorem removedPair_byReference :
    (renumberedProgram.workspace.HasLive (removedPair.numbered.flatMap TransitionSet.handles) ∧
      removedPair.numbered.map (·.ticket) = [1, 0]) ∧
      ((∃ w', removedPair.renumber renumberedProgram.workspace = .ok removedPair.numberedAnew w') ∧
        removedPair.ByReference removedPair.numberedAnew) ∧
      removedPair.numberedAnew.numbered.map (·.ticket) = [0, 1] ∧
      removedPair.numberedAnew.formula.atoms = [.fin 0, .inf 1, .inf 0] := by
  have hlive : renumberedProgram.workspace.HasLive
      (removedPair.numbered.flatMap TransitionSet.handles) := by decide +kernel
  exact ⟨⟨hlive, by decide +kernel⟩, Rabin.renumber_byReference hlive, by decide +kernel,
    by decide +kernel⟩

end Program

end SymbolicOmega
