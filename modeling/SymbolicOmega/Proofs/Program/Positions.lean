import SymbolicOmega.Proofs.Program.FirstReference

/-!
# Removing pairs by position

A position that is removed moves all later pairs down.  Pairs may nevertheless be removed
in place, one after the other, as long as each position is taken once and the greatest
ones come first: what is left are the pairs whose position in the beginning was not among
those removed, in their order.  Positions that do not exist take nothing away.
-/

namespace SymbolicOmega

open Workspace

/-! ## Positions of a list -/

section Lists

variable {α : Type}

/-- What stands elsewhere than at the positions. -/
def elsewhere (positions : List Nat) (list : List α) : List α :=
  (list.zipIdx.filter fun entry => !positions.contains entry.2).map Prod.fst

theorem elsewhere_nil (list : List α) : elsewhere [] list = list := by
  simp [elsewhere]

/-- What stands elsewhere are the values at the other places, in their order. -/
theorem elsewhere_places (positions : List Nat) (list : List α) :
    ∃ places : List Nat, places.Pairwise (· < ·) ∧
      (∀ p, p ∈ places ↔ p < list.length ∧ p ∉ positions) ∧
      (elsewhere positions list).map some = places.map (list[·]?) := by
  have hindex : list.zipIdx.map Prod.snd = List.range' 0 list.length := List.zipIdx_map_snd 0 list
  have hmem : ∀ p, p ∈ list.zipIdx.map Prod.snd ↔ p < list.length := by
    intro p
    rw [hindex, List.mem_range'_1]
    omega
  refine ⟨(list.zipIdx.filter fun entry => !positions.contains entry.2).map Prod.snd, ?_, ?_, ?_⟩
  · have hsorted : (list.zipIdx.map Prod.snd).Pairwise (· < ·) := hindex ▸ List.pairwise_lt_range'
    exact hsorted.sublist (List.filter_sublist.map Prod.snd)
  · intro p
    rw [← hmem, List.mem_map, List.mem_map]
    constructor
    · rintro ⟨entry, hentry, rfl⟩
      obtain ⟨hlisted, hkept⟩ := List.mem_filter.1 hentry
      exact ⟨⟨entry, hlisted, rfl⟩, by simpa using hkept⟩
    · rintro ⟨⟨entry, hlisted, rfl⟩, hkept⟩
      exact ⟨entry, List.mem_filter.2 ⟨hlisted, by simpa using hkept⟩, rfl⟩
  · rw [elsewhere, List.map_map, List.map_map]
    refine List.map_congr_left fun entry hentry => ?_
    exact (List.mem_zipIdx_iff_getElem?.1 (List.mem_filter.1 hentry).1).symm

/-- Nothing is removed behind all of the positions. -/
theorem filter_zipIdx_of_lt {positions : List Nat} {n : Nat} (hbelow : ∀ q ∈ positions, q < n)
    (list : List α) :
    (list.zipIdx n).filter (fun entry => !positions.contains entry.2) = list.zipIdx n := by
  refine List.filter_eq_self.2 fun entry hentry => ?_
  have hle : n ≤ entry.2 := List.le_snd_of_mem_zipIdx hentry
  simpa using fun hremoved => Nat.not_lt.2 hle (hbelow entry.2 hremoved)

/-- Before the position that is erased nothing moves, and behind it nothing else is removed. -/
theorem elsewhere_eraseIdx {p : Nat} {positions : List Nat} (hbelow : ∀ q ∈ positions, q < p)
    (list : List α) :
    elsewhere positions (list.eraseIdx p) = elsewhere (p :: positions) list := by
  have hbefore : ∀ front : List α, front.length ≤ p →
      front.zipIdx.filter (fun entry => !(p :: positions).contains entry.2) =
        front.zipIdx.filter fun entry => !positions.contains entry.2 := by
    intro front hle
    refine List.filter_congr fun entry hentry => ?_
    have hlt := List.snd_lt_of_mem_zipIdx hentry
    have hne : entry.2 ≠ p := by omega
    simp [hne]
  rcases Nat.lt_or_ge p list.length with hlt | hge
  · obtain ⟨front, x, back, rfl, rfl⟩ : ∃ front x back,
        list = front ++ x :: back ∧ front.length = p :=
      ⟨list.take p, list[p], list.drop (p + 1), by simp, by simp [hlt.le]⟩
    have hback : (back.zipIdx (front.length + 1)).filter
        (fun entry => !(front.length :: positions).contains entry.2) =
          back.zipIdx (front.length + 1) :=
      filter_zipIdx_of_lt (List.forall_mem_cons.2 ⟨Nat.lt_succ_self _,
        fun q hq => Nat.lt_succ_of_lt (hbelow q hq)⟩) back
    have herase : (front ++ x :: back).eraseIdx front.length = front ++ back := by
      simp [List.eraseIdx_append_of_length_le]
    rw [herase, elsewhere, elsewhere, List.zipIdx_append, List.zipIdx_append, List.zipIdx_cons,
      List.filter_append, List.filter_append, List.filter_cons, Nat.zero_add, hback,
      filter_zipIdx_of_lt hbelow, hbefore front le_rfl]
    simp
  · rw [List.eraseIdx_of_length_le hge, elsewhere, elsewhere, hbefore list hge]

/-- Positions that come in falling order can be erased one after the other. -/
theorem foldl_eraseIdx {positions : List Nat} (hfalling : positions.Pairwise (· > ·))
    (list : List α) : positions.foldl List.eraseIdx list = elsewhere positions list := by
  induction positions generalizing list with
  | nil => exact (elsewhere_nil list).symm
  | cons p rest ih =>
      obtain ⟨hbelow, hrest⟩ := List.pairwise_cons.1 hfalling
      rw [List.foldl_cons, ih hrest, elsewhere_eraseIdx hbelow]

/-- Only which positions there are plays a part. -/
theorem elsewhere_congr {positions positions' : List Nat} (h : ∀ p, p ∈ positions ↔ p ∈ positions')
    (list : List α) : elsewhere positions list = elsewhere positions' list := by
  have hcontains : ∀ p, positions.contains p = positions'.contains p := fun p => by
    rw [Bool.eq_iff_iff, List.contains_iff_mem, List.contains_iff_mem, h]
  simp only [elsewhere, hcontains]

theorem Rabin.mem_falling {positions : List Nat} {p : Nat} :
    p ∈ Rabin.falling positions ↔ p ∈ positions := by
  rw [Rabin.falling, (List.mergeSort_perm _ _).mem_iff, List.mem_eraseDups]

theorem Rabin.pairwise_falling (positions : List Nat) :
    (Rabin.falling positions).Pairwise (· > ·) := by
  have hordered : (Rabin.falling positions).Pairwise (· ≥ ·) :=
    (List.pairwise_mergeSort (fun a b c hab hbc => by simp only [decide_eq_true_eq] at *; omega)
      (fun a b => by simp only [Bool.or_eq_true, decide_eq_true_eq]; omega) _).imp of_decide_eq_true
  have hnodup : (Rabin.falling positions).Pairwise (· ≠ ·) :=
    (List.mergeSort_perm _ _).nodup_iff.2 (nodup_eraseDups positions)
  exact hordered.imp₂ (fun _ _ hge hne => lt_of_le_of_ne hge hne.symm) hnodup

end Lists

variable {S : Type}

/-! ## References that are kept up -/

namespace Workspace

/-- Every reference to a set of transitions is one of its holders, and the labels of the sets that
there are references to are live. -/
structure Sustains (w : Workspace) (references : List (TransitionSet S)) : Prop where
  told : TransitionSet.Told references
  counted : ∀ ticket, (references.map TransitionSet.ticket).count ticket ≤ w.holders.count ticket
  live : w.HasLive ((TransitionSet.distinct references).flatMap TransitionSet.handles)

namespace Sustains

variable {w : Workspace} {references references' : List (TransitionSet S)} {set : TransitionSet S}

theorem perm (h : w.Sustains references) (hperm : references.Perm references') :
    w.Sustains references' where
  told set hset other hother := h.told set (hperm.mem_iff.2 hset) other (hperm.mem_iff.2 hother)
  counted ticket := (hperm.map _).count_eq ticket ▸ h.counted ticket
  live := h.live.perm ((h.told.distinct_perm hperm).flatMap_right _)

/-- The labels of a set go when the last reference to it does, and no others. -/
theorem letGo (h : w.Sustains (set :: references)) :
    ∃ w', set.letGo w = .ok () w' ∧ w'.Sustains references := by
  obtain ⟨w₁, hdrop, hfactories, hholders⟩ : ∃ w₁, Workspace.letGo set.ticket w =
      .ok ((w.holders.erase set.ticket).count set.ticket) w₁ ∧ w₁.factories = w.factories ∧
        w₁.holders = w.holders.erase set.ticket := ⟨_, rfl, rfl, rfl⟩
  have htold : TransitionSet.Told references := fun other hother third hthird =>
    h.told other (List.mem_cons_of_mem _ hother) third (List.mem_cons_of_mem _ hthird)
  have hcounted := count_le_erase h.counted
  have hboth : TransitionSet.Told ([set] ++ references) := h.told
  have hsplit : (TransitionSet.distinct (set :: references)).Perm
      (TransitionSet.sole [set] references ++ TransitionSet.distinct references) :=
    hboth.distinct_append
  have hlive := (h.live.of_factories hfactories).perm (hsplit.flatMap_right _)
  rw [List.flatMap_append] at hlive
  rw [TransitionSet.letGo, run_bind hdrop]
  by_cases hlast : (w.holders.erase set.ticket).count set.ticket = 0
  · have hgone : set.ticket ∉ references.map TransitionSet.ticket :=
      List.count_eq_zero.1 (Nat.le_zero.1 (hlast ▸ hcounted set.ticket))
    have hsole : TransitionSet.sole [set] references = [set] := by
      simpa [TransitionSet.sole, TransitionSet.distinct, List.eraseDupsBy_cons] using hgone
    rw [hsole, List.flatMap_singleton] at hlive
    rw [if_pos hlast]
    exact ⟨_, LetterSet.releaseAll_run hlive.left, htold, hholders ▸ hcounted, hlive.right⟩
  · rw [if_neg hlast]
    exact ⟨w₁, rfl, htold, hholders ▸ hcounted, (hlive.perm List.perm_append_comm).left⟩

theorem letGoAll {dropped : List (TransitionSet S)} :
    ∀ {w : Workspace}, w.Sustains (dropped ++ references) →
      ∃ w', dropped.forM TransitionSet.letGo w = .ok PUnit.unit w' ∧ w'.Sustains references := by
  induction dropped with
  | nil => exact fun h => ⟨_, rfl, h⟩
  | cons set rest ih =>
      intro w h
      obtain ⟨w₁, hfirst, h₁⟩ := h.letGo
      obtain ⟨w₂, hrest, h₂⟩ := ih h₁
      exact ⟨w₂, (run_bind hfirst).trans hrest, h₂⟩

theorem letGoPairs {α : Type} {pair : α → RabinPair S} {dropped : List α} :
    ∀ {w : Workspace}, w.Sustains ((dropped.flatMap fun a => (pair a).sets) ++ references) →
      ∃ w', (dropped.forM fun a => Rabin.letGoPair (pair a)) w = .ok PUnit.unit w' ∧
        w'.Sustains references := by
  induction dropped with
  | nil => exact fun h => ⟨_, rfl, h⟩
  | cons a rest ih =>
      intro w h
      rw [List.flatMap_cons, List.append_assoc] at h
      obtain ⟨w₁, hfirst, h₁⟩ := h.letGoAll
      obtain ⟨w₂, hrest, h₂⟩ := ih h₁
      exact ⟨w₂, (run_bind hfirst).trans hrest, h₂⟩

end Sustains

/-- What a factory holds for the references it goes on to hold. -/
theorem Balanced.sustains {w : Workspace} {i : Nat} {sets : List LetterSet}
    {references : List (TransitionSet S)} (h : w.Balanced i sets references) :
    w.Sustains references := by
  obtain ⟨stock, h⟩ := h
  refine ⟨h.told, fun ticket => (h.holders.count_eq ticket).ge, ?_⟩
  have hlive := h.books.hasLive.perm List.perm_append_comm
  exact hlive.left.perm (h.perm_distinct.flatMap_right _)

end Workspace

namespace Rabin

variable {r : Rabin S} {w : Workspace} {others : List (TransitionSet S)}

/-- The condition without the pairs at the positions. -/
def without (r : Rabin S) (positions : List Nat) : Rabin S :=
  { r with pairs := elsewhere positions r.pairs }

/-- Removing one pair. -/
theorem removeAt_run (h : w.Sustains (r.references ++ others)) (p : Nat) :
    ∃ w', r.removeAt p w = .ok { r with pairs := r.pairs.eraseIdx p } w' ∧
      w'.Sustains ({ r with pairs := r.pairs.eraseIdx p : Rabin S }.references ++ others) := by
  rw [removeAt]
  cases hpair : r.pairs[p]? with
  | none =>
      rw [List.eraseIdx_of_length_le (List.getElem?_eq_none_iff.1 hpair)]
      exact ⟨w, rfl, h⟩
  | some pair =>
      have hperm := (references_perm_eraseIdx hpair).append_right others
      rw [List.append_assoc] at hperm
      obtain ⟨w', hrun, h'⟩ := (h.perm hperm).letGoAll
      exact ⟨w', run_bind hrun, h'⟩

/-- Removing pairs at several positions, one after the other. -/
theorem foldlM_removeAt_run (positions : List Nat) :
    ∀ {r : Rabin S} {w : Workspace}, w.Sustains (r.references ++ others) →
      ∃ w', positions.foldlM removeAt r w =
          .ok { r with pairs := positions.foldl List.eraseIdx r.pairs } w' ∧
        w'.Sustains ({ r with pairs := positions.foldl List.eraseIdx r.pairs : Rabin S }.references ++
          others) := by
  induction positions with
  | nil => exact fun {r w} h => ⟨w, rfl, h⟩
  | cons p rest ih =>
      intro r w h
      obtain ⟨w₁, hfirst, h₁⟩ := removeAt_run h p
      obtain ⟨w₂, hrest, h₂⟩ := ih h₁
      exact ⟨w₂, (run_bind hfirst).trans hrest, h₂⟩

theorem removePositions_run (h : w.Sustains (r.references ++ others)) (positions : List Nat) :
    ∃ w', r.removePositions positions w = .ok (r.without positions) w' ∧
      w'.Sustains ((r.without positions).references ++ others) := by
  have hpairs : (falling positions).foldl List.eraseIdx r.pairs = elsewhere positions r.pairs := by
    rw [foldl_eraseIdx (pairwise_falling positions)]
    exact elsewhere_congr (fun _ => mem_falling) r.pairs
  obtain ⟨w', hrun, h'⟩ := foldlM_removeAt_run (falling positions) h
  rw [hpairs] at hrun h'
  exact ⟨w', hrun, h'⟩

/-- Keep the pairs at the positions for which `keep` holds and let go of the others. -/
def keepPositions (r : Rabin S) (keep : Nat → Bool) : WorkM (Rabin S) := do
  let (kept, dropped) := r.pairs.zipIdx.partition (fun entry => keep entry.2)
  dropped.forM fun entry => letGoPair entry.1
  return { r with pairs := kept.map Prod.fst }

/-- The pairs are those that are let go of and those that are kept. -/
theorem sets_perm_keepPositions (r : Rabin S) (keep : Nat → Bool) :
    r.sets.Perm
      (((r.pairs.zipIdx.filter fun entry => !keep entry.2).flatMap fun entry => entry.1.sets) ++
        ((r.pairs.zipIdx.filter fun entry => keep entry.2).map Prod.fst).flatMap
          RabinPair.sets) := by
  have hsplit := (List.filter_append_perm (fun entry => keep entry.2) r.pairs.zipIdx).symm.trans
    List.perm_append_comm
  have hpairs := hsplit.flatMap_right fun entry => entry.1.sets
  rw [List.flatMap_append, ← List.flatMap_map, List.zipIdx_map_fst] at hpairs
  rwa [List.flatMap_map]

/-- Keeping the other pairs at once. -/
theorem keepPositions_run (h : w.Sustains (r.references ++ others)) (positions : List Nat) :
    ∃ w', r.keepPositions (fun p => !positions.contains p) w = .ok (r.without positions) w' ∧
      w'.Sustains ((r.without positions).references ++ others) := by
  let keep : Nat → Bool := fun p => !positions.contains p
  have hpartition : r.pairs.zipIdx.partition (fun entry => keep entry.2) =
      (r.pairs.zipIdx.filter fun entry => keep entry.2,
        r.pairs.zipIdx.filter fun entry => !keep entry.2) :=
    List.partition_eq_filter_filter ..
  have hperm : (r.references ++ others).Perm
      (((r.pairs.zipIdx.filter fun entry => !keep entry.2).flatMap fun entry => entry.1.sets) ++
        ((r.without positions).references ++ others)) := by
    rw [← List.append_assoc, references, references, ← List.append_assoc]
    exact ((r.sets_perm_keepPositions keep).append_right _).append_right _
  obtain ⟨w', hrun, h'⟩ := (h.perm hperm).letGoPairs
  refine ⟨w', ?_, h'⟩
  rw [keepPositions, hpartition]
  exact run_bind hrun

/-- `r'` has the pairs of `r` whose position is none of `positions`, in their order, and the same
numbered sets. -/
structure Lacks (r r' : Rabin S) (positions : List Nat) : Prop where
  pairs : ∃ places : List Nat, places.Pairwise (· < ·) ∧
    (∀ p, p ∈ places ↔ p < r.pairs.length ∧ p ∉ positions) ∧
    r'.pairs.map some = places.map (r.pairs[·]?)
  numbered : r'.numbered = r.numbered

theorem without_lacks (r : Rabin S) (positions : List Nat) :
    r.Lacks (r.without positions) positions :=
  ⟨elsewhere_places positions r.pairs, rfl⟩

/-- Removing pairs by position never fails, and exactly the pairs at other positions are left, in
their order; keeping these at once comes to the same. -/
theorem removePositions_lacks (h : w.Sustains (r.references ++ others)) (positions : List Nat) :
    ∃ r' : Rabin S, r.Lacks r' positions ∧
      (∃ w', r.removePositions positions w = .ok r' w' ∧
        w'.Sustains (r'.references ++ others)) ∧
      ∃ w', r.keepPositions (fun p => !positions.contains p) w = .ok r' w' ∧
        w'.Sustains (r'.references ++ others) :=
  ⟨r.without positions, r.without_lacks positions, removePositions_run h positions,
    keepPositions_run h positions⟩

end Rabin

namespace Program

/-- What a program refers to is kept up, each of its conditions among it. -/
theorem Sound.sustains {P : Program S} (h : P.Sound) {c : Nat} {a : Acceptance S}
    (hc : P.conditions[c]? = some a) :
    P.workspace.Sustains (a.references ++
      { P with conditions := P.conditions.eraseIdx c : Program S }.references) :=
  h.balanced.sustains.perm (references_perm_condition hc)

/-- Four pairs, of which some have the same sets, and numbers for these. -/
private def pairing : List (Command Nat) :=
  [.call .all, .refer .create, .grow 0 (.insert 0 0), .refer .create, .rabin [],
    .edit (.alone 0) (.add 0 [1]), .edit (.alone 0) (.add 1 [0, 1]), .edit (.alone 0) (.add 0 []),
    .edit (.alone 0) (.add 1 []), .edit (.alone 0) .renumber]

private def pairedFactory : Factory :=
  (Factory.ofSizing 1 ⟨3, 2, 5⟩).toOption.getD default

private def pairedProgram : Program Nat :=
  (start pairedFactory).afterAll pairing

private def fourPairs : Rabin Nat :=
  match pairedProgram.conditions with
  | [⟨.rabin r, _⟩] => r
  | _ => .ofPairs []

private theorem pairedProgram_conditions :
    ∃ annotations, pairedProgram.conditions = [⟨.rabin fourPairs, annotations⟩] := by
  have hlength : fourPairs.pairs.length = 4 := by decide +kernel
  rw [fourPairs] at hlength ⊢
  split at hlength
  · rename_i r annotations hconditions
    exact ⟨annotations, by rw [hconditions]⟩
  · cases hlength

/-- The theorem where positions are neither sorted nor different nor all positions of pairs.  The
second and the fourth pair are left, and in the wrong order others would be. -/
theorem fourPairs_lacks :
    ∃ others, pairedProgram.workspace.Sustains (fourPairs.references ++ others) ∧
      (∃ r', fourPairs.Lacks r' [9, 2, 0, 2] ∧
        (∃ w', fourPairs.removePositions [9, 2, 0, 2] pairedProgram.workspace = .ok r' w' ∧
          w'.Sustains (r'.references ++ others)) ∧
        ∃ w', fourPairs.keepPositions (fun p => !List.contains [9, 2, 0, 2] p)
            pairedProgram.workspace = .ok r' w' ∧
          w'.Sustains (r'.references ++ others)) ∧
      (fourPairs.without [9, 2, 0, 2]).pairs.map (·.fin.ticket) = [0, 0] ∧
      ([0, 2].foldl List.eraseIdx fourPairs.pairs).map (·.fin.ticket) = [0, 1] := by
  have hnew : Factory.ofSizing 1 ⟨3, 2, 5⟩ = .ok pairedFactory := rfl
  have hsound : pairedProgram.Sound := (start_sound hnew).afterAll pairing
  obtain ⟨annotations, hconditions⟩ := pairedProgram_conditions
  have hsustains := hsound.sustains (c := 0) (congrArg (·[0]?) hconditions)
  exact ⟨_, hsustains, Rabin.removePositions_lacks hsustains [9, 2, 0, 2], by decide +kernel,
    by decide +kernel⟩

end Program

end SymbolicOmega
