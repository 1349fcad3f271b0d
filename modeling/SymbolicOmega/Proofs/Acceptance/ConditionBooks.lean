import SymbolicOmega.Proofs.Acceptance.Stock

/-!
# Conditions on the books

Questions about sets of transitions hold nothing.  Cutting a label leaves its pieces behind, or
nothing if it fails.  Editing the pairs of a condition and numbering its sets anew take references
and let go of others; none of that can fail for the references that a condition has.
-/

namespace SymbolicOmega

open Workspace

variable {S : Type} {i : Nat}

namespace TransitionSet

variable [DecidableEq S] {set : TransitionSet S} {tickets : List Nat × Nat} {rest : List LetterSet}

theorem mem_handles_of_label? {state : S} {own : LetterSet} (hown : set.label? state = some own) :
    own ∈ set.handles :=
  List.mem_map_of_mem (mem_of_lookup hown)

theorem contains_secures (set : TransitionSet S) (state : S) (letter : BitSet) :
    Secures (fun w : Workspace => w.Books i tickets rest) Fault.Orderly
      (set.contains state letter) := by
  rw [contains]
  cases set.label? state with
  | none => exact Secures.pure false
  | some own => exact LetterSet.contains_secures own letter

theorem containsAllAt_secures (howner : ∀ s ∈ set.handles, s.owner = i) (state : S)
    (label : LetterSet) :
    Secures (fun w : Workspace => w.Books i tickets rest) Fault.Orderly
      (set.containsAllAt state label) := by
  rw [containsAllAt]
  cases hown : set.label? state with
  | none => exact Secures.pure _
  | some own =>
      exact LetterSet.containsAll_secures (howner own (mem_handles_of_label? hown)) label

theorem containsAll_secures (howner : ∀ s ∈ set.handles, s.owner = i) (other : TransitionSet S) :
    Secures (fun w : Workspace => w.Books i tickets rest) Fault.Orderly
      (set.containsAll other) :=
  Secures.allM fun entry _ => containsAllAt_secures howner entry.1 entry.2

end TransitionSet

namespace Rabin

/-! ## Pieces -/

/-- In place of a piece there are the pieces that it was cut into. -/
theorem cut_trades {covered : LetterSet} (hcovered : covered.owner = i) (piece : LetterSet) :
    Trades i (cut covered piece) [piece] (fun pieces => pieces) [] := by
  have hpartly : Trades i (do
      if ← covered.intersects piece then return !(← covered.containsAll piece)
      else return false : WorkM Bool) [piece] (fun _ => [piece]) [piece] :=
    Trades.of_secures [piece] fun _ _ =>
      (LetterSet.intersects_secures hcovered piece).bind fun _ =>
        Secures.ite ((LetterSet.containsAll_secures hcovered piece).bind fun _ => Secures.pure _)
          (Secures.pure false)
  refine (Trades.onFault hpartly (LetterSet.release_givesBack piece)).bind fun b => ?_
  cases b with
  | false => exact Trades.pure (fun pieces => pieces) [piece]
  | true =>
      refine Trades.of_owner fun howner => ?_
      have hpiece : piece.owner = i := howner piece List.mem_cons_self
      refine Trades.tryFinally ?_ (LetterSet.release_givesBack piece)
      refine ((LetterSet.intersection_trades hpiece covered).frame [piece]).bind fun inside => ?_
      refine ((Trades.onFault ((LetterSet.difference_trades hpiece covered).frame [inside])
        (LetterSet.release_givesBack inside)).frame [piece]).bind fun outside => ?_
      have hperm : [outside, inside, piece].Perm [piece, inside, outside] :=
        List.reverse_perm [piece, inside, outside]
      exact (Trades.pure (fun pieces => piece :: pieces) [inside, outside]).perm hperm
        (fun _ => .refl _) (.refl _)

theorem cutAll_trades {covered : LetterSet} (hcovered : covered.owner = i)
    (pieces : List LetterSet) :
    Trades i (cutAll covered pieces) pieces (fun pieces => pieces) [] := by
  induction pieces with
  | nil => exact Trades.pure (fun pieces => pieces) []
  | cons piece rest ih =>
      refine Trades.bind (Trades.onFault ((cut_trades hcovered piece).frame rest)
        (LetterSet.releaseAll_givesBack rest)) fun here => ?_
      refine Trades.bind (Trades.onFault ((ih.frame here).perm List.perm_append_comm
        (fun _ => List.perm_append_comm) (.refl _)) (LetterSet.releaseAll_givesBack here))
        fun later => ?_
      exact Trades.pure (fun pieces => pieces) (here ++ later)

section
variable [DecidableEq S] {r : Rabin S}
variable (hnumbered : ∀ set ∈ r.numbered, ∀ s ∈ set.handles, s.owner = i)
include hnumbered

theorem pieces_trades (state : S) {label : LetterSet} (hlabel : label.owner = i) :
    Trades i (r.pieces state label) [] (fun pieces => pieces) [] := by
  refine (LetterSet.copy_trades hlabel).bind fun piece => ?_
  refine Trades.foldlM (fun covered hcovered pieces => cutAll_trades ?_ pieces) [piece]
  obtain ⟨set, hset, hown⟩ := List.mem_filterMap.1 hcovered
  exact hnumbered set hset covered (TransitionSet.mem_handles_of_label? hown)

theorem covering_secures (state : S) (label : LetterSet) {tickets : List Nat × Nat}
    {rest : List LetterSet} :
    Secures (fun w : Workspace => w.Books i tickets rest) Fault.Orderly
      (r.covering state label) := by
  refine (Secures.filterM fun entry hentry => ?_).bind fun _ => Secures.pure _
  exact TransitionSet.containsAllAt_secures
    (hnumbered entry.1 (List.fst_mem_of_mem_zipIdx hentry)) state label

theorem markPieces_trades (state : S) (pieces : List LetterSet) :
    Trades i (r.markPieces state pieces) pieces (List.map Prod.fst) [] := by
  induction pieces with
  | nil => exact Trades.pure (List.map Prod.fst) []
  | cons piece rest ih =>
      refine Trades.bind (Trades.onFault (Trades.of_secures (piece :: rest) fun _ _ =>
        covering_secures hnumbered state piece)
        (LetterSet.releaseAll_givesBack (piece :: rest))) fun marks => ?_
      have hperm : (piece :: rest).Perm (rest ++ [piece]) := (List.perm_append_singleton ..).symm
      refine Trades.bind (Trades.onFault ((ih.frame [piece]).perm hperm
        (fun _ => List.perm_append_comm) (.refl _)) (LetterSet.release_givesBack piece))
        fun later => ?_
      exact Trades.pure (List.map Prod.fst) ((piece, marks) :: later)

theorem split_trades (state : S) {label : LetterSet} (hlabel : label.owner = i) :
    Trades i (r.split state label) [] (List.map Prod.fst) [] :=
  (pieces_trades hnumbered state hlabel).bind (markPieces_trades hnumbered state)

end

section
variable {r : Rabin S} {tickets : List Nat × Nat} {rest : List LetterSet}

theorem pairAt_secures (j : Nat) {β : Type} {f : RabinPair S → WorkM β}
    (hf : ∀ pair ∈ r.pairs,
      Secures (fun w : Workspace => w.Books i tickets rest) Fault.Orderly (f pair)) :
    Secures (fun w : Workspace => w.Books i tickets rest) Fault.Orderly (r.pairAt j >>= f) := by
  rw [pairAt]
  cases hpair : r.pairs[j]? with
  | none => exact fun w hw => Outcome.bind (Outcome.throw ⟨fun _ => Fault.noConfusion, hw⟩)
  | some pair => exact hf pair (List.mem_of_getElem? hpair)

theorem implies_secures [DecidableEq S]
    (hsets : ∀ set ∈ r.sets, ∀ s ∈ set.handles, s.owner = i) (j l : Nat) :
    Secures (fun w : Workspace => w.Books i tickets rest) Fault.Orderly (r.implies j l) := by
  have howner : ∀ pair ∈ r.pairs, ∀ set ∈ pair.sets, ∀ s ∈ set.handles, s.owner = i :=
    fun pair hpair set hset => hsets set (List.mem_flatMap.2 ⟨pair, hpair, hset⟩)
  refine pairAt_secures j fun premise hpremise => pairAt_secures l fun conclusion hconclusion => ?_
  have hfin := howner premise hpremise premise.fin List.mem_cons_self
  refine (TransitionSet.containsAll_secures hfin conclusion.fin).bind fun b =>
    Secures.ite (Secures.allM fun covering hcovering => Secures.anyM fun covered _ => ?_)
      (Secures.pure false)
  exact TransitionSet.containsAll_secures
    (howner conclusion hconclusion covering (List.mem_cons_of_mem _ hcovering)) covered

end

/-! ## Pairs and numbers -/

section
variable {w : Workspace} {sets : List LetterSet} {references : List (TransitionSet S)}
variable {r : Rabin S}

theorem sharePair_balanced {pair : RabinPair S} (h : w.Balanced i sets references)
    (hpair : pair.sets ⊆ references) :
    ∃ w', sharePair pair w = .ok () w' ∧ w'.Balanced i sets (pair.sets ++ references) :=
  h.shareAll hpair

theorem letGoPair_discharges (pair : RabinPair S) : Discharges i (letGoPair pair) [] pair.sets :=
  TransitionSet.letGoAll_discharges pair.sets

theorem letGo_discharges (r : Rabin S) : Discharges i r.letGo [] r.references :=
  (Discharges.forM_nil letGoPair_discharges r.pairs).bind
    (TransitionSet.letGoAll_discharges r.numbered)

theorem references_perm_eraseIdx {p : Nat} {pair : RabinPair S} (hpair : r.pairs[p]? = some pair) :
    r.references.Perm
      (pair.sets ++ { r with pairs := r.pairs.eraseIdx p : Rabin S }.references) := by
  rw [references, references, ← List.append_assoc]
  exact ((LetterSet.pick_perm hpair).flatMap_right RabinPair.sets).append_right _

/-- A pair that is removed is let go of. -/
theorem removeAt_balanced (h : w.Balanced i sets (r.references ++ references)) (p : Nat) :
    ∃ r' w', r.removeAt p w = .ok r' w' ∧ w'.Balanced i sets (r'.references ++ references) := by
  rw [removeAt]
  cases hpair : r.pairs[p]? with
  | none =>
      rw [List.eraseIdx_of_length_le (List.getElem?_eq_none_iff.1 hpair)]
      exact ⟨r, w, rfl, h⟩
  | some pair =>
      have hperm := (references_perm_eraseIdx hpair).append_right references
      rw [List.append_assoc] at hperm
      obtain ⟨w', hrun, h'⟩ := letGoPair_discharges pair w sets _ (h.perm (.refl _) hperm)
      exact ⟨_, w', run_bind hrun, h'⟩

theorem removePositions_balanced (h : w.Balanced i sets (r.references ++ references))
    (positions : List Nat) :
    ∃ r' w', r.removePositions positions w = .ok r' w' ∧
      w'.Balanced i sets (r'.references ++ references) := by
  rw [removePositions]
  induction falling positions generalizing r w with
  | nil => exact ⟨r, w, rfl, h⟩
  | cons p rest ih =>
      obtain ⟨r₁, w₁, hfirst, h₁⟩ := removeAt_balanced h p
      obtain ⟨r₂, w₂, hrest, h₂⟩ := ih h₁
      exact ⟨r₂, w₂, (run_bind hfirst).trans hrest, h₂⟩

theorem removeAll_balanced (h : w.Balanced i sets (r.references ++ references)) :
    ∃ r' w', r.removeAll w = .ok r' w' ∧ w'.Balanced i sets (r'.references ++ references) := by
  rw [Rabin.references, Rabin.sets, List.append_assoc] at h
  obtain ⟨w', hrun, h'⟩ := Discharges.forM_nil letGoPair_discharges r.pairs w sets _ h
  exact ⟨{ r with pairs := [] }, w', run_bind hrun, h'⟩

theorem addPairs_balanced {pair : RabinPair S}
    (h : w.Balanced i sets (r.references ++ references))
    (hpair : pair.sets ⊆ r.references ++ references) :
    ∃ w', sharePair pair w = .ok () w' ∧
      w'.Balanced i sets ((r.addPairs [pair]).references ++ references) := by
  obtain ⟨w', hrun, h'⟩ := sharePair_balanced h hpair
  refine ⟨w', hrun, h'.perm (.refl _) ?_⟩
  have hreferences : (r.addPairs [pair]).references = (r.sets ++ pair.sets) ++ r.numbered := by
    simp [Rabin.references, Rabin.sets, addPairs]
  rw [hreferences, Rabin.references, List.append_assoc, List.append_assoc, List.append_assoc]
  exact List.perm_append_comm_assoc ..

/-- The sets that have a number are referred to by their number, too. -/
theorem renumber_balanced (h : w.Balanced i sets (r.references ++ references)) :
    ∃ w', r.renumber w = .ok r.numberedAnew w' ∧
      w'.Balanced i sets (r.numberedAnew.references ++ references) := by
  have hdistinct : r.distinctSets ⊆ r.references ++ references := fun set hset =>
    List.mem_append_left _ (List.mem_append_left _ (mem_sets_of_mem_distinctSets hset))
  obtain ⟨w₁, hshare, h₁⟩ := h.shareAll hdistinct
  have hperm : (r.distinctSets ++ (r.references ++ references)).Perm
      (r.numbered ++ (r.numberedAnew.references ++ references)) := by
    calc
      (r.distinctSets ++ (r.references ++ references)).Perm
          (r.distinctSets ++ ((r.numbered ++ r.sets) ++ references)) :=
        (List.perm_append_comm.append_right _).append_left _
      _ = r.distinctSets ++ (r.numbered ++ (r.sets ++ references)) := by rw [List.append_assoc]
      (r.distinctSets ++ (r.numbered ++ (r.sets ++ references))).Perm
          (r.numbered ++ (r.distinctSets ++ (r.sets ++ references))) :=
        List.perm_append_comm_assoc ..
      _ = r.numbered ++ ((r.distinctSets ++ r.sets) ++ references) := by rw [List.append_assoc]
      (r.numbered ++ ((r.distinctSets ++ r.sets) ++ references)).Perm _ :=
        (List.perm_append_comm.append_right _).append_left _
  obtain ⟨w₂, hletGo, h₂⟩ := TransitionSet.letGoAll_discharges r.numbered w₁ sets _
    (h₁.perm (.refl _) hperm)
  refine ⟨w₂, ?_, h₂⟩
  rw [renumber, run_bind hshare, run_bind hletGo]
  rfl

end

end Rabin

namespace Acceptance

variable {w : Workspace} {sets : List LetterSet} {references : List (TransitionSet S)}
variable {a : Acceptance S}

theorem letGo_discharges (a : Acceptance S) : Discharges i a.letGo [] a.references := by
  obtain ⟨condition, annotations⟩ := a
  cases condition with
  | marks c => exact fun w _ _ h => ⟨w, rfl, h⟩
  | rabin r => exact Rabin.letGo_discharges r

theorem renumber_balanced (h : w.Balanced i sets (a.references ++ references)) :
    ∃ w', a.renumber w = .ok a.numberedAnew w' ∧
      w'.Balanced i sets (a.numberedAnew.references ++ references) := by
  obtain ⟨condition, annotations⟩ := a
  cases condition with
  | marks c => exact ⟨w, rfl, h⟩
  | rabin r =>
      obtain ⟨w', hrun, h'⟩ := Rabin.renumber_balanced h
      exact ⟨w', run_bind hrun, h'⟩

theorem split_trades [DecidableEq S]
    (hreferences : ∀ set ∈ a.references, ∀ s ∈ set.handles, s.owner = i) (state : S)
    (edge : Edge S) {label : LetterSet} (hlabel : label.owner = i) :
    Trades i (a.split state edge label) [] (List.map Prod.fst) [] := by
  obtain ⟨condition, annotations⟩ := a
  cases condition with
  | marks c =>
      exact (LetterSet.copy_trades hlabel).bind fun copy =>
        Trades.pure (List.map Prod.fst) [(copy, edge.marks)]
  | rabin r =>
      exact Rabin.split_trades (fun set hset => hreferences set (List.mem_append_right _ hset))
        state hlabel

end Acceptance

end SymbolicOmega
