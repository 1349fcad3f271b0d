import SymbolicOmega.Proofs.Acceptance.Assembling

/-!
# Sets of transitions are sets of pairs

A set of transitions stands for the pairs of a state and a letter that were added to it.  All
questions are answered by these pairs, whether a state was never added or was added without any
letter, and so the order in which they were added shows in the order of the states alone.  A
question stays without an answer only if there is no cell for a node that is needed to compare two
labels.
-/

namespace SymbolicOmega

open Workspace

namespace TransitionSet

variable {S : Type}

namespace Insertions

variable {H G : Insertions S} {k : Nat}

/-- The pairs of a state and a letter over `k` propositions that were added. -/
def pairs (k : Nat) (H : Insertions S) : Set (S × BitSet) :=
  {pair | pair.2.IsOver k ∧ H.Has pair.1 pair.2}

theorem pairs_subset_iff : G.pairs k ⊆ H.pairs k ↔
    ∀ state (letter : BitSet), letter.IsOver k → G.Has state letter → H.Has state letter :=
  ⟨fun h _ _ hover hG => (h (a := (_, _)) ⟨hover, hG⟩).2,
    fun h pair hpair => ⟨hpair.1, h pair.1 pair.2 hpair.1 hpair.2⟩⟩

theorem has_singleton {state x : S} {letters : Set BitSet} {letter : BitSet} :
    Insertions.Has [(state, letters)] x letter ↔ x = state ∧ letter ∈ letters := by
  simp [Has, eq_comm]

theorem has_perm (h : G.Perm H) (state : S) (letter : BitSet) :
    G.Has state letter ↔ H.Has state letter := by
  simp only [Has, h.mem_iff]

theorem pairs_perm (h : G.Perm H) : G.pairs k = H.pairs k := by
  simp only [pairs, has_perm h]

end Insertions

variable [DecidableEq S]

/-! ## Answers -/

/-- The set answers as the set of the pairs that were added to it: whether it contains a transition,
for every letter; whether all letters of a live label are in it at a state; whether all
transitions of another set are in it; whether it is empty.  Its states stand in the order in which
they were first added. -/
structure Denotes (k owner : Nat) (a : Assembly S) (set : TransitionSet S) (H : Insertions S) :
    Prop where
  states : set.states = (H.map Prod.fst).eraseDups
  contains : ∀ state (letter : BitSet), ∃ b,
    set.contains state letter a.workspace = .ok b a.workspace ∧ (b = true ↔ H.Has state letter)
  containsAllAt : ∀ state, ∀ label ∈ a.labels,
    Outcome (set.containsAllAt state label) a.workspace
      (fun b _ => b = true ↔
        Insertions.pairs k [(state, label.contained a.workspace)] ⊆ H.pairs k)
      (NoCell owner)
  containsAll : ∀ other G, (other, G) ∈ a.stock →
    Outcome (set.containsAll other) a.workspace (fun b _ => b = true ↔ G.pairs k ⊆ H.pairs k)
      (NoCell owner)
  isEmpty : set.isEmpty = true ↔ H.pairs k = ∅

/-- The two questions are not answered differently. -/
def AnswersAgree (x : WorkM Bool) (w : Workspace) (x' : WorkM Bool) (w' : Workspace) : Prop :=
  ∀ b b', verdict x w = .ok b → verdict x' w' = .ok b' → b' = b

/-- The sets differ in the order of their states at most. -/
structure SameAnswers (a : Assembly S) (set : TransitionSet S) (a' : Assembly S)
    (set' : TransitionSet S) : Prop where
  states : set'.states.Perm set.states
  contains : ∀ state letter,
    verdict (set'.contains state letter) a'.workspace =
      verdict (set.contains state letter) a.workspace
  containsAllAt : ∀ state, ∀ label ∈ a.labels, ∀ label' ∈ a'.labels,
    label'.contained a'.workspace = label.contained a.workspace →
      AnswersAgree (set.containsAllAt state label) a.workspace
        (set'.containsAllAt state label') a'.workspace
  containsAll : ∀ other G other' G', (other, G) ∈ a.stock → (other', G') ∈ a'.stock →
    G'.Perm G → AnswersAgree (set.containsAll other) a.workspace
      (set'.containsAll other') a'.workspace
  isEmpty : set'.isEmpty = set.isEmpty

section
variable {k owner : Nat} {T U : LabelAccounts S} {set other : TransitionSet S}
variable {H G : Insertions S}

namespace Records

/-- One set covers no more than the other one if its pairs are among those of the other. -/
theorem covered_subset_iff (h : Records k owner T set H) (hU : Records k owner U other G) :
    (∀ state, U.covered state ⊆ T.covered state) ↔ G.pairs k ⊆ H.pairs k := by
  rw [Insertions.pairs_subset_iff]
  refine forall_congr' fun state => ?_
  rw [(hU.byLetters state).subset_iff (h.byLetters state)]
  simp only [hU.covered, h.covered]

/-- A set of transitions is empty if there are no pairs, also when there are states. -/
theorem isEmpty_iff {w : Workspace} {L : Ledger} (h : Records k owner T set H)
    (hw : w.Keeps owner k L) (hlisted : Account.ledger T.listed ⊆ L) :
    set.isEmpty = true ↔ H.pairs k = ∅ := by
  have hempty : (∀ state, T.covered state ⊆ ∅) ↔ H.pairs k ⊆ Insertions.pairs k [] :=
    (Records.empty k owner 0).covered_subset_iff h
  have hnone : (Insertions.pairs k [] : Set (S × BitSet)) = ∅ := by
    simp [Insertions.pairs, Insertions.Has]
  rw [hnone] at hempty
  rw [← Set.subset_empty_iff, ← hempty, TransitionSet.isEmpty, h.labels, LabelAccounts.labels,
    List.all_map, List.all_eq_true]
  have hlabel : ∀ entry ∈ T, (entry.2.set.isEmpty = true ↔ entry.2.assignments ⊆ ∅) := by
    intro entry hentry
    rw [Set.subset_empty_iff]
    exact LetterSet.isEmpty_iff hw
      (hlisted (List.mem_map_of_mem (List.mem_map_of_mem hentry)))
  constructor
  · intro hall state
    rw [LabelAccounts.covered]
    cases hown : T.lookup state with
    | none => exact subset_rfl
    | some own => exact (hlabel _ (mem_of_lookup hown)).1 (hall _ (mem_of_lookup hown))
  · intro hall entry hentry
    rw [Function.comp_apply, hlabel entry hentry,
      ← LabelAccounts.covered_of_mem h.distinct hentry]
    exact hall entry.1

end Records

namespace Accounted

variable {E : List (LetterSet × Set (Letter k))} {a : Assembly S}
variable {D : List (LabelAccounts S × TransitionSet S × Insertions S)}

/-- A set of transitions that covers what was added to it answers as the set of these pairs. -/
theorem denotes (h : Accounted k owner E D a.workspace) (hsets : a.sets = E.map Prod.fst)
    (hstock : a.stock = D.map Prod.snd) (hentry : (T, set, H) ∈ D) :
    Denotes k owner a set H := by
  have hrecords : Records k owner T set H := h.records _ hentry
  constructor
  · exact hrecords.states_eq
  · intro state letter
    obtain ⟨b, hrun, hb⟩ := contains_run h.serves.keeps (h.covers hentry state) letter
    exact ⟨b, hrun, hb.trans (hrecords.covered state letter)⟩
  · intro state label hlabel
    rw [Assembly.labels, hsets, hstock] at hlabel
    obtain ⟨A, hlisted, hA⟩ := h.exists_listed hlabel
    refine (h.askAt hentry hlisted state).mono (fun b _ hend => ?_) fun _ _ hend => hend.2
    rw [hend.2, hA.subset_iff (hrecords.byLetters state), Insertions.pairs_subset_iff,
      LetterSet.contained_eq h.serves.keeps hlisted]
    simp only [Insertions.has_singleton, hrecords.covered, Set.mem_preimage]
    exact ⟨fun hall x letter hover hletter => hletter.1 ▸ hall letter hover hletter.2,
      fun hall letter hover hletter => hall state letter hover ⟨rfl, hletter⟩⟩
  · intro other G hother
    obtain ⟨U, hentry'⟩ := exists_mem_of_snd (hstock ▸ hother)
    refine (h.ask hentry hentry').mono (fun b _ hend => ?_) fun _ _ hend => hend.2
    rw [hend.2, hrecords.covered_subset_iff (h.records _ hentry')]
  · exact hrecords.isEmpty_iff h.serves.keeps fun _ hlisted =>
      List.mem_append_right _ (List.mem_flatMap.2 ⟨_, hentry, hlisted⟩)

end Accounted

/-- Sets with the same pairs, added in any order, have the same answers. -/
theorem Denotes.sameAnswers {owner' : Nat} {a a' : Assembly S} {set' : TransitionSet S}
    {H' : Insertions S} (h : Denotes k owner a set H) (h' : Denotes k owner' a' set' H')
    (hperm : H'.Perm H) : SameAnswers a set a' set' where
  states := by
    rw [h.states, h'.states]
    refine (List.perm_ext_iff_of_nodup (nodup_eraseDups _) (nodup_eraseDups _)).2 fun state => ?_
    rw [List.mem_eraseDups, List.mem_eraseDups, (hperm.map _).mem_iff]
  contains state letter := by
    obtain ⟨b, hrun, hb⟩ := h.contains state letter
    obtain ⟨b', hrun', hb'⟩ := h'.contains state letter
    have hsame : b' = b := Bool.eq_iff_iff.2 (hb'.trans ((Insertions.has_perm hperm ..).trans hb.symm))
    rw [verdict, verdict, hrun, hrun', hsame]
  containsAllAt state label hlabel label' hlabel' hletters b b' hrun hrun' := by
    obtain ⟨w, hrun⟩ := run_of_verdict hrun
    obtain ⟨w', hrun'⟩ := run_of_verdict hrun'
    have hb := (h.containsAllAt state label hlabel).of_ok hrun
    have hb' := (h'.containsAllAt state label' hlabel').of_ok hrun'
    rw [hletters, Insertions.pairs_perm hperm] at hb'
    exact Bool.eq_iff_iff.2 (hb'.trans hb.symm)
  containsAll other G other' G' hother hother' hpermG b b' hrun hrun' := by
    obtain ⟨w, hrun⟩ := run_of_verdict hrun
    obtain ⟨w', hrun'⟩ := run_of_verdict hrun'
    have hb := (h.containsAll other G hother).of_ok hrun
    have hb' := (h'.containsAll other' G' hother').of_ok hrun'
    rw [Insertions.pairs_perm hpermG, Insertions.pairs_perm hperm] at hb'
    exact Bool.eq_iff_iff.2 (hb'.trans hb.symm)
  isEmpty := by
    rw [Bool.eq_iff_iff, h.isEmpty, h'.isEmpty, Insertions.pairs_perm hperm]

theorem Assembled.denotes {a : Assembly S} (h : Assembled k owner a) (hset : (set, H) ∈ a.stock) :
    Denotes k owner a set H := by
  obtain ⟨E, D, hsets, hstock, haccounted⟩ := h.accounted
  obtain ⟨T, hentry⟩ := exists_mem_of_snd (hstock ▸ hset)
  exact haccounted.denotes hsets hstock hentry

/-- Sets of transitions are sets of pairs.  Whatever was added to a set, in any order and with
failures on the way, it answers as the set of the pairs that were added; and where the same was
added to two sets in different orders, in one history or in two, they differ in the order of their
states at most. -/
theorem assembled_denotes {a : Assembly S} (h : Assembled k owner a) (hset : (set, H) ∈ a.stock) :
    Denotes k owner a set H ∧
      ∀ (owner' : Nat) (a' : Assembly S) (set' : TransitionSet S) (H' : Insertions S),
        Assembled k owner' a' → (set', H') ∈ a'.stock → H'.Perm H →
          SameAnswers a set a' set' :=
  ⟨h.denotes hset, fun _ _ _ _ h' hset' hperm =>
    (h.denotes hset).sameAnswers (h'.denotes hset') hperm⟩

end

/-! ## Two propositions -/

/-- The letters with the second proposition, three times, and those with the first one. -/
private def bothHalves : List LetterSet.Call :=
  [.proposition 1, .copy 0, .proposition 0, .copy 1]

/-- A table for `2 ^ storageBits` nodes that is never collected. -/
private def emptyTable (storageBits : Nat) : Workspace :=
  ofFactories [(Factory.ofSizing 2 ⟨storageBits, 2, 2 ^ storageBits⟩).toOption.getD default]

private def withSecond : LetterSet := ⟨0, ⟨2, false⟩⟩

private def withFirst : LetterSet := ⟨0, ⟨3, false⟩⟩

/-- Two sets of transitions without labels are created. -/
private def withTwo (w : Workspace) : Workspace :=
  ⟨w.factories, (w.nextTicket + 1) :: w.nextTicket :: w.holders, w.nextTicket + 2⟩

/-- The labels are made and two sets of transitions are created. -/
private def readied (storageBits : Nat) : Workspace :=
  withTwo (LetterSet.after 0 bothHalves (emptyTable storageBits))

/-- One of the two sets, with these labels. -/
private def growing (w : Workspace) (labels : List (Nat × LetterSet)) : TransitionSet Nat :=
  ⟨w.nextTicket - 2, 0, labels⟩

/-- The other set, with the second half of the letters at state 0. -/
private def seconds (w : Workspace) : TransitionSet Nat :=
  ⟨w.nextTicket - 1, 0, [(0, withSecond)]⟩

private def secondsRecord (w : Workspace) : Insertions Nat :=
  [(0, withSecond.contained w)]

private theorem readied_assembled {storageBits : Nat} {f : Factory}
    (hnew : Factory.ofSizing 2 ⟨storageBits, 2, 2 ^ storageBits⟩ = .ok f)
    (hmade : LetterSet.setsOf 0 bothHalves (emptyTable storageBits) =
      [withSecond, withFirst, withSecond, withSecond]) :
    Assembled 2 0 ⟨[withFirst, withSecond, withSecond],
      [(growing (readied storageBits) [], []),
        (seconds (readied storageBits), secondsRecord (readied storageBits))],
      readied storageBits⟩ := by
  have hempty : emptyTable storageBits = ofFactories [f] := by
    simp [emptyTable, hnew, Except.toOption]
  have hrun := LetterSet.performAll_eq (hmade ▸ List.cons_ne_nil _ _)
  rw [hmade] at hrun
  unfold readied
  generalize LetterSet.after 0 bothHalves (emptyTable storageBits) = w at hrun ⊢
  rw [hempty] at hrun
  have hlabels : Assembled 2 0 ⟨[withSecond, withFirst, withSecond, withSecond],
      ([] : List (TransitionSet Nat × Insertions Nat)), w⟩ :=
    (Assembled.new hnew rfl (ofFactories_hasHistory hnew)).performAll
      (fun call _ => call.signed_of_lt (by decide)) hrun
  have hcreated : Assembled 2 0 ⟨[withSecond, withFirst, withSecond, withSecond],
      [(⟨w.nextTicket + 1, 0, []⟩, []), (growing (withTwo w) [], [])], withTwo w⟩ :=
    (hlabels.created rfl).created rfl
  have hinserted : Assembled 2 0 ⟨[withFirst, withSecond, withSecond],
      [(seconds (withTwo w), secondsRecord (withTwo w)), (growing (withTwo w) [], [])],
      withTwo w⟩ := hcreated.inserted 0 rfl
  exact hinserted.arranged (.refl _) (.swap ..) rfl

private def roomy : Workspace := readied 3

/-- The set after the second half of the letters is added at state 0, and the workspace then. -/
private def grown (labels : List (Nat × LetterSet)) : TransitionSet Nat × Workspace :=
  match (growing roomy labels).insert 0 withSecond roomy with
  | .ok set w => (set, w)
  | .error _ w => (growing roomy labels, w)

private def grownRecord (labels : List (Nat × LetterSet)) : Insertions Nat :=
  labels.map (fun entry => (entry.1, entry.2.contained roomy)) ++
    [(0, withSecond.contained roomy)]

/-- What a program has that added these letters and then the second half at state 0. -/
private def merged (labels : List (Nat × LetterSet)) : Assembly Nat where
  sets := []
  stock := [((grown labels).1, grownRecord labels), (seconds roomy, secondsRecord roomy)]
  workspace := (grown labels).2

/-- The first half at state 0 and the second half at state 1. -/
private def firstThenSecond : List (Nat × LetterSet) := [(0, withFirst), (1, withSecond)]

private def secondThenFirst : List (Nat × LetterSet) := [(1, withSecond), (0, withFirst)]

private theorem grown_run {labels : List (Nat × LetterSet)}
    (h : (verdict ((growing roomy labels).insert 0 withSecond) roomy).isOk = true) :
    (growing roomy labels).insert 0 withSecond roomy = .ok (grown labels).1 (grown labels).2 := by
  rw [grown]
  rw [verdict] at h
  cases hrun : (growing roomy labels).insert 0 withSecond roomy with
  | ok set w => rfl
  | error fault w =>
      rw [hrun] at h
      cases h

private theorem roomy_assembled : Assembled 2 0 ⟨[withFirst, withSecond, withSecond],
    [(growing roomy [], []), (seconds roomy, secondsRecord roomy)], roomy⟩ :=
  readied_assembled rfl (by decide +kernel)

-- From here on the workspace is only run by the kernel.
attribute [irreducible] roomy

private theorem firstThenSecond_assembled : Assembled 2 0 (merged firstThenSecond) := by
  have hfirst : Assembled 2 0 ⟨[withSecond, withSecond],
      [(growing roomy [(0, withFirst)], [(0, withFirst.contained roomy)]),
        (seconds roomy, secondsRecord roomy)], roomy⟩ := roomy_assembled.inserted 0 rfl
  have hboth : Assembled 2 0 ⟨[withSecond],
      [(growing roomy firstThenSecond,
          [(0, withFirst.contained roomy), (1, withSecond.contained roomy)]),
        (seconds roomy, secondsRecord roomy)], roomy⟩ := hfirst.inserted 1 rfl
  exact hboth.inserted 0 (grown_run (by decide +kernel))

private theorem secondThenFirst_assembled : Assembled 2 0 (merged secondThenFirst) := by
  have hswapped : Assembled 2 0 ⟨[withSecond, withFirst, withSecond],
      [(growing roomy [], []), (seconds roomy, secondsRecord roomy)], roomy⟩ :=
    roomy_assembled.arranged (.swap ..) (.refl _) rfl
  have hsecond : Assembled 2 0 ⟨[withFirst, withSecond],
      [(growing roomy [(1, withSecond)], [(1, withSecond.contained roomy)]),
        (seconds roomy, secondsRecord roomy)], roomy⟩ := hswapped.inserted 1 rfl
  have hboth : Assembled 2 0 ⟨[withSecond],
      [(growing roomy secondThenFirst,
          [(1, withSecond.contained roomy), (0, withFirst.contained roomy)]),
        (seconds roomy, secondsRecord roomy)], roomy⟩ := hsecond.inserted 0 rfl
  exact hboth.inserted 0 (grown_run (by decide +kernel))

private theorem grownRecord_perm : (grownRecord secondThenFirst).Perm (grownRecord firstThenSecond) :=
  ((List.Perm.swap ..).map _).append_right _

/-- The theorem where labels were merged at a state: the set has the transitions of the other one
and not conversely, and had the states been added in the other order, it would only list them in
that order. -/
theorem merged_denotes :
    Assembled 2 0 (merged firstThenSecond) ∧
      ((grown firstThenSecond).1, grownRecord firstThenSecond) ∈ (merged firstThenSecond).stock ∧
      Denotes 2 0 (merged firstThenSecond) (grown firstThenSecond).1
        (grownRecord firstThenSecond) ∧
      SameAnswers (merged firstThenSecond) (grown firstThenSecond).1
        (merged secondThenFirst) (grown secondThenFirst).1 ∧
      (grown firstThenSecond).1.states = [0, 1] ∧ (grown secondThenFirst).1.states = [1, 0] ∧
      verdict ((grown firstThenSecond).1.containsAll (seconds roomy))
        (merged firstThenSecond).workspace = .ok true ∧
      verdict ((seconds roomy).containsAll (grown firstThenSecond).1)
        (merged firstThenSecond).workspace = .ok false := by
  have hanswers := assembled_denotes firstThenSecond_assembled List.mem_cons_self
  exact ⟨firstThenSecond_assembled, List.mem_cons_self, hanswers.1,
    hanswers.2 0 _ _ _ secondThenFirst_assembled List.mem_cons_self grownRecord_perm,
    by decide +kernel, by decide +kernel, by decide +kernel, by decide +kernel⟩

private def full : Workspace := readied 2

private theorem full_assembled : Assembled 2 0 ⟨[withFirst, withSecond, withSecond],
    [(growing full [], []), (seconds full, secondsRecord full)], full⟩ :=
  readied_assembled rfl (by decide +kernel)

attribute [irreducible] full

/-- The first half of the letters is added to the set that had none. -/
private def crowded : Assembly Nat where
  sets := [withSecond, withSecond]
  stock := [(growing full [(0, withFirst)], [(0, withFirst.contained full)]),
    (seconds full, secondsRecord full)]
  workspace := full

private theorem crowded_assembled : Assembled 2 0 crowded :=
  full_assembled.inserted 0 rfl

/-- Where the two halves fill the table, it is not answered whether one set has the transitions of
the other: to compare the two labels takes a node. -/
theorem crowded_unanswered :
    Assembled 2 0 crowded ∧
      (growing full [(0, withFirst)], [(0, withFirst.contained full)]) ∈ crowded.stock ∧
      (seconds full, secondsRecord full) ∈ crowded.stock ∧
      verdict ((growing full [(0, withFirst)]).containsAll (seconds full)) crowded.workspace =
        .error .storageFull ∧
      ¬ ∃ b w, (growing full [(0, withFirst)]).containsAll (seconds full) crowded.workspace =
        .ok b w := by
  have hfault : verdict ((growing full [(0, withFirst)]).containsAll (seconds full))
      crowded.workspace = .error .storageFull := by decide +kernel
  refine ⟨crowded_assembled, List.mem_cons_self, List.mem_cons_of_mem _ List.mem_cons_self,
    hfault, ?_⟩
  rintro ⟨b, w, hrun⟩
  rw [verdict, hrun] at hfault
  cases hfault

end TransitionSet

end SymbolicOmega
