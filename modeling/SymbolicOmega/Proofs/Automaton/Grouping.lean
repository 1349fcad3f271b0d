import SymbolicOmega.Proofs.Automaton.RowCustody
import SymbolicOmega.Proofs.BitSet.Subsets
import SymbolicOmega.Proofs.Letters.Accounts

/-!
# Rows by grouping letters

A row that is found letter by letter lists the edges in the order in which the letters first take
them, each once, and labels an edge with the letters that take it.  If a set cannot be made on the
way, what was made before is given back.
-/

namespace SymbolicOmega

/-- The edges of a row, each with what its label is made of. -/
abbrev RowMeaning (S α : Type) := List (Edge S × Set α)

namespace RowMeaning

variable {S α : Type} [DecidableEq S]

/-- Let `edge` be taken on more letters. -/
def merge (edge : Edge S) (more : Set α) : RowMeaning S α → RowMeaning S α
  | [] => [(edge, more)]
  | (e, A) :: rest =>
      if e = edge then (e, A ∪ more) :: rest else (e, A) :: merge edge more rest

/-- Add what a state does on one letter. -/
def group (label : BitSet → Set α) (step : BitSet → Option (Edge S)) (row : RowMeaning S α)
    (letter : BitSet) : RowMeaning S α :=
  match step letter with
  | none => row
  | some edge => row.merge edge (label letter)

/-- All that takes an edge. -/
def takers (label : BitSet → Set α) (step : BitSet → Option (Edge S)) (letters : List BitSet)
    (edge : Edge S) : Set α :=
  {x | ∃ letter ∈ letters, step letter = some edge ∧ x ∈ label letter}

/-- The edges in the order of the letters that first take them, each with all that takes it. -/
def grouped (label : BitSet → Set α) (step : BitSet → Option (Edge S)) (letters : List BitSet) :
    RowMeaning S α :=
  (letters.filterMap step).eraseDups.map fun edge => (edge, takers label step letters edge)

omit [DecidableEq S] in
theorem takers_append (label : BitSet → Set α) (step : BitSet → Option (Edge S))
    (letters : List BitSet) (letter : BitSet) (edge : Edge S) :
    takers label step (letters ++ [letter]) edge =
      takers label step letters edge ∪ {x | step letter = some edge ∧ x ∈ label letter} := by
  ext x
  simp [takers, or_and_right, exists_or]

theorem merge_of_notMem {edge : Edge S} {more : Set α} {row : RowMeaning S α}
    (h : edge ∉ row.map Prod.fst) : row.merge edge more = row ++ [(edge, more)] := by
  induction row with
  | nil => rfl
  | cons entry rest ih =>
      rw [List.map_cons, List.mem_cons, not_or] at h
      rw [merge, if_neg (Ne.symm h.1), ih h.2]
      rfl

theorem merge_of_mem {edge : Edge S} {more : Set α} {edges : List (Edge S)}
    (f : Edge S → Set α) (hnodup : edges.Nodup) (h : edge ∈ edges) :
    merge edge more (edges.map fun e => (e, f e)) =
      edges.map fun e => (e, if e = edge then f e ∪ more else f e) := by
  induction edges with
  | nil => cases h
  | cons e rest ih =>
      obtain ⟨he, hrest⟩ := List.nodup_cons.1 hnodup
      rw [List.map_cons, List.map_cons, merge]
      by_cases hsame : e = edge
      · subst hsame
        rw [if_pos rfl, if_pos rfl]
        refine congrArg _ (List.map_congr_left fun e' he' => ?_)
        have hne : e' ≠ e := fun heq => he (heq ▸ he')
        rw [if_neg hne]
      · have hlater : edge ∈ rest := (List.mem_cons.1 h).resolve_left (Ne.symm hsame)
        rw [if_neg hsame, if_neg hsame, ih hrest hlater]

/-- One letter more. -/
theorem grouped_append (label : BitSet → Set α) (step : BitSet → Option (Edge S))
    (letters : List BitSet) (letter : BitSet) :
    grouped label step (letters ++ [letter]) =
      (grouped label step letters).group label step letter := by
  unfold group grouped
  rw [List.filterMap_append]
  cases hstep : step letter with
  | none => simp [hstep, takers_append]
  | some edge =>
      simp only [takers_append, List.filterMap_cons, hstep, List.filterMap_nil,
        eraseDups_append_singleton, Option.some.injEq]
      by_cases hmem : edge ∈ letters.filterMap step
      · rw [if_pos hmem, merge_of_mem _ (nodup_eraseDups _) (List.mem_eraseDups.2 hmem)]
        refine List.map_congr_left fun e _ => Prod.ext rfl ?_
        by_cases he : e = edge
        · simp [he]
        · simp [he, Ne.symm he]
      · have hfresh : edge ∉ (letters.filterMap step).eraseDups := mt List.mem_eraseDups.1 hmem
        have hnone : takers label step letters edge = ∅ :=
          Set.eq_empty_of_forall_notMem fun x ⟨l, hl, hsome, _⟩ =>
            hmem (List.mem_filterMap.2 ⟨l, hl, hsome⟩)
        rw [if_neg hmem, merge_of_notMem (by simpa using hmem), List.map_append]
        refine congrArg₂ _ (List.map_congr_left fun e he => Prod.ext rfl ?_) ?_
        · have hne : edge ≠ e := fun heq => hfresh (heq ▸ he)
          simp [hne]
        · simp [hnone]

/-- Letter by letter the row that groups all letters comes about. -/
theorem foldl_group (label : BitSet → Set α) (step : BitSet → Option (Edge S))
    (letters : List BitSet) : letters.foldl (group label step) [] = grouped label step letters := by
  induction letters using List.reverseRecOn with
  | nil => rfl
  | append_singleton letters letter ih =>
      rw [List.foldl_append, List.foldl_cons, List.foldl_nil, ih, grouped_append]

end RowMeaning

open Workspace

/-- The letters over `k` propositions that agree with a letter on an alphabet. -/
def agreeingWith (k : Nat) (alphabet letter : BitSet) : Set Assignment :=
  Set.preimage (letterAt k) (agreeing (letter.over k) (alphabet.over k))

/-! ## Books of a row -/

/-- The books that are kept while the row of a state with an alphabet is made.  An entry is a set
with the assignments it is made of.  That exactly these sets are there is said by `kept`, and
after a fault by `left`. -/
structure LabelBooks (i k : Nat) (alphabet : BitSet) (α : Type) where
  set : α → LetterSet
  assignments : α → Set Assignment
  kept : List α → Workspace → Prop
  left : List α → Fault → Workspace → Prop
  size : ∀ {L w}, kept L w → askFactory i (fun f => .ok f.alphabetSize) w = .ok k w
  perm : ∀ {L L' w}, kept L w → L.Perm L' → kept L' w
  left_perm : ∀ {L L' fault w}, left L fault w → L.Perm L' → left L' fault w
  restricted : ∀ {L w} letter, kept L w → Outcome (LetterSet.restricted i letter alphabet) w
    (fun s w' => ∃ entry, s = set entry ∧ assignments entry = agreeingWith k alphabet letter ∧
      kept (entry :: L) w')
    (left L)
  absorb : ∀ {own other L w}, kept (own :: other :: L) w →
    Outcome ((set own).absorb (set other)) w
      (fun s w' => ∃ entry, s = set entry ∧
        assignments entry = assignments own ∪ assignments other ∧ kept (entry :: L) w')
      (left (own :: L))
  releaseAll : ∀ {E L fault w}, left (E ++ L) fault w →
    ∃ w', LetterSet.releaseAll (E.map set) w = .ok () w' ∧ left L fault w'

namespace LabelBooks

variable {S α : Type} {i k : Nat} {alphabet : BitSet} (books : LabelBooks i k alphabet α)

/-- The row whose labels are entered. -/
def row (E : List (Edge S × α)) : Row S :=
  E.map fun entry => (entry.1, books.set entry.2)

/-- What the labels of the row are made of. -/
def meaning (E : List (Edge S × α)) : RowMeaning S Assignment :=
  E.map fun entry => (entry.1, books.assignments entry.2)

theorem labels_row (E : List (Edge S × α)) :
    (books.row E).labels = (E.map Prod.snd).map books.set := by
  simp [row, Row.labels]

variable [DecidableEq S] {w : Workspace} {L : List α} {E : List (Edge S × α)}

/-- A label is merged into a row, or given back with the row left as it was. -/
theorem merge_outcome {edge : Edge S} {label : α}
    (h : books.kept (label :: (E.map Prod.snd ++ L)) w) :
    Outcome (Row.merge edge (books.set label) (books.row E)) w
      (fun row' w' => ∃ E' : List (Edge S × α), row' = books.row E' ∧
        books.meaning E' = (books.meaning E).merge edge (books.assignments label) ∧
        books.kept (E'.map Prod.snd ++ L) w')
      (books.left (E.map Prod.snd ++ L)) := by
  induction E generalizing L with
  | nil => exact Outcome.pure ⟨[(edge, label)], rfl, rfl, h⟩
  | cons entry rest ih =>
      obtain ⟨e, own⟩ := entry
      change Outcome (if e = edge then _ else _) w _ _
      by_cases hsame : e = edge
      · have hmerged : (books.meaning ((e, own) :: rest)).merge edge (books.assignments label) =
            (e, books.assignments own ∪ books.assignments label) :: books.meaning rest :=
          if_pos hsame
        rw [if_pos hsame]
        refine Outcome.andThen (books.absorb (books.perm h (.swap ..))) ?_
        rintro _ w' ⟨both, rfl, hboth, hw'⟩
        refine Outcome.pure ⟨(e, both) :: rest, rfl, ?_, hw'⟩
        rw [hmerged, ← hboth]
        rfl
      · have hmerged : (books.meaning ((e, own) :: rest)).merge edge (books.assignments label) =
            (e, books.assignments own) :: (books.meaning rest).merge edge (books.assignments label) :=
          if_neg hsame
        rw [if_neg hsame]
        have hlater : books.kept (label :: (rest.map Prod.snd ++ own :: L)) w :=
          books.perm h (.cons _ List.perm_middle.symm)
        refine Outcome.bind ((ih hlater).mono ?_ fun _ w' hw' =>
          books.left_perm hw' List.perm_middle)
        rintro _ w' ⟨E', rfl, hE', hw'⟩
        refine Outcome.pure ⟨(e, own) :: E', rfl, ?_, books.perm hw' List.perm_middle⟩
        rw [hmerged, ← hE']
        rfl

/-- What a state does on one letter is added to its row, or the row is given back. -/
theorem groupLetter_outcome {step : BitSet → Option (Edge S)}
    (h : books.kept (E.map Prod.snd ++ L) w) (letter : BitSet) :
    Outcome (StateSpace.groupLetter i alphabet step (books.row E) letter) w
      (fun row' w' => ∃ E' : List (Edge S × α), row' = books.row E' ∧
        books.meaning E' = (books.meaning E).group (agreeingWith k alphabet) step letter ∧
        books.kept (E'.map Prod.snd ++ L) w')
      (books.left L) := by
  unfold StateSpace.groupLetter RowMeaning.group
  cases step letter with
  | none => exact Outcome.pure ⟨E, rfl, rfl, h⟩
  | some edge =>
      refine onFault_outcome ?_
      have hinner : Outcome (do
            let label ← LetterSet.restricted i letter alphabet
            (books.row E).merge edge label) w
          (fun row' w' => ∃ E' : List (Edge S × α), row' = books.row E' ∧
            books.meaning E' = (books.meaning E).merge edge (agreeingWith k alphabet letter) ∧
            books.kept (E'.map Prod.snd ++ L) w')
          (books.left (E.map Prod.snd ++ L)) := by
        refine Outcome.andThen (books.restricted letter h) ?_
        rintro _ w' ⟨label, rfl, hlabel, hw'⟩
        rw [← hlabel]
        exact books.merge_outcome hw'
      refine hinner.mono (fun _ _ hend => hend) fun fault w' hw' => ?_
      obtain ⟨w'', hrelease, hw''⟩ := books.releaseAll hw'
      rw [← books.labels_row] at hrelease
      exact Outcome.of_run hrelease hw''

/-- Letter by letter a row is grouped, or nothing of it is left behind. -/
theorem foldlM_groupLetter_outcome {step : BitSet → Option (Edge S)}
    (h : books.kept (E.map Prod.snd ++ L) w) (letters : List BitSet) :
    Outcome (letters.foldlM (StateSpace.groupLetter i alphabet step) (books.row E)) w
      (fun row' w' => ∃ E' : List (Edge S × α), row' = books.row E' ∧
        books.meaning E' =
          letters.foldl (RowMeaning.group (agreeingWith k alphabet) step) (books.meaning E) ∧
        books.kept (E'.map Prod.snd ++ L) w')
      (books.left L) := by
  induction letters generalizing w E with
  | nil => exact Outcome.pure ⟨E, rfl, rfl, h⟩
  | cons letter rest ih =>
      rw [List.foldlM_cons, List.foldl_cons]
      refine Outcome.andThen (books.groupLetter_outcome h letter) ?_
      rintro _ w' ⟨E', rfl, hE', hw'⟩
      rw [← hE']
      exact ih hw'

end LabelBooks

namespace StateSpace

/-- The letters that a state with this alphabet is tried on. -/
def triedLetters (k : Nat) (sensitive : Option BitSet) : List BitSet :=
  (Subsets.of (inspected k sensitive)).toList

/-- What a row means that is found letter by letter. -/
def stepMeaning {S : Type} [DecidableEq S] (k : Nat) (sensitive : Option BitSet)
    (step : BitSet → Option (Edge S)) : RowMeaning S Assignment :=
  RowMeaning.grouped (agreeingWith k (inspected k sensitive)) step (triedLetters k sensitive)

end StateSpace

/-- The row of a state is grouped as it should be, or nothing of it is left behind. -/
theorem LabelBooks.groupLetters_outcome {S α : Type} [DecidableEq S] {i k : Nat}
    {sensitive : Option BitSet} (books : LabelBooks i k (StateSpace.inspected k sensitive) α)
    {w : Workspace} {L : List α} (h : books.kept L w) (step : BitSet → Option (Edge S)) :
    Outcome (StateSpace.groupLetters i sensitive step) w
      (fun row w' => ∃ E : List (Edge S × α), row = books.row E ∧
        books.meaning E = StateSpace.stepMeaning k sensitive step ∧
        books.kept (E.map Prod.snd ++ L) w')
      (books.left L) := by
  refine Outcome.bind_ok (books.size h) ?_
  rw [StateSpace.stepMeaning, ← RowMeaning.foldl_group]
  exact books.foldlM_groupLetter_outcome (E := []) h _

/-- The edges of a row with the accounts of their labels. -/
abbrev AccountRow (S : Type) := List (Edge S × Account)

namespace AccountRow

variable {S : Type}

def row (E : AccountRow S) : Row S :=
  E.map fun entry => (entry.1, entry.2.set)

def accounts (E : AccountRow S) : List Account :=
  E.map Prod.snd

def meaning (E : AccountRow S) : RowMeaning S Assignment :=
  E.map fun entry => (entry.1, entry.2.assignments)

@[simp]
theorem labels_row (E : AccountRow S) : E.row.labels = E.accounts.map Account.set := by
  simp [row, Row.labels, accounts]

end AccountRow

variable {S : Type} [DecidableEq S] {w : Workspace} {i k : Nat} {L : List Account}

omit [DecidableEq S] in
/-- A row whose labels are in the ledger reads as what they mean. -/
theorem AccountRow.reads (E : AccountRow S) (h : w.Keeps i k (Account.ledger L))
    (hlisted : ∀ account ∈ E.accounts, account ∈ L) :
    E.row.Reads w (E.meaning.map fun entry => (entry.1, readingOf entry.2)) := by
  have hrow : E.row = ReadRow.row
      (E.map fun entry => ((entry.1, entry.2.set), readingOf entry.2.assignments)) := by
    simp [ReadRow.row, AccountRow.row, Function.comp_def]
  have hreading : E.meaning.map (fun entry => (entry.1, readingOf entry.2)) = ReadRow.reading
      (E.map fun entry => ((entry.1, entry.2.set), readingOf entry.2.assignments)) := by
    simp [ReadRow.reading, AccountRow.meaning, Function.comp_def]
  rw [hrow, hreading]
  refine ReadRow.reads h.retains fun label hlabel => ?_
  obtain ⟨_, hentry, rfl⟩ := List.mem_map.1 hlabel
  obtain ⟨entry, hmem, rfl⟩ := List.mem_map.1 hentry
  rw [Account.ledger, List.map_map]
  exact List.mem_map_of_mem
    (f := fun account : Account => (account.set, readingOf account.assignments))
    (hlisted _ (List.mem_map_of_mem hmem))

/-- The books of rows whose labels are in custody. -/
def Account.books (i k : Nat) (alphabet : BitSet) : LabelBooks i k alphabet Account where
  set := Account.set
  assignments := Account.assignments
  kept L w := w.Tends i k L
  left L _ w := w.Tends i k L
  size h := by
    obtain ⟨f, hf, hholds⟩ := h.retains.holds
    rw [← hholds.alphabet]
    exact askFactory_run hf rfl
  perm h hperm := h.perm hperm
  left_perm h hperm := h.perm hperm
  restricted letter h := (LetterSet.restricted_tends h letter alphabet).imp
    fun _ _ ⟨_, hw'⟩ => ⟨_, rfl, rfl, hw'⟩
  absorb h := (LetterSet.absorb_tends h).imp fun _ _ ⟨_, hw'⟩ => ⟨_, rfl, rfl, hw'⟩
  releaseAll h := LetterSet.releaseAll_tends h

namespace StateSpace

/-- The row of a state is grouped as it should be, or nothing of it is left behind. -/
theorem groupLetters_tends (h : w.Tends i k L) (sensitive : Option BitSet)
    (step : BitSet → Option (Edge S)) :
    Outcome (groupLetters i sensitive step) w
      (fun row w' => ∃ E : AccountRow S, row = E.row ∧ E.meaning = stepMeaning k sensitive step ∧
        w'.Tends i k (E.accounts ++ L))
      (fun _ w' => w'.Tends i k L) :=
  (Account.books i k (inspected k sensitive)).groupLetters_outcome h step

/-! ## What the labels answer -/

/-- What a row reads as that is found letter by letter: an edge is taken on the letters on whose
part that the state looks at `step` answers it. -/
def stepReading (k : Nat) (sensitive : Option BitSet) (step : BitSet → Option (Edge S)) :
    RowReading S :=
  ((triedLetters k sensitive).filterMap step).eraseDups.map fun edge =>
    (edge, fun letter =>
      .ok (decide (step (letter.filter (inspected k sensitive).contains) = some edge)))

theorem lt_of_inspected {sensitive : Option BitSet} {p : Nat}
    (hp : (inspected k sensitive).contains p = true) : p < k := by
  cases sensitive with
  | none => simpa [inspected] using hp
  | some alphabet =>
      simp only [inspected, BitSet.filter, BitSet.contains_ofList, decide_eq_true_eq,
        List.mem_filter] at hp
      exact hp.2

/-- The part of a letter in an alphabet. -/
theorem contains_part (letter alphabet : BitSet) (p : Nat) :
    (letter.filter alphabet.contains).contains p = (letter.contains p && alphabet.contains p) := by
  rw [BitSet.filter, BitSet.contains_ofList, Bool.eq_iff_iff]
  simp [BitSet.mem_toList]

/-- A letter agrees with another one on an alphabet whose numbers fit. -/
theorem mem_agreeingWith {sensitive : Option BitSet}
    (hfit : ∀ p, (inspected k sensitive).contains p = true → p + 1 < 2 ^ 32) (letter l : BitSet) :
    letter.assignment ∈ agreeingWith k (inspected k sensitive) l ↔
      ∀ p, (inspected k sensitive).contains p = true → l.contains p = letter.contains p := by
  constructor
  · intro h p hp
    have hmem := mem_letterAt_assignment (p := ⟨p, lt_of_inspected hp⟩) (hfit p hp) letter
    exact (Bool.eq_iff_iff.2 (hmem.symm.trans (h ⟨p, lt_of_inspected hp⟩ hp))).symm
  · intro h p hp
    exact (mem_letterAt_assignment (hfit p hp) letter).trans (Bool.eq_iff_iff.1 (h p hp)).symm

omit [DecidableEq S] in
/-- A letter takes an edge by its part in the alphabet. -/
theorem mem_takers_iff {sensitive : Option BitSet}
    (hfit : ∀ p, (inspected k sensitive).contains p = true → p + 1 < 2 ^ 32)
    (step : BitSet → Option (Edge S)) (edge : Edge S) (letter : BitSet) :
    letter.assignment ∈ RowMeaning.takers (agreeingWith k (inspected k sensitive)) step
        (triedLetters k sensitive) edge ↔
      step (letter.filter (inspected k sensitive).contains) = some edge := by
  generalize hpart : letter.filter (inspected k sensitive).contains = part
  have hcontains : ∀ p, part.contains p =
      (letter.contains p && (inspected k sensitive).contains p) := hpart ▸ contains_part letter _
  constructor
  · rintro ⟨l, hl, hstep, hmem⟩
    have hsame : l = part := BitSet.ext_contains fun p => by
      rw [hcontains]
      cases hp : (inspected k sensitive).contains p with
      | true => simpa using (mem_agreeingWith hfit letter l).1 hmem p hp
      | false => simpa [hp] using mt (Subsets.mem_toList.1 hl p)
    rw [← hsame, hstep]
  · intro hstep
    refine ⟨part, Subsets.mem_toList.2 fun p hp => ?_, hstep,
      (mem_agreeingWith hfit letter part).2 fun p hp => ?_⟩
    · rw [hcontains, Bool.and_eq_true] at hp
      exact hp.2
    · rw [hcontains, hp, Bool.and_true]

omit [DecidableEq S] in
/-- A letter that is tried is its own part in the alphabet. -/
theorem part_of_tried {sensitive : Option BitSet} {letter : BitSet}
    (h : letter ∈ triedLetters k sensitive) :
    letter.filter (inspected k sensitive).contains = letter := by
  refine BitSet.ext_contains fun p => ?_
  rw [contains_part]
  cases hp : letter.contains p with
  | true => simpa using Subsets.mem_toList.1 h p hp
  | false => rfl

theorem mem_stepMeaning {sensitive : Option BitSet} {step : BitSet → Option (Edge S)}
    {entry : Edge S × Set Assignment} :
    entry ∈ stepMeaning k sensitive step ↔
      (∃ letter ∈ triedLetters k sensitive, step letter = some entry.1) ∧
        entry.2 = RowMeaning.takers (agreeingWith k (inspected k sensitive)) step
          (triedLetters k sensitive) entry.1 := by
  rw [stepMeaning, RowMeaning.grouped, List.mem_map]
  simp only [List.mem_eraseDups, List.mem_filterMap]
  constructor
  · rintro ⟨edge, htried, rfl⟩
    exact ⟨htried, rfl⟩
  · rintro ⟨htried, htakers⟩
    exact ⟨entry.1, htried, Prod.ext rfl htakers.symm⟩

/-- No label is empty: one of the letters that are tried takes its edge. -/
theorem exists_tried_of_mem_stepMeaning {sensitive : Option BitSet}
    (hfit : ∀ p, (inspected k sensitive).contains p = true → p + 1 < 2 ^ 32)
    {step : BitSet → Option (Edge S)} {entry : Edge S × Set Assignment}
    (h : entry ∈ stepMeaning k sensitive step) :
    ∃ letter ∈ triedLetters k sensitive, letter.assignment ∈ entry.2 ∧
      step (letter.filter (inspected k sensitive).contains) = some entry.1 := by
  obtain ⟨⟨letter, hletter, hstep⟩, htakers⟩ := mem_stepMeaning.1 h
  have hown := (congrArg step (part_of_tried hletter)).trans hstep
  exact ⟨letter, hletter, htakers ▸ (mem_takers_iff hfit step entry.1 letter).2 hown, hown⟩

theorem reading_stepMeaning (hk : k < 2 ^ 31) (sensitive : Option BitSet)
    (step : BitSet → Option (Edge S)) :
    (stepMeaning k sensitive step).map (fun entry => (entry.1, readingOf entry.2)) =
      stepReading k sensitive step := by
  rw [stepMeaning, RowMeaning.grouped, List.map_map, stepReading]
  refine List.map_congr_left fun edge _ => Prod.ext rfl (funext fun letter => ?_)
  refine readingOf_of_iff ?_
  rw [decide_eq_true_iff, mem_takers_iff fun p hp => ?_]
  have hlt := lt_of_inspected hp
  omega

/-- Rows that are found letter by letter are pure while proposition numbers fit. -/
theorem ofStep_pure (hk : k < 2 ^ 31) (owner : Nat) (held : Custody)
    (sensitive : S → Option BitSet) (step : S → BitSet → Option (Edge S)) :
    (ofStep sensitive step).Pure owner k held
      (fun state => stepReading k (sensitive state) (step state)) := by
  intro w L state h
  -- The row uses none of the sets that are held.
  generalize held ++ L = C at h ⊢
  obtain ⟨M, rfl, hkeeps⟩ := h.exists_keeps hk
  have hledger : Account.ledger (M.map fun entry => ⟨entry.1, readingOf entry.2, entry.2⟩) = M := by
    simp [Account.ledger, Function.comp_def]
  have hcustody : Account.custody (M.map fun entry => ⟨entry.1, readingOf entry.2, entry.2⟩) =
      M.map fun entry => (entry.1, readingOf entry.2) := by
    simp [Account.custody, Function.comp_def]
  have htends : w.Tends owner k (M.map fun entry => ⟨entry.1, readingOf entry.2, entry.2⟩) :=
    ⟨hcustody ▸ h, fun _ => hledger.symm ▸ hkeeps⟩
  refine (groupLetters_tends htends (sensitive state) (step state)).mono ?_
    fun _ w' hw' => hcustody ▸ hw'.retains
  rintro _ w' ⟨E, rfl, hE, hw'⟩
  refine ⟨E.map fun entry => ((entry.1, entry.2.set), readingOf entry.2.assignments), ?_, ?_, ?_⟩
  · simp [ReadRow.row, AccountRow.row, Function.comp_def]
  · refine Eq.trans ?_ (reading_stepMeaning hk (sensitive state) (step state))
    rw [← hE]
    simp [ReadRow.reading, AccountRow.meaning, Function.comp_def]
  · have hretains := (hw'.keeps hk).retains
    rw [Account.ledger_append, hledger, List.map_append] at hretains
    simpa [ReadRow.custody, Account.ledger, AccountRow.accounts, Function.comp_def] using hretains

/-- A row with a copy of each label. -/
def copyRow (row : Row S) : WorkM (Row S) :=
  row.mapM fun entry => return (entry.1, ← entry.2.copy)

omit [DecidableEq S] in
theorem copyRow_retains (E : ReadRow S) {C : Custody} (h : w.Retains i k C)
    (hlisted : ∀ entry ∈ E.custody, entry ∈ C) :
    ∃ w', copyRow E.row w = .ok E.row w' ∧ w'.Retains i k (E.custody ++ C) := by
  induction E generalizing w C with
  | nil => exact ⟨w, rfl, h⟩
  | cons first rest ih =>
      obtain ⟨hfirst, hrest⟩ := List.forall_mem_cons.1 hlisted
      obtain ⟨w₁, hcopy, hw₁⟩ := LetterSet.copy_retains h hfirst
      obtain ⟨w₂, hmore, hw₂⟩ := ih hw₁ fun entry hentry =>
        List.mem_cons_of_mem _ (hrest entry hentry)
      refine ⟨w₂, ?_, hw₂.perm List.perm_middle⟩
      have hentry : (do return (first.1.1, ← first.1.2.copy) : WorkM (Edge S × LetterSet)) w =
          .ok first.1 w₁ := run_bind hcopy
      rw [copyRow, ReadRow.row, List.map_cons, List.mapM_cons]
      exact (run_bind hentry).trans (run_bind hmore)

/-- The labels of a row are copies of sets that the states hold. -/
def copying (rows : S → Row S) : StateSpace S where
  row _ state := copyRow (rows state)

omit [DecidableEq S] in
/-- Such rows are pure for every alphabet size: the copies read as what is held. -/
theorem copying_pure (owner k : Nat) (held : Custody) (rows : S → ReadRow S)
    (hheld : ∀ state, ∀ entry ∈ (rows state).custody, entry ∈ held) :
    (copying fun state => (rows state).row).Pure owner k held
      (fun state => (rows state).reading) := by
  intro w L state h
  obtain ⟨w', hrun, hw'⟩ := copyRow_retains (rows state) h fun entry hentry =>
    List.mem_append_left L (hheld state entry hentry)
  exact Outcome.of_run hrun ⟨rows state, rfl, rfl, hw'⟩

end StateSpace

end SymbolicOmega
