import SymbolicOmega.Proofs.Acceptance.References
import SymbolicOmega.Proofs.Hoa.Aliases
import SymbolicOmega.Proofs.Hoa.Numbering
import SymbolicOmega.Proofs.Letters.LabelFormula

/-!
# The transitions that a document denotes

Under an explored state a document lists edges, each with a label, a number and marks.
On every letter, the edges whose label is true of it are the edges that the kept row
takes on it: they lead to the same states, and their marks are those that the
acceptance condition gives to the transition.  Splitting, leaving out empty pieces and
naming propositions neither loses a letter nor moves it to another edge.
-/

namespace SymbolicOmega

open Workspace

namespace Hoa

/-- Truth of a label atom on a letter, with a name read as the proposition bound to it. -/
def readAtom (aliases : List (String × Nat)) (letter : BitSet) : LabelAtom → Bool
  | .proposition p => letter.contains p
  | .alias name => (aliases.lookup name).any letter.contains

end Hoa

/-- The numbers of the sets that contain a transition. -/
def Rabin.numbersOn {S : Type} [DecidableEq S] (r : Rabin S) (w : Workspace) (state : S)
    (letter : BitSet) : BitSet :=
  .ofList ((r.distinctSets.zipIdx.filter fun entry =>
    entry.1.contains state letter w matches .ok true _).map Prod.snd)

/-- The marks of a transition: those of its edge, or the numbers of the sets it is in. -/
def Acceptance.marksOn {S : Type} [DecidableEq S] (a : Acceptance S) (w : Workspace) (state : S)
    (edge : Edge S) (letter : BitSet) : BitSet :=
  match a.condition with
  | .marks _ => edge.marks
  | .rabin r => r.numbersOn w state letter

section Splitting

variable {S : Type} [DecidableEq S] {w₀ w : Workspace} {i k : Nat} {L L₀ : Ledger}
variable {label : LetterSet} {A : Set Assignment}

theorem Rabin.contains_numbersOn {r : Rabin S} {state : S} {letter : BitSet}
    {cover : TransitionSet S → Set Assignment} (h : w.Keeps i k L)
    (hcover : ∀ set ∈ r.sets, set.Covers L state (cover set)) (j : Nat) :
    (r.numbersOn w state letter).contains j = true ↔
      ∃ set, r.distinctSets[j]? = some set ∧ letter.assignment ∈ cover set := by
  have hcontains : ∀ set ∈ r.distinctSets,
      (set.contains state letter w matches .ok true _) = true ↔ letter.assignment ∈ cover set := by
    intro set hset
    obtain ⟨b, hb, hmem⟩ :=
      TransitionSet.contains_run h (hcover set (mem_sets_of_mem_distinctSets hset)) letter
    rw [hb, ← hmem]
    cases b <;> simp
  simp only [numbersOn, BitSet.contains_ofList, decide_eq_true_eq, List.mem_map, List.mem_filter,
    Prod.exists, exists_eq_right, List.mk_mem_zipIdx_iff_getElem?]
  refine exists_congr fun set => and_congr_right fun hset => ?_
  exact hcontains set (List.mem_of_getElem? hset)

omit [DecidableEq S] in
/-- What is in a label is in one of its separated pieces, and carries the numbers of the sets
that it is in. -/
theorem Rabin.exists_piece_iff {r : Rabin S} {cover : TransitionSet S → Set Assignment}
    {M : Rabin.Marked} {x : Assignment} {numbers : BitSet}
    (hseparates : Separates (M.map (·.1.2)) A (r.numbered.map cover).reverse)
    (hmarks : ∀ entry ∈ M, r.IsCovering cover entry.1.2 entry.2)
    (hnumbers : ∀ j, numbers.contains j = true ↔
      ∃ set, r.numbered[j]? = some set ∧ x ∈ cover set) (marks : BitSet) :
    (∃ entry ∈ M, entry.2 = marks ∧ x ∈ entry.1.2) ↔ x ∈ A ∧ marks = numbers := by
  have hsame : ∀ entry ∈ M, x ∈ entry.1.2 → entry.2 = numbers := by
    intro entry hentry hx
    apply BitSet.ext_contains
    intro j
    rw [Bool.eq_iff_iff, hmarks entry hentry j, hnumbers]
    refine exists_congr fun set => and_congr_right fun hset => ?_
    have hcovers : cover set ∈ (r.numbered.map cover).reverse :=
      List.mem_reverse.2 (List.mem_map_of_mem (List.mem_of_getElem? hset))
    exact hseparates.subset_iff (List.mem_map_of_mem hentry) hcovers hx
  constructor
  · rintro ⟨entry, hentry, rfl, hx⟩
    exact ⟨(hseparates.union x).1 ⟨_, List.mem_map_of_mem hentry, hx⟩, hsame entry hentry hx⟩
  · rintro ⟨hx, rfl⟩
    obtain ⟨P, hP, hmem⟩ := (hseparates.union x).2 hx
    obtain ⟨entry, hentry, rfl⟩ := List.mem_map.1 hP
    exact ⟨entry, hentry, hsame entry hentry hmem, hmem⟩

/-- The pieces of an edge have the letters of its label between them, and each is marked as its
letters are, whatever books are kept.  Only a condition over sets of transitions can fail to split
an edge. -/
theorem Acceptance.split_pieces {listed : Ledger → Workspace → Prop}
    {left : Ledger → Fault → Workspace → Prop} (hbooks : LetterSet.Books i k listed left)
    {a : Acceptance S} (h₀ : w₀.Keeps i k L₀) (hsub : L ⊆ L₀) (h : listed L w)
    (hlisted : a.numberedAnew.Listed L) (hlabel : (label, A) ∈ L) (state : S) (edge : Edge S) :
    Outcome (a.numberedAnew.split state edge label) w
      (fun marked w' => ∃ M : Rabin.Marked, listed (M.map Prod.fst ++ L) w' ∧
        marked = M.map (fun entry => (entry.1.1, entry.2)) ∧
        ∀ letter marks, (∃ entry ∈ M, entry.2 = marks ∧ letter.assignment ∈ entry.1.2) ↔
          letter.assignment ∈ A ∧ marks = a.marksOn w₀ state edge letter)
      (fun fault w' => (∃ r, a.condition = .rabin r) ∧ left L fault w') := by
  obtain ⟨condition, annotations⟩ := a
  cases condition with
  | marks c =>
      obtain ⟨piece, w', hcopy, hw'⟩ := hbooks.copy h hlabel
      apply Outcome.bind_ok hcopy
      refine Outcome.pure ⟨[((piece, A), edge.marks)], hw', rfl, fun letter marks => ?_⟩
      simp [marksOn, and_comm, eq_comm]
  | rabin r =>
      have hlive : ∀ label ∈ r.labels, ∃ C, (label, C) ∈ L := by
        intro label hlabel
        obtain ⟨set, hset, hhandle⟩ := List.mem_flatMap.1 hlabel
        exact hlisted set (List.mem_append_left _ hset) label hhandle
      obtain ⟨cover, hcover⟩ := Rabin.exists_cover hlive state
      have hsplit := Rabin.split_outcome (r := r.numberedAnew) hbooks h hlabel
        fun set hset => hcover set (Rabin.mem_sets_of_mem_distinctSets hset)
      apply hsplit.mono
      · rintro marked w' ⟨M, hw', rfl, hcuts, hmarks⟩
        refine ⟨M, hw', rfl, ?_⟩
        exact fun letter marks => Rabin.exists_piece_iff hcuts.separates hmarks
          (Rabin.contains_numbersOn h₀ fun set hset => (hcover set hset).mono fun _ h => hsub h)
          marks
      · exact fun _ _ hend => ⟨⟨r, rfl⟩, hend⟩

end Splitting

namespace Hoa

variable {S : Type} [DecidableEq S] [ToString S]

/-! ## Writing an edge -/

/-- The lines whose label is true of a letter: the number that each leads to, and its marks. -/
def written (aliases : List (String × Nat)) (edges : List EdgeLine) (letter : BitSet) :
    Set (Nat × BitSet) :=
  {target | ∃ edge ∈ edges, edge.label.evaluate (readAtom aliases letter) = true ∧
    target = (edge.target, edge.marks)}

/-- Every label written is true of some letter. -/
def Satisfiable (aliases : List (String × Nat)) (edges : List EdgeLine) : Prop :=
  ∀ edge ∈ edges, ∃ letter, edge.label.evaluate (readAtom aliases letter) = true

/-- The items say what the label of `entry` says: they carry the marks of exactly the
transitions on its letters. -/
structure Renders (aliases : List (String × Nat)) (a : Acceptance S) (w : Workspace) (state : S)
    (entry : Edge S × LetterSet) (items : List Item) : Prop where
  marks : ∀ letter marks, (∃ n, (n, marks) ∈ written aliases (edgesOf items) letter) ↔
    entry.2.contains letter w = .ok true w ∧ marks = a.marksOn w state entry.1 letter
  satisfiable : Satisfiable aliases (edgesOf items)

section Pieces

variable {aliases : List (String × Nat)} {shown : Nat → LabelAtom} {w : Workspace} {i k : Nat}
variable {L : Ledger}
variable (hreads : ∀ letter p, readAtom aliases letter (shown p) = letter.contains p)
include hreads

end Pieces

/-- The transitions of a row on a letter: the number of the state that each leads to, and its
marks. -/
def taken (a : Automaton S) (w : Workspace) (numbered : List S) (entry : S × Row S)
    (letter : BitSet) : Set (Nat × BitSet) :=
  {target | ∃ edge ∈ entry.2, edge.2.contains letter w = .ok true w ∧
    numbered[target.1]? = some edge.1.successor ∧
    target.2 = a.acceptance.marksOn w entry.1 edge.1 letter}

/-- The lines of a state denote its row: on every letter the transitions written are those of the
row. -/
structure Denotes (aliases : List (String × Nat)) (a : Automaton S) (w : Workspace)
    (numbered : List S) (entry : S × Row S) (lines : StateLines) : Prop where
  number : numbered[lines.number]? = some entry.1
  name : lines.name = toString entry.1
  transitions : ∀ letter, written aliases lines.edges letter = taken a w numbered entry letter
  satisfiable : Satisfiable aliases lines.edges

theorem Describes.denotes {aliases : List (String × Nat)} {a : Automaton S} {w : Workspace}
    {numbered : List S} {entry : S × Row S} {block : StateBlock} (hdistinct : numbered.Nodup)
    (h : Describes numbered (Renders aliases a.acceptance w) entry block) :
    Denotes aliases a w numbered entry block.onSheet := by
  refine ⟨h.number, h.name, fun letter => ?_, fun line hline => ?_⟩
  · ext ⟨n, marks⟩
    constructor
    · rintro ⟨line, hline, htrue, heq⟩
      cases heq
      obtain ⟨edge, hedge, own, hown, hlead, hmem⟩ := h.items.sound _ _ _ (mem_edgesOf.1 hline)
      obtain ⟨hletter, hmarks⟩ :=
        (hown.marks letter line.marks).1 ⟨_, line, mem_edgesOf.2 hmem, htrue, rfl⟩
      exact ⟨edge, hedge, hletter, hlead _ _ _ hmem, hmarks⟩
    · rintro ⟨edge, hedge, hletter, hn, hmarks⟩
      obtain ⟨own, hown, hlead, hitems⟩ := h.items.complete edge hedge
      obtain ⟨n', line, hline, htrue, heq⟩ := (hown.marks letter marks).2 ⟨hletter, hmarks⟩
      cases heq
      have hitem := mem_edgesOf.1 hline
      have hsame : n = line.target := (number_eq_iff hdistinct hn (hlead _ _ _ hitem)).2 rfl
      exact ⟨line, mem_edgesOf.2 (hitems hitem), htrue, congrArg (·, line.marks) hsame⟩
  · obtain ⟨edge, -, own, hown, -, hmem⟩ := h.items.sound _ _ _ (mem_edgesOf.1 hline)
    exact hown.satisfiable line (mem_edgesOf.2 hmem)

/-- An edge could not be cut at sets of transitions.  If all nodes have a history, there was no
cell for one more. -/
structure CutFails (a : Automaton S) (w : Workspace) (fault : Fault) (w' : Workspace) : Prop where
  condition : ∃ r, a.acceptance.condition = .rabin r
  noCell : w.HasHistory → NoCell a.owner fault w'

open LetterSet (fullTable withFirst withSecond)

end Hoa

end SymbolicOmega
