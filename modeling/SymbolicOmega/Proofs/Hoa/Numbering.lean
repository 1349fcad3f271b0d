import Mathlib.Data.List.Forall2
import Mathlib.Data.List.Perm.Subperm
import SymbolicOmega.Proofs.Automaton.Closure
import SymbolicOmega.Proofs.Hoa.Written

/-!
# State numbers of a document

The states of a document are numbered in three places: the initial state in the
header, an explored state on its own line, and a successor where an edge to it is
written.  The states numbered so far only ever grow at the end, and no state is
listed twice, so a number once handed out stands for one state throughout.  In a
closed automaton every numbered state is explored; there are then as many numbers as
lines, and each line has its own.
-/

namespace SymbolicOmega

namespace Hoa

open Workspace

variable {S : Type}

/-- Some of the states that `allowed` names were numbered after those of `numbered`. -/
structure Grown (allowed : S → Prop) (numbered numbered' : List S) : Prop where
  isPrefix : numbered <+: numbered'
  distinct : numbered.Nodup → numbered'.Nodup
  new : ∀ x ∈ numbered', x ∈ numbered ∨ allowed x

namespace Grown

variable {allowed allowed' : S → Prop} {numbered numbered' numbered'' : List S}

theorem refl (numbered : List S) : Grown allowed numbered numbered :=
  ⟨List.prefix_rfl, id, fun _ hx => .inl hx⟩

theorem trans (h : Grown allowed numbered numbered') (h' : Grown allowed numbered' numbered'') :
    Grown allowed numbered numbered'' where
  isPrefix := h.isPrefix.trans h'.isPrefix
  distinct hdistinct := h'.distinct (h.distinct hdistinct)
  new x hx := (h'.new x hx).elim (h.new x) .inr

theorem mono (h : Grown allowed numbered numbered') (himp : ∀ x, allowed x → allowed' x) :
    Grown allowed' numbered numbered' :=
  ⟨h.isPrefix, h.distinct, fun x hx => (h.new x hx).imp_right (himp x)⟩

end Grown

/-- A number keeps its state. -/
theorem getElem?_of_isPrefix {numbered numbered' : List S} (h : numbered <+: numbered') {n : Nat}
    {x : S} (hx : numbered[n]? = some x) : numbered'[n]? = some x := by
  obtain ⟨hn, rfl⟩ := List.getElem?_eq_some_iff.1 hx
  exact List.prefix_iff_getElem?.1 h n hn

/-- Numbers are equal exactly when they stand for the same state. -/
theorem number_eq_iff {numbered : List S} (hdistinct : numbered.Nodup) {n n' : Nat} {x x' : S}
    (hx : numbered[n]? = some x) (hx' : numbered[n']? = some x') : n = n' ↔ x = x' := by
  constructor
  · rintro rfl
    exact Option.some.inj (hx.symm.trans hx')
  · rintro rfl
    obtain ⟨hlt, -⟩ := List.getElem?_eq_some_iff.1 hx
    exact (List.getElem?_inj hlt hdistinct).1 (hx.trans hx'.symm)

/-- A state gets a number of its own. -/
theorem numberOf_spec [DecidableEq S] (numbered : List S) (x : S) :
    Grown (· = x) numbered (Document.numberOf numbered x).2 ∧
      (Document.numberOf numbered x).2[(Document.numberOf numbered x).1]? = some x := by
  rw [Document.numberOf]
  cases hfound : numbered.idxOf? x with
  | some n =>
      obtain ⟨hn, hx, -⟩ := List.idxOf?_eq_some_iff.1 hfound
      exact ⟨.refl numbered, List.getElem?_eq_some_iff.2 ⟨hn, hx⟩⟩
  | none =>
      have hnew : x ∉ numbered := List.idxOf?_eq_none_iff.1 hfound
      refine ⟨⟨List.prefix_append _ _, fun hdistinct => ?_, fun y hy => ?_⟩, ?_⟩
      · exact hdistinct.append (List.nodup_singleton x) (List.disjoint_singleton.2 hnew)
      · simpa using hy
      · simp

/-- Every edge that an item writes leads to the number of `target`. -/
def LeadTo (numbered : List S) (target : S) (items : List Item) : Prop :=
  ∀ label n marks, Item.edge label n marks ∈ items → numbered[n]? = some target

theorem LeadTo.of_isPrefix {numbered numbered' : List S} {target : S} {items : List Item}
    (h : LeadTo numbered target items) (hearlier : numbered <+: numbered') :
    LeadTo numbered' target items :=
  fun label n marks hitem => getElem?_of_isPrefix hearlier (h label n marks hitem)

variable [DecidableEq S] [ToString S]

/-- The items for one edge of a row, without a remark. -/
def edgeItems (a : Automaton S) (shown : Nat → LabelAtom) (state : S) (numbered : List S)
    (entry : Edge S × LetterSet) : WorkM (List Item × List S) := do
  let pieces ← a.acceptance.split state entry.1 entry.2
  try Document.pieceItems shown entry.1.successor numbered pieces
  finally LetterSet.releaseAll (pieces.map Prod.fst)

/-- What is remarked about an edge. -/
def remarks (a : Automaton S) (state : S) (entry : Edge S × LetterSet) : List Item :=
  if a.isExplored entry.1.successor then []
  else [.unexplored (toString state) (toString entry.1.successor)]

theorem rowItems_cons (a : Automaton S) (shown : Nat → LabelAtom) (state : S) (numbered : List S)
    (entry : Edge S × LetterSet) (rest : Row S) :
    Document.rowItems a shown state numbered (entry :: rest) = do
      let (items, numbered) ← edgeItems a shown state numbered entry
      let (later, numbered) ← Document.rowItems a shown state numbered rest
      return (remarks a state entry ++ items ++ later, numbered) := by
  simp only [Document.rowItems, edgeItems, remarks, bind_assoc]

omit [ToString S] in
theorem pieceItems_numbers (shown : Nat → LabelAtom) (target : S)
    (pieces : List (LetterSet × BitSet)) : ∀ (numbered : List S) (w : Workspace),
      Outcome (Document.pieceItems shown target numbered pieces) w
        (fun answer _ => Grown (· = target) numbered answer.2 ∧ LeadTo answer.2 target answer.1)
        fun _ _ => True := by
  induction pieces with
  | nil => exact fun numbered w => Outcome.pure ⟨.refl numbered, fun _ _ _ hitem => by cases hitem⟩
  | cons first rest ih =>
      intro numbered w
      obtain ⟨piece, marks⟩ := first
      rw [Document.pieceItems]
      by_cases hempty : piece.isEmpty = true
      · rw [if_pos hempty]
        exact ih numbered w
      · rw [if_neg hempty]
        obtain ⟨hgrown, hnumber⟩ := numberOf_spec numbered target
        apply Outcome.bind_answers (Outcome.always _ w)
        intro label w' _
        apply Outcome.bind_answers (ih _ w')
        rintro ⟨items, numbered'⟩ w'' ⟨hmore, hitems⟩
        refine Outcome.pure ⟨hgrown.trans hmore, fun l n m hitem => ?_⟩
        rcases List.mem_cons.1 hitem with heq | hitem
        · cases heq
          exact getElem?_of_isPrefix hmore.isPrefix hnumber
        · exact hitems l n m hitem

omit [ToString S] in
/-- The edges written for an entry of a row lead to the number of its successor. -/
theorem edgeItems_numbers (a : Automaton S) (shown : Nat → LabelAtom) (state : S)
    (numbered : List S) (entry : Edge S × LetterSet) (w : Workspace) :
    Outcome (edgeItems a shown state numbered entry) w
      (fun answer _ => Grown (· = entry.1.successor) numbered answer.2 ∧
        LeadTo answer.2 entry.1.successor answer.1)
      fun _ _ => True := by
  apply Outcome.bind_answers (Outcome.always _ w)
  intro pieces w' _
  apply Outcome.tryFinally
  apply (pieceItems_numbers shown entry.1.successor pieces numbered w').mono
  · exact fun answer v hanswer => (Outcome.always _ v).imp fun _ _ _ => hanswer
  · exact fun _ v _ => Outcome.always _ v

/-- The edges under a state are those written for the entries of its row. -/
structure Lists (numbered : List S) (part : Edge S × LetterSet → List Item → Prop) (row : Row S)
    (items : List Item) : Prop where
  sound : ∀ label n marks, Item.edge label n marks ∈ items → ∃ entry ∈ row, ∃ own,
    part entry own ∧ LeadTo numbered entry.1.successor own ∧ Item.edge label n marks ∈ own
  complete : ∀ entry ∈ row, ∃ own,
    part entry own ∧ LeadTo numbered entry.1.successor own ∧ own ⊆ items

/-- What is written for one explored state. -/
structure Describes (numbered : List S) (part : S → Edge S × LetterSet → List Item → Prop)
    (entry : S × Row S) (block : StateBlock) : Prop where
  number : numbered[block.number]? = some entry.1
  name : block.name = toString entry.1
  items : Lists numbered (part entry.1) entry.2 block.items

namespace Lists

variable {numbered numbered' : List S} {part : Edge S × LetterSet → List Item → Prop}
variable {row : Row S} {items : List Item}

omit [DecidableEq S] [ToString S] in
theorem of_isPrefix (h : Lists numbered part row items) (hearlier : numbered <+: numbered') :
    Lists numbered' part row items := by
  constructor
  · intro label n marks hitem
    obtain ⟨entry, hentry, own, hpart, hlead, hown⟩ := h.sound label n marks hitem
    exact ⟨entry, hentry, own, hpart, hlead.of_isPrefix hearlier, hown⟩
  · intro entry hentry
    obtain ⟨own, hpart, hlead, hown⟩ := h.complete entry hentry
    exact ⟨own, hpart, hlead.of_isPrefix hearlier, hown⟩

/-- A remark is not an edge. -/
theorem cons (a : Automaton S) (state : S) {entry : Edge S × LetterSet} {own : List Item}
    (hpart : part entry own) (hlead : LeadTo numbered entry.1.successor own)
    (h : Lists numbered part row items) :
    Lists numbered part (entry :: row) (remarks a state entry ++ own ++ items) := by
  constructor
  · intro label n marks hitem
    have hremark : Item.edge label n marks ∉ remarks a state entry := by
      rw [remarks]
      split <;> simp
    rcases List.mem_append.1 hitem with hitem | hitem
    · rcases List.mem_append.1 hitem with hitem | hitem
      · exact absurd hitem hremark
      · exact ⟨entry, List.mem_cons_self, own, hpart, hlead, hitem⟩
    · obtain ⟨other, hother, hrest⟩ := h.sound label n marks hitem
      exact ⟨other, List.mem_cons_of_mem entry hother, hrest⟩
  · intro other hother
    rcases List.mem_cons.1 hother with rfl | hother
    · refine ⟨own, hpart, hlead, fun item hitem => ?_⟩
      exact List.mem_append_left _ (List.mem_append_right _ hitem)
    · obtain ⟨part, hpart, hlead, hitems⟩ := h.complete other hother
      exact ⟨part, hpart, hlead, fun item hitem => List.mem_append_right _ (hitems hitem)⟩

end Lists

section Walk

variable {a : Automaton S} {shown : Nat → LabelAtom} {keeps : Workspace → Prop}
variable {part : S → Edge S × LetterSet → List Item → Prop} {bad : Fault → Workspace → Prop}

/-- Writing an edge keeps what `keeps` says and writes what `part` says. -/
def WritesEdge (a : Automaton S) (shown : Nat → LabelAtom) (keeps : Workspace → Prop)
    (part : S → Edge S × LetterSet → List Item → Prop) (bad : Fault → Workspace → Prop)
    (state : S) (entry : Edge S × LetterSet) : Prop :=
  ∀ numbered w, keeps w → Outcome (edgeItems a shown state numbered entry) w
    (fun answer w' => keeps w' ∧ part state entry answer.1) bad

theorem rowItems_lists (state : S) (row : Row S)
    (hedge : ∀ entry ∈ row, WritesEdge a shown keeps part bad state entry) :
    ∀ (numbered : List S) (w : Workspace), keeps w →
      Outcome (Document.rowItems a shown state numbered row) w
        (fun answer w' => keeps w' ∧ Grown (· ∈ row.targets) numbered answer.2 ∧
          Lists answer.2 (part state) row answer.1)
        bad := by
  induction row with
  | nil =>
      intro numbered w hw
      refine Outcome.pure ⟨hw, .refl numbered, fun _ _ _ hitem => ?_, fun _ hentry => ?_⟩
      · cases hitem
      · cases hentry
  | cons entry rest ih =>
      intro numbered w hw
      obtain ⟨hfirst, hrest⟩ := List.forall_mem_cons.1 hedge
      rw [rowItems_cons]
      have hitems := (edgeItems_numbers a shown state numbered entry w).and (hfirst numbered w hw)
      apply Outcome.andThen (hitems.mono (fun _ _ h => h) fun _ _ h => h.2)
      rintro ⟨own, numbered₁⟩ w₁ ⟨⟨hgrown, hlead⟩, hw₁, hpart⟩
      apply Outcome.andThen (ih hrest numbered₁ w₁ hw₁)
      rintro ⟨later, numbered₂⟩ w₂ ⟨hw₂, hmore, hlater⟩
      refine Outcome.pure ⟨hw₂, ?_, ?_⟩
      · have hhead : ∀ x, x = entry.1.successor → x ∈ Row.targets (entry :: rest) := by
          rintro x rfl
          exact List.mem_cons_self
        exact (hgrown.mono hhead).trans (hmore.mono fun x => List.mem_cons_of_mem _)
      · exact Lists.cons a state hpart (hlead.of_isPrefix hmore.isPrefix) hlater

/-- The states that the lines of a body are about: those with a row and their successors. -/
def Mentioned (rows : List (S × Row S)) (x : S) : Prop :=
  ∃ entry ∈ rows, x = entry.1 ∨ x ∈ entry.2.targets

/-- The blocks describe the rows one by one, under numbers that stay. -/
theorem blocks_describe (rows : List (S × Row S))
    (hedge : ∀ entry ∈ rows, ∀ edge ∈ entry.2,
      WritesEdge a shown keeps part bad entry.1 edge) :
    ∀ (numbered : List S) (w : Workspace), keeps w →
      Outcome (Document.blocks a shown numbered rows) w
        (fun blocks w' => keeps w' ∧ ∃ numbered', Grown (Mentioned rows) numbered numbered' ∧
          List.Forall₂ (Describes numbered' part) rows blocks)
        bad := by
  induction rows with
  | nil => exact fun numbered w hw => Outcome.pure ⟨hw, numbered, .refl numbered, .nil⟩
  | cons entry rest ih =>
      intro numbered w hw
      obtain ⟨hfirst, hrest⟩ := List.forall_mem_cons.1 hedge
      obtain ⟨hgrown, hnumber⟩ := numberOf_spec numbered entry.1
      rw [Document.blocks]
      apply Outcome.andThen (rowItems_lists entry.1 entry.2 hfirst _ w hw)
      rintro ⟨items, numbered₁⟩ w₁ ⟨hw₁, hmore, hitems⟩
      apply Outcome.andThen (ih hrest numbered₁ w₁ hw₁)
      rintro blocks w₂ ⟨hw₂, numbered₂, hlast, hblocks⟩
      refine Outcome.pure ⟨hw₂, numbered₂, ?_, .cons ?_ hblocks⟩
      · have hself : ∀ x, x = entry.1 → Mentioned (entry :: rest) x :=
          fun x hx => ⟨entry, List.mem_cons_self, .inl hx⟩
        have htargets : ∀ x, x ∈ entry.2.targets → Mentioned (entry :: rest) x :=
          fun x hx => ⟨entry, List.mem_cons_self, .inr hx⟩
        have hlater : ∀ x, Mentioned rest x → Mentioned (entry :: rest) x :=
          fun x ⟨other, hother, hx⟩ => ⟨other, List.mem_cons_of_mem entry hother, hx⟩
        exact ((hgrown.mono hself).trans (hmore.mono htargets)).trans (hlast.mono hlater)
      · exact ⟨getElem?_of_isPrefix (hmore.isPrefix.trans hlast.isPrefix) hnumber, rfl,
          hitems.of_isPrefix hlast.isPrefix⟩

end Walk

/-! ## A document -/

/-- A document with a body is made in three steps in the workspace. -/
theorem ofAutomaton_outcome {style : Style} {s : Scene S} {initial : S}
    (good : List StateBlock → Prop) (bad : Fault → Workspace → Prop)
    (hinitial : s.automaton.initial.state? = some initial) (hrows : s.automaton.rows ≠ [])
    (h : Outcome (askFactory s.automaton.owner fun f => .ok f.alphabetSize) s.workspace
      (fun _ w => Outcome s.automaton.acceptance.renumber w
        (fun acceptance w => Outcome
          (Document.blocks { s.automaton with acceptance } (Document.atom style.aliases) [initial]
            s.automaton.rows) w (fun blocks _ => good blocks) bad)
        bad)
      bad) :
    Outcome (Document.ofAutomaton style) s
      (fun document _ => ∃ size acceptance blocks,
        document = Document.header style { s.automaton with acceptance } size acceptance
          (some ⟨0, blocks⟩) ∧ good blocks)
      fun fault s' => bad fault s'.workspace := by
  have hbody : (if s.automaton.rows.isEmpty then none else s.automaton.initial.state?) =
      some initial := by
    rw [if_neg (by simpa using hrows), hinitial]
  rw [Document.ofAutomaton]
  apply Outcome.bind_ok (Automaton.current_run s)
  apply Outcome.bind
  apply Automaton.inWorkspace_outcome
  apply h.imp
  intro size w hsize
  rw [hbody]
  apply Outcome.bind
  apply Automaton.inWorkspace_outcome
  apply hsize.imp
  intro acceptance w' hacceptance
  have hchange : Automaton.change (fun a => { a with acceptance }) ⟨s.automaton, w'⟩ =
      .ok () ⟨{ s.automaton with acceptance }, w'⟩ := rfl
  apply Outcome.bind_ok hchange
  apply Outcome.bind
  apply Automaton.inWorkspace_outcome
  exact hacceptance.imp fun blocks w'' hblocks => Outcome.pure ⟨_, _, _, rfl, hblocks⟩

/-- What is written of an automaton is the sheet with its header and the lines of its blocks. -/
theorem write_outcome {style : Style} {s : Scene S} {initial : S} {o : Output}
    (good : List StateLines → Prop) (bad : Fault → Workspace → Prop) (hopen : o.limit = none)
    (hinitial : s.automaton.initial.state? = some initial) (hrows : s.automaton.rows ≠ [])
    (h : Outcome (askFactory s.automaton.owner fun f => .ok f.alphabetSize) s.workspace
      (fun _ w => Outcome s.automaton.acceptance.renumber w
        (fun acceptance w => Outcome
          (Document.blocks { s.automaton with acceptance } (Document.atom style.aliases) [initial]
            s.automaton.rows) w (fun blocks _ => good (blocks.map StateBlock.onSheet)) bad)
        bad)
      bad) :
    Outcome (write style o) s
      (fun o' _ => ∃ sheet : Sheet, o'.text = o.text ++ sheet.text ∧
        Announces style s.automaton 0 sheet.header ∧ good sheet.states)
      fun fault s' => bad fault s'.workspace := by
  apply Outcome.andThen
    (ofAutomaton_outcome (fun blocks => good (blocks.map StateBlock.onSheet)) bad hinitial hrows h)
  rintro _ s' ⟨size, acceptance, blocks, rfl, hgood⟩
  refine Outcome.pure ⟨_, ?_, header_announces style s.automaton acceptance size ⟨0, blocks⟩ rfl,
    hgood⟩
  rw [Output.write, Output.performAll_open hopen, Document.acts_text rfl]

/-- The states of an automaton are numbered well: the lines carry the numbers from 0 on, each
once, the line of the initial state and no other has the number of the start, and edges lead
to numbers that stand on a line. -/
structure WellNumbered (lines : List StateLines) (start : Nat) (states : List S) (initial : S) :
    Prop where
  numbers : (lines.map (·.number)).Perm (List.range states.length)
  names : List.Forall₂ (fun state line => line.name = toString state ∧
    (line.number = start ↔ state = initial)) states lines
  present : initial ∈ states
  targets : ∀ line ∈ lines, ∀ edge ∈ line.edges, edge.target < states.length

omit [ToString S] in
theorem mem_states_of_mentioned {a : Automaton S} (hclosed : a.Closed) {x : S}
    (hx : Mentioned a.rows x) : x ∈ a.states := by
  obtain ⟨entry, hentry, rfl | hx⟩ := hx
  · exact List.mem_map_of_mem hentry
  · have hrow : a.row? entry.1 = some entry.2 := Automaton.row?_of_mem hclosed.distinct hentry
    have hexplored := hclosed.explored entry.1 x ⟨entry.2, hrow, hx⟩
    exact Automaton.isExplored_iff_mem_states.1 hexplored

/-- What stands in the second list belongs to something in the first. -/
theorem exists_of_mem_right {α β : Type} {R : α → β → Prop} {xs : List α} {ys : List β}
    (h : List.Forall₂ R xs ys) {y : β} (hy : y ∈ ys) : ∃ x ∈ xs, R x y := by
  induction h with
  | nil => cases hy
  | cons hfirst _ ih =>
      rcases List.mem_cons.1 hy with rfl | hy
      · exact ⟨_, List.mem_cons_self, hfirst⟩
      · obtain ⟨x, hx, hxy⟩ := ih hy
        exact ⟨x, List.mem_cons_of_mem _ hx, hxy⟩

section Described

variable {rows : List (S × Row S)} {numbered : List S} {blocks : List StateBlock}
variable {part : S → Edge S × LetterSet → List Item → Prop}

omit [DecidableEq S] in
/-- The numbers on the lines stand for the explored states, in their order. -/
theorem map_number_of_describes (h : List.Forall₂ (Describes numbered part) rows blocks) :
    blocks.map (fun block => numbered[block.number]?) = (rows.map Prod.fst).map some := by
  induction h with
  | nil => rfl
  | cons hfirst _ ih => simp only [List.map_cons, hfirst.number, ih]

omit [DecidableEq S] in
/-- If every numbered state has a row, the lines carry all numbers, each once. -/
theorem numbers_perm_range (h : List.Forall₂ (Describes numbered part) rows blocks)
    (hrows : (rows.map Prod.fst).Nodup) (hlength : numbered.length = rows.length) :
    (blocks.map (·.number)).Perm (List.range rows.length) := by
  have hstates := map_number_of_describes h
  have hdistinct : (blocks.map (·.number)).Nodup := by
    apply List.Nodup.of_map (numbered[·]?)
    rw [List.map_map]
    change (blocks.map fun block => numbered[block.number]?).Nodup
    rw [hstates]
    exact hrows.map (Option.some_injective S)
  have hbelow : blocks.map (·.number) ⊆ List.range rows.length := by
    intro n hn
    obtain ⟨block, hblock, rfl⟩ := List.mem_map.1 hn
    have hnumber : numbered[block.number]? ∈ (rows.map Prod.fst).map some :=
      hstates ▸ List.mem_map_of_mem hblock
    obtain ⟨x, -, hx⟩ := List.mem_map.1 hnumber
    obtain ⟨hlt, -⟩ := List.getElem?_eq_some_iff.1 hx.symm
    exact List.mem_range.2 (hlength ▸ hlt)
  apply (List.subperm_of_subset hdistinct hbelow).perm_of_length_le
  simp [h.length_eq]

end Described

/-- In a closed automaton the numbered states are the explored ones. -/
theorem mem_numbered_iff {a : Automaton S} {initial : S} {numbered : List S}
    {blocks : List StateBlock} {part : S → Edge S × LetterSet → List Item → Prop}
    (hclosed : a.Closed) (hinitial : initial ∈ a.states)
    (hgrown : Grown (Mentioned a.rows) [initial] numbered)
    (h : List.Forall₂ (Describes numbered part) a.rows blocks) {x : S} :
    x ∈ numbered ↔ x ∈ a.states := by
  constructor
  · intro hx
    rcases hgrown.new x hx with hx | hx
    · rwa [List.mem_singleton.1 hx]
    · exact mem_states_of_mentioned hclosed hx
  · intro hx
    have hsome : some x ∈ blocks.map fun block => numbered[block.number]? := by
      rw [map_number_of_describes h]
      exact List.mem_map_of_mem hx
    obtain ⟨block, -, hblock⟩ := List.mem_map.1 hsome
    exact List.mem_of_getElem? hblock

/-- A closed automaton with an explored initial state is written with well-numbered states. -/
theorem wellNumbered_of_describes {a : Automaton S} {initial : S} {numbered : List S}
    {blocks : List StateBlock} {part : S → Edge S × LetterSet → List Item → Prop}
    (hclosed : a.Closed) (hinitial : a.isExplored initial = true)
    (hgrown : Grown (Mentioned a.rows) [initial] numbered)
    (h : List.Forall₂ (Describes numbered part) a.rows blocks) :
    WellNumbered (blocks.map StateBlock.onSheet) 0 a.states initial := by
  have hpresent : initial ∈ a.states := Automaton.isExplored_iff_mem_states.1 hinitial
  have hdistinct : numbered.Nodup := hgrown.distinct (List.nodup_singleton initial)
  have hstart : numbered[0]? = some initial := getElem?_of_isPrefix hgrown.isPrefix rfl
  have hperm : numbered.Perm a.states :=
    (List.perm_ext_iff_of_nodup hdistinct hclosed.distinct).2 fun _ =>
      mem_numbered_iff hclosed hpresent hgrown h
  have hsize : a.states.length = a.rows.length := List.length_map _
  constructor
  · rw [hsize, List.map_map]
    exact numbers_perm_range h hclosed.distinct (hperm.length_eq.trans hsize)
  · rw [Automaton.states, List.forall₂_map_left_iff, List.forall₂_map_right_iff]
    apply h.imp
    intro entry block hblock
    exact ⟨hblock.name, number_eq_iff hdistinct hblock.number hstart⟩
  · exact hpresent
  · intro line hline edge hedge
    obtain ⟨block, hblock, rfl⟩ := List.mem_map.1 hline
    obtain ⟨entry, -, hentry⟩ := exists_of_mem_right h hblock
    obtain ⟨_, _, _, _, hlead, hown⟩ := hentry.items.sound _ _ _ (mem_edgesOf.1 hedge)
    obtain ⟨hlt, -⟩ := List.getElem?_eq_some_iff.1 (hlead _ _ _ hown)
    rwa [hperm.length_eq] at hlt

/-- Whatever was explored and removed before, generating numbers the states well.  The text that is
written declares as many states as are explored, and has a line for each of them, a number for
each line, the number of the initial state as its start and no edge to any other number. -/
theorem write_wellNumbered {owner bound : Nat} {space : StateSpace S}
    {acceptance : Acceptance S} {origin : Initial S} {a : Automaton S} {w w' : Workspace}
    {s s' : Scene S} {initial : S} {style : Style} {o o' : Output}
    (hedited : Automaton.Edited (.create owner space acceptance origin) a)
    (hgenerate : Automaton.generate bound ⟨a, w⟩ = .ok () s)
    (hinitial : s.automaton.initial.state? = some initial)
    (hopen : o.limit = none) (hwrite : write style o ⟨s.automaton, w'⟩ = .ok o' s') :
    ∃ sheet : Sheet, o'.text = o.text ++ sheet.text ∧
      Announces style s.automaton 0 sheet.header ∧
      WellNumbered sheet.states 0 s.automaton.states initial := by
  have hbuilt := hedited.closed (Automaton.create_closed owner space acceptance origin)
  obtain ⟨hclosed, hexplored⟩ := (Automaton.generate_closed bound ⟨a, w⟩ hbuilt).of_ok hgenerate
  have hpresent := hexplored initial hinitial
  have hrows : s.automaton.rows ≠ [] := by
    intro hnil
    simp [Automaton.isExplored, Automaton.row?, hnil] at hpresent
  suffices h : Outcome (write style o) ⟨s.automaton, w'⟩
      (fun o' _ => ∃ sheet : Sheet, o'.text = o.text ++ sheet.text ∧
        Announces style s.automaton 0 sheet.header ∧
        WellNumbered sheet.states 0 s.automaton.states initial) (fun _ _ => True) from
    h.of_ok hwrite
  have hscene : (⟨s.automaton, w'⟩ : Scene S).automaton.initial.state? = some initial := hinitial
  apply write_outcome (WellNumbered · 0 s.automaton.states initial) (fun _ _ => True) hopen hscene
    hrows
  apply (Outcome.always _ _).imp
  intro size w₁ _
  apply (Outcome.always _ _).imp
  intro acceptance w₂ _
  have hedge : ∀ entry ∈ s.automaton.rows, ∀ edge ∈ entry.2,
      WritesEdge { s.automaton with acceptance } (Document.atom style.aliases)
        (fun _ => True) (fun _ _ _ => True) (fun _ _ => True) entry.1 edge :=
    fun _ _ _ _ _ w _ => (Outcome.always _ w).imp fun _ _ _ => ⟨trivial, trivial⟩
  apply (blocks_describe s.automaton.rows hedge [initial] w₂ trivial).imp
  rintro blocks w₃ ⟨-, numbered, hgrown, hblocks⟩
  exact wellNumbered_of_describes hclosed hpresent hgrown hblocks

/-! ## A state that is removed and comes back -/

/-- State 0 leads to state 1, which leads back and on to state 2. -/
private def detour : StateSpace Nat where
  row owner state :=
    match state with
    | 0 => return [(Edge.of 1, ← LetterSet.all owner)]
    | 1 => return [(Edge.of 0, ← LetterSet.all owner), (Edge.of 2, ← LetterSet.all owner)]
    | _ => return []

/-- Nothing is explored, and the initial state is not built. -/
private def detourScene : Scene Nat where
  automaton := .create 0 detour ⟨.marks .all, []⟩ (.pending (some 0))
  workspace := .ofFactories [(Factory.ofSizing 1 ⟨3, 2, 5⟩).toOption.getD default]

/-- The scene in which an operation ends. -/
private def ending {β : Type} (x : AutomatonM Nat β) (s : Scene Nat) : Scene Nat :=
  match x s with
  | .ok _ s' => s'
  | .error _ s' => s'

private def exploredScene : Scene Nat :=
  ending (Automaton.Edit.reachable 4 [0]).run detourScene

private def removedScene : Scene Nat :=
  ending (Automaton.Edit.remove [0]).run exploredScene

private def regeneratedScene : Scene Nat :=
  ending (Automaton.generate 2) removedScene

private theorem detour_explored :
    (Automaton.Edit.reachable 4 [0]).run detourScene = .ok () exploredScene := rfl

private theorem detour_removed :
    (Automaton.Edit.remove [0]).run exploredScene = .ok () removedScene := rfl

private theorem detour_edited :
    Automaton.Edited (.create 0 detour ⟨.marks .all, []⟩ (.pending (some 0)))
      removedScene.automaton :=
  .step (.remove [0]) (.step (w := detourScene.workspace) (.reachable 4 [0]) .refl
    detour_explored) detour_removed

/-- What is written of an automaton on an output without text. -/
private def writtenText (s : Scene Nat) : Option String :=
  match write default (.blank none "") s with
  | .ok o _ => some o.text
  | .error _ _ => none

private def header (name : String) (count : Nat) : List String :=
  ["HOA: v1", "tool: \"omega-automata\" \"0.1.0\"", name, s!"States: {count}", "Start: 0",
    "acc-name: all", "Acceptance: 0 t", "AP: 1 \"0\""]

private theorem written_of_text {s : Scene Nat} {text : String} (h : writtenText s = some text) :
    ∃ o s', write default (.blank none "") s = .ok o s' ∧ o.text = text := by
  rw [writtenText] at h
  cases hwrite : write default (.blank none "") s with
  | error fault s' =>
      rw [hwrite] at h
      cases h
  | ok o s' =>
      rw [hwrite] at h
      exact ⟨o, s', rfl, Option.some.inj h⟩

/-- The theorem where the state of a pending initial state is removed and explored again.  It
is explored last and has the first number. -/
theorem regenerated_wellNumbered :
    ∃ o s', Automaton.generate 2 removedScene = .ok () regeneratedScene ∧
      write default (.blank none "") regeneratedScene = .ok o s' ∧
      o.text = String.join ((header "name: \"Automaton for 0\"" 3 ++ ["--BODY--",
        "State: 1 \"1\"", "[t] 2", "State: 2 \"2\"", "State: 0 \"0\"", "[t] 1", "--END--"]).map
          (· ++ "\n")) ∧
      ∃ sheet : Sheet, o.text = sheet.text ∧ WellNumbered sheet.states 0 [1, 2, 0] 0 := by
  have hgenerate : Automaton.generate 2 removedScene = .ok () regeneratedScene := rfl
  have hinitial : regeneratedScene.automaton.initial.state? = some 0 := rfl
  have htext : writtenText regeneratedScene = some (String.join
      ((header "name: \"Automaton for 0\"" 3 ++ ["--BODY--", "State: 1 \"1\"", "[t] 2",
        "State: 2 \"2\"", "State: 0 \"0\"", "[t] 1", "--END--"]).map (· ++ "\n"))) := by
    decide +kernel
  obtain ⟨o, s', hwrite, ho⟩ := written_of_text htext
  obtain ⟨sheet, hsheet, -, hwell⟩ :=
    write_wellNumbered detour_edited hgenerate hinitial rfl hwrite
  refine ⟨o, s', hgenerate, hwrite, ho, sheet, ?_, hwell⟩
  simpa [Output.blank] using hsheet

/-- State 0 leads to state 1, which leads to itself with the proposition and back without it. -/
private def fork (state : Nat) (letter : BitSet) : Option (Edge Nat) :=
  some (Edge.of (if state = 0 then 1 else if letter.contains 0 then 1 else 0))

/-- State 0 looks at no proposition. -/
private def watched (state : Nat) : Option BitSet :=
  if state = 0 then some .empty else none

/-- A table of two cells has room for the terminal alone. -/
private def crowdedScene : Scene Nat where
  automaton := .create 0 (.ofStep watched fork) ⟨.marks .all, []⟩ (.resolved (some 0))
  workspace := .ofFactories [(Factory.ofSizing 1 ⟨1, 2, 2⟩).toOption.getD default]

private def strandedScene : Scene Nat :=
  ending (Automaton.generate 5) crowdedScene

/-- Where the row of state 1 needs a node that there is no cell for, generating ends when state 0
is explored, and generating again does nothing.  The text that is written then declares one state
and has an edge to the number 1, which no state has. -/
theorem stranded_misnumbered :
    Automaton.generate 5 crowdedScene = .error .storageFull strandedScene ∧
      Automaton.generate 5 strandedScene = .ok () strandedScene ∧
      strandedScene.automaton.initial.state? = some 0 ∧ strandedScene.automaton.states = [0] ∧
      ∃ o s', write default (.blank none "") strandedScene = .ok o s' ∧
        ∃ sheet : Sheet, o.text = sheet.text ∧ sheet.header = header "name: \"Automaton for 0\"" 1 ∧
          ∃ line ∈ sheet.states, ∃ edge ∈ line.edges, ¬ edge.target < 1 := by
  let sheet : Sheet :=
    ⟨header "name: \"Automaton for 0\"" 1, [⟨0, "0", [⟨.top, 1, .empty⟩]⟩]⟩
  have htext : writtenText strandedScene = some sheet.text := by decide +kernel
  obtain ⟨o, s', hwrite, ho⟩ := written_of_text htext
  have hinitial : strandedScene.automaton.initial.state? = some 0 := by decide +kernel
  have hstates : strandedScene.automaton.states = [0] := by decide +kernel
  have hexplored : strandedScene.automaton.isExplored 0 = true := by
    rw [Automaton.isExplored_iff_mem_states, hstates]
    exact List.mem_singleton_self 0
  have hfault : verdict (Automaton.generate 5) crowdedScene = .error .storageFull := by
    decide +kernel
  refine ⟨?_, Automaton.generate_of_explored hinitial hexplored 5, hinitial, hstates, o, s', hwrite,
    sheet, ho, rfl, _, List.mem_singleton_self _, _, List.mem_singleton_self _, Nat.lt_irrefl 1⟩
  rw [strandedScene, ending]
  rw [verdict] at hfault
  cases hrun : Automaton.generate 5 crowdedScene with
  | ok _ s =>
      rw [hrun] at hfault
      cases hfault
  | error fault s =>
      rw [hrun] at hfault
      cases hfault
      rfl

end Hoa

end SymbolicOmega
