import SymbolicOmega.Proofs.Automaton.Partition
import SymbolicOmega.Proofs.Hoa.Mentions
import SymbolicOmega.Proofs.Hoa.Transitions

/-!
# The order of exploration and the numbers of a document

Writing an edge mentions its successor if its label has letters: of the pieces that the label is
cut into some piece has letters too, and is written.  The walk that generated the automaton is in
step with these mentions, so the lines of the states that are written have the numbers 0, 1, 2 and
so on.
-/

namespace SymbolicOmega

namespace Hoa

open Workspace

variable {S : Type}

section Document
variable [DecidableEq S] [ToString S] {a : Automaton S} {shown : Nat → LabelAtom}
variable {keeps : Workspace → Prop} {bad : Fault → Workspace → Prop}

/-- Writing an edge keeps what `keeps` says and mentions its successor. -/
def MentionsSuccessor (a : Automaton S) (shown : Nat → LabelAtom) (keeps : Workspace → Prop)
    (bad : Fault → Workspace → Prop) (state : S) (entry : Edge S × LetterSet) : Prop :=
  ∀ numbered w, keeps w → Outcome (edgeItems a shown state numbered entry) w
    (fun answer w' => keeps w' ∧ answer.2 = mention numbered entry.1.successor) bad

theorem rowItems_mention (state : S) (row : Row S)
    (hedge : ∀ entry ∈ row, MentionsSuccessor a shown keeps bad state entry) :
    ∀ (numbered : List S) (w : Workspace), keeps w →
      Outcome (Document.rowItems a shown state numbered row) w
        (fun answer w' => keeps w' ∧ answer.2 = mentionAll numbered row.targets) bad := by
  induction row with
  | nil => exact fun numbered w hw => Outcome.pure ⟨hw, rfl⟩
  | cons entry rest ih =>
      intro numbered w hw
      obtain ⟨hfirst, hrest⟩ := List.forall_mem_cons.1 hedge
      rw [rowItems_cons]
      apply Outcome.andThen (hfirst numbered w hw)
      rintro ⟨own, numbered₁⟩ w₁ ⟨hw₁, rfl⟩
      apply Outcome.andThen (ih hrest _ w₁ hw₁)
      rintro ⟨later, numbered₂⟩ w₂ ⟨hw₂, rfl⟩
      exact Outcome.pure ⟨hw₂, rfl⟩

/-- The line of a state has its number and its name. -/
def Heads (numbered : List S) (state : S) (block : StateBlock) : Prop :=
  numbered[block.number]? = some state ∧ block.name = toString state

/-- The numbers on the lines are those of all mentions together. -/
theorem blocks_head (rows : List (S × Row S))
    (hedge : ∀ entry ∈ rows, ∀ edge ∈ entry.2,
      MentionsSuccessor a shown keeps bad entry.1 edge) :
    ∀ (numbered : List S) (w : Workspace), keeps w →
      Outcome (Document.blocks a shown numbered rows) w
        (fun blocks _ => List.Forall₂ (Heads (mentionAll numbered (mentions rows)))
          (rows.map Prod.fst) blocks)
        bad := by
  induction rows with
  | nil => exact fun numbered w _ => Outcome.pure .nil
  | cons entry rest ih =>
      intro numbered w hw
      obtain ⟨hfirst, hrest⟩ := List.forall_mem_cons.1 hedge
      obtain ⟨-, hnumber⟩ := numberOf_spec numbered entry.1
      rw [Document.blocks]
      apply Outcome.andThen (rowItems_mention entry.1 entry.2 hfirst _ w hw)
      rintro ⟨items, numbered₁⟩ w₁ ⟨hw₁, rfl⟩
      apply Outcome.andThen (ih hrest _ w₁ hw₁)
      intro blocks w₂ hblocks
      have hall : mentionAll numbered (mentions (entry :: rest)) =
          mentionAll (mentionAll (mention numbered entry.1) entry.2.targets) (mentions rest) :=
        mentionAll_append numbered (entry.1 :: entry.2.targets) (mentions rest)
      refine Outcome.pure (.cons ⟨?_, rfl⟩ ?_)
      · rw [hall, ← mentionAll_append]
        exact getElem?_of_isPrefix (mentionAll_isPrefix _ _) hnumber
      · rw [hall]
        exact hblocks

omit [DecidableEq S] in
/-- If the mentions are the states themselves, the lines are numbered from 0 on. -/
theorem numbers_eq_range {states : List S} {blocks : List StateBlock} (hdistinct : states.Nodup)
    (h : List.Forall₂ (Heads states) states blocks) :
    blocks.map (·.number) = List.range states.length := by
  apply List.ext_getElem
  · simp [h.length_eq]
  · intro n hn hn'
    have hstate : n < states.length := by simpa using hn'
    have hblock : n < blocks.length := by simpa using hn
    have hnumber := (h.get hstate hblock).1
    have hself : states[n]? = some states[n] := List.getElem?_eq_getElem hstate
    simpa using (number_eq_iff hdistinct hnumber hself).2 rfl

omit [DecidableEq S] [ToString S] in
/-- A copy has letters exactly if the set has. -/
theorem copy_letters (label : LetterSet) (w : Workspace) :
    Outcome label.copy w (fun piece _ => piece.isEmpty = label.isEmpty) fun _ _ => True := by
  have hmake : Outcome (inFactory label.owner (Factory.holding (pure label.root))) w
      (fun root _ => root = label.root) fun _ _ => True := by
    cases hf : w.factories[label.owner]? with
    | none =>
        have hsize := Array.getElem?_eq_none_iff.1 hf
        unfold Outcome inFactory
        simp only [Nat.not_lt.2 hsize, dif_neg, not_false_eq_true]
    | some f =>
        have hhold : ∃ f', Factory.holding (pure label.root) f = .ok label.root f' := ⟨_, rfl⟩
        obtain ⟨f', hhold⟩ := hhold
        obtain ⟨w', hrun, -⟩ := inFactory_ok hf hhold
        exact Outcome.of_run hrun rfl
  apply Outcome.andThen hmake
  rintro root w' rfl
  exact Outcome.pure rfl

omit [ToString S] in
/-- A successor is mentioned if some piece has letters. -/
theorem pieceItems_mention {fails : Prop} {w : Workspace} (target : S)
    (pieces : List (LetterSet × BitSet))
    (hformula : ∀ entry ∈ pieces, Outcome (entry.1.formulaWith shown) w (fun _ w' => w' = w)
      fun _ _ => fails) :
    ∀ numbered, Outcome (Document.pieceItems shown target numbered pieces) w
      (fun answer w' => w' = w ∧ ((∃ entry ∈ pieces, entry.1.isEmpty = false) →
        answer.2 = mention numbered target) ∧
        (answer.2 = numbered ∨ answer.2 = mention numbered target))
      fun _ _ => fails := by
  induction pieces with
  | nil => exact fun numbered => Outcome.pure ⟨rfl, by simp, .inl rfl⟩
  | cons entry rest ih =>
      intro numbered
      obtain ⟨piece, marks⟩ := entry
      obtain ⟨hfirst, hrest⟩ := List.forall_mem_cons.1 hformula
      rw [Document.pieceItems]
      cases hempty : piece.isEmpty with
      | true =>
          apply (ih hrest numbered).imp
          rintro answer w' ⟨hw', hmention, heither⟩
          refine ⟨hw', ?_, heither⟩
          rintro ⟨entry, hentry, hletters⟩
          refine hmention ⟨entry, ?_, hletters⟩
          obtain rfl | hentry := List.mem_cons.1 hentry
          · simp [hempty] at hletters
          · exact hentry
      | false =>
          apply Outcome.andThen hfirst
          rintro label w₁ rfl
          apply Outcome.andThen (ih hrest (mention numbered target))
          rintro ⟨items, numbered'⟩ w₂ ⟨rfl, -, heither⟩
          have hnumbered : numbered' = mention numbered target := by
            obtain hsame | hmore := heither
            · exact hsame
            · exact hmore.trans mention_mention
          exact Outcome.pure ⟨rfl, fun _ => hnumbered, .inr hnumbered⟩

omit [ToString S] in
/-- An edge whose label has letters is written, whatever its pieces are and whatever books are
kept. -/
theorem edgeItems_mention {i k : Nat} {L : Ledger} {A : Set Assignment} {w₀ : Workspace} {state : S}
    {entry : Edge S × LetterSet} {listed : Ledger → Workspace → Prop}
    {left : Ledger → Fault → Workspace → Prop} (hbooks : LetterSet.Books i k listed left)
    (h₀ : w₀.Keeps i k L) (hlisted : a.acceptance.numberedAnew.Listed L)
    (hlabel : (entry.2, A) ∈ L) (hletters : entry.2.isEmpty = false) :
    MentionsSuccessor { a with acceptance := a.acceptance.numberedAnew } shown (listed L)
      (fun fault w => (∃ r, a.acceptance.condition = .rabin r) ∧ left L fault w) state entry := by
  intro numbered w hw
  apply Outcome.andThen
    (Acceptance.split_pieces hbooks h₀ (List.Subset.refl L) hw hlisted hlabel state entry.1)
  rintro _ w₁ ⟨M, hw₁, rfl, hpieces⟩
  have hpiece : ∃ piece ∈ M.map (fun entry => (entry.1.1, entry.2)), piece.1.isEmpty = false := by
    have hne : A.Nonempty := by
      rw [Set.nonempty_iff_ne_empty]
      intro hA
      rw [(LetterSet.isEmpty_iff h₀ hlabel).2 hA] at hletters
      cases hletters
    obtain ⟨letter, hletter⟩ := LetterSet.exists_letter_mem h₀ hlabel hne
    obtain ⟨piece, hmem, -, hin⟩ := (hpieces letter _).2 ⟨hletter, rfl⟩
    refine ⟨_, List.mem_map_of_mem hmem, Bool.eq_false_iff.2 fun hempty => ?_⟩
    have hlive : piece.1 ∈ M.map Prod.fst ++ L := List.mem_append_left L (List.mem_map_of_mem hmem)
    have hnone := (LetterSet.isEmpty_iff (hbooks.keeps hw₁) hlive).1 hempty
    rw [hnone] at hin
    exact hin
  have hformula : ∀ piece ∈ M.map (fun entry => (entry.1.1, entry.2)),
      Outcome (piece.1.formulaWith shown) w₁ (fun _ w' => w' = w₁) fun _ _ => False := by
    intro piece hmem
    obtain ⟨entry, hentry, rfl⟩ := List.mem_map.1 hmem
    have hlive : entry.1 ∈ M.map Prod.fst ++ L :=
      List.mem_append_left L (List.mem_map_of_mem hentry)
    obtain ⟨label, hrun, -⟩ := LetterSet.formulaWith_run (hbooks.keeps hw₁) hlive shown
    exact Outcome.of_run hrun rfl
  obtain ⟨w₂, hrelease, hw₂⟩ := hbooks.releaseAll hw₁
  rw [List.map_map] at hrelease
  apply Outcome.tryFinally
  apply (pieceItems_mention entry.1.successor _ hformula numbered).mono
  · rintro answer w' ⟨rfl, hmention, -⟩
    rw [List.map_map]
    exact Outcome.of_run hrelease ⟨hw₂, hmention hpiece⟩
  · exact fun _ _ hnone => hnone.elim

omit [ToString S] in
/-- A condition on marks writes an edge whose label has letters, even where nothing is known of
the factory. -/
theorem edgeItems_mention_marks {c : MarkCondition} (hmarks : a.acceptance.condition = .marks c)
    {state : S} {entry : Edge S × LetterSet} (hletters : entry.2.isEmpty = false) :
    MentionsSuccessor a shown (fun _ => True) (fun _ _ => True) state entry := by
  intro numbered w _
  have hsplit : Outcome (a.acceptance.split state entry.1 entry.2) w
      (fun pieces _ => ∃ piece ∈ pieces, piece.1.isEmpty = false) fun _ _ => True := by
    rw [Acceptance.split, hmarks]
    apply Outcome.andThen (copy_letters entry.2 w)
    intro piece _ hpiece
    exact Outcome.pure ⟨_, List.mem_singleton_self _, hpiece.trans hletters⟩
  apply Outcome.andThen hsplit
  intro pieces w₁ hpiece
  have hformula : ∀ piece ∈ pieces, Outcome (piece.1.formulaWith shown) w₁
      (fun _ w' => w' = w₁) fun _ _ => True := fun piece _ =>
    (askFactory_upholds (P := (· = w₁)) piece.1.owner _ w₁ rfl).mono (fun _ _ hend => hend)
      fun _ _ _ => trivial
  apply Outcome.tryFinally
  apply (pieceItems_mention entry.1.successor pieces hformula numbered).mono
  · rintro answer w' ⟨-, hmention, -⟩
    exact (Outcome.always _ w').imp fun _ _ _ => ⟨trivial, hmention hpiece⟩
  · exact fun _ w' _ => Outcome.always _ w'

end Document

/-- Every label of a kept row has letters. -/
def Lettered (a : Automaton S) : Prop :=
  ∀ label ∈ a.labels, label.isEmpty = false

theorem Lettered.edge {a : Automaton S} (h : Lettered a) {entry : S × Row S}
    (hentry : entry ∈ a.rows) {edge : Edge S × LetterSet} (hedge : edge ∈ entry.2) :
    edge.2 ∈ a.labels ∧ edge.2.isEmpty = false := by
  have hlabel : edge.2 ∈ a.labels :=
    List.mem_flatMap.2 ⟨entry, hentry, List.mem_map_of_mem hedge⟩
  exact ⟨hlabel, h _ hlabel⟩

section Grouped
variable [DecidableEq S] {owner k : Nat} {sensitive : S → Option BitSet}
variable {step : S → BitSet → Option (Edge S)} {w : Workspace} {L : Ledger}

/-- In a row that is found letter by letter every label has letters: some letter takes its edge. -/
theorem groupLetters_lettered (h : w.Serves owner k L) (alphabet : Option BitSet)
    (step : BitSet → Option (Edge S))
    (hfit : ∀ p, (StateSpace.inspected k alphabet).contains p = true → p + 1 < 2 ^ 31) :
    Outcome (StateSpace.groupLetters owner alphabet step) w
      (fun row w' => (∀ label ∈ row.labels, label.isEmpty = false) ∧ ∃ L', w'.Serves owner k L')
      fun _ w' => ∃ L', w'.Serves owner k L' := by
  apply ((Ledger.books owner k fun p hp _ => hfit p hp).groupLetters_outcome h step).mono
  · rintro _ w' ⟨E, rfl, hmeaning, hw'⟩
    have hsmall : ∀ p, (StateSpace.inspected k alphabet).contains p = true → p + 1 < 2 ^ 32 :=
      fun p hp => (hfit p hp).trans (by decide)
    have hlabels := StateSpace.partitions_of_stepMeaning hsmall hmeaning hw'.keeps
    exact ⟨fun label hlabel => (hlabels.nonempty label hlabel).1, _, hw'⟩
  · rintro fault w' ⟨hw', -⟩
    exact ⟨L, hw'⟩

/-- Rows are found letter by letter in a factory that serves, and those kept so far have labels with
letters only. -/
structure Groups (owner k : Nat) (sensitive : S → Option BitSet)
    (step : S → BitSet → Option (Edge S)) (s : Scene S) : Prop where
  space : s.automaton.space = .ofStep sensitive step
  owner_eq : s.automaton.owner = owner
  serves : ∃ L, s.workspace.Serves owner k L
  lettered : Lettered s.automaton

theorem explore_groups
    (hfit : ∀ x p, (StateSpace.inspected k (sensitive x)).contains p = true → p + 1 < 2 ^ 31)
    (x : S) : Upholds (Groups owner k sensitive step) (Automaton.explore x) := by
  intro s h
  cases hrow : s.automaton.row? x with
  | some row =>
      apply Outcome.bind_ok (Automaton.current_run s)
      rw [hrow]
      exact Outcome.pure h
  | none =>
      have hx := Automaton.isExplored_eq_false.2 hrow
      obtain ⟨L, hserves⟩ := h.serves
      have hnew : Outcome (s.automaton.space.row s.automaton.owner x) s.workspace
          (fun row w' => (∀ label ∈ row.labels, label.isEmpty = false) ∧
            ∃ L', w'.Serves owner k L')
          fun _ w' => ∃ L', w'.Serves owner k L' := by
        rw [h.space, h.owner_eq]
        exact groupLetters_lettered hserves (sensitive x) (step x) (hfit x)
      cases hrun : s.automaton.space.row s.automaton.owner x s.workspace with
      | error fault w' =>
          rw [Outcome]
          rw [Automaton.explore_of_error hx hrun]
          exact ⟨h.space, h.owner_eq, hnew.of_error hrun, h.lettered⟩
      | ok row w' =>
          obtain ⟨hletters, hafter⟩ := hnew.of_ok hrun
          refine Outcome.of_run (Automaton.explore_of_ok hx hrun)
            ⟨h.space, h.owner_eq, hafter, fun label hlabel => ?_⟩
          rw [Automaton.labels, List.flatMap_append] at hlabel
          obtain hold | hlabel := List.mem_append.1 hlabel
          · exact h.lettered label hold
          · exact hletters label (by simpa using hlabel)

theorem generate_groups
    (hfit : ∀ x p, (StateSpace.inspected k (sensitive x)).contains p = true → p + 1 < 2 ^ 31)
    (bound : Nat) : Upholds (Groups owner k sensitive step) (Automaton.generate bound) := by
  have hinitial : Upholds (Groups owner k sensitive step) Automaton.initialState := by
    intro s h
    obtain ⟨builds, hrun⟩ := Automaton.initialState_run s
    exact Outcome.of_run hrun ⟨h.space, h.owner_eq, h.serves, h.lettered⟩
  exact hinitial.bind fun seed => .of_secures
    (Automaton.generateFrom_secures (fun x => (explore_groups hfit x).secures) trivial bound seed)

/-- Default grouping gives an automaton whose labels have letters. -/
theorem generate_lettered {acceptance : Acceptance S} {origin : Initial S}
    (h : w.Serves owner k L)
    (hfit : ∀ x p, (StateSpace.inspected k (sensitive x)).contains p = true → p + 1 < 2 ^ 31)
    (bound : Nat) :
    Outcome (Automaton.generate bound)
      ⟨.create owner (.ofStep sensitive step) acceptance origin, w⟩
      (fun _ s => Lettered s.automaton) fun _ _ => True := by
  have hstart : Groups owner k sensitive step
      ⟨.create owner (.ofStep sensitive step) acceptance origin, w⟩ :=
    ⟨rfl, rfl, ⟨L, h⟩, fun label hlabel => by cases hlabel⟩
  exact (generate_groups hfit bound _ hstart).mono (fun _ _ hend => hend.lettered)
    fun _ _ _ => trivial

end Grouped

/-! ## After generating -/

/-- The lines of the states have the numbers from 0 on, and they are those of `states` in their
order. -/
structure NumbersInOrder [ToString S] (lines : List StateLines) (states : List S) : Prop where
  numbers : lines.map (·.number) = List.range states.length
  names : lines.map (·.name) = states.map toString

/-- What is written after `text` lists `states` in order under the numbers from 0 on. -/
def ListsInOrder [ToString S] (style : Style) (a : Automaton S) (text written : String) : Prop :=
  ∃ sheet : Sheet, written = text ++ sheet.text ∧ Announces style a 0 sheet.header ∧
    NumbersInOrder sheet.states a.states

section Generated
variable [DecidableEq S] {seed : S} {s : Scene S}

variable {style : Style} {o : Output}

/-- What is written of an automaton that is in step lists the explored states in order, if writing
an edge mentions its successor. -/
theorem write_inStep [ToString S] (keeps : Workspace → Prop) (bad : Fault → Workspace → Prop)
    {acceptance : Acceptance S} (hopen : o.limit = none) (h : InStep s.automaton seed [])
    (hinitial : s.automaton.initial.state? = some seed)
    (hsize : Outcome (askFactory s.automaton.owner fun f => .ok f.alphabetSize) s.workspace
      (fun _ w' => w' = s.workspace) bad)
    (hrenumber : Outcome s.automaton.acceptance.renumber s.workspace
      (fun answer w' => answer = acceptance ∧ keeps w') bad)
    (hedge : ∀ entry ∈ s.automaton.rows, ∀ edge ∈ entry.2,
      MentionsSuccessor { s.automaton with acceptance } (Document.atom style.aliases) keeps
        bad entry.1 edge) :
    Outcome (write style o) s (fun o' _ => ListsInOrder style s.automaton o.text o'.text)
      fun fault s' => bad fault s'.workspace := by
  have horder : mentionAll [seed] (mentions s.automaton.rows) = s.automaton.states := h.order
  have hrows : s.automaton.rows ≠ [] := by
    intro hnil
    have hstart := (mentionAll_isPrefix [seed] (mentions s.automaton.rows)).subset
      (List.mem_singleton_self seed)
    rw [horder, Automaton.states, hnil] at hstart
    cases hstart
  apply write_outcome (NumbersInOrder · s.automaton.states) bad hopen hinitial hrows
  apply hsize.imp
  rintro size w₁ rfl
  apply hrenumber.imp
  rintro answer w₂ ⟨rfl, hw₂⟩
  apply (blocks_head s.automaton.rows hedge [seed] w₂ hw₂).imp
  intro blocks w₃ hblocks
  rw [horder] at hblocks
  have hnames : ∀ {states : List S} {blocks : List StateBlock} {numbered : List S},
      List.Forall₂ (Heads numbered) states blocks →
        blocks.map (·.name) = states.map toString := by
    intro states blocks numbered hall
    induction hall with
    | nil => rfl
    | cons hfirst _ ih => simp only [List.map_cons, hfirst.2, ih]
  constructor
  · rw [List.map_map]
    exact numbers_eq_range h.distinct hblocks
  · rw [List.map_map]
    exact hnames hblocks

/-- A fresh automaton is in step when it was generated. -/
theorem generate_inStep {owner bound : Nat} {space : StateSpace S} {acceptance : Acceptance S}
    {origin : Initial S} {w : Workspace}
    (hinitial : (Automaton.create owner space acceptance origin).initialValue = some seed) :
    Outcome (Automaton.generate bound) ⟨.create owner space acceptance origin, w⟩
      (fun _ s => InStep s.automaton seed [] ∧ s.automaton.initial.state? = some seed ∧
        s.automaton.acceptance = acceptance)
      fun _ _ => True := by
  obtain ⟨builds, hrun⟩ :=
    Automaton.initialState_run ⟨.create owner space acceptance origin, w⟩
  rw [hinitial] at hrun
  apply Outcome.bind_ok hrun
  apply Outcome.bind_ok (Automaton.current_run _)
  rw [if_neg (by simp [Automaton.isExplored, Automaton.row?, Automaton.create])]
  apply (exploreQueue_inStep bound [seed] _ (.start rfl seed)).imp
  rintro _ s ⟨hstep, hkept, hacceptance⟩
  exact ⟨hstep, hkept ▸ rfl, hacceptance⟩

/-- While the labels are live, each label with letters has a piece with letters, so the explored
states are listed in order.  Writing fails only if an edge cannot be cut. -/
theorem write_inOrder [ToString S] {k : Nat} (hopen : o.limit = none)
    (hbacked : s.automaton.Backed s.workspace k) (hstep : InStep s.automaton seed [])
    (hbuilt : s.automaton.initial.state? = some seed) (hlettered : Lettered s.automaton) :
    Outcome (write style o) s (fun o' _ => ListsInOrder style s.automaton o.text o'.text)
      (fun fault s' => CutFails s.automaton s.workspace fault s'.workspace) := by
  obtain ⟨L₀, stock₀, h₀⟩ := hbacked
  obtain ⟨w₁, L, stock, hrenumber, -, h⟩ := Acceptance.renumber_run h₀
  obtain ⟨f, hf, -⟩ := h₀.keeps.holds
  have hwritten : ∀ {listed : Ledger → Workspace → Prop} {left : Ledger → Fault → Workspace → Prop},
      LetterSet.Books s.automaton.owner k listed left → listed L w₁ →
        Outcome (write style o) s (fun o' _ => ListsInOrder style s.automaton o.text o'.text)
          (fun fault s' => (∃ r, s.automaton.acceptance.condition = .rabin r) ∧
            left L fault s'.workspace) := by
    intro listed left hbooks hw₁
    apply write_inStep (listed L)
      (fun fault w => (∃ r, s.automaton.acceptance.condition = .rabin r) ∧ left L fault w) hopen
      hstep hbuilt (Outcome.of_run (askFactory_run hf rfl) rfl) (Outcome.of_run hrenumber ⟨rfl, hw₁⟩)
    intro entry hentry edge hedge
    obtain ⟨hlabel, hletters⟩ := hlettered.edge hentry hedge
    obtain ⟨A, hA⟩ := h.exists_entry (List.mem_append_left _ hlabel)
    exact edgeItems_mention hbooks h.keeps (Acceptance.listed_of_backs h) hA hletters
  have hlacks := Outcome.given fun hhistory : s.workspace.HasHistory =>
    hwritten LetterSet.books_serves
      ⟨h.keeps, (s.automaton.acceptance.renumber_upholds s.workspace hhistory).of_ok hrenumber⟩
  exact ((hwritten LetterSet.books_keeps h.keeps).and hlacks).mono (fun _ _ hend => hend.1)
    fun _ _ hend => ⟨hend.1.1, fun hhistory => (hend.2 hhistory).2.noCell⟩

/-- A condition on marks copies every label whole, so the states are listed in order even where
nothing is known of the factory. -/
theorem write_inOrder_marks [ToString S] {c : MarkCondition} (hopen : o.limit = none)
    (hmarks : s.automaton.acceptance.condition = .marks c) (hstep : InStep s.automaton seed [])
    (hbuilt : s.automaton.initial.state? = some seed) (hlettered : Lettered s.automaton) :
    Outcome (write style o) s (fun o' _ => ListsInOrder style s.automaton o.text o'.text)
      fun _ _ => True := by
  have hsize : Outcome (askFactory s.automaton.owner fun f => .ok f.alphabetSize) s.workspace
      (fun _ w' => w' = s.workspace) fun _ _ => True :=
    (askFactory_upholds (P := (· = s.workspace)) _ _ s.workspace rfl).mono (fun _ _ hend => hend)
      fun _ _ _ => trivial
  have hrenumber : s.automaton.acceptance.renumber s.workspace =
      .ok s.automaton.acceptance s.workspace := by
    rw [Acceptance.renumber, hmarks]
    rfl
  exact write_inStep (fun _ => True) (fun _ _ => True) hopen hstep hbuilt hsize
    (Outcome.of_run hrenumber ⟨rfl, trivial⟩) fun entry hentry edge hedge =>
      edgeItems_mention_marks hmarks (hlettered.edge hentry hedge).2

/-- Exploration and export number the states alike.  From an automaton in which nothing is
explored, with an initial state that leads to finitely many states, generating ends unless the row
of a state that was reached cannot be computed.  Default grouping gives labels with letters only.
Whenever generating ended with such labels, the text that is written lists the explored states in
their order under the numbers from 0 on.  Writing does not fail but where labels are cut at sets
of transitions, and there only for want of a cell for a node. -/
theorem generated_numbersInOrder [ToString S] {owner : Nat} {space : StateSpace S}
    {acceptance : Acceptance S} {origin : Initial S} {w : Workspace} {reach : Finset S}
    (hinitial : (Automaton.create owner space acceptance origin).initialValue = some seed)
    (hseed : seed ∈ reach)
    (hconfined : (Automaton.create owner space acceptance origin).Confined reach) :
    (∃ least, ∀ bound ≥ least,
      Outcome (Automaton.generate bound) ⟨.create owner space acceptance origin, w⟩
        (fun _ _ => True)
        (Automaton.RowFails ⟨.create owner space acceptance origin, w⟩ [seed])) ∧
      (∀ (sets : List LetterSet) (k : Nat) (sensitive : S → Option BitSet)
        (step : S → BitSet → Option (Edge S)), space = .ofStep sensitive step →
        LetterSet.Made k owner sets w → w.HasHistory →
        (∀ x p, (StateSpace.inspected k (sensitive x)).contains p = true → p + 1 < 2 ^ 31) →
        ∀ bound s, Automaton.generate bound ⟨.create owner space acceptance origin, w⟩ = .ok () s →
          Lettered s.automaton) ∧
      ∀ bound s, Automaton.generate bound ⟨.create owner space acceptance origin, w⟩ = .ok () s →
        Lettered s.automaton → ∀ (style : Style) (o : Output) (k : Nat) (w' : Workspace),
          o.limit = none → (∀ r, acceptance.condition = .rabin r → s.automaton.Backed w' k) →
            Outcome (write style o) ⟨s.automaton, w'⟩
              (fun o' _ => ListsInOrder style s.automaton o.text o'.text)
              (fun fault s' => s.automaton.Backed w' k →
                CutFails s.automaton w' fault s'.workspace) := by
  refine ⟨?_, ?_, ?_⟩
  · obtain ⟨least, hleast⟩ := Automaton.generate_generates
      ⟨.create owner space acceptance origin, w⟩ hinitial hseed hconfined
    exact ⟨least, fun bound hbound =>
      (hleast bound hbound).mono (fun _ _ _ => trivial) fun _ _ hfault => hfault⟩
  · rintro sets k sensitive step rfl hmade hhistory hfit bound s hgenerate
    obtain ⟨L, hkeeps, -⟩ := hmade.exists_ledger
    exact (generate_lettered ⟨hkeeps, hhistory⟩ hfit bound).of_ok hgenerate
  intro bound s hgenerate hlettered style o k w' hopen hrabin
  obtain ⟨hstep, hbuilt, hacceptance⟩ := (generate_inStep hinitial).of_ok hgenerate
  by_cases hbacked : s.automaton.Backed w' k
  · exact (write_inOrder (s := ⟨s.automaton, w'⟩) hopen hbacked hstep hbuilt hlettered).mono
      (fun _ _ hend => hend) fun _ _ hend _ => hend
  · cases hcondition : acceptance.condition with
    | rabin r => exact absurd (hrabin r hcondition) hbacked
    | marks c =>
        have hmarks : s.automaton.acceptance.condition = .marks c := by
          rw [hacceptance, hcondition]
        exact (write_inOrder_marks (s := ⟨s.automaton, w'⟩) hopen hmarks hstep hbuilt
          hlettered).mono (fun _ _ hend => hend) fun _ _ _ h => absurd h hbacked

end Generated

/-! ## Two ways to one state -/

/-- State 0 leads to states 1 and 2, state 1 to state 2 and back. -/
private def branching : StateSpace Nat where
  row owner state :=
    match state with
    | 0 => return [(Edge.of 1, ← LetterSet.all owner), (Edge.of 2, ← LetterSet.all owner)]
    | 1 => return [(Edge.of 2, ← LetterSet.all owner), (Edge.of 0, ← LetterSet.all owner)]
    | _ => return []

private def blankFactory : Factory :=
  (Factory.ofSizing 1 ⟨3, 2, 5⟩).toOption.getD default

/-- The factory with `n + 1` sets of all letters. -/
private def fullFactory (n : Nat) : Factory :=
  { blankFactory with roots := ⟨[(Ref.one, n + 1)], n + 1, by simp, by simp⟩ }

private def everyLetter : LetterSet := ⟨0, Ref.one⟩

/-- A set without transitions, and the transitions of state 1. -/
private def branchingPair : RabinPair Nat :=
  ⟨⟨0, 0, []⟩, [⟨1, 0, [(1, everyLetter)]⟩]⟩

private def branchingCondition : Acceptance Nat :=
  ⟨.rabin (.ofPairs [branchingPair]), []⟩

private abbrev branchingStart : Automaton Nat :=
  .create 0 branching branchingCondition (.pending (some 0))

private def branchingWorkspace : Workspace := ⟨#[fullFactory 0], [1, 0], 2⟩

private def branchedScene : Scene Nat :=
  match Automaton.generate 5 ⟨branchingStart, branchingWorkspace⟩ with
  | .ok _ s => s
  | .error _ s => s

private theorem fullFactory_holds (n : Nat) :
    (fullFactory n).Holds 1 (List.replicate (n + 1) (Ref.one, Set.univ)) := by
  have hnew : Factory.ofSizing 1 ⟨3, 2, 5⟩ = .ok blankFactory := rfl
  have hblank := Factory.ofSizing_holds hnew
  refine ⟨hblank.alphabet, hblank.canonical, ⟨fun root => ?_, by simp [fullFactory]⟩,
    fun entry hentry => ?_⟩
  · rw [List.map_replicate, List.count_replicate, beq_eq_decide, eq_comm]
    by_cases hroot : root = Ref.one
    · simp [fullFactory, Roots.count, hroot]
    · have hne : (root == Ref.one) = false := beq_eq_false_iff_ne.2 hroot
      simp [fullFactory, Roots.count, List.lookup_cons, hne, Ne.symm hroot]
  rw [List.eq_of_mem_replicate hentry]
  exact Manager.means_one hblank.canonical.reduced

private theorem branched_backed :
    branchedScene.automaton.Backed branchedScene.workspace 1 := by
  have hfactory : branchedScene.workspace.factories[0]? = some (fullFactory 4) := rfl
  have hkeeps : branchedScene.workspace.Keeps 0 1
      (List.replicate 5 (everyLetter, Set.univ)) := by
    refine ⟨fun entry hentry => ?_, _, hfactory, fullFactory_holds 4⟩
    rw [List.eq_of_mem_replicate hentry]
    rfl
  refine ⟨_, branchingPair.sets, hkeeps, ?_, by decide, List.Subset.refl _, fun ticket => ?_⟩
  · exact List.Perm.subperm (List.Perm.refl (List.replicate 5 everyLetter))
  · exact (List.Perm.swap 1 0 []).count_eq ticket |>.le

private theorem branching_confined : branchingStart.Confined {0, 1, 2} := by
  have htargets : ∀ (x : Nat) (w : Workspace), Outcome (branching.row 0 x) w
      (fun row _ => ∀ y ∈ row.targets, y ∈ ({0, 1, 2} : Finset Nat)) fun _ _ => True := by
    intro x w
    match x with
    | 0 | 1 =>
        apply Outcome.bind_answers (Outcome.always _ w)
        intro first w₁ _
        apply Outcome.bind_answers (Outcome.always _ w₁)
        intro second w₂ _
        exact Outcome.pure (by simp [Row.targets, Edge.of])
    | _ + 2 => exact Outcome.pure (by simp [Row.targets])
  exact fun x _ _ w row w' hrun => (htargets x w).of_ok hrun

private def branchedText : String :=
  String.join (["HOA: v1", "tool: \"omega-automata\" \"0.1.0\"", "name: \"Automaton for 0\"",
    "States: 3", "Start: 0", "acc-name: generalized-Rabin 1 1", "Acceptance: 2 Fin(0) & Inf(1)",
    "AP: 1 \"0\"", "--BODY--", "State: 0 \"0\"", "[t] 1", "[t] 2", "State: 1 \"1\"",
    "[t] 2 \x7b1\x7d", "[t] 0 \x7b1\x7d", "State: 2 \"2\"", "--END--"].map (· ++ "\n"))

private def writtenBy : EStateM.Result Fault (Scene Nat) Output → Option String
  | .ok o _ => some o.text
  | .error _ _ => none

private theorem branched_text :
    writtenBy (write default (.blank none "") branchedScene) = some branchedText := by
  decide +kernel

private theorem branched_run :
    Automaton.generate 5 ⟨branchingStart, branchingWorkspace⟩ = .ok () branchedScene := rfl

private theorem branched_states : branchedScene.automaton.states = [0, 1, 2] := by
  decide +kernel

private theorem branched_lettered : Lettered branchedScene.automaton := by
  unfold Lettered
  decide +kernel

/-- The theorem at a state that is queued twice, over a condition with sets of transitions. -/
theorem branching_numbersInOrder :
    branchingStart.Confined {0, 1, 2} ∧
      Automaton.generate 5 ⟨branchingStart, branchingWorkspace⟩ = .ok () branchedScene ∧
      Lettered branchedScene.automaton ∧
      branchedScene.automaton.Backed branchedScene.workspace 1 ∧
      branchedScene.automaton.states = [0, 1, 2] ∧
      ∃ o s', write default (.blank none "") branchedScene = .ok o s' ∧ o.text = branchedText ∧
        ListsInOrder default branchedScene.automaton "" o.text := by
  have hinitial : branchingStart.initialValue = some 0 := rfl
  have hseed : 0 ∈ ({0, 1, 2} : Finset Nat) := by decide
  have hends := generated_numbersInOrder (w := branchingWorkspace) hinitial hseed
    branching_confined
  have hrun := branched_run
  have hstates := branched_states
  have hlettered := branched_lettered
  have hbacked := branched_backed
  have htext := branched_text
  generalize branchedScene = s at *
  refine ⟨branching_confined, hrun, hlettered, hbacked, hstates, ?_⟩
  have hwritten := hends.2.2 5 s hrun hlettered default (.blank none "") 1 s.workspace rfl
    fun _ _ => hbacked
  cases hwrite : write default (.blank none "") s with
  | error fault s' =>
      rw [hwrite] at htext
      cases htext
  | ok o s' =>
      rw [hwrite] at htext
      exact ⟨o, s', rfl, Option.some.inj htext, hwritten.of_ok hwrite⟩

open LetterSet (fullTable withFirst withSecond)

/-- A state with a loop on the letters with the first proposition. -/
private def firstLoop : StateSpace Nat where
  row owner _ := return [(Edge.of 0, ← LetterSet.proposition owner 0)]

/-- A set without transitions, and the loop on the letters with the second proposition. -/
private def loopPair : RabinPair Nat :=
  ⟨⟨0, 0, []⟩, [⟨1, 0, [(0, withSecond)]⟩]⟩

private abbrev loopStart : Automaton Nat :=
  .create 0 firstLoop ⟨.rabin (.ofPairs [loopPair]), []⟩ (.pending (some 0))

private def loopWorkspace : Workspace := ⟨fullTable.factories, [1, 0], 2⟩

private def loopScene : Scene Nat :=
  match Automaton.generate 2 ⟨loopStart, loopWorkspace⟩ with
  | .ok _ s => s
  | .error _ s => s

/-- Where the two propositions fill the table, the state that was generated is not listed: to cut
its loop at the second proposition takes a node. -/
theorem loop_unlisted :
    loopStart.initialValue = some 0 ∧ LetterSet.Made 2 0 [withSecond, withFirst] loopWorkspace ∧
      verdict (Automaton.generate 2) ⟨loopStart, loopWorkspace⟩ = .ok () ∧
      loopScene.automaton.states = [0] ∧ Lettered loopScene.automaton ∧
      verdict (write default (.blank none "")) loopScene = .error .storageFull ∧
      ¬ ∃ o s', write default (.blank none "") loopScene = .ok o s' := by
  have hfault : verdict (write default (.blank none "")) loopScene = .error .storageFull := by
    decide +kernel
  refine ⟨rfl, .elsewhere LetterSet.fullTable_made rfl, by decide +kernel, by decide +kernel, ?_,
    hfault, ?_⟩
  · unfold Lettered
    decide +kernel
  · rintro ⟨o, s', hrun⟩
    rw [verdict, hrun] at hfault
    cases hfault

end Hoa

end SymbolicOmega
