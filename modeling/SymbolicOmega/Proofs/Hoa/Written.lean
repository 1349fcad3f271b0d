import SymbolicOmega.Proofs.Formula.Reading
import SymbolicOmega.Proofs.Hoa.Quotation

/-!
# The text of a document

A document with a body is written as a sheet: the lines of a header, and for each state one line
with its number and its name and one for every edge.  An output that refuses nothing has the text
of the sheet in the end, after what it had before.
-/

namespace SymbolicOmega

namespace Hoa

/-- An edge on a line of its own. -/
structure EdgeLine where
  label : Formula LabelAtom
  target : Nat
  marks : BitSet

/-- What is written about a state. -/
structure StateLines where
  number : Nat
  name : String
  edges : List EdgeLine

structure Sheet where
  header : List String
  states : List StateLines

/-- The label in brackets, the number that the edge leads to, and its marks in braces if it has
any. -/
def EdgeLine.text (edge : EdgeLine) : String :=
  "[" ++ toString edge.label ++ "] " ++ toString edge.target ++
    match edge.marks.toList with
    | [] => ""
    | marks => " \x7b" ++ " ".intercalate (marks.map toString) ++ "\x7d"

def StateLines.lines (state : StateLines) : List String :=
  s!"State: {state.number} {Text.quoted state.name}" :: state.edges.map EdgeLine.text

def Sheet.lines (sheet : Sheet) : List String :=
  sheet.header ++ "--BODY--" :: sheet.states.flatMap StateLines.lines ++ ["--END--"]

def Sheet.text (sheet : Sheet) : String :=
  String.join (sheet.lines.map (· ++ "\n"))

/-! ## Reading an edge -/

section Reading

def isBrace (c : Char) : Bool :=
  c = '\x7b' || c = '\x7d'

/-- The numbers in a text, each with a blank before it.  Braces count for nothing. -/
def readNumbers (text : List Char) : Option (List Nat) :=
  ((text.filter (!isBrace ·)).splitOn ' ').tail.mapM number?

/-- The label of a line, the number that its edge leads to, and the marks.  The label ends at the
last bracket. -/
def readEdge (line : String) : Option (String × Nat × List Nat) :=
  match line.toList with
  | '[' :: rest =>
      match readNumbers (rest.reverse.takeWhile (· ≠ ']')).reverse with
      | some (target :: marks) =>
          some (String.ofList ((rest.reverse.dropWhile (· ≠ ']')).drop 1).reverse, target, marks)
      | _ => none
  | _ => none

/-- Some numbers, each with a blank before it. -/
def spaced (numbers : List Nat) : List Char :=
  numbers.flatMap fun n => ' ' :: (toString n).toList

theorem digits_plain (n : Nat) {c : Char} (hc : c ∈ (toString n).toList) :
    c ≠ ' ' ∧ c ≠ ']' ∧ isBrace c = false := by
  have hdigit := isDigit_of_mem_toString n hc
  refine ⟨?_, ?_, ?_⟩
  · rintro rfl
    exact absurd hdigit (by decide)
  · rintro rfl
    exact absurd hdigit (by decide)
  · rw [isBrace, Bool.or_eq_false_iff, decide_eq_false_iff_not, decide_eq_false_iff_not]
    constructor <;> rintro rfl <;> exact absurd hdigit (by decide)

theorem spaced_plain (numbers : List Nat) {c : Char} (hc : c ∈ spaced numbers) :
    c ≠ ']' ∧ isBrace c = false := by
  obtain ⟨n, -, hn⟩ := List.mem_flatMap.1 hc
  obtain rfl | hdigit := List.mem_cons.1 hn
  · decide
  · exact (digits_plain n hdigit).2

theorem spaced_eq_intercalate (numbers : List Nat) :
    spaced numbers = [' '].intercalate ([] :: numbers.map fun n => (toString n).toList) := by
  induction numbers with
  | nil => rfl
  | cons n rest ih =>
      cases rest with
      | nil => simp [spaced]
      | cons n' rest =>
          rw [spaced, List.flatMap_cons, ← spaced, ih]
          simp [List.intercalate_cons_cons]

/-- A list of numbers in a line begins without a blank. -/
theorem spaced_cons (n : Nat) (rest : List Nat) :
    spaced (n :: rest) = ' ' :: (" ".intercalate ((n :: rest).map toString)).toList := by
  rw [spaced_eq_intercalate, String.toList_intercalate, List.map_map, List.map_cons, List.map_cons,
    List.intercalate_cons_cons]
  rfl

theorem readNumbers_spaced {text : List Char} {numbers : List Nat}
    (htext : text.filter (!isBrace ·) = spaced numbers) : readNumbers text = some numbers := by
  have hsplit : (spaced numbers).splitOn ' ' = [] :: numbers.map fun n => (toString n).toList := by
    rw [spaced_eq_intercalate]
    apply List.splitOn_intercalate
    · intro digits hdigits hblank
      obtain rfl | hdigits := List.mem_cons.1 hdigits
      · cases hblank
      · obtain ⟨n, -, rfl⟩ := List.mem_map.1 hdigits
        exact (digits_plain n hblank).1 rfl
    · exact List.cons_ne_nil _ _
  rw [readNumbers, htext, hsplit, List.tail_cons, List.mapM_map]
  clear htext hsplit
  induction numbers with
  | nil => rfl
  | cons n rest ih =>
      rw [List.mapM_cons, Function.comp_apply, number?_toString, ih]
      rfl

/-- What follows the label of a line. -/
theorem EdgeLine.text_toList (edge : EdgeLine) : ∃ tail : List Char,
    edge.text.toList = '[' :: ((toString edge.label).toList ++ ']' :: tail) ∧ ']' ∉ tail ∧
      tail.filter (!isBrace ·) = spaced (edge.target :: edge.marks.toList) := by
  have hplain : ∀ numbers, (spaced numbers).filter (!isBrace ·) = spaced numbers := fun numbers =>
    List.filter_eq_self.2 fun c hc => by simp [(spaced_plain numbers hc).2]
  cases hmarks : edge.marks.toList with
  | nil =>
      refine ⟨spaced [edge.target], ?_, fun hc => (spaced_plain _ hc).1 rfl, hplain _⟩
      simp [EdgeLine.text, hmarks, spaced]
  | cons first rest =>
      have htext : edge.text = "[" ++ toString edge.label ++ "] " ++ toString edge.target ++
          (" \x7b" ++ " ".intercalate ((first :: rest).map toString) ++ "\x7d") := by
        rw [EdgeLine.text, hmarks]
      have hspaced := spaced_cons first rest
      generalize " ".intercalate ((first :: rest).map toString) = list at htext hspaced
      have hinner : ∀ c ∈ list.toList, c ≠ ']' ∧ isBrace c = false := fun c hc =>
        spaced_plain (first :: rest) (hspaced ▸ List.mem_cons_of_mem _ hc)
      have hbraces : isBrace '\x7b' = true ∧ isBrace '\x7d' = true ∧ isBrace ' ' = false := by decide
      refine ⟨spaced [edge.target] ++ ' ' :: '\x7b' :: (list.toList ++ ['\x7d']), ?_, ?_, ?_⟩
      · simp [htext, spaced]
      · have hlist : ']' ∉ list.toList := fun hc => (hinner _ hc).1 rfl
        have htarget : ']' ∉ spaced [edge.target] := fun hc => (spaced_plain _ hc).1 rfl
        simp [hlist, htarget]
      · have hfilter : list.toList.filter (!isBrace ·) = list.toList :=
          List.filter_eq_self.2 fun c hc => by simp [(hinner c hc).2]
        have happend : spaced (edge.target :: first :: rest) =
            spaced [edge.target] ++ spaced (first :: rest) := by
          simp [spaced]
        rw [happend, List.filter_append, hplain, hspaced]
        simp [hbraces, hfilter]

/-- A line is read back: its label as it stands there, the number, and the marks. -/
theorem readEdge_text (edge : EdgeLine) :
    readEdge edge.text = some (toString edge.label, edge.target, edge.marks.toList) := by
  obtain ⟨tail, htext, hbracket, hnumbers⟩ := edge.text_toList
  have hread : readNumbers tail = some (edge.target :: edge.marks.toList) :=
    readNumbers_spaced hnumbers
  have hreverse : ((toString edge.label).toList ++ ']' :: tail).reverse =
      tail.reverse ++ ']' :: (toString edge.label).toList.reverse := by simp
  have hplain : ∀ c ∈ tail.reverse, decide (c ≠ ']') = true := by
    intro c hc
    rw [decide_eq_true_eq]
    rintro rfl
    exact hbracket (List.mem_reverse.1 hc)
  simp only [readEdge, htext, hreverse, List.takeWhile_append_of_pos hplain,
    List.dropWhile_append_of_pos hplain]
  simp [hread]

end Reading

/-- A remark is not written. -/
def Item.edge? : Item → Option EdgeLine
  | .edge label target marks => some ⟨label, target, marks⟩
  | .unexplored _ _ => none

/-- The edges among some items. -/
def edgesOf (items : List Item) : List EdgeLine :=
  items.filterMap Item.edge?

theorem mem_edgesOf {items : List Item} {edge : EdgeLine} :
    edge ∈ edgesOf items ↔ Item.edge edge.label edge.target edge.marks ∈ items := by
  rw [edgesOf, List.mem_filterMap]
  constructor
  · rintro ⟨item, hitem, hedge⟩
    cases item with
    | edge label target marks =>
        cases hedge
        exact hitem
    | unexplored state target => cases hedge
  · exact fun hitem => ⟨_, hitem, rfl⟩

def StateBlock.onSheet (block : StateBlock) : StateLines :=
  ⟨block.number, block.name, edgesOf block.items⟩

def Document.sheet (d : Document) (body : Body) : Sheet :=
  ⟨d.headerLines.map String.join, body.blocks.map StateBlock.onSheet⟩

/-! ## What an output has in the end -/

/-- What an act adds to a text. -/
def Act.text : Act → String
  | .line pieces => String.join pieces ++ "\n"
  | .warn _ => ""
  | .flush => ""

namespace Output

variable {o : Output}

theorem writePieces_open (h : o.limit = none) (pieces : List String) :
    (o.writePieces pieces).limit = none ∧
      (o.writePieces pieces).text = o.text ++ String.join pieces := by
  induction pieces generalizing o with
  | nil => simp [writePieces, h]
  | cons piece rest ih =>
      have hopen : o.isClosed = false := by simp [isClosed, h]
      rw [writePieces, if_neg (by simp [hopen])]
      obtain ⟨hlimit, htext⟩ := ih (o := o.append piece) h
      refine ⟨hlimit, ?_⟩
      rw [htext, String.join_cons, append, String.append_assoc]

theorem perform_open (h : o.limit = none) (act : Act) :
    (o.perform act).limit = none ∧ (o.perform act).text = o.text ++ act.text := by
  cases act with
  | line pieces => simpa [perform, Output.line, Act.text] using writePieces_open h (pieces ++ ["\n"])
  | warn warning => simpa [perform, warn, Act.text] using h
  | flush => simp [perform, isClosed, h, Act.text]

/-- Where nothing is refused, the texts of all acts follow one another. -/
theorem performAll_open (h : o.limit = none) (acts : List Act) :
    (acts.foldl perform o).text = o.text ++ String.join (acts.map Act.text) := by
  induction acts generalizing o with
  | nil => simp
  | cons act rest ih =>
      obtain ⟨hlimit, htext⟩ := perform_open h act
      rw [List.foldl_cons, ih hlimit, htext, List.map_cons, String.join_cons, String.append_assoc]

end Output

theorem renderMarks_eq (marks : BitSet) :
    renderMarks marks = match marks.toList with
      | [] => ""
      | list => " \x7b" ++ " ".intercalate (list.map toString) ++ "\x7d" := by
  cases hempty : marks.isEmpty with
  | true =>
      rw [renderMarks, hempty, BitSet.eq_empty_of_isEmpty hempty]
      rfl
  | false =>
      have hmem := BitSet.mem_toList.2 (BitSet.contains_greatest hempty)
      rw [renderMarks, hempty]
      cases hlist : marks.toList with
      | nil =>
          rw [hlist] at hmem
          cases hmem
      | cons first rest => simp

theorem Item.act_text (item : Item) :
    item.act.text = String.join (item.edge?.toList.map fun edge => edge.text ++ "\n") := by
  cases item with
  | unexplored state target => rfl
  | edge label target marks =>
      have hlabel : String.join (label.pieces toString) = toString label := rfl
      have hline : s!"] {target}{renderMarks marks}" = "] " ++ toString target ++ renderMarks marks := by
        simp [toString]
      have hedge : EdgeLine.text ⟨label, target, marks⟩ =
          "[" ++ toString label ++ "] " ++ toString target ++ renderMarks marks := by
        rw [renderMarks_eq]
        rfl
      rw [Item.act, Act.text, edge?, hline]
      simp [hedge, hlabel, String.append_assoc]

theorem StateBlock.acts_text (block : StateBlock) :
    String.join (block.acts.map Act.text) =
      String.join (block.onSheet.lines.map (· ++ "\n")) := by
  rw [acts, onSheet, StateLines.lines, List.map_cons, List.map_cons, String.join_cons,
    String.join_cons]
  congr 1
  induction block.items with
  | nil => rfl
  | cons item rest ih =>
      rw [List.map_cons, List.map_cons, String.join_cons, ih, Item.act_text, edgesOf]
      cases hitem : item.edge? <;> simp [hitem, edgesOf]

theorem Document.acts_text {d : Document} {body : Body} (hbody : d.body = some body) :
    String.join (d.acts.map Act.text) = (d.sheet body).text := by
  have hblocks : String.join ((body.blocks.flatMap StateBlock.acts).map Act.text) =
      String.join (((body.blocks.map StateBlock.onSheet).flatMap StateLines.lines).map
        (· ++ "\n")) := by
    induction body.blocks with
    | nil => rfl
    | cons block rest ih => simp only [List.flatMap_cons, List.map_append, String.join_append,
        List.map_cons, ih, StateBlock.acts_text]
  rw [acts, hbody]
  simp only [List.map_append, String.join_append, hblocks]
  have hheader : String.join ((d.headerLines.map Act.line).map Act.text) =
      String.join ((d.headerLines.map String.join).map (· ++ "\n")) := by
    rw [List.map_map, List.map_map]
    rfl
  rw [hheader]
  simp [sheet, Sheet.text, Sheet.lines, Act.text, String.append_assoc]

/-- The bindings that a document declares. -/
def Style.bindings (style : Style) : List (String × Nat) :=
  (style.aliases.map (·.bindings)).getD []

/-- What the lines of a header say about an automaton: who wrote it and what it is called, how many
states are explored, the number of the initial state, and the names of the propositions. -/
structure Announces {S : Type} [ToString S] (style : Style) (a : Automaton S) (start : Nat)
    (header : List String) : Prop where
  version : header[0]? = some "HOA: v1"
  tool : ∃ strings, header[1]? = some ("tool: " ++ strings) ∧
    Text.readStrings strings.toList = some (style.tool :: style.version.toList)
  name : ∃ strings, header[2]? = some ("name: " ++ strings) ∧ Text.readStrings strings.toList =
    some [style.name.getD (Document.defaultName a.initial.state?)]
  count : header[3]? = some s!"States: {a.states.length}"
  start : header[4]? = some s!"Start: {start}"
  propositions : ∃ k strings, s!"AP: {k}" ++ strings ∈ header ∧ Text.readStrings strings.toList =
    some ((List.range k).map (Document.propositionName style.aliases))
  aliases : ∀ binding ∈ style.bindings, s!"Alias: @{binding.1} {binding.2}" ∈ header

/-- Renumbering the acceptance sets does not change what a header says here. -/
theorem header_announces {S : Type} [ToString S] (style : Style) (a : Automaton S)
    (acceptance : Acceptance S) (k : Nat) (body : Body) {d : Document}
    (hd : d = Document.header style { a with acceptance } k acceptance (some body)) :
    Announces style a body.start (d.sheet body).header := by
  obtain ⟨tool, name, propositions, htool, hreadTool, hname, hreadName, hnames, hreadNames⟩ :=
    d.headerLines_strings
  subst hd
  constructor
  · rfl
  · refine ⟨tool, ?_, hreadTool⟩
    rw [Document.sheet, List.getElem?_map, htool]
    simp
  · refine ⟨name, ?_, hreadName⟩
    rw [Document.sheet, List.getElem?_map, hname]
    simp
  · simp [Document.sheet, Document.headerLines, Document.header, Automaton.states, Automaton.size]
  · simp [Document.sheet, Document.headerLines, Document.header]
  · refine ⟨k, propositions, ?_, hreadNames⟩
    have hlength : ((List.range k).map (Document.propositionName style.aliases)).length = k := by
      simp
    refine List.mem_map.2 ⟨_, hnames, ?_⟩
    simp [Document.header, hlength]
  · intro binding hbinding
    refine List.mem_map.2 ⟨["Alias: @" ++ binding.1, s!" {binding.2}"], ?_, ?_⟩
    · simp only [Document.headerLines, List.mem_append, List.mem_map]
      exact .inl (.inr ⟨binding, hbinding, rfl⟩)
    · have hline : s!"Alias: @{binding.1} {binding.2}" =
          "Alias: @" ++ binding.1 ++ s!" {binding.2}" := by simp [toString, String.append_assoc]
      rw [hline]
      simp

end Hoa

end SymbolicOmega
