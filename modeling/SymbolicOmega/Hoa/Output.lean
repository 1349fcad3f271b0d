import SymbolicOmega.Formula.Printer
import SymbolicOmega.Hoa.Document
import SymbolicOmega.Text.Quoted

/-!
# Writing HOA documents

A document is written line by line, and a line piece by piece; a name that the caller
chose is one piece.  An output may refuse a piece: the line is then cut short, a
warning says so, and writing goes on with the next line.  A piece is taken or refused
whole, so a name with line ends in it may still be taken where the output closes, and
what follows the name on its line is refused.
-/

namespace SymbolicOmega

namespace Hoa

/-- One thing done while a document is written. -/
inductive Act where
  /-- Write the pieces and end the line. -/
  | line (pieces : List String)
  | warn (text : String)
  | flush
deriving DecidableEq, Repr

def annotation (key : String) (values : List String) : List String :=
  if values.isEmpty then [key, ":"] else [key, ": ", " ".intercalate values]

/-- The marks of an edge, after a blank; nothing if there are none. -/
def renderMarks (marks : BitSet) : String :=
  if marks.isEmpty then ""
  else " \x7b" ++ " ".intercalate (marks.toList.map toString) ++ "\x7d"

def Item.act : Item → Act
  | .edge label target marks =>
      .line ("[" :: label.pieces toString ++ [s!"] {target}{renderMarks marks}"])
  | .unexplored state target => .warn s!"HOA: edge from {state} leads to unexplored state {target}"

def StateBlock.acts (block : StateBlock) : List Act :=
  .line [s!"State: {block.number} {Text.quoted block.name}"] :: block.items.map Item.act

def renderPropositions (names : List String) : String :=
  if names.isEmpty then "AP: 0"
  else s!"AP: {names.length} " ++ " ".intercalate (names.map Text.quoted)

namespace Document

/-- The lines of the header, each in pieces. -/
def headerLines (d : Document) : List (List String) :=
  [["HOA: v1"],
    ["tool: " ++ " ".intercalate ((d.tool :: d.version.toList).map Text.quoted)],
    ["name: " ++ Text.quoted d.name],
    [s!"States: {d.stateCount}"]]
  ++ (d.body.map fun body => [s!"Start: {body.start}"]).toList
  ++ [["acc-name: " ++ " ".intercalate (d.acceptanceName :: d.acceptanceParameters.map toString)],
    [s!"Acceptance: {d.acceptanceSets} {d.acceptanceFormula}"],
    [renderPropositions d.propositions]]
  ++ d.aliases.map (fun (name, index) => ["Alias: @" ++ name, s!" {index}"])
  ++ d.annotations.map (fun (key, values) => annotation key values)

/-- All that is done to write a document.  Only a document with a body is flushed. -/
def acts (d : Document) : List Act :=
  d.headerLines.map .line ++ [.line ["--BODY--"]] ++
    match d.body with
    | none => [.line ["--END--"]]
    | some body => body.blocks.flatMap StateBlock.acts ++ [.line ["--END--"], .flush]

end Document

structure Output where
  text : String
  /-- Number of line ends written. -/
  lineEnds : Nat
  /-- The output accepts text only while it has fewer line ends than this. -/
  limit : Option Nat
  /-- The words in which it refuses. -/
  refusal : String
  warnings : List String
deriving DecidableEq, Repr

namespace Output

def blank (limit : Option Nat) (refusal : String) : Output :=
  ⟨"", 0, limit, refusal, []⟩

/-- Whether the output refuses everything from now on. -/
def isClosed (o : Output) : Bool :=
  o.limit.any (· ≤ o.lineEnds)

def warn (o : Output) (warning : String) : Output :=
  { o with warnings := o.warnings ++ [warning] }

def warnRefused (o : Output) : Output :=
  o.warn s!"HOA output failed: {o.refusal}"

def append (o : Output) (text : String) : Output :=
  { o with text := o.text ++ text, lineEnds := o.lineEnds + text.toList.count '\n' }

/-- Write one piece after the other up to the first that is refused. -/
def writePieces : List String → Output → Output
  | [], o => o
  | piece :: rest, o =>
      if o.isClosed then o.warnRefused else writePieces rest (o.append piece)

def line (o : Output) (pieces : List String) : Output :=
  o.writePieces (pieces ++ ["\n"])

def perform (o : Output) : Act → Output
  | .line pieces => o.line pieces
  | .warn warning => o.warn warning
  | .flush => if o.isClosed then o.warnRefused else o

/-- Write a document. -/
def write (o : Output) (d : Document) : Output :=
  d.acts.foldl perform o

end Output

/-- Write the document of an automaton. -/
def write {S : Type} [DecidableEq S] [ToString S] (style : Style) (o : Output) :
    AutomatonM S Output :=
  return o.write (← Document.ofAutomaton style)

end Hoa

end SymbolicOmega
