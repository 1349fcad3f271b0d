import SymbolicOmega.Proofs.Hoa.Bookkeeping

/-!
# Programs

A program has letter sets, sets of transitions, conditions and automata in one factory.  What a
command is about is named by position; new and changed things come to the front.  A command that
fails leaves the program with what it has then: with what was there before, except for a letter set
that was handed over, and with what an automaton kept before the failure.
-/

namespace SymbolicOmega

open Workspace

/-- What is at a position. -/
def pickAt {σ α : Type} (list : List α) (j : Nat) : EStateM Fault σ α :=
  match list[j]? with
  | some a => return a
  | none => throw .indexOutOfRange

section PickAt
variable {σ α β : Type} {list : List α} {j : Nat} {f : α → EStateM Fault σ β}

theorem pickAt_outcome {s : σ} {good : β → σ → Prop} {bad : Fault → σ → Prop}
    (hnone : bad .indexOutOfRange s)
    (hsome : ∀ a, list[j]? = some a → Outcome (f a) s good bad) :
    Outcome (pickAt list j >>= f) s good bad := by
  rw [pickAt]
  cases hj : list[j]? with
  | none => exact Outcome.bind (Outcome.throw hnone)
  | some a => exact hsome a hj

theorem pickAt_secures {P : σ → Prop}
    (hf : ∀ a ∈ list, Secures P Fault.Orderly (f a)) :
    Secures P Fault.Orderly (pickAt list j >>= f) := fun s hs =>
  pickAt_outcome ⟨fun _ => Fault.noConfusion, hs⟩ fun a ha => hf a (List.mem_of_getElem? ha) s hs

end PickAt

variable {S : Type}

/-- The sets that the pairs of a condition refer to. -/
def Acceptance.sets (a : Acceptance S) : List (TransitionSet S) :=
  match a.condition with
  | .marks _ => []
  | .rabin r => r.sets

/-- A state space whose rows hold their labels and nothing else.  How rows are made is up to the
caller; what is found letter by letter or described by a table is such a space. -/
abbrev LawfulSpace (S : Type) := { space : StateSpace S // space.Lawful }

/-- The space that a rule table describes. -/
def RuleTable.lawfulSpace {S : Type} [DecidableEq S] (table : RuleTable S) : LawfulSpace S :=
  ⟨table.space, table.space_lawful⟩

/-- What a program has in its workspace. -/
structure Program (S : Type) where
  workspace : Workspace
  sets : List LetterSet
  transitions : List (TransitionSet S)
  conditions : List (Acceptance S)
  automata : List (Automaton S)

/-- What a program does; what it has after a failure is what it goes on with. -/
abbrev ProgramM (S : Type) := EStateM Fault (Program S)

/-- Where a condition is. -/
inductive Place where
  | alone (c : Nat)
  | ofAutomaton (a : Nat)

/-- A live set that an operation reads. -/
inductive Operand (S : Type) where
  | own (j : Nat)
  /-- The label of the edge at `n` in the kept row of a state. -/
  | label (a : Nat) (state : S) (n : Nat)
  /-- What a set of transitions covers at a state. -/
  | covered (t : Nat) (state : S)

/-- A question about what a program has. -/
inductive Question (S : Type) where
  | contains (s : Operand S) (letter : BitSet)
  | size (s : Operand S)
  | formula (s : Operand S) (shown : Nat → LabelAtom)
  | intersects (s t : Operand S)
  | containsAll (s t : Operand S)
  | hasTransition (t : Nat) (state : S) (letter : BitSet)
  | covers (t : Nat) (state : S) (s : Operand S)
  | coversAll (t u : Nat)
  | implies (place : Place) (n l : Nat)
  | covering (place : Place) (state : S) (s : Operand S)

/-- Where new letter sets come from. -/
inductive Source (S : Type) where
  | copy (s : Operand S)
  | complement (s : Operand S)
  | combine (operation : SetOperation) (s t : Operand S)
  /-- What an edge with a label is cut into. -/
  | split (place : Place) (state : S) (edge : Edge S) (s : Operand S)
  | pieces (place : Place) (state : S) (s : Operand S)

/-- Where a new reference to a set of transitions comes from. -/
inductive Origin where
  | create
  | copy (t : Nat)
  | share (t : Nat)
  /-- The set at `n` in the pairs of a condition. -/
  | ofPair (place : Place) (n : Nat)

/-- How a set of transitions grows. -/
inductive Growth (S : Type) where
  /-- By the letters of the set at `j`, which is handed over. -/
  | insert (state : S) (j : Nat)
  | insertAll (state : S)

/-- How the pairs of a condition and their numbers change. -/
inductive PairEdit where
  /-- Add a pair of the sets of transitions at these positions. -/
  | add (fin : Nat) (infs : List Nat)
  | addCopy (n : Nat)
  | removePositions (positions : List Nat)
  | removeAll
  | renumber

inductive Command (S : Type) where
  | call (call : LetterSet.Call)
  /-- Change the letter set at `j` by what an operand has. -/
  | merge (operation : SetOperation) (j : Nat) (s : Operand S)
  | ask (question : Question S)
  | take (source : Source S)
  | refer (origin : Origin)
  | grow (t : Nat) (growth : Growth S)
  | letGo (t : Nat)
  | marks (condition : MarkCondition) (annotations : List (String × List String))
  /-- A Rabin condition, as yet without pairs. -/
  | rabin (annotations : List (String × List String))
  | edit (place : Place) (edit : PairEdit)
  | letGoCondition (c : Nat)
  /-- An automaton with the condition at `c`, which is handed over. -/
  | found (space : LawfulSpace S) (initial : Initial S) (c : Nat)
  | operate (a : Nat) (operation : Automaton.Operation S)
  | document (a : Nat) (style : Hoa.Style)
  | free (a : Nat)

namespace Program

/-! ## What a program has -/

/-- A program with a new factory. -/
def start (f : Factory) : Program S :=
  ⟨.ofFactories [f], [], [], [], []⟩

/-- The letter sets that are not labels of sets of transitions. -/
def held (P : Program S) : List LetterSet :=
  P.sets ++ P.automata.flatMap Automaton.labels

/-- All references to sets of transitions. -/
def references (P : Program S) : List (TransitionSet S) :=
  P.transitions ++ (P.conditions.flatMap Acceptance.references ++
    P.automata.flatMap fun a => a.acceptance.references)

/-- The condition at a place. -/
def conditionAt (P : Program S) : Place → WorkM (Acceptance S)
  | .alone c => pickAt P.conditions c
  | .ofAutomaton a => do return (← pickAt P.automata a).acceptance

/-! ## What a program does -/

/-- Run an operation in the workspace.  What the program has then is `put` when it is answered, and
`lost` when it fails. -/
def act {β : Type} (x : WorkM β) (put : β → Program S → Program S)
    (lost : Program S → Program S) : ProgramM S β := fun P =>
  match x P.workspace with
  | .ok b w => .ok b (put b { P with workspace := w })
  | .error fault w => .error fault (lost { P with workspace := w })

/-- Run an operation on the automaton at a position. -/
def tend (a : Nat) (x : AutomatonM S Unit) : ProgramM S Unit := fun P =>
  let put (s : Scene S) : Program S :=
    { P with workspace := s.workspace, automata := s.automaton :: P.automata.eraseIdx a }
  match P.automata[a]? with
  | none => .error .indexOutOfRange P
  | some m =>
      match x ⟨m, P.workspace⟩ with
      | .ok _ s => .ok () (put s)
      | .error fault s => .error fault (put s)

variable [DecidableEq S]

/-- Change the set of transitions at `t`, of which other references know nothing.  The program goes
on with the letter sets `sets`. -/
def growAt (t : Nat) (sets : List LetterSet)
    (grown : TransitionSet S → WorkM (TransitionSet S)) : ProgramM S Unit := do
  let set ← pickAt (← get).transitions t
  let own ← act set.unshared
    (fun own P => { P with transitions := own :: P.transitions.eraseIdx t }) id
  let _ ← act (grown own)
    (fun set P => { P with transitions := set :: P.transitions.tail, sets }) ({ · with sets })

end Program

section Commands
variable [DecidableEq S]

def Operand.find (P : Program S) : Operand S → WorkM LetterSet
  | own j => pickAt P.sets j
  | label a state n => do
      let m ← pickAt P.automata a
      let entry ← pickAt ((m.row? state).getD []) n
      return entry.2
  | covered t state => do
      let set ← pickAt P.transitions t
      match set.label? state with
      | none => throw .indexOutOfRange
      | some s => return s

def Question.run (P : Program S) : Question S → WorkM Unit
  | contains s letter => do discard ((← s.find P).contains letter)
  | size s => do discard (← s.find P).size
  | formula s shown => do discard ((← s.find P).formulaWith shown)
  | intersects s t => do discard ((← s.find P).intersects (← t.find P))
  | containsAll s t => do discard ((← s.find P).containsAll (← t.find P))
  | hasTransition t state letter => do
      let set ← pickAt P.transitions t
      discard (set.contains state letter)
  | covers t state s => do
      let set ← pickAt P.transitions t
      discard (set.containsAllAt state (← s.find P))
  | coversAll t u => do
      let set ← pickAt P.transitions t
      let other ← pickAt P.transitions u
      discard (set.containsAll other)
  | implies place n l => do
      let a ← P.conditionAt place
      match a.condition with
      | .marks _ => return ()
      | .rabin r => discard (r.implies n l)
  | covering place state s => do
      let a ← P.conditionAt place
      let s ← s.find P
      match a.condition with
      | .marks _ => return ()
      | .rabin r => discard (r.covering state s)

def Source.run (P : Program S) : Source S → WorkM (List LetterSet)
  | copy s => do return [← (← s.find P).copy]
  | complement s => do return [← (← s.find P).complement]
  | combine operation s t => do return [← operation.apply (← s.find P) (← t.find P)]
  | split place state edge s => do
      let a ← P.conditionAt place
      let s ← s.find P
      return (← a.split state edge s).map Prod.fst
  | pieces place state s => do
      let a ← P.conditionAt place
      let s ← s.find P
      match a.condition with
      | .marks _ => return []
      | .rabin r => r.pieces state s

omit [DecidableEq S] in
def Origin.run (P : Program S) : Origin → WorkM (TransitionSet S)
  | create => TransitionSet.create 0
  | copy t => do
      let set ← pickAt P.transitions t
      set.copy
  | share t => do
      let set ← pickAt P.transitions t
      set.share
      return set
  | ofPair place n => do
      let a ← P.conditionAt place
      let set ← pickAt a.sets n
      set.share
      return set

def Growth.run (t : Nat) : Growth S → ProgramM S Unit
  | insert state j => do
      let P ← get
      let label ← pickAt P.sets j
      Program.growAt t (P.sets.eraseIdx j) fun set => set.insert state label
  | insertAll state => do
      let P ← get
      Program.growAt t P.sets fun set => set.insertAll state

omit [DecidableEq S] in
/-- Change the pairs; `transitions` are the sets of transitions that the program has. -/
def PairEdit.onPairs (transitions : List (TransitionSet S)) (r : Rabin S) :
    PairEdit → WorkM (Rabin S)
  | add fin infs => do
      let fin ← pickAt transitions fin
      match infs.mapM (transitions[·]?) with
      | none => throw .indexOutOfRange
      | some infs =>
          Rabin.sharePair ⟨fin, infs⟩
          return r.addPairs [⟨fin, infs⟩]
  | addCopy n => do
      let pair ← r.pairAt n
      Rabin.sharePair pair
      return r.addPairs [pair]
  | removePositions positions => r.removePositions positions
  | removeAll => r.removeAll
  | renumber => r.renumber

omit [DecidableEq S] in
/-- Change a condition.  A condition on marks has no pairs and stays as it is. -/
def PairEdit.run (transitions : List (TransitionSet S)) (edit : PairEdit) (a : Acceptance S) :
    WorkM (Acceptance S) :=
  match a.condition with
  | .marks _ => return a
  | .rabin r => return { a with condition := .rabin (← edit.onPairs transitions r) }

omit [DecidableEq S] in
/-- Change the condition of an automaton. -/
def PairEdit.within (transitions : List (TransitionSet S)) (edit : PairEdit) :
    AutomatonM S Unit := do
  let a ← Automaton.current
  let acceptance ← Automaton.inWorkspace (edit.run transitions a.acceptance)
  Automaton.change fun a => { a with acceptance }

open Program in
def Command.perform [ToString S] : Command S → ProgramM S Unit
  | call c => do
      let P ← get
      let _ ← act (c.perform 0 P.sets) (fun sets P => { P with sets })
        fun P => { P with sets := c.left P.sets }
  | merge operation j operand => do
      let P ← get
      let s ← pickAt P.sets j
      let _ ← act (do operation.merge s (← operand.find P))
        (fun s P => { P with sets := s :: P.sets.eraseIdx j }) id
  | ask question => do
      act (question.run (← get)) (fun _ P => P) id
  | take source => do
      let _ ← act (source.run (← get)) (fun sets P => { P with sets := sets ++ P.sets }) id
  | refer origin => do
      let _ ← act (origin.run (← get))
        (fun set P => { P with transitions := set :: P.transitions }) id
  | grow t growth => growth.run t
  | letGo t => do
      let set ← pickAt (← get).transitions t
      act set.letGo (fun _ P => { P with transitions := P.transitions.eraseIdx t }) id
  | marks condition annotations =>
      modify fun P => { P with conditions := ⟨.marks condition, annotations⟩ :: P.conditions }
  | rabin annotations =>
      modify fun P => { P with conditions := ⟨.rabin (.ofPairs []), annotations⟩ :: P.conditions }
  | edit (.alone c) e => do
      let P ← get
      let a ← pickAt P.conditions c
      let _ ← act (e.run P.transitions a)
        (fun a P => { P with conditions := a :: P.conditions.eraseIdx c }) id
  | edit (.ofAutomaton a) e => do
      tend a (e.within (← get).transitions)
  | letGoCondition c => do
      let a ← pickAt (← get).conditions c
      act a.letGo (fun _ P => { P with conditions := P.conditions.eraseIdx c }) id
  | found space initial c => do
      let a ← pickAt (← get).conditions c
      modify fun P =>
        { P with
          conditions := P.conditions.eraseIdx c
          automata := .create 0 space.1 a initial :: P.automata }
  | operate a operation => tend a operation.run
  | document a style => tend a (discard (Hoa.Document.ofAutomaton style))
  | free a => do
      let m ← pickAt (← get).automata a
      act m.discard (fun _ P => { P with automata := P.automata.eraseIdx a }) id

/-- What a program has after a command, whether it was answered or failed. -/
def Program.after [ToString S] (P : Program S) (command : Command S) : Program S :=
  match command.perform P with
  | .ok _ P' => P'
  | .error _ P' => P'

end Commands

end SymbolicOmega
