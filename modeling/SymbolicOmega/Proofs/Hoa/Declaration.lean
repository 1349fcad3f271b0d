import Mathlib.Data.List.Nodup
import SymbolicOmega.Proofs.Formula.Reading
import SymbolicOmega.Proofs.Hoa.Aliases
import SymbolicOmega.Proofs.Hoa.Quotation

/-!
# The declared propositions

A header declares each proposition by its alias, or by its number if it has none.  A table
never gives one alias to two propositions, and two numbers differ in their digits, but
nothing keeps an alias from being a number.  So two propositions are declared alike exactly
when the alias of one is the number of another that has no alias.
-/

namespace SymbolicOmega

namespace Hoa

/-! ## The names of a header -/

namespace Document

/-- The alias of a proposition is the number of another one, which has no alias. -/
def Clash (aliases : Option Aliases) (k : Nat) : Prop :=
  ∃ p < k, ∃ q < k, aliases.bind (·.name? p) = some (toString q) ∧
    aliases.bind (·.name? q) = none

theorem toString_injective : Function.Injective (toString : Nat → String) := by
  intro p q heq
  have hread := number?_toString p
  rw [heq, number?_toString] at hread
  exact (Option.some.inj hread).symm

/-- An alias stands for one proposition. -/
theorem eq_of_name? {aliases : Option Aliases} {p q : Nat} {name : String}
    (haliases : ∀ table ∈ aliases, ∃ bindings, table = Aliases.ofList bindings)
    (hp : aliases.bind (·.name? p) = some name) (hq : aliases.bind (·.name? q) = some name) :
    p = q := by
  cases aliases with
  | none => cases hp
  | some table =>
      obtain ⟨bindings, htable⟩ := haliases table rfl
      have hsound : table.Sound := htable ▸ Aliases.ofList_sound bindings
      rw [Option.bind_some, hsound.name?_iff] at hp hq
      exact Option.some.inj (hp.symm.trans hq)

/-- The names differ unless an alias is the number of a proposition without one. -/
theorem nodup_names_iff {aliases : Option Aliases}
    (haliases : ∀ table ∈ aliases, ∃ bindings, table = Aliases.ofList bindings) (k : Nat) :
    ((List.range k).map (propositionName aliases)).Nodup ↔ ¬ Clash aliases k := by
  rw [List.nodup_map_iff_inj_on List.nodup_range]
  constructor
  · intro hinjective ⟨p, hp, q, hq, halias, hnone⟩
    have hsame : propositionName aliases p = propositionName aliases q := by
      rw [propositionName, propositionName, halias, hnone]
      rfl
    have hpq := hinjective p (List.mem_range.2 hp) q (List.mem_range.2 hq) hsame
    rw [hpq, hnone] at halias
    cases halias
  · intro hclear p hp q hq hsame
    rw [List.mem_range] at hp hq
    rw [propositionName, propositionName] at hsame
    cases halias : aliases.bind (·.name? p) with
    | none =>
        rw [halias, Option.getD_none] at hsame
        cases halias' : aliases.bind (·.name? q) with
        | none =>
            rw [halias', Option.getD_none] at hsame
            exact toString_injective hsame
        | some name =>
            rw [halias', Option.getD_some] at hsame
            exact absurd ⟨q, hq, p, hp, hsame ▸ halias', halias⟩ hclear
    | some name =>
        rw [halias, Option.getD_some] at hsame
        cases halias' : aliases.bind (·.name? q) with
        | none =>
            rw [halias', Option.getD_none] at hsame
            exact absurd ⟨p, hp, q, hq, hsame ▸ halias, halias'⟩ hclear
        | some name' =>
            rw [halias', Option.getD_some] at hsame
            exact eq_of_name? haliases (hsame ▸ halias) halias'

/-- The declaration is its key, the number of the names, and each name quoted after a blank. -/
theorem renderPropositions_eq (names : List String) :
    renderPropositions names =
      s!"AP: {names.length}" ++ String.join (names.map fun name => " " ++ Text.quoted name) := by
  have hjoined : ∀ (first : String) (rest : List String),
      " ".intercalate (first :: rest) = first ++ String.join (rest.map (" " ++ ·)) := by
    intro first rest
    induction rest generalizing first with
    | nil => simp
    | cons second rest ih =>
        rw [String.intercalate_cons_cons, ih, List.map_cons, String.join_cons]
        simp only [String.append_assoc]
  cases names with
  | nil => rfl
  | cons first rest =>
      have hblank : s!"AP: {(first :: rest).length} " = s!"AP: {(first :: rest).length}" ++ " " :=
        rfl
      rw [renderPropositions, if_neg (by simp), hblank, List.map_cons, List.map_cons, hjoined,
        List.map_map, String.join_cons]
      simp only [String.append_assoc]
      rfl

/-- What a document declares over the propositions below `k`: a name for each of them, its alias or
else its number.  The line that is written has all of them, and two are alike in it exactly if
an alias is the number of a proposition without one. -/
structure Declares (aliases : Option Aliases) (k : Nat) (document : Document) : Prop where
  length : document.propositions.length = k
  aliased : ∀ p < k, ∀ name, aliases.bind (·.name? p) = some name →
    document.propositions[p]? = some name
  numbered : ∀ p < k, aliases.bind (·.name? p) = none →
    document.propositions[p]? = some (toString p)
  line : Act.line [s!"AP: {k}" ++
    String.join (document.propositions.map fun name => " " ++ Text.quoted name)] ∈ document.acts
  distinct_iff : (document.propositions.map Text.quoted).Nodup ↔ ¬ Clash aliases k

theorem declares_of_propositions {aliases : Option Aliases} {k : Nat} {document : Document}
    (haliases : ∀ table ∈ aliases, ∃ bindings, table = Aliases.ofList bindings)
    (hnames : document.propositions = (List.range k).map (propositionName aliases)) :
    Declares aliases k document := by
  have hlength : document.propositions.length = k := by simp [hnames]
  constructor
  · exact hlength
  · intro p hp name hname
    simp [hnames, hp, propositionName, hname]
  · intro p hp hnone
    simp [hnames, hp, propositionName, hnone]
  · rw [← hlength, ← renderPropositions_eq]
    simp [acts, headerLines]
  · rw [List.nodup_map_iff Text.quoted_injective, hnames]
    exact nodup_names_iff haliases k

/-- Every document that is written declares the propositions of its automaton, whatever is in the
table of aliases. -/
theorem ofAutomaton_declares {S : Type} [DecidableEq S] [ToString S] {style : Style}
    {s s' : Scene S} {document : Document}
    (haliases : ∀ table ∈ style.aliases, ∃ bindings, table = Aliases.ofList bindings)
    (hdocument : ofAutomaton style s = .ok document s') :
    ∃ factory, s.workspace.factories[s.automaton.owner]? = some factory ∧
      Declares style.aliases factory.alphabetSize document := by
  have hasked : Outcome (Workspace.askFactory s.automaton.owner fun f => .ok f.alphabetSize)
      s.workspace (fun k _ => ∃ factory,
        s.workspace.factories[s.automaton.owner]? = some factory ∧ factory.alphabetSize = k)
      fun _ _ => True := by
    unfold Outcome Workspace.askFactory
    cases s.workspace.factories[s.automaton.owner]? with
    | none => trivial
    | some factory => exact ⟨factory, rfl, rfl⟩
  have hwritten : Outcome (ofAutomaton style) s
      (fun document _ => ∃ factory, s.workspace.factories[s.automaton.owner]? = some factory ∧
        Declares style.aliases factory.alphabetSize document)
      fun _ _ => True := by
    apply Outcome.bind_ok (Automaton.current_run s)
    apply Outcome.bind
    apply Automaton.inWorkspace_outcome
    apply hasked.imp
    intro k w hfactory
    obtain ⟨factory, hfactory, rfl⟩ := hfactory
    cases if s.automaton.rows.isEmpty then none else s.automaton.initial.state? with
    | none => exact Outcome.pure ⟨factory, hfactory, declares_of_propositions haliases rfl⟩
    | some initial =>
        apply Outcome.bind_answers (Outcome.always _ _)
        intro acceptance t₁ _
        apply Outcome.bind_answers (Outcome.always _ t₁)
        intro _ t₂ _
        apply Outcome.bind_answers (Outcome.always _ t₂)
        intro blocks t₃ _
        exact Outcome.pure ⟨factory, hfactory, declares_of_propositions haliases rfl⟩
  exact hwritten.of_ok hdocument

/-! ## An alias that is a number -/

/-- One state without edges, over two propositions. -/
private def restingScene : Scene Nat where
  automaton :=
    { owner := 0
      space := ⟨fun _ _ => return []⟩
      initial := .resolved (some 0)
      builds := 0
      rows := [(0, [])]
      acceptance := ⟨.marks .all, []⟩ }
  workspace := .ofFactories [(Factory.ofSizing 2 ⟨3, 2, 5⟩).toOption.getD default]

/-- Proposition 0 is called by the number of proposition 1. -/
private def numberNamed : Style :=
  { (default : Style) with aliases := some (.ofList [("1", 0)]) }

private def declaredNames (s : Scene Nat) : Option (List String) :=
  match ofAutomaton numberNamed s with
  | .ok document _ => some document.propositions
  | .error _ _ => none

private theorem resting_names : declaredNames restingScene = some ["1", "1"] := by
  decide +kernel

/-- The theorem at an alias that is the number of another proposition: both are declared as `1`. -/
theorem resting_declares :
    Clash numberNamed.aliases 2 ∧
      ∃ document s', ofAutomaton numberNamed restingScene = .ok document s' ∧
        Declares numberNamed.aliases 2 document ∧
        Act.line ["AP: 2 \"1\" \"1\""] ∈ document.acts ∧
        ¬ (document.propositions.map Text.quoted).Nodup := by
  have hclash : Clash numberNamed.aliases 2 := ⟨0, by decide, 1, by decide, rfl, rfl⟩
  have haliases : ∀ table ∈ numberNamed.aliases, ∃ bindings, table = Aliases.ofList bindings := by
    intro table htable
    exact ⟨[("1", 0)], (Option.some.inj htable).symm⟩
  have hnames := resting_names
  rw [declaredNames] at hnames
  cases hdocument : ofAutomaton numberNamed restingScene with
  | error fault s' =>
      rw [hdocument] at hnames
      cases hnames
  | ok document s' =>
      rw [hdocument] at hnames
      obtain ⟨factory, hfactory, hdeclares⟩ := ofAutomaton_declares haliases hdocument
      have hsize : factory.alphabetSize = 2 := by
        cases hfactory
        rfl
      rw [hsize] at hdeclares
      have hline := hdeclares.line
      rw [Option.some.inj hnames] at hline
      exact ⟨hclash, document, s', rfl, hdeclares, hline,
        fun hdistinct => hdeclares.distinct_iff.1 hdistinct hclash⟩

end Document

end Hoa

end SymbolicOmega
