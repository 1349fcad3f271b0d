import SymbolicOmega.Formula.Basic

/-!
# Folding constants away

Formulas are built by functions that fold constants and double negations as they go.
However these calls are nested, what comes out has the value of the formula that the
constructors would have built, lists its atoms in their order, and is a constant or a
formula without any.
-/

namespace SymbolicOmega

namespace Formula

variable {α : Type}

/-! ## Normal forms -/

/-- A formula that is not a constant. -/
def Proper (e : Formula α) : Prop :=
  e ≠ top ∧ e ≠ bot

theorem proper_atom (a : α) : (atom a).Proper := by
  simp [Proper]

theorem proper_and (e e' : Formula α) : (and e e').Proper := by
  simp [Proper]

theorem proper_or (e e' : Formula α) : (or e e').Proper := by
  simp [Proper]

theorem conj_of_proper {e e' : Formula α} (h : e.Proper) (h' : e'.Proper) :
    conj e e' = and e e' := by
  cases e <;> cases e' <;> simp_all [Proper, conj]

theorem disj_of_proper {e e' : Formula α} (h : e.Proper) (h' : e'.Proper) :
    disj e e' = or e e' := by
  cases e <;> cases e' <;> simp_all [Proper, disj]

/-- No constant occurs, and no negation stands directly under a negation. -/
def Folded : Formula α → Prop
  | top => False
  | bot => False
  | atom _ => True
  | not (not _) => False
  | not e => e.Folded
  | and lhs rhs => lhs.Folded ∧ rhs.Folded
  | or lhs rhs => lhs.Folded ∧ rhs.Folded

/-- What folding ends with. -/
def Normal (e : Formula α) : Prop :=
  e = top ∨ e = bot ∨ e.Folded

theorem Folded.of_not {e : Formula α} (h : (not e).Folded) : e.Folded := by
  cases e with
  | not e => exact False.elim h
  | top | bot | atom | and | or => exact h

theorem normal_neg {e : Formula α} (h : e.Normal) : e.neg.Normal := by
  rcases h with rfl | rfl | h
  · exact .inr (.inl rfl)
  · exact .inl rfl
  · cases e with
    | top | bot => exact False.elim h
    | not e => exact .inr (.inr h.of_not)
    | atom | and | or => exact .inr (.inr h)

theorem Folded.proper {e : Formula α} (h : e.Folded) : e.Proper := by
  constructor
  · rintro rfl
    exact h
  · rintro rfl
    exact h

theorem conj_bot (e : Formula α) : conj e bot = bot := by
  cases e <;> rfl

theorem conj_top (e : Formula α) : conj e top = e := by
  cases e <;> rfl

theorem top_conj (e : Formula α) : conj top e = e := by
  cases e <;> rfl

theorem disj_top (e : Formula α) : disj e top = top := by
  cases e <;> rfl

theorem disj_bot (e : Formula α) : disj e bot = e := by
  cases e <;> rfl

theorem bot_disj (e : Formula α) : disj bot e = e := by
  cases e <;> rfl

theorem normal_conj {lhs rhs : Formula α} (hl : lhs.Normal) (hr : rhs.Normal) :
    (conj lhs rhs).Normal := by
  rcases hl with rfl | rfl | hl
  · exact (top_conj rhs).symm ▸ hr
  · exact .inr (.inl rfl)
  · rcases hr with rfl | rfl | hr
    · exact (conj_top lhs).symm ▸ .inr (.inr hl)
    · exact .inr (.inl (conj_bot lhs))
    · exact (conj_of_proper hl.proper hr.proper).symm ▸ .inr (.inr ⟨hl, hr⟩)

theorem normal_disj {lhs rhs : Formula α} (hl : lhs.Normal) (hr : rhs.Normal) :
    (disj lhs rhs).Normal := by
  rcases hl with rfl | rfl | hl
  · exact .inl rfl
  · exact (bot_disj rhs).symm ▸ hr
  · rcases hr with rfl | rfl | hr
    · exact .inl (disj_top lhs)
    · exact (disj_bot lhs).symm ▸ .inr (.inr hl)
    · exact (disj_of_proper hl.proper hr.proper).symm ▸ .inr (.inr ⟨hl, hr⟩)

theorem atoms_neg (e : Formula α) : e.neg.atoms = e.atoms := by
  cases e <;> rfl

theorem atoms_conj (lhs rhs : Formula α) :
    (conj lhs rhs).atoms.Sublist (lhs.atoms ++ rhs.atoms) := by
  fun_cases conj lhs rhs with
  | case1 | case2 => exact List.nil_sublist _
  | case3 => exact List.sublist_append_right _ _
  | case4 => exact List.sublist_append_left _ _
  | case5 => exact List.Sublist.refl _

theorem atoms_disj (lhs rhs : Formula α) :
    (disj lhs rhs).atoms.Sublist (lhs.atoms ++ rhs.atoms) := by
  fun_cases disj lhs rhs with
  | case1 | case2 => exact List.nil_sublist _
  | case3 => exact List.sublist_append_right _ _
  | case4 => exact List.sublist_append_left _ _
  | case5 => exact List.Sublist.refl _

/-- An operation that lists the atoms of both sides lists those of all operands. -/
theorem atoms_foldl {op : Formula α → Formula α → Formula α}
    (hop : ∀ e e' : Formula α, e.Proper → e'.Proper →
      (op e e').Proper ∧ (op e e').atoms = e.atoms ++ e'.atoms) :
    ∀ (es : List (Formula α)) (e : Formula α), e.Proper → (∀ e' ∈ es, e'.Proper) →
      (es.foldl op e).Proper ∧ (es.foldl op e).atoms = e.atoms ++ es.flatMap atoms := by
  intro es
  induction es with
  | nil => exact fun e he _ => ⟨he, (List.append_nil _).symm⟩
  | cons first rest ih =>
      intro e he hes
      obtain ⟨hfirst, hrest⟩ := List.forall_mem_cons.1 hes
      obtain ⟨hproper, hatoms⟩ := hop e first he hfirst
      obtain ⟨hall, hlisted⟩ := ih _ hproper hrest
      refine ⟨hall, ?_⟩
      rw [List.foldl_cons, hlisted, hatoms, List.flatMap_cons, List.append_assoc]

theorem atoms_conjAll {e : Formula α} {es : List (Formula α)} (he : e.Proper)
    (hes : ∀ e' ∈ es, e'.Proper) :
    (conjAll (e :: es)).Proper ∧ (conjAll (e :: es)).atoms = e.atoms ++ es.flatMap atoms := by
  rw [conjAll, List.foldl_cons, top_conj]
  refine atoms_foldl (fun e e' h h' => ?_) es e he hes
  rw [conj_of_proper h h']
  exact ⟨proper_and e e', rfl⟩

theorem atoms_disjAll {es : List (Formula α)} (hes : ∀ e ∈ es, e.Proper) :
    (disjAll es).atoms = es.flatMap atoms := by
  cases es with
  | nil => rfl
  | cons e rest =>
      obtain ⟨he, hrest⟩ := List.forall_mem_cons.1 hes
      rw [disjAll, List.foldl_cons, bot_disj, List.flatMap_cons]
      refine (atoms_foldl (fun e e' h h' => ?_) rest e he hrest).2
      rw [disj_of_proper h h']
      exact ⟨proper_or e e', rfl⟩

/-! ## Any nesting of calls -/

/-- `e` says the same as `plain`, with some of its atoms in their order, and is in normal form. -/
structure Simplifies (plain e : Formula α) : Prop where
  evaluate : ∀ valuation : α → Bool, e.evaluate valuation = plain.evaluate valuation
  atoms : e.atoms.Sublist plain.atoms
  normal : e.Normal

namespace Simplifies

variable {plain plain' e e' : Formula α}

theorem neg (h : Simplifies plain e) : Simplifies (not plain) e.neg where
  evaluate valuation := by rw [evaluate_neg, h.evaluate, Formula.evaluate]
  atoms := atoms_neg e ▸ h.atoms
  normal := normal_neg h.normal

theorem conj (h : Simplifies plain e) (h' : Simplifies plain' e') :
    Simplifies (and plain plain') (conj e e') where
  evaluate valuation := by rw [evaluate_conj, h.evaluate, h'.evaluate, Formula.evaluate]
  atoms := (atoms_conj e e').trans (h.atoms.append h'.atoms)
  normal := normal_conj h.normal h'.normal

theorem disj (h : Simplifies plain e) (h' : Simplifies plain' e') :
    Simplifies (or plain plain') (disj e e') where
  evaluate valuation := by rw [evaluate_disj, h.evaluate, h'.evaluate, Formula.evaluate]
  atoms := (atoms_disj e e').trans (h.atoms.append h'.atoms)
  normal := normal_disj h.normal h'.normal

end Simplifies

/-- How a formula is built: calls of the simplifying functions, nested at will. -/
inductive Construction (α : Type) where
  | atom (a : α)
  | constant (value : Bool)
  | neg (c : Construction α)
  | conj (lhs rhs : Construction α)
  | disj (lhs rhs : Construction α)
  | conjAll (cs : List (Construction α))
  | disjAll (cs : List (Construction α))

namespace Construction

/-- The formula that the calls answer. -/
def build : Construction α → Formula α
  | atom a => .atom a
  | constant value => .constant value
  | neg c => c.build.neg
  | conj lhs rhs => lhs.build.conj rhs.build
  | disj lhs rhs => lhs.build.disj rhs.build
  | conjAll cs => .conjAll (cs.map build)
  | disjAll cs => .disjAll (cs.map build)

/-- The formula as it is written, with every constant and negation in its place. -/
def plain : Construction α → Formula α
  | atom a => .atom a
  | constant value => .constant value
  | neg c => .not c.plain
  | conj lhs rhs => .and lhs.plain rhs.plain
  | disj lhs rhs => .or lhs.plain rhs.plain
  | conjAll cs => (cs.map plain).foldl .and .top
  | disjAll cs => (cs.map plain).foldl .or .bot

/-- A fold simplifies if each of its steps does. -/
theorem foldl_simplifies {op op' : Formula α → Formula α → Formula α}
    (hop : ∀ {p e p' e'}, Simplifies p e → Simplifies p' e' → Simplifies (op p p') (op' e e'))
    {cs : List (Construction α)} (hcs : ∀ c ∈ cs, Simplifies c.plain c.build) {p e : Formula α}
    (h : Simplifies p e) : Simplifies ((cs.map plain).foldl op p) ((cs.map build).foldl op' e) := by
  induction cs generalizing p e with
  | nil => exact h
  | cons c rest ih =>
      obtain ⟨hc, hrest⟩ := List.forall_mem_cons.1 hcs
      exact ih hrest (hop h hc)

theorem simplifies_top : Simplifies (top : Formula α) top :=
  ⟨fun _ => rfl, List.Sublist.refl _, .inl rfl⟩

theorem simplifies_bot : Simplifies (bot : Formula α) bot :=
  ⟨fun _ => rfl, List.Sublist.refl _, .inr (.inl rfl)⟩

/-- However the calls are nested, the formula they answer has the value of the one that is written,
its atoms in their order, and is a constant or has none inside, nor a negation of a negation. -/
theorem build_simplifies (c : Construction α) : Simplifies c.plain c.build := by
  induction c using build.induct with
  | case1 a =>
      rw [plain, build]
      exact ⟨fun _ => rfl, List.Sublist.refl _, .inr (.inr trivial)⟩
  | case2 value =>
      rw [plain, build]
      cases value with
      | true => exact simplifies_top
      | false => exact simplifies_bot
  | case3 c ih =>
      rw [plain, build]
      exact ih.neg
  | case4 lhs rhs ihl ihr =>
      rw [plain, build]
      exact ihl.conj ihr
  | case5 lhs rhs ihl ihr =>
      rw [plain, build]
      exact ihl.disj ihr
  | case6 cs ih =>
      rw [plain, build]
      exact foldl_simplifies .conj ih simplifies_top
  | case7 cs ih =>
      rw [plain, build]
      exact foldl_simplifies .disj ih simplifies_bot

end Construction

end Formula

end SymbolicOmega
