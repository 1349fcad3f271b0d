import SymbolicOmega.Fault

/-!
# Outcomes of operations

Every operation of the library ends with an answer or with a fault, and in both
cases the state stays as the operation left it.  An outcome says what holds at
either end.  This module derives the outcome of a sequence, of a guarded operation
and of a walk over a list from the outcomes of the parts.
-/

namespace SymbolicOmega

/-- After `x` was run from `s`, `good` holds of the answer and the new state if there is
an answer, and `bad` of the fault and the new state if there is none. -/
def Outcome {σ β : Type} (x : EStateM Fault σ β) (s : σ) (good : β → σ → Prop)
    (bad : Fault → σ → Prop) : Prop :=
  match x s with
  | .ok b t => good b t
  | .error fault t => bad fault t

/-- A sequence goes on in the state in which its first operation succeeded. -/
theorem run_bind {σ β γ : Type} {x : EStateM Fault σ β} {f : β → EStateM Fault σ γ} {s t : σ}
    {b : β} (hrun : x s = .ok b t) : (x >>= f) s = f b t := by
  change EStateM.bind x f s = f b t
  simp only [EStateM.bind, hrun]

theorem run_bind_error {σ β γ : Type} {x : EStateM Fault σ β} {f : β → EStateM Fault σ γ}
    {s t : σ} {fault : Fault} (hrun : x s = .error fault t) : (x >>= f) s = .error fault t := by
  change EStateM.bind x f s = .error fault t
  simp only [EStateM.bind, hrun]

/-- Two sequences run alike if their first operations do, and what follows an answer does. -/
theorem run_bind_congr {σ β γ : Type} {x y : EStateM Fault σ β} {f g : β → EStateM Fault σ γ}
    {s : σ} (hx : x s = y s) (hf : ∀ b t, x s = .ok b t → f b t = g b t) :
    (x >>= f) s = (y >>= g) s := by
  cases hrun : x s with
  | ok b t => rw [run_bind hrun, run_bind (hx ▸ hrun), hf b t hrun]
  | error fault t => rw [run_bind_error hrun, run_bind_error (hx ▸ hrun)]

theorem run_map {σ β γ : Type} {x : EStateM Fault σ β} {f : β → γ} {s t : σ} {b : β}
    (hrun : x s = .ok b t) : (f <$> x) s = .ok (f b) t := by
  change EStateM.map f x s = .ok (f b) t
  simp only [EStateM.map, hrun]

/-- The answer or the fault of a run, without the state that it ends in. -/
def verdict {σ β : Type} (x : EStateM Fault σ β) (s : σ) : Except Fault β :=
  match x s with
  | .ok b _ => .ok b
  | .error fault _ => .error fault

theorem run_of_verdict {σ β : Type} {x : EStateM Fault σ β} {s : σ} {b : β}
    (h : verdict x s = .ok b) : ∃ t, x s = .ok b t := by
  rw [verdict] at h
  cases hrun : x s with
  | ok c t =>
      rw [hrun] at h
      cases h
      exact ⟨t, rfl⟩
  | error fault t => simp [hrun] at h

section Questions
variable {σ α : Type} {s : σ} {p : α → EStateM Fault σ Bool} {q : α → Bool} {list : List α}

/-- Questions that change nothing are put in order until one is answered with yes. -/
theorem findM?_run (h : ∀ a ∈ list, p a s = .ok (q a) s) :
    list.findM? p s = .ok (list.find? q) s := by
  induction list with
  | nil => rfl
  | cons first rest ih =>
      obtain ⟨hfirst, hrest⟩ := List.forall_mem_cons.1 h
      rw [List.findM?, run_bind hfirst, List.find?_cons]
      cases q first with
      | true => rfl
      | false => exact ih hrest

theorem filterM_run (h : ∀ a ∈ list, p a s = .ok (q a) s) :
    list.filterM p s = .ok (list.filter q) s := by
  have haux : ∀ acc, list.filterAuxM p acc s = .ok ((list.filter q).reverse ++ acc) s := by
    induction list with
    | nil => exact fun acc => rfl
    | cons first rest ih =>
        obtain ⟨hfirst, hrest⟩ := List.forall_mem_cons.1 h
        intro acc
        rw [List.filterAuxM, run_bind hfirst, ih hrest, List.filter_cons]
        cases q first <;> simp
  rw [List.filterM, run_bind (haux []), List.append_nil, List.reverse_reverse]
  rfl

end Questions

namespace Outcome

variable {σ β γ : Type} {x : EStateM Fault σ β} {s : σ}
variable {good : β → σ → Prop} {bad : Fault → σ → Prop}

theorem of_ok (h : Outcome x s good bad) {b : β} {t : σ} (hrun : x s = .ok b t) : good b t := by
  simpa only [Outcome, hrun] using h

theorem of_error (h : Outcome x s good bad) {fault : Fault} {t : σ}
    (hrun : x s = .error fault t) : bad fault t := by
  simpa only [Outcome, hrun] using h

theorem of_run {b : β} {t : σ} (hrun : x s = .ok b t) (h : good b t) : Outcome x s good bad := by
  simpa only [Outcome, hrun] using h

/-- An outcome is shown by looking at both ends. -/
theorem intro (hok : ∀ b t, x s = .ok b t → good b t)
    (herror : ∀ fault t, x s = .error fault t → bad fault t) : Outcome x s good bad := by
  rw [Outcome]
  cases hrun : x s with
  | ok b t => exact hok b t hrun
  | error fault t => exact herror fault t hrun

/-- Every run ends in some way. -/
theorem always (x : EStateM Fault σ β) (s : σ) : Outcome x s (fun _ _ => True) fun _ _ => True :=
  intro (fun _ _ _ => trivial) fun _ _ _ => trivial

theorem mono {good' : β → σ → Prop} {bad' : Fault → σ → Prop}
    (h : Outcome x s good bad) (hgood : ∀ b t, good b t → good' b t)
    (hbad : ∀ fault t, bad fault t → bad' fault t) : Outcome x s good' bad' :=
  intro (fun b t hrun => hgood b t (h.of_ok hrun))
    (fun fault t hrun => hbad fault t (h.of_error hrun))

theorem imp {good' : β → σ → Prop} (h : Outcome x s good bad)
    (hgood : ∀ b t, good b t → good' b t) : Outcome x s good' bad :=
  h.mono hgood fun _ _ hend => hend

/-- Two outcomes of one run hold together. -/
theorem and {good' : β → σ → Prop} {bad' : Fault → σ → Prop} (h : Outcome x s good bad)
    (h' : Outcome x s good' bad') :
    Outcome x s (fun b t => good b t ∧ good' b t) fun fault t => bad fault t ∧ bad' fault t :=
  intro (fun _ _ hrun => ⟨h.of_ok hrun, h'.of_ok hrun⟩)
    (fun _ _ hrun => ⟨h.of_error hrun, h'.of_error hrun⟩)

/-- What holds at the ends under a condition is said with the condition at each end. -/
theorem given {p : Prop} (h : p → Outcome x s good bad) :
    Outcome x s (fun b t => p → good b t) fun fault t => p → bad fault t :=
  intro (fun _ _ hrun hp => (h hp).of_ok hrun) fun _ _ hrun hp => (h hp).of_error hrun

protected theorem pure {b : β} (h : good b s) : Outcome (pure b) s good bad := h

protected theorem throw {fault : Fault} (h : bad fault s) :
    Outcome (throw fault : EStateM Fault σ β) s good bad := h

/-- What follows an operation is run from the state in which the operation ends. -/
protected theorem bind {f : β → EStateM Fault σ γ} {good : γ → σ → Prop}
    (h : Outcome x s (fun b t => Outcome (f b) t good bad) bad) :
    Outcome (x >>= f) s good bad := by
  change match EStateM.bind x f s with
    | .ok c t => good c t
    | .error fault t => bad fault t
  rw [EStateM.bind]
  cases hrun : x s with
  | ok b t => exact h.of_ok hrun
  | error fault t => exact h.of_error hrun

/-- A fault of the first operation is a fault of the sequence. -/
theorem andThen {f : β → EStateM Fault σ γ} {good' : γ → σ → Prop} (h : Outcome x s good bad)
    (hf : ∀ b t, good b t → Outcome (f b) t good' bad) : Outcome (x >>= f) s good' bad :=
  Outcome.bind (h.mono hf fun _ _ hend => hend)

/-- Where nothing is said of faults, an operation may fail in any way. -/
theorem bind_answers {f : β → EStateM Fault σ γ} {good' : γ → σ → Prop}
    (h : Outcome x s good bad)
    (hf : ∀ b t, good b t → Outcome (f b) t good' fun _ _ => True) :
    Outcome (x >>= f) s good' fun _ _ => True :=
  Outcome.bind (h.mono hf fun _ _ _ => trivial)

theorem bind_ok {f : β → EStateM Fault σ γ} {good : γ → σ → Prop} {b : β} {t : σ}
    (hrun : x s = .ok b t) (h : Outcome (f b) t good bad) : Outcome (x >>= f) s good bad := by
  rw [Outcome]
  rw [run_bind hrun]
  exact h

protected theorem map {f : β → γ} {good : γ → σ → Prop}
    (h : Outcome x s (fun b t => good (f b) t) bad) : Outcome (f <$> x) s good bad := by
  change match EStateM.map f x s with
    | .ok c t => good c t
    | .error fault t => bad fault t
  rw [EStateM.map]
  cases hrun : x s with
  | ok b t => exact h.of_ok hrun
  | error fault t => exact h.of_error hrun

/-- A handler is run from the state in which the operation failed. -/
protected theorem tryCatch {handle : Fault → EStateM Fault σ β}
    (h : Outcome x s good (fun fault t => Outcome (handle fault) t good bad)) :
    Outcome (tryCatch x handle) s good bad := by
  change match EStateM.tryCatch x handle s with
    | .ok b t => good b t
    | .error fault t => bad fault t
  unfold EStateM.tryCatch
  cases hrun : x s with
  | ok b t => exact h.of_ok hrun
  | error fault t => exact h.of_error hrun

/-- The last step is taken at either end, and a fault of the operation itself stays. -/
protected theorem tryFinally {last : EStateM Fault σ γ}
    (h : Outcome x s
      (fun b t => Outcome last t (fun _ u => good b u) bad)
      (fun fault t => Outcome last t (fun _ u => bad fault u) bad)) :
    Outcome (tryFinally x last) s good bad := by
  apply Outcome.map
  rw [Outcome]
  cases hrun : x s with
  | ok b t =>
      have hlast := h.of_ok hrun
      cases hlastRun : last t with
      | ok c u => simpa [tryFinally', hrun, hlastRun] using hlast.of_ok hlastRun
      | error fault u => simpa [tryFinally', hrun, hlastRun] using hlast.of_error hlastRun
  | error fault t =>
      have hlast := h.of_error hrun
      cases hlastRun : last t with
      | ok c u => simpa [tryFinally', hrun, hlastRun] using hlast.of_ok hlastRun
      | error other u => simpa [tryFinally', hrun, hlastRun] using hlast.of_error hlastRun

/-- A question that is put to each element of a list keeps what it keeps once. -/
protected theorem filterM {α : Type} {p : α → EStateM Fault σ Bool} {holds : α → Prop}
    {invariant : σ → Prop} {list : List α}
    (hstep : ∀ a ∈ list, ∀ s, invariant s →
      Outcome (p a) s (fun b t => invariant t ∧ (b = true ↔ holds a)) bad)
    (hs : invariant s) :
    Outcome (list.filterM p) s
      (fun kept t => invariant t ∧ ∀ a, a ∈ kept ↔ a ∈ list ∧ holds a) bad := by
  have haux : ∀ (acc : List α) (s : σ), invariant s →
      Outcome (list.filterAuxM p acc) s
        (fun kept t => invariant t ∧ ∀ a, a ∈ kept ↔ (a ∈ list ∧ holds a) ∨ a ∈ acc) bad := by
    induction list with
    | nil => exact fun acc s hs => Outcome.pure ⟨hs, fun a => by simp⟩
    | cons x rest ih =>
        intro acc s hs
        obtain ⟨hx, hrest⟩ := List.forall_mem_cons.1 hstep
        apply Outcome.andThen (hx s hs)
        rintro b t ⟨ht, hb⟩
        refine (ih hrest _ t ht).imp fun kept u hend => ⟨hend.1, fun a => ?_⟩
        rw [hend.2]
        by_cases hax : a = x
        · subst hax
          cases b <;> simp [← hb]
        · cases b <;> simp [hax]
  apply Outcome.andThen (haux [] s hs)
  intro kept t hend
  exact Outcome.pure ⟨hend.1, fun a => by simp [hend.2]⟩

/-- Whether all elements of a list are as asked; the answer is right under a condition. -/
protected theorem allM {α : Type} {p : α → EStateM Fault σ Bool} {holds : α → Prop}
    {condition : Prop} {invariant : σ → Prop} {list : List α}
    (hstep : ∀ a ∈ list, ∀ s, invariant s →
      Outcome (p a) s (fun b t => invariant t ∧ (condition → (b = true ↔ holds a))) bad)
    (hs : invariant s) :
    Outcome (list.allM p) s
      (fun b t => invariant t ∧ (condition → (b = true ↔ ∀ a ∈ list, holds a))) bad := by
  induction list generalizing s with
  | nil => exact Outcome.pure ⟨hs, by simp⟩
  | cons first rest ih =>
      obtain ⟨hfirst, hrest⟩ := List.forall_mem_cons.1 hstep
      apply Outcome.andThen (hfirst s hs)
      rintro (_ | _) t ⟨ht, hb⟩
      · exact Outcome.pure ⟨ht, fun h => by simp [← hb h]⟩
      · exact (ih hrest ht).imp fun b u hend =>
          ⟨hend.1, fun h => by simp [hend.2 h, ← hb h]⟩

/-- Whether all elements of a list are as asked. -/
theorem allM_iff {α : Type} {p : α → EStateM Fault σ Bool} {holds : α → Prop}
    {invariant : σ → Prop} {list : List α}
    (hstep : ∀ a ∈ list, ∀ s, invariant s →
      Outcome (p a) s (fun b t => invariant t ∧ (b = true ↔ holds a)) bad)
    (hs : invariant s) :
    Outcome (list.allM p) s (fun b t => invariant t ∧ (b = true ↔ ∀ a ∈ list, holds a)) bad := by
  have hall : Outcome (list.allM p) s
      (fun b t => invariant t ∧ (True → (b = true ↔ ∀ a ∈ list, holds a))) bad :=
    Outcome.allM (fun a ha s hs => (hstep a ha s hs).imp
      fun _ _ hend => ⟨hend.1, fun _ => hend.2⟩) hs
  exact hall.imp fun _ _ hend => ⟨hend.1, hend.2 trivial⟩

/-- Whether some element of a list is as asked. -/
protected theorem anyM {α : Type} {p : α → EStateM Fault σ Bool} {holds : α → Prop}
    {invariant : σ → Prop} {list : List α}
    (hstep : ∀ a ∈ list, ∀ s, invariant s →
      Outcome (p a) s (fun b t => invariant t ∧ (b = true ↔ holds a)) bad)
    (hs : invariant s) :
    Outcome (list.anyM p) s (fun b t => invariant t ∧ (b = true ↔ ∃ a ∈ list, holds a)) bad := by
  induction list generalizing s with
  | nil => exact Outcome.pure ⟨hs, by simp⟩
  | cons first rest ih =>
      obtain ⟨hfirst, hrest⟩ := List.forall_mem_cons.1 hstep
      apply Outcome.andThen (hfirst s hs)
      rintro (_ | _) t ⟨ht, hb⟩
      · exact (ih hrest ht).imp fun b u hend => ⟨hend.1, by simp [hend.2, ← hb]⟩
      · exact Outcome.pure ⟨ht, by simp [← hb]⟩

/-- An operation that is run for each element of a list, with what holds of each answer. -/
protected theorem mapM {α : Type} {f : α → EStateM Fault σ β} {holds : α → β → Prop}
    {invariant : σ → Prop} {list : List α}
    (hstep : ∀ a ∈ list, ∀ s, invariant s →
      Outcome (f a) s (fun b t => invariant t ∧ holds a b) bad)
    (hs : invariant s) :
    Outcome (list.mapM f) s (fun answers t => invariant t ∧ answers.length = list.length ∧
      ∀ entry ∈ list.zip answers, holds entry.1 entry.2) bad := by
  induction list generalizing s with
  | nil => exact Outcome.pure ⟨hs, rfl, by simp⟩
  | cons first rest ih =>
      obtain ⟨hfirst, hrest⟩ := List.forall_mem_cons.1 hstep
      rw [List.mapM_cons]
      apply Outcome.andThen (hfirst s hs)
      rintro b t ⟨ht, hb⟩
      apply Outcome.andThen (ih hrest ht)
      rintro answers u ⟨hu, hlength, hanswers⟩
      refine Outcome.pure ⟨hu, by simp [hlength], ?_⟩
      rw [List.zip_cons_cons]
      exact List.forall_mem_cons.2 ⟨hb, hanswers⟩

end Outcome

/-! ## Invariants -/

/-- An operation that keeps `P` when it answers, and ends in `bad` when it fails. -/
def Carries {σ β : Type} (P : σ → Prop) (bad : Fault → σ → Prop) (x : EStateM Fault σ β) : Prop :=
  ∀ s, P s → Outcome x s (fun _ t => P t) bad

namespace Carries

variable {σ α β γ : Type} {P : σ → Prop} {bad : Fault → σ → Prop} {x : EStateM Fault σ β}

protected theorem pure (b : β) : Carries P bad (pure b) := fun _ hs => Outcome.pure hs

protected theorem throw {fault : Fault} (hfault : ∀ s, P s → bad fault s) :
    Carries P bad (throw fault : EStateM Fault σ β) :=
  fun s hs => Outcome.throw (hfault s hs)

protected theorem bind {f : β → EStateM Fault σ γ} (h : Carries P bad x)
    (hf : ∀ b, Carries P bad (f b)) : Carries P bad (x >>= f) :=
  fun s hs => Outcome.andThen (h s hs) fun b t ht => hf b t ht

protected theorem map {f : β → γ} (h : Carries P bad x) : Carries P bad (f <$> x) :=
  fun s hs => Outcome.map (h s hs)

protected theorem ite {c : Prop} [Decidable c] {y : EStateM Fault σ β} (hx : Carries P bad x)
    (hy : Carries P bad y) : Carries P bad (if c then x else y) := by
  by_cases hc : c
  · rwa [if_pos hc]
  · rwa [if_neg hc]

/-- A check that may throw, and what follows it. -/
theorem throwIf {c : Prop} [Decidable c] {fault : Fault} (hfault : ∀ s, P s → bad fault s)
    (hx : Carries P bad x) :
    Carries P bad (if c then (throw fault : EStateM Fault σ α) >>= fun _ => x else x) :=
  Carries.ite ((Carries.throw hfault).bind fun _ => hx) hx

protected theorem foldlM {f : β → α → EStateM Fault σ β} (hf : ∀ b a, Carries P bad (f b a))
    (list : List α) (b : β) : Carries P bad (list.foldlM f b) := by
  induction list generalizing b with
  | nil => exact Carries.pure b
  | cons first rest ih =>
      rw [List.foldlM_cons]
      exact (hf b first).bind ih

/-- Of the elements of the list something may be known. -/
protected theorem foldrM {f : α → β → EStateM Fault σ β} {list : List α}
    (hf : ∀ a ∈ list, ∀ b, Carries P bad (f a b)) (b : β) : Carries P bad (list.foldrM f b) := by
  induction list with
  | nil => exact Carries.pure b
  | cons first rest ih =>
      obtain ⟨hfirst, hrest⟩ := List.forall_mem_cons.1 hf
      rw [List.foldrM_cons]
      exact (ih hrest).bind hfirst

end Carries

/-- An operation that keeps `P`, whether it answers or fails, and fails only for causes in `Q`:
it carries `P` to either end. -/
def Secures {σ β : Type} (P : σ → Prop) (Q : Fault → Prop) (x : EStateM Fault σ β) : Prop :=
  ∀ s, P s → Outcome x s (fun _ t => P t) (fun fault t => Q fault ∧ P t)

namespace Secures

variable {σ α β γ : Type} {P : σ → Prop} {Q : Fault → Prop} {x : EStateM Fault σ β}

protected theorem pure (b : β) : Secures P Q (pure b) := Carries.pure b

protected theorem throw {fault : Fault} (hfault : Q fault) :
    Secures P Q (throw fault : EStateM Fault σ β) :=
  Carries.throw fun _ hs => ⟨hfault, hs⟩

protected theorem bind {f : β → EStateM Fault σ γ} (h : Secures P Q x)
    (hf : ∀ b, Secures P Q (f b)) : Secures P Q (x >>= f) :=
  Carries.bind h hf

protected theorem map {f : β → γ} (h : Secures P Q x) : Secures P Q (f <$> x) :=
  Carries.map h

/-- More causes may be allowed. -/
theorem mono {Q' : Fault → Prop} (h : Secures P Q x) (hQ : ∀ fault, Q fault → Q' fault) :
    Secures P Q' x :=
  fun s hs => (h s hs).mono (fun _ _ ht => ht) fun _ _ ht => ⟨hQ _ ht.1, ht.2⟩

protected theorem ite {c : Prop} [Decidable c] {y : EStateM Fault σ β} (hx : Secures P Q x)
    (hy : Secures P Q y) : Secures P Q (if c then x else y) :=
  Carries.ite hx hy

/-- A check that may throw, and what follows it. -/
theorem throwIf {c : Prop} [Decidable c] {fault : Fault} (hfault : Q fault)
    (hx : Secures P Q x) :
    Secures P Q (if c then (throw fault : EStateM Fault σ α) >>= fun _ => x else x) :=
  Carries.throwIf (fun _ hs => ⟨hfault, hs⟩) hx

protected theorem foldlM {f : β → α → EStateM Fault σ β} (hf : ∀ b a, Secures P Q (f b a))
    (list : List α) (b : β) : Secures P Q (list.foldlM f b) :=
  Carries.foldlM hf list b

protected theorem mapM {f : α → EStateM Fault σ β} (hf : ∀ a, Secures P Q (f a))
    (list : List α) : Secures P Q (list.mapM f) := by
  induction list with
  | nil => exact Secures.pure []
  | cons first rest ih =>
      rw [List.mapM_cons]
      exact (hf first).bind fun b => ih.bind fun bs => Secures.pure (b :: bs)

protected theorem findM? {p : α → EStateM Fault σ Bool} (hp : ∀ a, Secures P Q (p a))
    (list : List α) : Secures P Q (list.findM? p) := by
  induction list with
  | nil => exact Secures.pure none
  | cons first rest ih =>
      apply (hp first).bind
      rintro (_ | _)
      · exact ih
      · exact Secures.pure (some first)

/-- Of the elements of the list something may be known. -/
protected theorem filterM {p : α → EStateM Fault σ Bool} {list : List α}
    (hp : ∀ a ∈ list, Secures P Q (p a)) : Secures P Q (list.filterM p) := by
  have haux : ∀ acc, Secures P Q (list.filterAuxM p acc) := by
    induction list with
    | nil => exact fun acc => Secures.pure acc
    | cons first rest ih =>
        obtain ⟨hfirst, hrest⟩ := List.forall_mem_cons.1 hp
        exact fun acc => hfirst.bind fun b => ih hrest _
  exact (haux []).bind fun kept => Secures.pure _

protected theorem allM {p : α → EStateM Fault σ Bool} {list : List α}
    (hp : ∀ a ∈ list, Secures P Q (p a)) : Secures P Q (list.allM p) := by
  induction list with
  | nil => exact Secures.pure true
  | cons first rest ih =>
      obtain ⟨hfirst, hrest⟩ := List.forall_mem_cons.1 hp
      apply hfirst.bind
      rintro (_ | _)
      · exact Secures.pure false
      · exact ih hrest

protected theorem anyM {p : α → EStateM Fault σ Bool} {list : List α}
    (hp : ∀ a ∈ list, Secures P Q (p a)) : Secures P Q (list.anyM p) := by
  induction list with
  | nil => exact Secures.pure false
  | cons first rest ih =>
      obtain ⟨hfirst, hrest⟩ := List.forall_mem_cons.1 hp
      apply hfirst.bind
      rintro (_ | _)
      · exact ih hrest
      · exact Secures.pure true

end Secures

/-- An operation that fails only for causes in `Q`, in whatever state it is run. -/
abbrev FailsBy {σ β : Type} (Q : Fault → Prop) (x : EStateM Fault σ β) : Prop :=
  Secures (fun _ => True) Q x

/-- An operation that keeps `P`, whether it answers or fails. -/
def Upholds {σ β : Type} (P : σ → Prop) (x : EStateM Fault σ β) : Prop :=
  ∀ s, P s → Outcome x s (fun _ t => P t) (fun _ t => P t)

namespace Upholds

variable {σ α β γ : Type} {P : σ → Prop} {x : EStateM Fault σ β}

/-- Where nothing is said of faults, any cause is allowed. -/
theorem secures (h : Upholds P x) : Secures P (fun _ => True) x := fun s hs =>
  (h s hs).mono (fun _ _ ht => ht) fun _ _ ht => ⟨trivial, ht⟩

theorem of_secures (h : Secures P (fun _ => True) x) : Upholds P x := fun s hs =>
  (h s hs).mono (fun _ _ ht => ht) fun _ _ ht => ht.2

protected theorem pure (b : β) : Upholds P (pure b) := of_secures (Secures.pure b)

protected theorem throw (fault : Fault) : Upholds P (throw fault : EStateM Fault σ β) :=
  of_secures (Secures.throw trivial)

protected theorem bind {f : β → EStateM Fault σ γ} (h : Upholds P x)
    (hf : ∀ b, Upholds P (f b)) : Upholds P (x >>= f) :=
  of_secures (h.secures.bind fun b => (hf b).secures)

protected theorem map {f : β → γ} (h : Upholds P x) : Upholds P (f <$> x) :=
  of_secures h.secures.map

protected theorem ite {c : Prop} [Decidable c] {y : EStateM Fault σ β} (hx : Upholds P x)
    (hy : Upholds P y) : Upholds P (if c then x else y) :=
  of_secures (Secures.ite hx.secures hy.secures)

protected theorem foldlM {f : β → α → EStateM Fault σ β} (hf : ∀ b a, Upholds P (f b a))
    (list : List α) (b : β) : Upholds P (list.foldlM f b) :=
  of_secures (Secures.foldlM (fun b a => (hf b a).secures) list b)

protected theorem forM {f : α → EStateM Fault σ PUnit} (hf : ∀ a, Upholds P (f a))
    (list : List α) : Upholds P (list.forM f) := by
  induction list with
  | nil => exact Upholds.pure _
  | cons first rest ih => exact (hf first).bind fun _ => ih

protected theorem findM? {p : α → EStateM Fault σ Bool} (hp : ∀ a, Upholds P (p a))
    (list : List α) : Upholds P (list.findM? p) :=
  of_secures (Secures.findM? (fun a => (hp a).secures) list)

protected theorem filterM {p : α → EStateM Fault σ Bool} (hp : ∀ a, Upholds P (p a))
    (list : List α) : Upholds P (list.filterM p) :=
  of_secures (Secures.filterM fun a _ => (hp a).secures)

protected theorem allM {p : α → EStateM Fault σ Bool} (hp : ∀ a, Upholds P (p a))
    (list : List α) : Upholds P (list.allM p) :=
  of_secures (Secures.allM fun a _ => (hp a).secures)

end Upholds

end SymbolicOmega
