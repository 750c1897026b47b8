import EcmaScript.Proofs.ClassScopes.Noting
import EcmaScript.Proofs.Relation.Steps

namespace EcmaScript

open EcmaScript.Parser

/-!
# What a part leaves as it was

However a part ends, well or with a syntax error, the classes around it have declared what they had
declared before, and in the innermost one some more uses may wait. So a part that was read in vain
can be read again.

* `Ends`, `Keeps` — a run that ends, and what holds between the states before it and after it;
* `State.Kept` — the classes around, and the mark of initializers, are as before, and the tokens that
  have been looked at still are;
* `State.KeptInside` — the same, seen from inside a class, which may declare names;
* `Rules.within_keeping` — statements and expressions keep the state.
-/

/-! ### Runs that end -/

/-- The run ended in this state, well or with a syntax error. -/
def Ends {α : Type} (r : EStateM.Result Failure State α) (t : State) : Prop :=
  (∃ a, r = .ok a t) ∨ ∃ e, r = .error (.error e) t

/-- Between the states before and after a run that ends, the relation holds. -/
def Keeps {α : Type} (R : Context → State → State → Prop) (p : Parser α) : Prop :=
  ∀ ⦃c : Context⦄ ⦃s t : State⦄, Ends (p c s) t → R c s t

variable {α β : Type} {c : Context} {s t u : State}

theorem ends_ok_iff {a : α} : Ends (.ok a u) t ↔ u = t := by
  constructor
  · rintro (⟨_, h⟩ | ⟨_, h⟩)
    · injection h
    · cases h
  · rintro rfl
    exact .inl ⟨a, rfl⟩

theorem ends_error_iff {e : SyntaxError} :
    Ends (.error (.error e) u : EStateM.Result Failure State α) t ↔ u = t := by
  constructor
  · rintro (⟨_, h⟩ | ⟨_, h⟩)
    · cases h
    · injection h
  · rintro rfl
    exact .inr ⟨e, rfl⟩

theorem not_ends_exhausted :
    ¬ Ends (.error .exhausted u : EStateM.Result Failure State α) t := by
  rintro (⟨_, h⟩ | ⟨_, h⟩) <;> cases h

theorem ends_bind {p : Parser α} {f : α → Parser β} (h : Ends ((p >>= f) c s) t) :
    Ends (p c s) t ∨ ∃ a u, p c s = .ok a u ∧ Ends (f a c u) t := by
  rw [bind_apply] at h
  split at h
  next a u hp => exact .inr ⟨a, u, hp, h⟩
  next e u hp =>
    refine .inl ?_
    obtain ⟨_, h⟩ | ⟨e', h⟩ := h
    · cases h
    · injection h with h₁ h₂
      exact .inr ⟨e', by rw [hp, h₁, h₂]⟩

theorem ends_spanned {p : Parser (Span → α)} (h : Ends (spanned p c s) t) : Ends (p c s) t := by
  obtain ⟨_, h⟩ | ⟨e, h⟩ := h
  · obtain ⟨make, hp, -⟩ := spanned_ok_iff.1 h
    exact .inl ⟨make, hp⟩
  · exact .inr ⟨e, spanned_error_iff.1 h⟩

theorem ends_attempt {p : Parser α} (h : Ends (attempt p c s) t) : Ends (p c s) t := by
  rw [attempt] at h
  split at h
  next a u hp => exact .inl ⟨a, by rw [hp, ends_ok_iff.1 h]⟩
  next e u hp => exact .inr ⟨e, by rw [hp, ends_ok_iff.1 h]⟩
  next => exact (not_ends_exhausted h).elim

theorem ends_endClass {r : Except SyntaxError α} (h : Ends (endClass r c u) t) :
    t.seen = u.seen ∧ t.scopes = u.scopes.exit.2 ∧ t.inInitializer = u.inInitializer := by
  rw [endClass_run] at h
  split at h
  · rw [← ends_ok_iff.1 h]
    exact ⟨rfl, rfl, rfl⟩
  · rw [← ends_error_iff.1 h]
    exact ⟨rfl, rfl, rfl⟩
  · rw [← ends_error_iff.1 h]
    exact ⟨rfl, rfl, rfl⟩

namespace Keeps

variable {R : Context → State → State → Prop}

theorem bind (htrans : ∀ c s u t, R c s u → R c u t → R c s t) {p : Parser α} {f : α → Parser β}
    (hp : Keeps R p) (hf : ∀ a, Keeps R (f a)) : Keeps R (p >>= f) := by
  intro c s t h
  obtain h | ⟨a, u, h, h'⟩ := ends_bind h
  · exact hp h
  · exact htrans c s u t (hp (.inl ⟨a, h⟩)) (hf a h')

/-- What holds of a budget one longer than one of which it holds, holds of every budget. -/
theorem fuel {ι : Type} {r : Nat → ι → Parser α} (hzero : ∀ i, r 0 i = exhausted)
    (hsucc : ∀ n, (∀ i, Keeps R (r n i)) → ∀ i, Keeps R (r (n + 1) i)) (n : Nat) (i : ι) :
    Keeps R (r n i) := by
  induction n generalizing i with
  | zero =>
    intro c s t h
    rw [hzero i] at h
    exact (not_ends_exhausted h).elim
  | succ n ih => exact hsucc n ih i

end Keeps

/-! ### The state around a part -/

/-- The use has the name and the place of a private name among the tokens. -/
def Context.Spells (c : Context) (e : String × Span) : Prop :=
  ∃ i, (c.token i).kind = .privateName ∧ 1 < (c.token i).span.length ∧ e.2 = (c.token i).span
    ∧ Escape.decodeName? (String.ofList ((c.token i).text.toList.drop 1)) = some e.1

namespace State

/-- No fewer tokens have been looked at, and the mark of initializers is as before. So are the
classes around, but for uses that the tokens spell and that no class has declared: they wait in the
innermost one. -/
structure Kept (c : Context) (s t : State) : Prop where
  seen : s.seen ≤ t.seen
  inInitializer : t.inInitializer = s.inInitializer
  scopes : ∃ uses, (∀ e ∈ uses, c.Spells e ∧ s.scopes.declares e.1 = false)
    ∧ t.scopes = s.scopes.noting uses

theorem SamePlace.kept (h : SamePlace s t) (c : Context) : Kept c s t :=
  ⟨h.seen, h.inInitializer, [], by simp, by rw [h.scopes, ClassScopes.noting_nil]⟩

theorem Kept.refl (c : Context) (s : State) : Kept c s s := (SamePlace.refl s).kept c

theorem Kept.trans (h : Kept c s u) (h' : Kept c u t) : Kept c s t := by
  obtain ⟨us, hus, hu⟩ := h.scopes
  obtain ⟨vs, hvs, ht⟩ := h'.scopes
  refine ⟨h.seen.trans h'.seen, h'.inInitializer.trans h.inInitializer, us ++ vs, ?_, ?_⟩
  · intro e he
    rcases List.mem_append.1 he with he | he
    · exact hus e he
    · have := hvs e he
      rwa [hu, ClassScopes.declares_noting] at this
  · rw [ht, hu, ClassScopes.noting_append]

/-- No fewer tokens have been looked at; the mark of initializers is as before, and so are the
classes around the innermost one. There each name waits at most once if it did so before, and a use
that waits has waited before, or the tokens spell it and no class around has declared it. -/
structure KeptInside (c : Context) (s t : State) : Prop where
  seen : s.seen ≤ t.seen
  inInitializer : t.inInitializer = s.inInitializer
  scopes : ∀ inner outer, s.scopes = ⟨inner :: outer⟩ → ∃ inner', t.scopes = ⟨inner' :: outer⟩
    ∧ ((inner.waiting.map Prod.fst).Nodup → (inner'.waiting.map Prod.fst).Nodup)
    ∧ ∀ e ∈ inner'.waiting,
      e ∈ inner.waiting ∨ c.Spells e ∧ (ClassScopes.mk outer).declares e.1 = false

theorem Kept.inside (h : Kept c s t) : KeptInside c s t := by
  refine ⟨h.seen, h.inInitializer, fun inner outer hs => ?_⟩
  obtain ⟨us, hus, ht⟩ := h.scopes
  rw [hs, ClassScopes.noting_cons] at ht
  refine ⟨_, ht, fun hnodup => nodup_noteUses hnodup us, fun e he => ?_⟩
  rcases mem_noteUses he with he | he
  · exact .inl he
  · obtain ⟨hspells, hfresh⟩ := hus e he
    rw [hs, ClassScopes.declares_cons, Bool.or_eq_false_iff] at hfresh
    exact .inr ⟨hspells, hfresh.2⟩

theorem KeptInside.trans (h : KeptInside c s u) (h' : KeptInside c u t) : KeptInside c s t := by
  refine ⟨h.seen.trans h'.seen, h'.inInitializer.trans h.inInitializer, fun inner outer hs => ?_⟩
  obtain ⟨inner', hu, hnodup, hwaiting⟩ := h.scopes inner outer hs
  obtain ⟨inner'', ht, hnodup', hwaiting'⟩ := h'.scopes inner' outer hu
  refine ⟨inner'', ht, hnodup' ∘ hnodup, fun e he => ?_⟩
  rcases hwaiting' e he with he | he
  · exact hwaiting e he
  · exact .inr he

/-- What is kept inside a class, by whether classes may have fields at all. Where they may not, a
class has no scope. -/
def KeptUnder (fl : Flags) (c : Context) (s t : State) : Prop :=
  c.options.flags = fl →
    (fl.classFields = true → KeptInside c s t) ∧ (fl.classFields = false → Kept c s t)

theorem Kept.under (h : Kept c s t) (fl : Flags) : KeptUnder fl c s t :=
  fun _ => ⟨fun _ => h.inside, fun _ => h⟩

theorem KeptUnder.trans {fl : Flags} (h : KeptUnder fl c s u) (h' : KeptUnder fl c u t) :
    KeptUnder fl c s t :=
  fun hfl => ⟨fun hf => ((h hfl).1 hf).trans ((h' hfl).1 hf),
    fun hf => ((h hfl).2 hf).trans ((h' hfl).2 hf)⟩

end State

/-! ### Single steps -/

namespace Keeps

open State

/-- A step that succeeds or fails at the same place keeps the state. -/
theorem of_samePlace {p : Parser α} (h : ∀ c s t, Ends (p c s) t →
    s.seen ≤ t.seen ∧ t.scopes = s.scopes ∧ t.inInitializer = s.inInitializer) : Keeps Kept p := by
  intro c s t hp
  obtain ⟨hseen, hscopes, hinitializer⟩ := h c s t hp
  exact ⟨hseen, hinitializer, [], by simp, by rw [hscopes, ClassScopes.noting_nil]⟩

theorem pure (a : α) : Keeps Kept (Pure.pure a : Parser α) :=
  of_samePlace fun _ _ _ h => by obtain rfl := ends_ok_iff.1 h; exact ⟨Nat.le_refl _, rfl, rfl⟩

theorem fail (e : SyntaxError) : Keeps Kept (Parser.fail e : Parser α) :=
  of_samePlace fun _ _ _ h => by obtain rfl := ends_error_iff.1 h; exact ⟨Nat.le_refl _, rfl, rfl⟩

theorem keptBind {p : Parser α} {f : α → Parser β} (hp : Keeps Kept p)
    (hf : ∀ a, Keeps Kept (f a)) : Keeps Kept (p >>= f) :=
  Keeps.bind (R := Kept) (fun _ _ _ _ => Kept.trans) hp hf

theorem look (n : Nat) : Keeps Kept (Parser.look n) :=
  of_samePlace fun _ _ _ h => by
    obtain rfl := ends_ok_iff.1 h
    exact ⟨Nat.le_max_left .., rfl, rfl⟩

theorem next : Keeps Kept Parser.next :=
  of_samePlace fun _ _ _ h => by
    obtain rfl := ends_ok_iff.1 h
    exact ⟨Nat.le_max_left .., rfl, rfl⟩

theorem acceptIf? (cond : Token → Bool) : Keeps Kept (Parser.acceptIf? cond) := by
  refine of_samePlace fun c s t h => ?_
  rw [acceptIf?_run] at h
  split at h
  · obtain rfl := ends_ok_iff.1 h
    exact ⟨Nat.le_max_left .., rfl, rfl⟩
  · obtain rfl := ends_ok_iff.1 h
    exact ⟨Nat.le_max_left .., rfl, rfl⟩

theorem require (kind : TokenKind) : Keeps Kept (Parser.require kind) := by
  refine next.keptBind fun t => ?_
  split
  · exact pure _
  · exact fail _

theorem position : Keeps Kept Parser.position :=
  of_samePlace fun _ _ _ h => by obtain rfl := ends_ok_iff.1 h; exact ⟨Nat.le_refl _, rfl, rfl⟩

theorem nameRules : Keeps Kept Parser.nameRules :=
  of_samePlace fun _ _ _ h => by obtain rfl := ends_ok_iff.1 h; exact ⟨Nat.le_refl _, rfl, rfl⟩

theorem restore (i : Nat) : Keeps Kept (Parser.restore i) :=
  of_samePlace fun _ _ _ h => by obtain rfl := ends_ok_iff.1 h; exact ⟨Nat.le_refl _, rfl, rfl⟩

theorem rewound {p : Parser α} (hp : Keeps Kept p) : Keeps Kept (Grammar.rewound p) :=
  position.keptBind fun start => hp.keptBind fun a => (restore start).keptBind fun _ => pure a

theorem since (i : Nat) : Keeps Kept (Parser.since i) :=
  of_samePlace fun _ _ _ h => by
    rw [since_run] at h
    obtain rfl := ends_ok_iff.1 h
    exact ⟨Nat.le_refl _, rfl, rfl⟩

theorem privateName : Keeps Kept Grammar.privateName := by
  refine (require _).keptBind fun t => ?_
  split
  · exact (look 0).keptBind fun _ => fail _
  · split
    · exact pure _
    · exact fail _

theorem checkArguments (t : Token) (name : String) : Keeps Kept (Parser.checkArguments t name) := by
  refine of_samePlace fun c s u h => ?_
  simp only [Parser.checkArguments, read_bind, get_bind, ite_run] at h
  split at h
  · obtain rfl := ends_error_iff.1 h
    exact ⟨Nat.le_refl _, rfl, rfl⟩
  · obtain rfl := ends_ok_iff.1 h
    exact ⟨Nat.le_refl _, rfl, rfl⟩

theorem checkSuper (t : Token) : Keeps Kept (Parser.checkSuper t) := by
  refine of_samePlace fun c s u h => ?_
  simp only [Parser.checkSuper, read_bind, get_bind, ite_run] at h
  split at h
  · obtain rfl := ends_error_iff.1 h
    exact ⟨Nat.le_refl _, rfl, rfl⟩
  · obtain rfl := ends_ok_iff.1 h
    exact ⟨Nat.le_refl _, rfl, rfl⟩

theorem attempt {p : Parser α} (hp : Keeps Kept p) : Keeps Kept (Parser.attempt p) :=
  fun _ _ _ h => hp (ends_attempt h)

theorem tried {p : Parser α} (hp : Keeps Kept p) : Keeps Kept (Grammar.tried p) := by
  refine (attempt hp).keptBind fun found => ?_
  cases found with
  | ok a => exact pure _
  | error e =>
    dsimp only
    split
    · exact fail _
    · exact pure _

theorem arrowSign : Keeps Kept Grammar.arrowSign := by
  refine (require _).keptBind fun arrow => ?_
  split
  · exact fail _
  · exact pure _

theorem withNames {f : NameRules → NameRules} {p : Parser α} (hp : Keeps Kept p) :
    Keeps Kept (Parser.withNames f p) := by
  intro c s t h
  have hkept := hp (c := { c with names := f c.names }) h
  exact ⟨hkept.seen, hkept.inInitializer, hkept.scopes⟩

theorem inInitializer {p : Parser α} (hp : Keeps Kept p) : Keeps Kept (Parser.inInitializer p) := by
  intro c s t h
  have of_inner {u : State} (hu : Ends (p c { s with inInitializer := true }) u)
      (ht : { u with inInitializer := s.inInitializer } = t) : Kept c s t := by
    obtain ⟨hseen, -, hscopes⟩ := hp hu
    subst ht
    exact ⟨hseen, rfl, hscopes⟩
  rw [inInitializer_run] at h
  split at h
  next a u hu => exact of_inner (.inl ⟨a, hu⟩) (ends_ok_iff.1 h)
  next e u hu => exact of_inner (.inr ⟨e, hu⟩) (ends_error_iff.1 h)
  next => exact (not_ends_exhausted h).elim

/-- A name that is used waits in the innermost class, unless it is declared already. -/
theorem usePrivate {name : Ident} (hname : c.Spells (name.name, name.span))
    (h : Ends (Parser.usePrivate name c s) t) : Kept c s t := by
  rw [Parser.usePrivate, get_bind] at h
  cases huse : s.scopes.use name.name name.span with
  | ok scopes =>
    rw [huse] at h
    obtain rfl := ends_ok_iff.1 h
    obtain rfl | ⟨hfresh, rfl⟩ := ClassScopes.use_ok huse
    · exact Kept.refl c s
    · exact ⟨Nat.le_refl _, rfl, [(name.name, name.span)],
        fun e he => List.mem_singleton.1 he ▸ ⟨hname, hfresh⟩, rfl⟩
  | error e =>
    rw [huse] at h
    dsimp only at h
    rw [read_bind, ite_run] at h
    split at h
    · obtain rfl := ends_error_iff.1 h
      exact Kept.refl c s
    · obtain rfl := ends_ok_iff.1 h
      exact Kept.refl c s

theorem spells_of_privateName {name : Ident} (h : Grammar.privateName c s = .ok name u) :
    c.Spells (name.name, name.span) := by
  obtain ⟨hkind, hlength, hspan, htext, -⟩ := Grammar.privateName_ok h
  exact ⟨s.position, hkind, hlength, hspan, htext⟩

theorem usedName : Keeps Kept Grammar.usedName := by
  intro c s t h
  obtain h | ⟨name, u, hname, h⟩ := ends_bind h
  · exact privateName h
  have hu := privateName (.inl ⟨name, hname⟩)
  obtain h | ⟨_, v, huse, h⟩ := ends_bind h
  · exact hu.trans (usePrivate (spells_of_privateName hname) h)
  · obtain rfl := ends_ok_iff.1 h
    exact hu.trans (usePrivate (spells_of_privateName hname) (.inl ⟨_, huse⟩))

/-- A name that is declared no longer waits; the classes around stay. -/
theorem declaredName {fl : Flags} (hclass : fl.classFields = true) :
    Keeps (KeptUnder fl) Grammar.declaredName := by
  intro c s t h hfl
  refine ⟨fun _ => ?_, fun hf => absurd hclass (by rw [hf]; decide)⟩
  obtain h | ⟨name, u, hname, h⟩ := ends_bind h
  · exact (privateName h).inside
  have hu := (privateName (.inl ⟨name, hname⟩)).inside
  rw [ite_run] at h
  split at h
  next =>
    obtain rfl := ends_error_iff.1 h
    exact hu
  next =>
    have hdeclare {v : State} (h : Ends (declarePrivate name c u) v) : KeptInside c u v := by
      rw [declarePrivate, get_bind] at h
      cases hscopes : u.scopes.declare name.name name.span with
      | error e =>
        rw [hscopes] at h
        obtain rfl := ends_error_iff.1 h
        exact (Kept.refl c u).inside
      | ok scopes =>
        rw [hscopes] at h
        obtain rfl := ends_ok_iff.1 h
        refine ⟨Nat.le_refl _, rfl, fun inner outer hs => ?_⟩
        rw [hs] at hscopes
        obtain ⟨-, rfl⟩ := ClassScopes.declare_ok hscopes
        refine ⟨_, rfl, fun hnodup => ?_, fun e he => .inl (List.mem_of_mem_filter he)⟩
        exact hnodup.sublist (List.filter_sublist.map Prod.fst)
    obtain h | ⟨_, v, hv, hend⟩ := ends_bind h
    · exact hu.trans (hdeclare h)
    · obtain rfl := ends_ok_iff.1 hend
      exact hu.trans (hdeclare (.inl ⟨_, hv⟩))

/-- A class leaves behind the uses that it does not resolve. -/
theorem inClass {p : Parser α} (hp : ∀ fl, Keeps (KeptUnder fl) p) :
    Keeps Kept (Parser.inClass p) := by
  intro c s t h
  rw [inClass_run] at h
  split at h
  next hfields =>
    have of_inner {r : Except SyntaxError α} {u : State} (hu : Ends (p c s.entered) u)
        (ht : Ends (endClass r c u) t) : Kept c s t := by
      have hkept := (hp _ hu rfl).1 hfields
      obtain ⟨inner, hinner, -, hwaiting⟩ := hkept.scopes .empty s.scopes.scopes rfl
      obtain ⟨hseen, hscopes, hinitializer⟩ := ends_endClass ht
      refine ⟨hseen ▸ hkept.seen, hinitializer.trans hkept.inInitializer, inner.unresolved,
        fun e he => ?_, ?_⟩
      · rcases hwaiting e (List.mem_of_mem_filter he) with he | he
        · cases he
        · exact he
      · rw [hscopes, hinner, ClassScopes.exit_snd]
    split at h
    next a u hu => exact of_inner (.inl ⟨a, hu⟩) h
    next e u hu => exact of_inner (.inr ⟨e, hu⟩) h
    next => exact (not_ends_exhausted h).elim
  next hfields => exact (hp _ h rfl).2 (Bool.eq_false_iff.2 hfields)

/-- What a list keeps with a budget, it keeps with the next one. -/
theorem onFuel (n : Nat) : ParserRel.OnFuel (fun _ p _ => Keeps Kept p) n n :=
  fun _ _ hzero _ hsucc => .fuel hzero (fun n => hsucc n n) n

end Keeps

/-! ### The rules -/

namespace Rules

open State

/-- Both rules keep the state. -/
structure Keeping (g : Rules) : Prop where
  stmt : Keeps Kept g.stmt
  expr (mode : ExprMode) : Keeps Kept (g.expr mode)

/-- Rules that are built from rules that keep the state do so too. -/
theorem Keeping.steps {g : Rules} (hg : g.Reading) (h : g.Keeping) :
    ClosedOnSteps (fun _ p _ => Keeps Kept p) (fun fl _ p _ => Keeps (KeptUnder fl) p) g g
      fun _ => True where
  reading := hg
  modes := .all
  expr mode _ := h.expr mode
  stmt := h.stmt
  pure := .pure
  fail _ := .fail _
  bind := .keptBind
  position := .position
  rewound := .rewound
  spanned _ hp := fun _ _ _ h => hp (ends_spanned h)
  look := .look
  next := .next
  acceptIf? := .acceptIf?
  named n := (Keeps.look n).keptBind fun _ => Keeps.nameRules.keptBind fun _ => .pure _
  flags := .of_samePlace fun _ _ _ h => by
    obtain rfl := ends_ok_iff.1 h
    exact ⟨Nat.le_refl _, rfl, rfl⟩
  report _ := .of_samePlace fun _ _ _ h => by
    obtain rfl := ends_ok_iff.1 h
    exact ⟨Nat.le_refl _, rfl, rfl⟩
  withNames _ hp := .withNames hp
  attempt := .attempt
  tried hp := .tried hp
  arrowSign := .arrowSign
  inInitializer := .inInitializer
  checkArguments := .checkArguments
  checkSuper := .checkSuper
  usedName := .usedName
  inClass := .inClass
  weaken hp := fun _ _ _ h => (hp h).under _
  class_bind {fl _ _ _ _ _ _} hp hf :=
    Keeps.bind (R := KeptUnder fl) (fun _ _ _ _ => KeptUnder.trans) hp hf
  class_spanned _ hp := fun _ _ _ h => hp (ends_spanned h)
  class_flags hf := fun c _ _ h hfl => hf _ hfl h hfl
  declaredName hclass _ := .declaredName hclass
  fuel := .onFuel _
  class_fuel {fl _} r _ hzero _ hsucc :=
    .fuel (r := fun n (_ : Unit) => r n) (fun _ => hzero) (fun n ih _ => hsucc n n (ih ())) _ ()

/-- **A part leaves the state as it was**, but for uses that wait in the innermost class, however
it ends. -/
theorem within_keeping (n : Nat) : (within n).Keeping := by
  induction n with
  | zero => exact ⟨fun _ _ _ h => (not_ends_exhausted h).elim,
      fun _ _ _ _ h => (not_ends_exhausted h).elim⟩
  | succ n ih =>
    have h := ih.steps (within_reading n)
    exact ⟨h.statement, fun _ => h.expression trivial⟩

end Rules

end EcmaScript
