import EcmaScript.Proofs.ClassScopes.Noting
import EcmaScript.Proofs.Relation.Steps

namespace EcmaScript

open EcmaScript.Parser

/-!
# Runs in lockstep

Two runs over the same tokens, for options that have the same flags, come to the same end. This
stays true with a larger budget for the second one, unless the budget of the first one is used up,
and if the second one has seen the tokens before and other names wait around it. It may even stand
in another class, and check undeclared names where the first one does not, if the classes are linked.

* `Context.SameFlags`, `State.Alike` — what may be different in the second run;
* `SameOutcome`, `Follows` — the two runs come to the same end;
* `Rules.within_follows` — statements and expressions do, with a budget that is not smaller;
* `Grammar.script_follows` — so do whole scripts.
-/

/-! ### What may be different -/

/-- Two contexts that differ at most in options which the rules do not ask for, and in whether
undeclared names are checked. -/
structure Context.SameFlags (c c' : Context) : Prop where
  tokens : c'.tokens = c.tokens
  sourceLength : c'.sourceLength = c.sourceLength
  names : c'.names = c.names
  initializers : c'.checks.initializers = c.checks.initializers
  flags : c'.options.flags = c.options.flags

namespace Context.SameFlags

variable {c c' : Context}

theorem refl (c : Context) : c.SameFlags c := ⟨rfl, rfl, rfl, rfl, rfl⟩

theorem token (h : c.SameFlags c') (i : Nat) : c'.token i = c.token i := by
  rw [Context.token, Context.token, h.tokens, h.sourceLength]

theorem withNames (h : c.SameFlags c') (f : NameRules → NameRules) :
    SameFlags { c with names := f c.names } { c' with names := f c'.names } :=
  ⟨h.tokens, h.sourceLength, congrArg f h.names, h.initializers, h.flags⟩

theorem classFields (h : c.SameFlags c') : c'.options.classFields = c.options.classFields :=
  congrArg Flags.classFields h.flags

end Context.SameFlags

variable {checked checked' : Bool} {L : ClassScopes.Linkage checked checked'}

/-- Two states that differ at most in what has been looked at and reported, and in the classes
around, which are linked. -/
structure State.Alike (L : ClassScopes.Linkage checked checked') (depth : Nat) (s s' : State) :
    Prop where
  position : s'.position = s.position
  scopes : L.rel depth s.scopes s'.scopes
  inInitializer : s'.inInitializer = s.inInitializer

namespace State.Alike

variable {depth : Nat} {s s' : State}

theorem looked (h : Alike L depth s s') (n : Nat) :
    Alike L depth (s.looked n) (s'.looked n) :=
  ⟨h.position, h.scopes, h.inInitializer⟩

theorem advanced (h : Alike L depth s s') :
    Alike L depth s.advanced s'.advanced :=
  ⟨congrArg (· + 1) h.position, h.scopes, h.inInitializer⟩

theorem restore (h : Alike L depth s s') (i : Nat) :
    Alike L depth { s with position := i } { s' with position := i } :=
  ⟨rfl, h.scopes, h.inInitializer⟩

theorem withScopes (h : Alike L depth s s') {scopes scopes' : ClassScopes} {k : Nat}
    (hscopes : L.rel k scopes scopes') :
    Alike L k { s with scopes := scopes } { s' with scopes := scopes' } :=
  ⟨h.position, hscopes, h.inInitializer⟩

theorem withInitializer (h : Alike L depth s s') (b : Bool) :
    Alike L depth { s with inInitializer := b } { s' with inInitializer := b } :=
  ⟨h.position, h.scopes, rfl⟩

theorem entered (h : Alike L depth s s') :
    Alike L (depth + 1) s.entered s'.entered :=
  ⟨h.position, L.enter h.scopes, h.inInitializer⟩

end State.Alike

/-- The span of a part that has read something does not depend on what has been looked at. -/
theorem spanSince_alike {c c' : Context} {depth : Nat} {s s' : State} (hc : c.SameFlags c')
    (hs : s.Alike L depth s') {i : Nat} (hi : i < s.position) :
    spanSince c' i s' = spanSince c i s := by
  unfold spanSince
  rw [hs.position, if_pos hi, if_pos hi, hc.token, hc.token]

/-- A use of a private name, in terms of the scopes. -/
theorem Parser.usePrivate_under (name : Ident) (c : Context) (s : State) :
    usePrivate name c s =
      match s.scopes.useUnder c.checks.undeclaredNames name.name name.span with
      | .ok scopes => .ok () { s with scopes := scopes }
      | .error e => .error (.error e) s := by
  rw [usePrivate_run, ClassScopes.useUnder]
  cases s.scopes.use name.name name.span with
  | ok scopes => rfl
  | error e => cases c.checks.undeclaredNames <;> rfl

/-- What the end of a class gives, in terms of the scopes. -/
theorem Parser.exitCount_under (c : Context) (s : State) :
    exitCount c s = s.scopes.exitUnder c.checks.undeclaredNames := rfl

/-! ### The same end -/

/-- The second run comes to the same end as the first one, if that one's budget suffices, and the
states there are related. -/
inductive SameOutcome {α : Type} (R : State → State → Prop) :
    EStateM.Result Failure State α → EStateM.Result Failure State α → Prop where
  | ok (a : α) {t t' : State} : R t t' → SameOutcome R (.ok a t) (.ok a t')
  | error (e : SyntaxError) {t t' : State} : R t t' →
    SameOutcome R (.error (.error e) t) (.error (.error e) t')
  | exhausted (t : State) (r' : EStateM.Result Failure State α) :
    SameOutcome R (.error .exhausted t) r'

/-- From states that are alike the second parser comes to the same end as the first one, for all
contexts with the same flags. -/
def Follows {α : Type} (p p' : Parser α) : Prop :=
  ∀ ⦃c c' : Context⦄
    ⦃L : ClassScopes.Linkage c.checks.undeclaredNames c'.checks.undeclaredNames⦄ ⦃depth : Nat⦄
    ⦃s s' : State⦄, c.SameFlags c' → s.Alike L depth s' →
    SameOutcome (State.Alike L depth) (p c s) (p' c' s')

/-- The same, for contexts with certain flags only. Where classes may have fields, both runs are
inside of a class that they have entered. -/
def FollowsUnder (fl : Flags) {α : Type} (p p' : Parser α) : Prop :=
  ∀ ⦃c c' : Context⦄
    ⦃L : ClassScopes.Linkage c.checks.undeclaredNames c'.checks.undeclaredNames⦄ ⦃depth : Nat⦄
    ⦃s s' : State⦄, c.options.flags = fl → (fl.classFields = true → 0 < depth) → c.SameFlags c' →
    s.Alike L depth s' → SameOutcome (State.Alike L depth) (p c s) (p' c' s')

namespace SameOutcome

variable {α β : Type} {R R' : State → State → Prop} {c c' : Context} {s s' : State}

theorem bind {p p' : Parser α} {f f' : α → Parser β} (hp : SameOutcome R (p c s) (p' c' s'))
    (hf : ∀ a u u', R u u' → SameOutcome R (f a c u) (f' a c' u')) :
    SameOutcome R ((p >>= f) c s) ((p' >>= f') c' s') := by
  rw [bind_apply, bind_apply]
  match p c s, p' c' s', hp with
  | _, _, .ok a h => exact hf a _ _ h
  | _, _, .error e h => exact .error e h
  | _, _, .exhausted _ _ => exact .exhausted _ _

theorem attempt_bind {p p' : Parser α} {f f' : Except SyntaxError α → Parser β}
    (hp : SameOutcome R (p c s) (p' c' s'))
    (hf : ∀ found u u', R u u' → SameOutcome R' (f found c u) (f' found c' u')) :
    SameOutcome R' ((attempt p >>= f) c s) ((attempt p' >>= f') c' s') := by
  rw [Parser.attempt_bind, Parser.attempt_bind]
  match p c s, p' c' s', hp with
  | _, _, .ok a h => exact hf _ _ _ h
  | _, _, .error e h => exact hf _ _ _ h
  | _, _, .exhausted _ _ => exact .exhausted _ _

/-- A part that has read something has the same span in both runs. -/
theorem spanned {depth : Nat} {p p' : Parser (Span → α)} (hmoves : Moves p) (hc : c.SameFlags c')
    (hs : s.Alike L depth s')
    (hp : SameOutcome (State.Alike L depth) (p c s) (p' c' s')) :
    SameOutcome (State.Alike L depth) (Parser.spanned p c s)
      (Parser.spanned p' c' s') := by
  rw [spanned_run, spanned_run, hs.position]
  cases hrun : p c s with
  | ok make t =>
    rw [hrun] at hp
    generalize p' c' s' = r' at hp ⊢
    cases hp with
    | ok _ ht =>
      dsimp only
      rw [spanSince_alike hc ht (hmoves hrun)]
      exact .ok _ ht
  | error e t =>
    rw [hrun] at hp
    generalize p' c' s' = r' at hp ⊢
    cases hp with
    | error e ht => exact .error e ht
    | exhausted t r' => exact .exhausted t _

end SameOutcome

namespace Follows

variable {α β : Type}

theorem pure (a : α) : Follows (Pure.pure a : Parser α) (Pure.pure a) :=
  fun _ _ _ _ _ _ _ hs => .ok a hs

/-- A run whose budget is used up is followed by every run. -/
theorem exhausted (p' : Parser α) : Follows Parser.exhausted p' :=
  fun _ _ _ _ s _ _ _ => .exhausted s _

theorem fail (e : SyntaxError) : Follows (Parser.fail e : Parser α) (Parser.fail e) :=
  fun _ _ _ _ _ _ _ hs => .error e hs

theorem bind {p p' : Parser α} {f f' : α → Parser β} (hp : Follows p p')
    (hf : ∀ a, Follows (f a) (f' a)) : Follows (p >>= f) (p' >>= f') :=
  fun _ _ _ _ _ _ hc hs => (hp hc hs).bind fun a _ _ hu => hf a hc hu

theorem look (n : Nat) : Follows (Parser.look n) (Parser.look n) := by
  intro c c' _ _ s s' hc hs
  rw [look_run, look_run, hs.position, hc.token]
  exact .ok _ (hs.looked n)

theorem next : Follows Parser.next Parser.next := by
  intro c c' _ _ s s' hc hs
  rw [next_run, next_run, hs.position, hc.token]
  exact .ok _ hs.advanced

theorem acceptIf? (cond : Token → Bool) :
    Follows (Parser.acceptIf? cond) (Parser.acceptIf? cond) := by
  intro c c' _ _ s s' hc hs
  rw [acceptIf?_run, acceptIf?_run, hs.position, hc.token]
  split
  · exact .ok _ hs.advanced
  · exact .ok _ (hs.looked 0)

theorem position : Follows Parser.position Parser.position := by
  intro c c' _ _ s s' hc hs
  rw [position_run, position_run, hs.position]
  exact .ok _ hs

theorem named (n : Nat) : Follows (Parser.named n) (Parser.named n) := by
  have rules : Follows Parser.nameRules Parser.nameRules := by
    intro c c' _ _ s s' hc hs
    rw [nameRules_run, nameRules_run, hc.names]
    exact .ok _ hs
  exact (look n).bind fun _ => rules.bind fun _ => pure _

theorem restore (i : Nat) : Follows (Parser.restore i) (Parser.restore i) :=
  fun _ _ _ _ _ _ _ hs => .ok _ (hs.restore i)

theorem rewound {p p' : Parser α} (hp : Follows p p') :
    Follows (Grammar.rewound p) (Grammar.rewound p') :=
  position.bind fun start => hp.bind fun a => (restore start).bind fun _ => pure a

theorem require (kind : TokenKind) : Follows (Parser.require kind) (Parser.require kind) := by
  refine next.bind fun t => ?_
  split
  · exact pure _
  · exact fail _

theorem privateName : Follows Grammar.privateName Grammar.privateName := by
  refine (require _).bind fun t => ?_
  split
  · exact (look 0).bind fun _ => fail _
  · split
    · exact pure _
    · exact fail _

theorem attempt {p p' : Parser α} (hp : Follows p p') :
    Follows (Parser.attempt p) (Parser.attempt p') := by
  intro c c' _ _ s s' hc hs
  rw [← bind_pure (Parser.attempt p), ← bind_pure (Parser.attempt p')]
  exact (hp hc hs).attempt_bind fun found _ _ hu => .ok found hu

theorem tried {p p' : Parser α} (hp : Follows p p') :
    Follows (Grammar.tried p) (Grammar.tried p') := by
  refine (attempt hp).bind fun found => ?_
  cases found with
  | ok a => exact pure _
  | error e =>
    dsimp only
    split
    · exact fail _
    · exact pure _

theorem arrowSign : Follows Grammar.arrowSign Grammar.arrowSign := by
  refine (require _).bind fun arrow => ?_
  split
  · exact fail _
  · exact pure _

/-- What was held back goes on in both runs. -/
theorem resume (found : Except SyntaxError α) :
    Follows (Parser.resume found) (Parser.resume found) := by
  cases found with
  | ok a => exact pure a
  | error e => exact fail e

theorem inInitializer {p p' : Parser α} (hp : Follows p p') :
    Follows (Parser.inInitializer p) (Parser.inInitializer p') := by
  intro c c' _ _ s s' hc hs
  rw [Parser.inInitializer, Parser.inInitializer, get_bind, get_bind, modify_bind, modify_bind]
  refine (hp hc (hs.withInitializer true)).attempt_bind fun found u u' hu => ?_
  rw [modify_bind, modify_bind, hs.inInitializer]
  exact resume found hc (hu.withInitializer _)

theorem checkArguments (t : Token) (name : String) :
    Follows (Parser.checkArguments t name) (Parser.checkArguments t name) := by
  intro c c' _ _ s s' hc hs
  simp only [Parser.checkArguments, read_bind, get_bind, ite_run, hc.initializers, hs.inInitializer]
  split
  · exact .error _ hs
  · exact .ok _ hs

theorem checkSuper (t : Token) : Follows (Parser.checkSuper t) (Parser.checkSuper t) := by
  intro c c' _ _ s s' hc hs
  simp only [Parser.checkSuper, read_bind, get_bind, ite_run, hc.initializers, hs.inInitializer]
  split
  · exact .error _ hs
  · exact .ok _ hs

theorem usePrivate (name : Ident) : Follows (Parser.usePrivate name) (Parser.usePrivate name) := by
  intro c c' L _ s s' hc hs
  rw [usePrivate_under, usePrivate_under]
  obtain ⟨e, huse, huse'⟩ | ⟨k, k', huse, huse', hk⟩ := L.use hs.scopes name.name name.span
  · rw [huse, huse']
    exact .error e hs
  · rw [huse, huse']
    exact .ok _ (hs.withScopes hk)

/-- Inside of a class that both runs have entered, a declaration does the same in both. -/
theorem declarePrivate (name : Ident) {c c' : Context} {depth : Nat} {s s' : State}
    (hs : s.Alike L (depth + 1) s') :
    SameOutcome (State.Alike L (depth + 1)) (Parser.declarePrivate name c s)
      (Parser.declarePrivate name c' s') := by
  rw [declarePrivate_run, declarePrivate_run]
  obtain ⟨e, hdeclare, hdeclare'⟩ | ⟨k, k', hdeclare, hdeclare', hk⟩ :=
    L.declare hs.scopes name.name name.span
  · rw [hdeclare, hdeclare']
    exact .error e hs
  · rw [hdeclare, hdeclare']
    exact .ok _ (hs.withScopes hk)

theorem usedName : Follows Grammar.usedName Grammar.usedName :=
  privateName.bind fun name => (usePrivate name).bind fun _ => pure _

theorem declaredName {fl : Flags} (hclass : fl.classFields = true) :
    FollowsUnder fl Grammar.declaredName Grammar.declaredName := by
  intro c c' L depth s s' _ hdepth hc hs
  refine (privateName hc hs).bind fun name u u' hu => ?_
  rw [ite_run, ite_run]
  split
  · exact .error _ hu
  · obtain ⟨depth, rfl⟩ := Nat.exists_eq_succ_of_ne_zero (hdepth hclass).ne'
    exact (declarePrivate name hu).bind fun _ _ _ hv => .ok name hv

/-- What is reported is not compared. -/
theorem report (entry entry' : TraceEntry) : Follows (Parser.report entry) (Parser.report entry') :=
  fun _ _ _ _ _ _ _ hs => .ok _ ⟨hs.position, hs.scopes, hs.inInitializer⟩

/-- A class that both runs have entered ends in both. -/
theorem endClass (found : Except SyntaxError α) {c c' : Context}
    {L : ClassScopes.Linkage c.checks.undeclaredNames c'.checks.undeclaredNames} {depth : Nat}
    {s s' : State} (hdepth : L.least ≤ depth) (hs : s.Alike L (depth + 1) s') :
    SameOutcome (State.Alike L depth) (Parser.endClass found c s)
      (Parser.endClass found c' s') := by
  obtain ⟨hresult, hscopes⟩ := L.exit hdepth hs.scopes
  have hsame (trace trace' : Array TraceEntry) : State.Alike L depth
      { s with scopes := s.scopes.exit.2, trace := trace }
      { s' with scopes := s'.scopes.exit.2, trace := trace' } :=
    ⟨hs.position, hscopes, hs.inInitializer⟩
  rw [endClass_run, endClass_run, exitCount_under, exitCount_under]
  cases found with
  | ok a =>
    obtain ⟨e, hexit, hexit'⟩ | ⟨count, count', hexit, hexit'⟩ := hresult
    · rw [hexit, hexit']
      exact .error e (hsame _ _)
    · rw [hexit, hexit']
      exact .ok a (hsame _ _)
  | error e => exact .error e (hsame _ _)

theorem inClass {p p' : Parser α} (hp : ∀ fl, FollowsUnder fl p p') :
    Follows (Parser.inClass p) (Parser.inClass p') := by
  intro c c' L depth s s' hc hs
  rw [Parser.inClass, options_bind, Parser.inClass, options_bind, hc.classFields, ite_run, ite_run]
  split
  · have hbegin (q : Parser α) (c : Context) (s : State) :
        (beginClass >>= fun _ => q) c s = q c s.entered := rfl
    rw [hbegin, hbegin]
    refine (hp _ rfl (fun _ => depth.succ_pos) hc hs.entered).attempt_bind fun found u u' hu => ?_
    exact endClass found (L.least_le hs.scopes) hu
  · next hfields => exact hp _ rfl (fun h => absurd h hfields) hc hs

theorem under {p p' : Parser α} (h : Follows p p') (fl : Flags) : FollowsUnder fl p p' :=
  fun _ _ _ _ _ _ _ _ hc hs => h hc hs

end Follows

theorem FollowsUnder.bind {fl : Flags} {α β : Type} {p p' : Parser α} {f f' : α → Parser β}
    (hp : FollowsUnder fl p p') (hf : ∀ a, FollowsUnder fl (f a) (f' a)) :
    FollowsUnder fl (p >>= f) (p' >>= f') :=
  fun _ _ _ _ _ _ hfl hdepth hc hs =>
    (hp hfl hdepth hc hs).bind fun a _ _ hu => hf a hfl hdepth hc hu

/-! ### The rules -/

namespace Rules

/-- Both rules follow the other ones, with a budget that is not smaller. -/
structure Following (g g' : Rules) : Prop where
  budget : g.budget ≤ g'.budget
  stmt : Follows g.stmt g'.stmt
  expr (mode : ExprMode) : Follows (g.expr mode) (g'.expr mode)

/-- Rules that are built from rules that follow others follow those that are built from the
others. -/
theorem Following.steps {g g' : Rules} (hg : g.Reading) (h : g.Following g') :
    ClosedOnSteps (@Follows) (fun fl => @FollowsUnder fl) g g' fun _ => True where
  reading := hg
  modes := .all
  expr mode _ := h.expr mode
  stmt := h.stmt
  pure := .pure
  fail _ := .fail _
  bind := .bind
  position := .position
  spanned hmoves hp := fun _ _ _ _ _ _ hc hs => (hp hc hs).spanned hmoves hc hs
  rewound := .rewound
  look := .look
  next := .next
  acceptIf? := .acceptIf?
  named := .named
  flags := fun c c' _ _ s s' hc hs => by
    show SameOutcome _ (.ok c.options.flags s) (.ok c'.options.flags s')
    rw [hc.flags]
    exact .ok _ hs
  report _ := .report _ _
  withNames {_ f _ _} _ hp := fun _ _ _ _ _ _ hc hs => hp (hc.withNames f) hs
  attempt := .attempt
  tried := .tried
  arrowSign := .arrowSign
  inInitializer := .inInitializer
  checkArguments := .checkArguments
  checkSuper := .checkSuper
  usedName := .usedName
  inClass := .inClass
  weaken hp := hp.under _
  class_bind := .bind
  class_spanned hmoves hp := fun _ _ _ _ _ _ hfl hdepth hc hs =>
    (hp hfl hdepth hc hs).spanned hmoves hc hs
  class_flags {fl _ f f'} hf := fun c c' _ _ s s' hfl hdepth hc hs => by
    show SameOutcome _ (f c.options.flags c s) (f' c'.options.flags c' s')
    rw [hc.flags]
    exact hf _ hfl hfl hdepth hc hs
  declaredName hclass _ := Follows.declaredName hclass
  fuel := ParserRel.OnFuel.of_le (fun _ p' => .exhausted p') h.budget
  class_fuel {fl _} r r' hzero hzero' hsucc :=
    ParserRel.OnFuel.of_le (Q := @FollowsUnder fl) (fun _ p' => (Follows.exhausted p').under fl)
      h.budget (fun n (_ : Unit) => r n) (fun n _ => r' n) (fun _ => hzero) (fun _ => hzero')
      (fun n m ih _ => hsucc n m (ih ())) ()

/-- **A larger budget comes to the same end**, and so do other options with the same flags. -/
theorem within_follows {n m : Nat} (h : n ≤ m) : (within n).Following (within m) := by
  induction n generalizing m with
  | zero =>
    exact ⟨Nat.zero_le _, .exhausted _, fun _ => .exhausted _⟩
  | succ n ih =>
    obtain ⟨m, rfl⟩ := Nat.exists_eq_add_of_le' (Nat.lt_of_lt_of_le n.succ_pos h)
    have hsteps := (ih (Nat.le_of_succ_le_succ h)).steps (within_reading n)
    exact ⟨h, hsteps.statement, fun _ => hsteps.expression trivial⟩

end Rules

/-- A whole script comes to the same end too. -/
theorem Grammar.script_follows {n m : Nat} (h : n ≤ m) :
    Follows (script (.within n)) (script (.within m)) := by
  have hsteps := (Rules.within_follows h).steps (Rules.within_reading n)
  refine hsteps.withNames (NameRules.uniform_const _) ?_
  refine hsteps.bind (hsteps.closed.statements _) fun body => ?_
  refine hsteps.bind (hsteps.discard (hsteps.require _)) fun _ => ?_
  refine hsteps.bind (Follows.report _ _) fun _ c c' _ _ s s' hc hs => ?_
  rw [read_bind, read_bind, hc.sourceLength]
  exact .ok _ hs

end EcmaScript
