import EcmaScript.Proofs.Relation.Steps

namespace EcmaScript

open EcmaScript.Parser

/-!
# Rules for names that make no difference

The grammar asks the rules for names only whether a token that it looks at may be a name. So two
sets of rules lead to the same run if they allow the same of all the tokens that it has looked at.

* `runEnd` — the state in which a run ends, whatever it gives;
* `Impartial` — other rules for names make no difference to a parser if they allow the same of the
  tokens that it looks at;
* `Impartial.bind`, `Impartial.attempt`, `Impartial.rewound` — the ways to put parts together keep
  this;
* `Rules.Impartiality.steps` — the single steps are impartial, over rules that are;
* `Rules.within_impartial` — so are statements and expressions, whatever the budget is;
* `Grammar.functionRest_names` — where a function has neither of the two words that are names only
  sometimes, or says itself what they are, it is read alike wherever it stands.
-/

/-! ### Runs -/

/-- The state in which a run ends. -/
def runEnd {α : Type} : EStateM.Result Failure State α → State
  | .ok _ t => t
  | .error _ t => t

/-- The position has not gone back, and no fewer tokens have been looked at. -/
structure State.Onward (s t : State) : Prop where
  position : s.position ≤ t.position
  seen : s.seen ≤ t.seen

namespace State.Onward

variable {s t u : State}

theorem refl (s : State) : Onward s s := ⟨Nat.le_refl _, Nat.le_refl _⟩

theorem trans (h : Onward s u) (h' : Onward u t) : Onward s t :=
  ⟨Nat.le_trans h.position h'.position, Nat.le_trans h.seen h'.seen⟩

theorem looked (s : State) (n : Nat) : Onward s (s.looked n) :=
  ⟨Nat.le_refl _, Nat.le_max_left ..⟩

theorem advanced (s : State) : Onward s s.advanced := ⟨Nat.le_succ _, Nat.le_max_left ..⟩

end State.Onward

/-- Where the options have such flags, the parser moves on only, and other rules for names make no
difference to it if they allow the same of the tokens that it has looked at. -/
structure Impartial (F : Flags → Prop) {α : Type} (p : Parser α) : Prop where
  moves {c : Context} (s : State) : F c.options.flags → s.Onward (runEnd (p c s))
  same {c : Context} {s : State} {r : NameRules} : F c.options.flags →
    (∀ i, s.position ≤ i → i < (runEnd (p c s)).seen →
      r.allows (c.token i).kind = c.names.allows (c.token i).kind) →
    p { c with names := r } s = p c s

namespace Impartial

variable {F : Flags → Prop} {α β : Type} {p : Parser α}

/-- A step that does not ask for names. -/
theorem of_blind (hmoves : ∀ (c : Context) (s : State), s.Onward (runEnd (p c s)))
    (hblind : ∀ (c : Context) (s : State) (names : NameRules),
      p { c with names := names } s = p c s) : Impartial F p :=
  ⟨fun s _ => hmoves _ s, fun _ _ => hblind _ _ _⟩

theorem mono {G : Flags → Prop} (h : Impartial F p) (hG : ∀ fl, G fl → F fl) : Impartial G p :=
  ⟨fun s hfl => h.moves s (hG _ hfl), fun hfl => h.same (hG _ hfl)⟩

/-- What holds for all flags holds, whatever they are. -/
theorem of_all (h : ∀ fl, Impartial (· = fl) p) : Impartial F p :=
  ⟨fun s _ => (h _).moves s rfl, fun _ => (h _).same rfl⟩

theorem pure (a : α) : Impartial F (Pure.pure a : Parser α) :=
  .of_blind (fun _ => .refl) fun _ _ _ => rfl

theorem fail (e : SyntaxError) : Impartial F (Parser.fail e : Parser α) :=
  .of_blind (fun _ => .refl) fun _ _ _ => rfl

theorem exhausted : Impartial F (Parser.exhausted : Parser α) :=
  .of_blind (fun _ => .refl) fun _ _ _ => rfl

/-- What stands behind a part is read from where the part ends, and no fewer tokens have been looked
at then. -/
theorem bind {f : α → Parser β} (hp : Impartial F p) (hf : ∀ a, Impartial F (f a)) :
    Impartial F (p >>= f) where
  moves {c} s hfl := by
    have hmoves := hp.moves (c := c) s hfl
    rw [bind_apply]
    cases hrun : p c s with
    | ok a u =>
      rw [hrun] at hmoves
      exact hmoves.trans ((hf a).moves u hfl)
    | error e u =>
      rw [hrun] at hmoves
      exact hmoves
  same {c s names} hfl h := by
    have hmoves := hp.moves (c := c) s hfl
    have hsame := hp.same (c := c) (s := s) (r := names) hfl
    rw [bind_apply] at h ⊢
    rw [bind_apply]
    cases hrun : p c s with
    | ok a u =>
      rw [hrun] at hmoves hsame h
      -- What the first part has looked at is among what the whole run has looked at.
      have hseen := ((hf a).moves (c := c) u hfl).seen
      rw [hsame fun i hi hlt => h i hi (Nat.lt_of_lt_of_le hlt hseen)]
      exact (hf a).same hfl fun i hi hlt => h i (Nat.le_trans hmoves.position hi) hlt
    | error e u =>
      rw [hrun] at hsame h
      rw [hsame h]

/-! ### Single steps -/

theorem position : Impartial F Parser.position :=
  .of_blind (fun _ => .refl) fun _ _ _ => rfl

theorem get : Impartial F (get : Parser State) := .of_blind (fun _ => .refl) fun _ _ _ => rfl

/-- A change of the state that leaves the position, and what has been looked at. -/
theorem modify {f : State → State}
    (hf : ∀ s, (f s).position = s.position ∧ (f s).seen = s.seen) :
    Impartial F (MonadState.modifyGet fun s => (⟨⟩, f s) : Parser PUnit) :=
  .of_blind (fun _ s => ⟨Nat.le_of_eq (hf s).1.symm, Nat.le_of_eq (hf s).2.symm⟩) fun _ _ _ => rfl

/-- What depends on the context, but not on its rules for names. -/
theorem read_bind {f : Context → Parser α} (hf : ∀ c, Impartial F (f c))
    (hnames : ∀ c names, f { c with names := names } = f c) : Impartial F (read >>= f) where
  moves {c} s hfl := (hf c).moves s hfl
  same {c s names} hfl h := by
    show f { c with names := names } { c with names := names } s = f c c s
    rw [hnames]
    exact (hf c).same hfl h

theorem look (n : Nat) : Impartial F (Parser.look n) :=
  .of_blind (fun _ s => .looked s n) fun _ _ _ => rfl

theorem next : Impartial F Parser.next :=
  .of_blind (fun _ => .advanced) fun _ _ _ => rfl

theorem acceptIf? (cond : Token → Bool) : Impartial F (Parser.acceptIf? cond) := by
  refine .of_blind (fun c s => ?_) fun c s names => ?_
  · rw [acceptIf?_run]
    split
    · exact .advanced s
    · exact .looked s 0
  · rw [acceptIf?_run, acceptIf?_run]
    rfl

/-- The token of which it is asked has been looked at. -/
theorem named (n : Nat) : Impartial F (Parser.named n) where
  moves _ _ := .looked _ n
  same {c s names} _ h := by
    have hallows := h (s.position + n) (Nat.le_add_right ..) (Nat.le_max_right ..)
    show EStateM.Result.ok (c.token _, names.allows (c.token (s.position + n)).kind) _ = .ok (_, _) _
    rw [hallows]

theorem withNames {f : NameRules → NameRules} (hf : NameRules.Uniform f) (hp : Impartial F p) :
    Impartial F (Parser.withNames f p) where
  moves {c} _ hfl := hp.moves (c := { c with names := f c.names }) _ hfl
  same {c _ names} hfl h :=
    hp.same (c := { c with names := f c.names }) (r := f names) hfl
      fun i hi hlt => hf (h i hi hlt)

theorem require (kind : TokenKind) : Impartial F (Parser.require kind) := by
  refine next.bind fun t => ?_
  split
  · exact pure _
  · exact fail _

theorem checkArguments (t : Token) (name : String) :
    Impartial F (Parser.checkArguments t name) := by
  refine read_bind (fun c => get.bind fun s => ?_) fun _ _ => rfl
  split
  · exact fail _
  · exact pure _

theorem checkSuper (t : Token) : Impartial F (Parser.checkSuper t) := by
  refine read_bind (fun c => get.bind fun s => ?_) fun _ _ => rfl
  split
  · exact fail _
  · exact pure _

theorem privateName : Impartial F Grammar.privateName := by
  refine (require _).bind fun t => ?_
  split
  · exact (look 0).bind fun _ => fail _
  · split
    · exact pure _
    · exact fail _

theorem usePrivate (name : Ident) : Impartial F (Parser.usePrivate name) := by
  refine get.bind fun s => ?_
  split
  · exact modify fun _ => ⟨rfl, rfl⟩
  · refine read_bind (fun c => ?_) fun _ _ => rfl
    split
    · exact fail _
    · exact pure _

theorem declarePrivate (name : Ident) : Impartial F (Parser.declarePrivate name) := by
  refine get.bind fun s => ?_
  split
  · exact modify fun _ => ⟨rfl, rfl⟩
  · exact fail _

theorem usedName : Impartial F Grammar.usedName :=
  privateName.bind fun name => (usePrivate name).bind fun _ => pure _

theorem declaredName : Impartial F Grammar.declaredName := by
  refine privateName.bind fun name => ?_
  split
  · exact fail _
  · exact (declarePrivate name).bind fun _ => pure _

theorem arrowSign : Impartial F Grammar.arrowSign := by
  refine (require _).bind fun arrow => ?_
  split
  · exact fail _
  · exact pure _

theorem since (start : Nat) : Impartial F (Parser.since start) := by
  refine .of_blind (fun c s => ?_) fun c s names => ?_
  · rw [since_run]
    exact .refl s
  · rw [since_run, since_run]
    rfl

/-! ### Parts -/

theorem runEnd_attempt (p : Parser α) (c : Context) (s : State) :
    runEnd (Parser.attempt p c s) = runEnd (p c s) := by
  rw [Parser.attempt]
  cases p c s with
  | ok => rfl
  | error e => cases e <;> rfl

theorem attempt (hp : Impartial F p) : Impartial F (Parser.attempt p) where
  moves s hfl := by
    rw [runEnd_attempt]
    exact hp.moves s hfl
  same hfl h := by
    rw [runEnd_attempt] at h
    rw [Parser.attempt, Parser.attempt, hp.same hfl h]

theorem runEnd_rewound {p : Parser α} {c : Context} {s : State} (h : s.Onward (runEnd (p c s))) :
    s.Onward (runEnd (Grammar.rewound p c s))
      ∧ (runEnd (Grammar.rewound p c s)).seen = (runEnd (p c s)).seen := by
  rw [Grammar.rewound, position_bind, bind_apply]
  cases hrun : p c s with
  | ok a u =>
    rw [hrun] at h
    exact ⟨⟨Nat.le_refl _, h.seen⟩, rfl⟩
  | error e u =>
    rw [hrun] at h
    exact ⟨h, rfl⟩

theorem rewound (hp : Impartial F p) : Impartial F (Grammar.rewound p) where
  moves s hfl := (runEnd_rewound (hp.moves s hfl)).1
  same {c s _} hfl h := by
    rw [(runEnd_rewound (hp.moves s hfl)).2] at h
    rw [Grammar.rewound, position_bind, bind_apply, hp.same hfl h, position_bind, bind_apply]
    cases p c s with
    | ok => rfl
    | error => rfl

theorem spanned {p : Parser (Span → α)} (hp : Impartial F p) : Impartial F (Parser.spanned p) :=
  position.bind fun start => hp.bind fun _ => (since start).bind fun _ => pure _

theorem tried (hp : Impartial F p) : Impartial F (Grammar.tried p) := by
  refine hp.attempt.bind fun found => ?_
  cases found with
  | ok a => exact pure _
  | error e =>
    dsimp only
    split
    · exact fail _
    · exact pure _

theorem resume (result : Except SyntaxError α) : Impartial F (Parser.resume result) := by
  cases result with
  | ok a => exact pure a
  | error e => exact fail e

theorem inInitializer (hp : Impartial F p) : Impartial F (Parser.inInitializer p) := by
  have hmark (mark : Bool) := modify (F := F) (f := fun s => { s with inInitializer := mark })
    fun _ => ⟨rfl, rfl⟩
  exact get.bind fun s => (hmark true).bind fun _ => hp.attempt.bind fun found =>
    (hmark s.inInitializer).bind fun _ => resume found

theorem endClass (result : Except SyntaxError α) : Impartial F (Parser.endClass result) := by
  refine .of_blind (fun c s => ?_) fun c s names => ?_
  · rw [endClass_run]
    split
    · exact ⟨Nat.le_refl _, Nat.le_refl _⟩
    · exact ⟨Nat.le_refl _, Nat.le_refl _⟩
    · exact ⟨Nat.le_refl _, Nat.le_refl _⟩
  · rw [endClass_run, endClass_run]
    rfl

theorem beginClass : Impartial F Parser.beginClass :=
  .of_blind (fun _ _ => ⟨Nat.le_refl _, Nat.le_refl _⟩) fun _ _ _ => rfl

theorem inClass (hp : ∀ fl, Impartial (· = fl) p) : Impartial F (Parser.inClass p) := by
  have hp : Impartial F p := .of_all hp
  have hoptions : Impartial F Parser.options := .of_blind (fun _ => .refl) fun _ _ _ => rfl
  refine hoptions.bind fun options => ?_
  split
  · exact beginClass.bind fun _ => hp.attempt.bind endClass
  · exact hp

end Impartial

/-! ### The rules -/

namespace Rules

/-- Both rules are impartial. -/
structure Impartiality (g : Rules) : Prop where
  stmt : Impartial (fun _ => True) g.stmt
  expr (mode : ExprMode) : Impartial (fun _ => True) (g.expr mode)

/-- Rules that are built from impartial rules are impartial. -/
theorem Impartiality.steps {g : Rules} (hg : g.Reading) (h : g.Impartiality) :
    ClosedOnSteps (fun _ p _ => Impartial (fun _ => True) p) (fun fl _ p _ => Impartial (· = fl) p)
      g g fun _ => True where
  reading := hg
  modes := .all
  expr mode _ := h.expr mode
  stmt := h.stmt
  pure := .pure
  fail _ := .fail _
  bind := .bind
  position := .position
  rewound := .rewound
  spanned _ := .spanned
  look := .look
  next := .next
  acceptIf? := .acceptIf?
  named := .named
  flags := .of_blind (fun _ => .refl) fun _ _ _ => rfl
  report _ := .of_blind (fun _ _ => ⟨Nat.le_refl _, Nat.le_refl _⟩) fun _ _ _ => rfl
  withNames := .withNames
  attempt := .attempt
  tried := .tried
  arrowSign := .arrowSign
  inInitializer := .inInitializer
  checkArguments := .checkArguments
  checkSuper := .checkSuper
  usedName := .usedName
  inClass := .inClass
  weaken hp := hp.mono fun _ _ => trivial
  class_bind := .bind
  class_spanned _ := .spanned
  class_flags hf := ⟨fun s hfl => (hf _ hfl).moves s hfl, fun hfl => (hf _ hfl).same hfl⟩
  declaredName _ _ := .declaredName
  fuel := ParserRel.OnFuel.of_le (Q := fun _ p _ => Impartial (fun _ => True) p)
    (fun _ _ => .exhausted) (Nat.le_refl _)
  class_fuel {fl _} r _ hzero _ hsucc :=
    ParserRel.OnFuel.of_le (Q := fun _ p _ => Impartial (· = fl) p)
      (fun _ _ => .exhausted) (Nat.le_refl _)
      (fun n (_ : Unit) => r n) (fun n _ => r n) (fun _ => hzero) (fun _ => hzero)
      (fun n m ih _ => hsucc n m (ih ())) ()

/-- **Statements and expressions are impartial**, whatever the budget is. -/
theorem within_impartial (n : Nat) : (within n).Impartiality := by
  induction n with
  | zero => exact ⟨.exhausted, fun _ => .exhausted⟩
  | succ n ih =>
    have hsteps := ih.steps (within_reading n)
    exact ⟨hsteps.statement, fun _ => hsteps.expression trivial⟩

end Rules

/-- What a function allows of a token is its own business if it is async or a generator; else the
words around it decide. -/
theorem NameRules.allows_forFunction {names names' : NameRules} {async generator : Bool}
    {kind : TokenKind}
    (hawait : async = false → names.awaitAllowed ≠ names'.awaitAllowed → kind ≠ .keyword .kAwait)
    (hyield : generator = false → names.yieldAllowed ≠ names'.yieldAllowed →
      kind ≠ .keyword .kYield) :
    ((names.forAsync async).forGenerator generator).allows kind
      = ((names'.forAsync async).forGenerator generator).allows kind := by
  rw [allows_eq, allows_eq ((names'.forAsync async).forGenerator generator)]
  split
  next hkind =>
    show (!async && names.awaitAllowed) = (!async && names'.awaitAllowed)
    cases async with
    | true => rfl
    | false =>
      by_contra hne
      exact hawait rfl hne hkind
  next =>
    split
    next hkind =>
      show (!generator && names.yieldAllowed) = (!generator && names'.yieldAllowed)
      cases generator with
      | true => rfl
      | false =>
        by_contra hne
        exact hyield rfl hne hkind
    next => rfl

/-- **A function is read alike wherever it stands**, where it says itself what `await` and `yield`
are, or does not have them. Two sets of rules for names lead to the same function, or to the same
error, in the same state, unless they treat `await` differently, the function is not async and such
a token is among those that have been looked at from the parameters on; or unless the same holds of
`yield` and generators. -/
theorem Grammar.functionRest_names (n : Nat) (async generator : Bool) (c : Context) (s : State)
    (names : NameRules)
    (hawait : async = false → names.awaitAllowed ≠ c.names.awaitAllowed → ∀ i, s.position ≤ i →
      i < (runEnd (functionRest (.within n) async generator c s)).seen →
      (c.token i).kind ≠ .keyword .kAwait)
    (hyield : generator = false → names.yieldAllowed ≠ c.names.yieldAllowed → ∀ i,
      s.position ≤ i → i < (runEnd (functionRest (.within n) async generator c s)).seen →
      (c.token i).kind ≠ .keyword .kYield) :
    functionRest (.within n) async generator { c with names := names } s
      = functionRest (.within n) async generator c s := by
  have hsteps := (Rules.within_impartial n).steps (Rules.within_reading n)
  have hparameters : Impartial (fun _ => True) (parameters (.within n)) :=
    hsteps.lists.parameters
  have hbody : Impartial (fun _ => True) (blockBody (.within n)) := hsteps.closed.blockBody
  -- The parameters and the body are read by the rules that the function makes of those around it.
  have hinside : Impartial (fun _ => True) (spanned do
      let params ← parameters (.within n)
      let body ← blockBody (.within n)
      return fun span => Func.mk span false async generator params (.block body)) :=
    .spanned (hparameters.bind fun _ => hbody.bind fun _ => .pure _)
  rw [functionRest, withNames_run, withNames_run]
  rw [functionRest, withNames_run] at hawait hyield
  refine hinside.same (c := { c with names := (c.names.forAsync async).forGenerator generator })
    (r := (names.forAsync async).forGenerator generator) trivial fun i hi hlt => ?_
  exact NameRules.allows_forFunction (fun hasync hne => hawait hasync hne i hi hlt)
    fun hgenerator hne => hyield hgenerator hne i hi hlt

set_option maxRecDepth 100000 in
/-- The words in front of a function and behind it are none of its own. -/
theorem Grammar.functionRest_names_around :
    ∃ f t, functionRest (.within 40) false false
        (Context.ofSource "await; function f(a) { return a; } yield" true ⟨9, true⟩)
        { State.initial with position := 4 } = .ok f t
      ∧ functionRest (.within 40) false false
        { Context.ofSource "await; function f(a) { return a; } yield" true ⟨9, true⟩ with
          names := ⟨false, false⟩ } { State.initial with position := 4 } = .ok f t := by
  have hends : (match functionRest (.within 40) false false
      (Context.ofSource "await; function f(a) { return a; } yield" true ⟨9, true⟩)
      { State.initial with position := 4 } with
      | .ok _ t => decide (t.seen ≤ 12)
      | .error _ _ => false) = true := by decide +kernel
  have hwords : ∀ i < 12, 4 ≤ i →
      ((Context.ofSource "await; function f(a) { return a; } yield" true ⟨9, true⟩).token i).kind
        ≠ .keyword .kAwait
      ∧ ((Context.ofSource "await; function f(a) { return a; } yield" true ⟨9, true⟩).token i).kind
        ≠ .keyword .kYield := by decide +kernel
  have hsame := functionRest_names 40 false false
    (Context.ofSource "await; function f(a) { return a; } yield" true ⟨9, true⟩)
    { State.initial with position := 4 } ⟨false, false⟩
  cases hrun : functionRest (.within 40) false false
      (Context.ofSource "await; function f(a) { return a; } yield" true ⟨9, true⟩)
      { State.initial with position := 4 } with
  | ok f t =>
    rw [hrun] at hends hsame
    have hseen : t.seen ≤ 12 := of_decide_eq_true hends
    exact ⟨f, t, rfl, hsame (fun _ _ i hi hlt => (hwords i (Nat.lt_of_lt_of_le hlt hseen) hi).1)
      fun _ _ i hi hlt => (hwords i (Nat.lt_of_lt_of_le hlt hseen) hi).2⟩
  | error e t =>
    rw [hrun] at hends
    cases hends

end EcmaScript
