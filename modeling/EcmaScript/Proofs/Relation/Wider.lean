import EcmaScript.Proofs.Relation.Frame
import EcmaScript.Proofs.Relation.Punctual

namespace EcmaScript

open EcmaScript.Parser

/-!
# Options that allow more

A text that could be read is read once more, under options that allow more. Where the first run has
tried parameters in vain, the second one may find some: but then an arrow follows, at which the
first run does not go on. So whatever is read up to a token that is no arrow is read again, with the
same result.

* `Context.Widens`, `State.Matches` — what may be different in the second run;
* `GivesToo` — the second run has the same result as the first one, or its budget does not suffice;
* `Surely`, `CarriesOver` — it has that result always, or where no arrow follows;
* `CarriesOver.tokens` — this is closed on all that reads tokens.
-/

/-! ### What may be different -/

/-- Nothing waits in the classes around a place. -/
def ClassScopes.Idle (s : ClassScopes) : Prop := ∀ scope ∈ s.scopes, scope.waiting = []

namespace ClassScopes.Idle

theorem outside : ClassScopes.outside.Idle := fun _ h => by cases h

theorem enter {s : ClassScopes} (h : s.Idle) : s.enter.Idle := by
  intro scope hscope
  rcases List.mem_cons.1 hscope with rfl | hscope
  · rfl
  · exact h scope hscope

/-- The end of a class is no error where nothing waits, and nothing waits behind it. -/
theorem exit {s : ClassScopes} (h : s.Idle) : (∃ n, s.exit.1 = .ok n) ∧ s.exit.2.Idle := by
  obtain ⟨scopes⟩ := s
  cases scopes with
  | nil => exact ⟨⟨0, rfl⟩, h⟩
  | cons inner outer =>
    have hnone : inner.unresolved = [] := by
      rw [ClassScope.unresolved, h inner List.mem_cons_self]
      rfl
    constructor
    · cases outer with
      | nil => exact ⟨0, by simp [ClassScopes.exit, hnone, earliest?]⟩
      | cons _ _ => exact ⟨_, rfl⟩
    · rw [exit_snd, hnone, noting_nil]
      exact fun scope hscope => h scope (List.mem_cons_of_mem _ hscope)

end ClassScopes.Idle

/-- An arrow stands at this place. -/
def Context.ArrowAt (c : Context) (i : Nat) : Prop := (c.token i).kind = Grammar.arrowKind

/-- The second context has the same tokens. The options of the first one do not let classes have
fields, and if they let members be async, those of the second one do. The tokens are such that no
arrow is an error, and no private name can wait. -/
structure Context.Widens (c c' : Context) : Prop where
  tokens : c'.tokens = c.tokens
  sourceLength : c'.sourceLength = c.sourceLength
  names : c'.names = c.names
  checks : c'.checks = c.checks
  fieldless : c.options.classFields = false ∨ c.options.supportsFields = false
  asyncMembers : c.options.supportsAsyncMembers = true → c'.options.supportsAsyncMembers = true
  punctual : c.Punctual
  kind_ne_privateName (i : Nat) : (c.token i).kind ≠ .privateName

namespace Context.Widens

variable {c c' : Context}

theorem token (h : c.Widens c') (i : Nat) : c'.token i = c.token i := by
  rw [Context.token, Context.token, h.tokens, h.sourceLength]

theorem withNames (h : c.Widens c') (f : NameRules → NameRules) :
    Widens { c with names := f c.names } { c' with names := f c'.names } :=
  ⟨h.tokens, h.sourceLength, congrArg f h.names, h.checks, h.fieldless, h.asyncMembers, h.punctual,
    h.kind_ne_privateName⟩

/-- No arrow is an error in the second run either. -/
theorem punctual_right (h : c.Widens c') : c'.Punctual := fun i hi => by
  rw [h.token] at hi ⊢
  exact h.punctual i hi

/-- The tokens of the second context spell no private name. -/
theorem not_spells (h : c.Widens c') (e : String × Span) : ¬ c'.Spells e := by
  rintro ⟨i, hkind, -⟩
  rw [h.token] at hkind
  exact h.kind_ne_privateName i hkind

end Context.Widens

/-- The second state is at the same place, and nothing waits in it. -/
structure State.Matches (s s' : State) : Prop where
  position : s'.position = s.position
  inInitializer : s'.inInitializer = s.inInitializer
  idle : s'.scopes.Idle

namespace State.Matches

variable {s s' t' : State}

theorem withoutClasses (s : State) : Matches s { s with scopes := .outside } :=
  ⟨rfl, rfl, .outside⟩

theorem looked (h : Matches s s') (n : Nat) : Matches (s.looked n) (s'.looked n) :=
  ⟨h.position, h.inInitializer, h.idle⟩

theorem advanced (h : Matches s s') : Matches s.advanced s'.advanced :=
  ⟨congrArg (· + 1) h.position, h.inInitializer, h.idle⟩

theorem restore (h : Matches s s') {i j : Nat} (hij : j = i) :
    Matches { s with position := i } { s' with position := j } :=
  ⟨hij, h.inInitializer, h.idle⟩

/-- Of the first state only its position and its mark count. -/
theorem elsewhere {t : State} (h : Matches s s') (hposition : t.position = s.position)
    (hinitializer : t.inInitializer = s.inInitializer) : Matches t s' :=
  ⟨h.position.trans hposition.symm, h.inInitializer.trans hinitializer.symm, h.idle⟩

/-- Where no token spells a private name, a part leaves the classes around it as they were. -/
theorem ofKept {c c' : Context} (hc : c.Widens c') (h : Matches s s') (hkept : s'.Kept c' t') :
    t'.inInitializer = s.inInitializer ∧ t'.scopes.Idle := by
  refine ⟨hkept.inInitializer.trans h.inInitializer, ?_⟩
  obtain ⟨uses, huses, hscopes⟩ := hkept.scopes
  have hnil : uses = [] :=
    List.eq_nil_iff_forall_not_mem.2 fun e he => hc.not_spells e (huses e he).1
  rw [hscopes, hnil, ClassScopes.noting_nil]
  exact h.idle

end State.Matches

theorem spanSince_matches {c c' : Context} {s s' : State} (hc : c.Widens c') (hs : s.Matches s')
    {i : Nat} (hi : i < s.position) : spanSince c' i s' = spanSince c i s := by
  rw [spanSince, spanSince, if_pos hi, if_pos (hs.position ▸ hi), hs.position, hc.token, hc.token]

/-! ### The same result -/

/-- The second run has this result, in a state that matches, unless its budget does not suffice. -/
inductive GivesToo {α : Type} (a : α) (t : State) : EStateM.Result Failure State α → Prop where
  | ok {t' : State} : t.Matches t' → GivesToo a t (.ok a t')
  | exhausted (t' : State) : GivesToo a t (.error .exhausted t')

/-- A run that succeeds does not begin by reading an arrow, and if it does not end before one, the
second run has the same result. -/
def Carries {α : Type} (c : Context) (s : State) (r r' : EStateM.Result Failure State α) : Prop :=
  ∀ ⦃a : α⦄ ⦃t : State⦄, r = .ok a t →
    (c.ArrowAt s.position → t.position = s.position) ∧ (¬ c.ArrowAt t.position → GivesToo a t r')

/-- In wider contexts and matching states, the second parser has each result of the first one that
does not end before an arrow. -/
def CarriesOver {α : Type} (p p' : Parser α) : Prop :=
  ∀ ⦃c c' : Context⦄ ⦃s s' : State⦄, c.Widens c' → s.Matches s' → Carries c s (p c s) (p' c' s')

/-- The second parser has every result of the first one. -/
def Surely {α : Type} (p p' : Parser α) : Prop :=
  ∀ ⦃c c' : Context⦄ ⦃s s' t : State⦄ ⦃a : α⦄, c.Widens c' → s.Matches s' → p c s = .ok a t →
    GivesToo a t (p' c' s')

variable {α β : Type} {c c' : Context} {s s' t u : State}

/-- A result that the second run has goes on with what is behind it. -/
theorem GivesToo.bind {p' : Parser α} {f' : α → Parser β} {a : α} {b : β}
    (h : GivesToo a u (p' c' s')) (hf : ∀ u', u.Matches u' → GivesToo b t (f' a c' u')) :
    GivesToo b t ((p' >>= f') c' s') := by
  rw [bind_apply]
  cases hrun : p' c' s' with
  | ok a' u' =>
    rw [hrun] at h
    cases h with
    | ok hu => exact hf u' hu
  | error e u' =>
    rw [hrun] at h
    cases h
    exact .exhausted _

namespace Carries

/-- Where the first run does not begin at an arrow, it is enough that the second run has the result
if no arrow follows. -/
theorem intro {r r' : EStateM.Result Failure State α} (hs : ¬ c.ArrowAt s.position)
    (h : ∀ a t, r = .ok a t → ¬ c.ArrowAt t.position → GivesToo a t r') : Carries c s r r' :=
  fun a t hr => ⟨fun harrow => absurd harrow hs, h a t hr⟩

theorem ok (a : α) (hs : s.Matches s') : Carries c s (.ok a s) (.ok a s') :=
  fun _ _ h => by
    obtain ⟨rfl, rfl⟩ : a = _ ∧ s = _ := by injection h with h₁ h₂; exact ⟨h₁, h₂⟩
    exact ⟨fun _ => rfl, fun _ => .ok hs⟩

theorem error (e : Failure) (r' : EStateM.Result Failure State α) : Carries c s (.error e t) r' :=
  fun _ _ h => by cases h

/-- What is behind a part does not begin by reading an arrow. So if the part ends before one, the
whole does. -/
theorem bind {p p' : Parser α} {f f' : α → Parser β} (hp : Carries c s (p c s) (p' c' s'))
    (hf : ∀ a u u', p c s = .ok a u → u.Matches u' → Carries c u (f a c u) (f' a c' u')) :
    Carries c s ((p >>= f) c s) ((p' >>= f') c' s') := by
  intro b t h
  obtain ⟨a, u, hrun, hrest⟩ := bind_ok_iff.1 h
  obtain ⟨hfirst, hlast⟩ := hp hrun
  have hstays := (hf a u _ hrun (.withoutClasses u) hrest).1
  refine ⟨fun harrow => ?_, fun hend => ?_⟩
  · have hu := hfirst harrow
    rw [hstays (hu ▸ harrow), hu]
  · have hu : ¬ c.ArrowAt u.position := fun harrow => hend (hstays harrow ▸ harrow)
    exact (hlast hu).bind fun u' hu' => (hf a u u' hrun hu' hrest).2 hend

end Carries

/-! ### Always the same result -/

namespace Surely

theorem pure (a : α) : Surely (Pure.pure a : Parser α) (Pure.pure a) := by
  intro c c' s s' t b _ hs h
  obtain ⟨rfl, rfl⟩ := pure_ok_iff.1 h
  exact .ok hs

theorem fail (e : SyntaxError) : Surely (Parser.fail e : Parser α) (Parser.fail e) :=
  fun _ _ _ _ _ _ _ _ h => (fail_ok_iff.1 h).elim

theorem bind {p p' : Parser α} {f f' : α → Parser β} (hp : Surely p p')
    (hf : ∀ a, Surely (f a) (f' a)) : Surely (p >>= f) (p' >>= f') := by
  intro c c' s s' t b hc hs h
  obtain ⟨a, u, hrun, hrest⟩ := bind_ok_iff.1 h
  exact (hp hc hs hrun).bind fun u' hu => hf a hc hu hrest

theorem look (n : Nat) : Surely (Parser.look n) (Parser.look n) := by
  intro c c' s s' t a hc hs h
  obtain ⟨rfl, rfl⟩ := look_ok_iff.1 h
  rw [look_run, hs.position, hc.token]
  exact .ok (hs.looked n)

theorem next : Surely Parser.next Parser.next := by
  intro c c' s s' t a hc hs h
  obtain ⟨rfl, rfl⟩ := next_ok_iff.1 h
  rw [next_run, hs.position, hc.token]
  exact .ok hs.advanced

theorem acceptIf? (cond : Token → Bool) :
    Surely (Parser.acceptIf? cond) (Parser.acceptIf? cond) := by
  intro c c' s s' t a hc hs h
  rw [acceptIf?_run] at h ⊢
  rw [hs.position, hc.token]
  split at h
  next hcond =>
    injection h with h₁ h₂
    subst h₁ h₂
    rw [if_pos hcond]
    exact .ok hs.advanced
  next hcond =>
    injection h with h₁ h₂
    subst h₁ h₂
    rw [if_neg hcond]
    exact .ok (hs.looked 0)

theorem accept (kind : TokenKind) : Surely (Parser.accept kind) (Parser.accept kind) :=
  (acceptIf? _).bind fun _ => pure _

theorem require (kind : TokenKind) : Surely (Parser.require kind) (Parser.require kind) := by
  refine next.bind fun t => ?_
  split
  · exact pure _
  · exact fail _

theorem nameRules : Surely Parser.nameRules Parser.nameRules := by
  intro c c' s s' t a hc hs h
  injection h with h₁ h₂
  subst h₁ h₂
  rw [nameRules_run, hc.names]
  exact .ok hs

theorem named (n : Nat) : Surely (Parser.named n) (Parser.named n) :=
  (look n).bind fun _ => nameRules.bind fun _ => pure _

theorem withNames (f : NameRules → NameRules) {p p' : Parser α} (hp : Surely p p') :
    Surely (Parser.withNames f p) (Parser.withNames f p') :=
  fun _ _ _ _ _ _ hc hs h => hp (hc.withNames f) hs h

theorem spanned {p p' : Parser (Span → α)} (hadvances : Advances p) (hp : Surely p p') :
    Surely (Parser.spanned p) (Parser.spanned p') := by
  intro c c' s s' t a hc hs h
  obtain ⟨make, hmake, rfl⟩ := spanned_ok_iff.1 h
  have hlt := (hadvances hmake).1
  rw [Parser.spanned, position_bind]
  refine (hp hc hs hmake).bind fun t' ht => ?_
  rw [since_bind, hs.position, spanSince_matches hc ht hlt]
  exact .ok ht

theorem checkArguments (t : Token) (name : String) :
    Surely (Parser.checkArguments t name) (Parser.checkArguments t name) := by
  intro c c' s s' u a hc hs h
  simp only [Parser.checkArguments, read_bind, get_bind, ite_run] at h ⊢
  rw [hc.checks, hs.inInitializer]
  split at h
  next => exact (fail_ok_iff.1 h).elim
  next hcheck =>
    obtain ⟨rfl, rfl⟩ := pure_ok_iff.1 h
    rw [if_neg hcheck]
    exact .ok hs

theorem checkSuper (t : Token) : Surely (Parser.checkSuper t) (Parser.checkSuper t) := by
  intro c c' s s' u a hc hs h
  simp only [Parser.checkSuper, read_bind, get_bind, ite_run] at h ⊢
  rw [hc.checks, hs.inInitializer]
  split at h
  next => exact (fail_ok_iff.1 h).elim
  next hcheck =>
    obtain ⟨rfl, rfl⟩ := pure_ok_iff.1 h
    rw [if_neg hcheck]
    exact .ok hs

theorem identifierText (t : Token) :
    Surely (Grammar.identifierText t) (Grammar.identifierText t) := by
  unfold Grammar.identifierText
  split
  · exact pure _
  · exact fail _

theorem variableName : Surely Grammar.variableName Grammar.variableName := by
  refine next.bind fun t => nameRules.bind fun _ => ?_
  split
  · exact (identifierText t).bind fun name => (checkArguments t name).bind fun _ => pure _
  · exact fail _

theorem identifier : Surely Grammar.identifier Grammar.identifier :=
  spanned (.of_spanned Grammar.identifier_reads) (variableName.bind fun _ => pure _)

theorem definitionName? : Surely Grammar.definitionName? Grammar.definitionName? :=
  nameRules.bind fun _ => (acceptIf? _).bind fun _ => pure _

theorem boolLiteral : Surely Grammar.boolLiteral Grammar.boolLiteral := by
  refine spanned (.of_spanned Grammar.boolLiteral_reads) (next.bind fun t => ?_)
  split
  · exact pure _
  · exact pure _
  · exact fail _

theorem declarationKind : Surely Grammar.declarationKind Grammar.declarationKind := by
  refine next.bind fun t => ?_
  split
  · exact pure _
  · exact pure _
  · exact pure _
  · exact fail _

theorem numberValue : Surely Grammar.numberValue Grammar.numberValue := by
  refine (require _).bind fun t => ?_
  split
  · exact pure _
  · exact fail _

theorem stringValue : Surely Grammar.stringValue Grammar.stringValue := by
  refine (require _).bind fun t => ?_
  split
  · exact pure _
  · exact fail _

theorem directKeyText (t : Token) : Surely (Grammar.directKeyText t) (Grammar.directKeyText t) := by
  unfold Grammar.directKeyText
  split
  · exact stringValue
  · exact numberValue.bind fun _ => pure _
  · refine next.bind fun t => (identifierText t).bind fun name => ?_
    exact (checkArguments t name).bind fun _ => pure _
  · exact next.bind fun _ => pure _
  · exact fail _

theorem directKey : Surely Grammar.directKey Grammar.directKey := by
  refine spanned (.of_spanned Grammar.directKey_reads) ((look 0).bind fun t => ?_)
  exact (directKeyText t).bind fun _ => pure _

/-- Where a run does not begin by reading an arrow, a sure result is more than enough. -/
theorem carriesOver {p p' : Parser α} (hp : Surely p p')
    (hfirst : ∀ ⦃c c' : Context⦄ ⦃s t : State⦄ ⦃a : α⦄, c.Widens c' → p c s = .ok a t →
      c.ArrowAt s.position → t.position = s.position) : CarriesOver p p' :=
  fun _ _ _ _ hc hs _ _ h => ⟨hfirst hc h, fun _ => hp hc hs h⟩

/-- A parser that reads a plain token first. -/
theorem ofPlain {p p' : Parser α} (hp : Surely p p')
    (hfirst : ∀ ⦃c : Context⦄ ⦃s t : State⦄ ⦃a : α⦄, p c s = .ok a t →
      (c.token s.position).kind.isPlain) : CarriesOver p p' :=
  hp.carriesOver fun _ _ _ _ _ _ h harrow =>
    absurd harrow (TokenKind.isPlain_iff.1 (hfirst h)).2.2.2

end Surely

/-! ### The same result where no arrow follows -/

namespace CarriesOver

theorem pure (a : α) : CarriesOver (Pure.pure a : Parser α) (Pure.pure a) :=
  fun _ _ _ _ _ hs => .ok a hs

theorem fail (e : SyntaxError) (p' : Parser α) : CarriesOver (Parser.fail e) p' :=
  fun _ _ _ _ _ _ => .error _ _

theorem bind {p p' : Parser α} {f f' : α → Parser β} (hp : CarriesOver p p')
    (hf : ∀ a, CarriesOver (f a) (f' a)) : CarriesOver (p >>= f) (p' >>= f') :=
  fun _ _ _ _ hc hs => (hp hc hs).bind fun a _ _ _ hu => hf a hc hu

theorem accept {kind : TokenKind} (hk : kind ≠ Grammar.arrowKind) :
    CarriesOver (Parser.accept kind) (Parser.accept kind) := by
  refine (Surely.accept kind).carriesOver fun c _ s t b _ h harrow => ?_
  obtain ⟨hkind, -, rfl⟩ | ⟨-, -, rfl⟩ := accept_ok_iff.1 h
  · exact absurd (hkind.symm.trans harrow) hk
  · rfl

theorem require {kind : TokenKind} (hk : kind ≠ Grammar.arrowKind) :
    CarriesOver (Parser.require kind) (Parser.require kind) := by
  refine (Surely.require kind).carriesOver fun c _ s t b _ h harrow => ?_
  obtain ⟨hkind, -, -⟩ := require_ok_iff.1 h
  exact absurd (hkind.symm.trans harrow) hk

theorem spanned {p p' : Parser (Span → α)} (hadvances : Advances p) (hp : CarriesOver p p') :
    CarriesOver (Parser.spanned p) (Parser.spanned p') := by
  intro c c' s s' hc hs a t h
  obtain ⟨make, hmake, rfl⟩ := spanned_ok_iff.1 h
  obtain ⟨hfirst, hlast⟩ := hp hc hs hmake
  have hlt := (hadvances hmake).1
  refine ⟨hfirst, fun hend => ?_⟩
  rw [Parser.spanned, position_bind]
  refine (hlast hend).bind fun t' ht => ?_
  rw [since_bind, hs.position, spanSince_matches hc ht hlt]
  exact .ok ht

theorem declarationKind : CarriesOver Grammar.declarationKind Grammar.declarationKind := by
  refine Surely.declarationKind.ofPlain fun c s t a h => ?_
  rw [Grammar.declarationKind, next_bind] at h
  obtain ⟨p, hp, h⟩ := exists_run h
  split at hp
  next hkind => exact hkind ▸ rfl
  next hkind => exact hkind ▸ rfl
  next hkind => exact hkind ▸ rfl
  next => exact (fail_ok_iff.1 (hp ▸ h)).elim

/-- It is closed on all that reads tokens. -/
theorem tokens : ClosedOnTokens @CarriesOver where
  pure := .pure
  fail _ := .fail _ _
  bind := .bind
  look n := (Surely.look n).carriesOver fun _ _ _ _ _ _ h _ => look_position h
  accept := .accept
  require := .require
  named n := (Surely.named n).carriesOver fun c s t a _ _ h _ => by
    rw [← bind_pure (Parser.named n), named_bind, pure_ok_iff] at h
    rw [← h.2]
    rfl
  spanned := .spanned
  withNames {_ f _ _} _ hp := fun _ _ _ _ hc hs => hp (hc.withNames f) hs
  variableName := Surely.variableName.ofPlain fun _ _ _ _ h =>
    NameRules.isPlain_of_allows (Grammar.variableName_ok h).1
  definitionName? := Surely.definitionName?.carriesOver fun c _ s t a _ h harrow => by
    obtain ⟨hallowed, -⟩ | ⟨-, ht⟩ := Grammar.definitionName?_ok h
    · rw [harrow] at hallowed
      cases hallowed
    · exact ht.position
  boolLiteral := Surely.boolLiteral.ofPlain fun _ _ _ _ h => by
    obtain ⟨hkind | hkind, -⟩ := Grammar.boolLiteral_ok h
    · exact hkind ▸ rfl
    · exact hkind ▸ rfl
  declarationKind := declarationKind
  directKey := Surely.directKey.ofPlain fun _ _ _ _ h => (Grammar.directKey_ok h).1
  checkSuper t := (Surely.checkSuper t).carriesOver fun _ _ _ _ _ _ h _ => by
    rw [Grammar.checkSuper_state h]

/-- What stands inside of an initializer. -/
theorem inInitializer {p p' : Parser α} (hp : CarriesOver p p') :
    CarriesOver (Parser.inInitializer p) (Parser.inInitializer p') := by
  intro c c' s s' hc hs a t h
  obtain ⟨u, hrun, rfl⟩ := Grammar.inInitializer_ok_iff.1 h
  have hmarked : State.Matches { s with inInitializer := true } { s' with inInitializer := true } :=
    ⟨hs.position, rfl, hs.idle⟩
  obtain ⟨hfirst, hlast⟩ := hp hc hmarked hrun
  refine ⟨hfirst, fun hend => ?_⟩
  rw [inInitializer_run]
  cases hrun' : p' c' { s' with inInitializer := true } with
  | ok a' u' =>
    have hgives := hlast hend
    rw [hrun'] at hgives
    cases hgives with
    | ok hu => exact .ok ⟨hu.position, hs.inInitializer, hu.idle⟩
  | error e u' =>
    have hgives := hlast hend
    rw [hrun'] at hgives
    cases hgives
    exact .exhausted _

/-- The end of a class is no error in the second run. -/
theorem endClass {a : α} {u' : State} (hu : u.Matches u') :
    GivesToo a u (Parser.endClass (.ok a) c' u') := by
  obtain ⟨⟨n, hn⟩, hidle⟩ := hu.idle.exit
  have hcount : ∃ count, exitCount c' u' = .ok count := by
    rw [exitCount, hn]
    split
    · exact ⟨n, rfl⟩
    · exact ⟨_, rfl⟩
  obtain ⟨count, hcount⟩ := hcount
  rw [endClass_run, hcount]
  exact .ok ⟨hu.position, hu.inInitializer, hidle⟩

/-- Whether a class is a scope or not, it is read alike: nothing waits in it. -/
theorem inClass {p p' : Parser α} (hp : CarriesOver p p') :
    CarriesOver (Parser.inClass p) (Parser.inClass p') := by
  intro c c' s s' hc hs a t h
  -- The first run is that of what is inside, between states at the same places.
  obtain ⟨v, u, hrun, hv, hvi, ht, hti⟩ : ∃ v u, p c v = .ok a u ∧ v.position = s.position
      ∧ v.inInitializer = s.inInitializer ∧ t.position = u.position
      ∧ t.inInitializer = u.inInitializer := by
    cases hfields : c.options.classFields with
    | true =>
      obtain ⟨u, -, hrun, -, ht, -, hti⟩ := inClass_ok hfields h
      exact ⟨s.entered, u, hrun, rfl, rfl, ht, hti⟩
    | false =>
      rw [inClass_run, hfields] at h
      exact ⟨s, t, h, rfl, rfl, rfl, rfl⟩
  have hplain : v.Matches s' := hs.elsewhere hv hvi
  have hentered : v.Matches s'.entered := ⟨hplain.position, hplain.inInitializer, hs.idle.enter⟩
  refine ⟨fun harrow => ?_, fun hend => ?_⟩
  · have hstays := (hp hc hplain hrun).1
    rw [ht, hstays (hv ▸ harrow), hv]
  rw [ht] at hend
  rw [inClass_run]
  split
  · have hgives := (hp hc hentered hrun).2 hend
    cases hrun' : p' c' s'.entered with
    | ok a' u' =>
      rw [hrun'] at hgives
      cases hgives with
      | ok hu => exact endClass (hu.elsewhere ht hti)
    | error e u' =>
      rw [hrun'] at hgives
      cases hgives
      exact .exhausted _
  · have hgives := (hp hc hplain hrun).2 hend
    cases hrun' : p' c' s' with
    | ok a' u' =>
      rw [hrun'] at hgives
      cases hgives with
      | ok hu => exact .ok (hu.elsewhere ht hti)
    | error e u' =>
      rw [hrun'] at hgives
      cases hgives
      exact .exhausted _

end CarriesOver

end EcmaScript
