import EcmaScript.Proofs.ClassScopes.Collecting
import EcmaScript.Proofs.Grammar.Settling

namespace EcmaScript

open EcmaScript.Parser

/-!
# Reading with a class around everything

A class that declares nothing, put around a script, collects the uses of private names that no other
class resolves. Without it these are refused. So two runs, the first one with it, go the same way as
long as nothing is collected. From there on the second one fails, because of some of the uses that
were collected first, even where a failure leads to another reading of the same text.

* `Context.Scoped` — classes have scopes, and nothing stands in the way of what was tried in vain;
* `State.Beneath` — the same place, with the class around it, where nothing waits, and without;
* `Context.Refuses`, `Collected` — what the second run comes to, by what the first one has collected;
* `Collects` — a parser whose runs from such states come to this;
* `Collects.inClass` — what a class of the script does not resolve is collected around it, or refused;
* `Rules.Collecting.reading` — parsers that come to this are closed under the ways in which rules are
  put together, but for the places at which something is tried.
-/

/-! ### What the second run comes to -/

/-- Classes have scopes, and undeclared names are checked. The word `async` is spelled as it is, and
no `await` is in the way of what was tried in vain. -/
structure Context.Scoped (c : Context) : Prop where
  fields : c.options.classFields = true
  checked : c.checks.undeclaredNames = true
  calm : c.Calm
  async {i : Nat} : (c.token i).kind = .keyword .kAsync → (c.token i).text = "async"

theorem Context.Scoped.withNames {c : Context} (h : c.Scoped) (f : NameRules → NameRules) :
    Scoped { c with names := f c.names } :=
  ⟨h.fields, h.checked, h.calm, h.async⟩

/-- Two states at the same place. The first one is in a class that collects, and nothing waits there;
the second one is outside of all classes. -/
structure State.Beneath (s s' : State) : Prop where
  position : s'.position = s.position
  inInitializer : s'.inInitializer = s.inInitializer
  scopes : s.scopes = .collecting []
  outside : s'.scopes = .outside

/-- The failure comes of some of the uses: the earliest one of those at their front is refused, or
what follows on it was taken for something else, up to a rest mark. Or the budget is used up. -/
def Context.Refuses (c : Context) (uses : List (String × Span)) (f : Failure) : Prop :=
  f = .exhausted
    ∨ (∃ front span, front <+: uses ∧ earliest? front = some span
        ∧ f = .error (ClassScopes.nameError .undeclaredPrivateName span))
    ∨ ∃ i, (c.token i).kind = .punctuator .dotDotDot
        ∧ f = .error ((c.token i).misplaced (.expected "expression operand"))

/-- What the run without the class comes to, by how the one with it ends. Where the class has
collected something, the run without it fails. It need not be for a use that was collected if the
run with the class fails as well. -/
inductive Collected (c : Context) {α : Type} : EStateM.Result Failure State α →
    EStateM.Result Failure State α → Prop where
  | ok (a : α) {t t' : State} : t.Beneath t' → Collected c (.ok a t) (.ok a t')
  | error (e : SyntaxError) {t t' : State} : t.Beneath t' →
    Collected c (.error (.error e) t) (.error (.error e) t')
  | refused {a : α} {t t' : State} {uses : List (String × Span)} {f : Failure} :
    t.scopes = .collecting uses → uses ≠ [] → c.Refuses uses f →
    Collected c (.ok a t) (.error f t')
  | failed {e : SyntaxError} {t t' : State} {uses : List (String × Span)} {f : Failure} :
    t.scopes = .collecting uses → uses ≠ [] →
    (∀ e', f = .error e' → e' = e ∨ e'.Hides) →
    Collected c (.error (.error e) t) (.error f t')
  | exhausted (t : State) (r' : EStateM.Result Failure State α) :
    Collected c (.error .exhausted t) r'

/-- The parser keeps the state, other names that wait do not matter to it, and a class around its
runs collects what is refused without it. -/
structure Collects {α : Type} (p : Parser α) : Prop where
  keeps : Keeps State.Kept p
  follows : Follows p p
  collected {c : Context} {s s' : State} : c.Scoped → s.Beneath s' → Collected c (p c s) (p c s')

/-- The same inside of further classes: where classes have scopes, runs inside of one do not depend
on what is around it. -/
structure CollectsUnder (fl : Flags) {α : Type} (p : Parser α) : Prop where
  keeps : Keeps (State.KeptUnder fl) p
  follows : FollowsUnder fl p p

variable {α β : Type} {c : Context} {s s' t t' u u' : State} {w w' : List (String × Span)}
  {f : Failure}

namespace State.Beneath

theorem looked (h : Beneath s s') (n : Nat) : Beneath (s.looked n) (s'.looked n) :=
  ⟨h.position, h.inInitializer, h.scopes, h.outside⟩

theorem advanced (h : Beneath s s') : Beneath s.advanced s'.advanced :=
  ⟨congrArg (· + 1) h.position, h.inInitializer, h.scopes, h.outside⟩

theorem withInitializer (h : Beneath s s') (b : Bool) :
    Beneath { s with inInitializer := b } { s' with inInitializer := b } :=
  ⟨h.position, rfl, h.scopes, h.outside⟩

theorem restore (h : Beneath s s') (i : Nat) :
    Beneath { s with position := i } { s' with position := i } :=
  ⟨rfl, h.inInitializer, h.scopes, h.outside⟩

theorem agrees (h : Beneath s s') (hs : s'.Agrees u') : Beneath s u' :=
  ⟨hs.position.trans h.position, hs.inInitializer.trans h.inInitializer, h.scopes,
    hs.scopes.trans h.outside⟩

end State.Beneath

namespace State.Kept

/-- What a class has collected stays at the front. -/
theorem collecting (h : Kept c s t) (hs : s.scopes = .collecting w) :
    ∃ w', t.scopes = .collecting w' ∧ w <+: w' := by
  obtain ⟨uses, -, ht⟩ := h.scopes
  refine ⟨noteUses w uses, ?_, prefix_noteUses w uses⟩
  rw [ht, hs, ClassScopes.collecting_noting]

/-- Outside of classes nothing waits, so a part that was read in vain leaves nothing behind. -/
theorem agrees (h : Kept c s t) (hs : s.scopes = .outside) :
    s.Agrees { t with position := s.position } := by
  obtain ⟨uses, -, ht⟩ := h.scopes
  refine ⟨rfl, ?_, h.inInitializer⟩
  show t.scopes = s.scopes
  rw [ht, hs]
  rfl

end State.Kept

/-- A rest mark is no operand. -/
theorem Token.misplaced_hides {t : Token} (h : t.kind = .punctuator .dotDotDot) :
    (t.misplaced (.expected "expression operand")).Hides := by
  rw [Token.misplaced, h]
  exact .inr rfl

namespace Context.Refuses

theorem mono (h : c.Refuses w f) (hw : w <+: w') : c.Refuses w' f := by
  obtain h | ⟨front, span, hfront, hspan, h⟩ | h := h
  · exact .inl h
  · exact .inr (.inl ⟨front, span, hfront.trans hw, hspan, h⟩)
  · exact .inr (.inr h)

theorem hides {e : SyntaxError} (h : c.Refuses w (.error e)) : e.Hides := by
  obtain h | ⟨front, span, -, -, h⟩ | ⟨i, hi, h⟩ := h
  · cases h
  · injection h with h
    exact .inl (h ▸ rfl)
  · injection h with h
    exact h ▸ Token.misplaced_hides hi

/-- What is read instead may fail earlier, before a rest mark. -/
theorem like {e : SyntaxError} {r : EStateM.Result Failure State α} (h : c.Refuses w (.error e))
    (hr : c.FailsLike e r) : ∃ f t, r = .error f t ∧ c.Refuses w f := by
  obtain ⟨f, t, hrun, rfl | rfl | hmark⟩ := hr
  · exact ⟨_, t, hrun, .inl rfl⟩
  · exact ⟨_, t, hrun, h⟩
  · exact ⟨f, t, hrun, .inr (.inr hmark)⟩

end Context.Refuses

/-- An error like one that hides something hides something too. -/
theorem Context.FailsLike.hides {e : SyntaxError} {r : EStateM.Result Failure State α}
    (h : c.FailsLike e r) (he : e.Hides) :
    ∃ f t, r = .error f t ∧ ∀ e', f = .error e' → e'.Hides := by
  obtain ⟨f, t, hrun, rfl | rfl | ⟨i, hi, rfl⟩⟩ := h
  · exact ⟨_, t, hrun, fun e' he' => by cases he'⟩
  · refine ⟨_, t, hrun, fun e' he' => ?_⟩
    injection he' with he'
    exact he' ▸ he
  · refine ⟨_, t, hrun, fun e' he' => ?_⟩
    injection he' with he'
    exact he' ▸ Token.misplaced_hides hi

namespace Collected

/-- Where the run without the class fails because of what was collected, it does not matter how the
run with the class goes on. -/
theorem of_refuses {p : Parser α} (hp : ∀ t, Ends (p c s) t → s.Kept c t)
    (hs : s.scopes = .collecting w) (hw : w ≠ []) (hf : c.Refuses w f) (t' : State) :
    Collected c (p c s) (.error f t') := by
  have hcollects {t : State} (ht : Ends (p c s) t) :
      ∃ w', t.scopes = .collecting w' ∧ w' ≠ [] ∧ c.Refuses w' f := by
    obtain ⟨w', hscopes, hfront⟩ := (hp t ht).collecting hs
    exact ⟨w', hscopes, fun hnil => hw (List.prefix_nil.1 (hnil ▸ hfront)), hf.mono hfront⟩
  cases hrun : p c s with
  | ok a t =>
    obtain ⟨w', ht, hne, hf⟩ := hcollects (.inl ⟨a, hrun⟩)
    exact .refused ht hne hf
  | error reason t =>
    cases reason with
    | exhausted => exact .exhausted t _
    | error e =>
      obtain ⟨w', ht, hne, hf⟩ := hcollects (.inr ⟨e, hrun⟩)
      exact .failed ht hne fun e' he' => .inr (he' ▸ hf).hides

theorem bind {p : Parser α} {f : α → Parser β} (hp : Collected c (p c s) (p c s'))
    (hkeeps : ∀ a u, p c s = .ok a u → ∀ t, Ends (f a c u) t → u.Kept c t)
    (hf : ∀ a u u', u.Beneath u' → Collected c (f a c u) (f a c u')) :
    Collected c ((p >>= f) c s) ((p >>= f) c s') := by
  rw [bind_apply, bind_apply]
  generalize p c s = r at hp hkeeps
  generalize p c s' = r' at hp
  cases hp with
  | ok a ht => exact hf a _ _ ht
  | error e ht => exact .error e ht
  | refused ht hw hrefuses => exact .of_refuses (hkeeps _ _ rfl) ht hw hrefuses _
  | failed ht hw hfails => exact .failed ht hw hfails
  | exhausted t r' => exact .exhausted t _

/-- The rules for names say nothing about what is refused. -/
theorem ofNames {names : NameRules} {r r' : EStateM.Result Failure State α}
    (h : Collected { c with names := names } r r') : Collected c r r' := by
  cases h with
  | ok a ht => exact .ok a ht
  | error e ht => exact .error e ht
  | refused ht hw hrefuses => exact .refused ht hw hrefuses
  | failed ht hw hfails => exact .failed ht hw hfails
  | exhausted t r' => exact .exhausted t r'

end Collected

namespace Collects

theorem pure (a : α) : Collects (Pure.pure a : Parser α) :=
  ⟨.pure a, .pure a, fun _ hs => .ok a hs⟩

theorem exhausted : Collects (Parser.exhausted : Parser α) :=
  ⟨fun _ _ _ h => (not_ends_exhausted h).elim, .exhausted _, fun _ _ => .exhausted _ _⟩

theorem fail (e : SyntaxError) : Collects (Parser.fail e : Parser α) :=
  ⟨.fail e, .fail e, fun _ hs => .error e hs⟩

theorem bind {p : Parser α} {f : α → Parser β} (hp : Collects p) (hf : ∀ a, Collects (f a)) :
    Collects (p >>= f) where
  keeps := hp.keeps.keptBind fun a => (hf a).keeps
  follows := hp.follows.bind fun a => (hf a).follows
  collected hc hs :=
    (hp.collected hc hs).bind (fun a _ _ _ h => (hf a).keeps h) fun a _ _ hu =>
      (hf a).collected hc hu

theorem look (n : Nat) : Collects (Parser.look n) := by
  refine ⟨.look n, .look n, fun {c s s'} _ hs => ?_⟩
  rw [look_run, look_run, hs.position]
  exact .ok _ (hs.looked n)

theorem next : Collects Parser.next := by
  refine ⟨.next, .next, fun {c s s'} _ hs => ?_⟩
  rw [next_run, next_run, hs.position]
  exact .ok _ hs.advanced

theorem acceptIf? (cond : Token → Bool) : Collects (Parser.acceptIf? cond) := by
  refine ⟨.acceptIf? cond, .acceptIf? cond, fun {c s s'} _ hs => ?_⟩
  rw [acceptIf?_run, acceptIf?_run, hs.position]
  split
  · exact .ok _ hs.advanced
  · exact .ok _ (hs.looked 0)

theorem position : Collects Parser.position := by
  refine ⟨.position, .position, fun {c s s'} _ hs => ?_⟩
  rw [position_run, position_run, hs.position]
  exact .ok _ hs

theorem restore (i : Nat) : Collects (Parser.restore i) :=
  ⟨.restore i, .restore i, fun _ hs => .ok _ (hs.restore i)⟩

theorem named (n : Nat) : Collects (Parser.named n) := by
  have rules : Collects Parser.nameRules := by
    refine ⟨.nameRules, fun c c' _ _ s s' hc hs => ?_, fun _ hs => .ok _ hs⟩
    rw [nameRules_run, nameRules_run, hc.names]
    exact .ok _ hs
  exact (look n).bind fun _ => rules.bind fun _ => pure _

theorem require (kind : TokenKind) : Collects (Parser.require kind) := by
  refine next.bind fun t => ?_
  split
  · exact pure _
  · exact fail _

theorem privateName : Collects Grammar.privateName := by
  refine (require _).bind fun t => ?_
  split
  · exact (look 0).bind fun _ => fail _
  · split
    · exact pure _
    · exact fail _

theorem arrowSign : Collects Grammar.arrowSign := by
  refine (require _).bind fun arrow => ?_
  split
  · exact fail _
  · exact pure _

theorem checkArguments (t : Token) (name : String) : Collects (Parser.checkArguments t name) := by
  refine ⟨.checkArguments t name, .checkArguments t name, fun {c s s'} _ hs => ?_⟩
  simp only [Parser.checkArguments, read_bind, get_bind, ite_run, hs.inInitializer]
  split
  · exact .error _ hs
  · exact .ok _ hs

theorem checkSuper (t : Token) : Collects (Parser.checkSuper t) := by
  refine ⟨.checkSuper t, .checkSuper t, fun {c s s'} _ hs => ?_⟩
  simp only [Parser.checkSuper, read_bind, get_bind, ite_run, hs.inInitializer]
  split
  · exact .error _ hs
  · exact .ok _ hs

theorem report (entry : TraceEntry) : Collects (Parser.report entry) where
  keeps := .of_samePlace fun _ _ _ h => by
    obtain rfl := ends_ok_iff.1 h
    exact ⟨Nat.le_refl _, rfl, rfl⟩
  follows := .report entry entry
  collected _ hs := .ok _ ⟨hs.position, hs.inInitializer, hs.scopes, hs.outside⟩

/-- A use is collected with the class, and refused without it. -/
theorem usedName : Collects Grammar.usedName := by
  refine ⟨.usedName, .usedName, fun {c s s'} hc hs => ?_⟩
  refine (privateName.collected hc hs).bind (fun name u hname t h => ?_) fun name u u' hu => ?_
  · have hspells := Keeps.spells_of_privateName hname
    obtain h | ⟨_, v, huse, h⟩ := ends_bind h
    · exact Keeps.usePrivate hspells h
    · exact ends_ok_iff.1 h ▸ Keeps.usePrivate hspells (.inl ⟨_, huse⟩)
  · have hscope : u.scopes.use name.name name.span = .ok (.collecting [(name.name, name.span)]) := by
      rw [hu.scopes]
      rfl
    have hrefused : u'.scopes.use name.name name.span
        = .error (ClassScopes.nameError .undeclaredPrivateName name.span) := by
      rw [hu.outside]
      rfl
    rw [bind_apply, bind_apply, usePrivate_run, usePrivate_run, hscope, hrefused, hc.checked]
    exact .refused rfl (List.cons_ne_nil _ _)
      (.inr (.inl ⟨_, name.span, List.prefix_refl _, rfl, rfl⟩))

theorem withNames {g : NameRules → NameRules} {p : Parser α} (hp : Collects p) :
    Collects (Parser.withNames g p) where
  keeps := hp.keeps.withNames
  follows := fun _ _ _ _ _ _ hc hs => hp.follows (hc.withNames g) hs
  collected hc hs := (hp.collected (hc.withNames g) hs).ofNames

theorem spanned {p : Parser (Span → α)} (hmoves : Moves p) (hp : Collects p) :
    Collects (Parser.spanned p) where
  keeps _ _ _ h := hp.keeps (ends_spanned h)
  follows _ _ _ _ _ _ hc hs := (hp.follows hc hs).spanned hmoves hc hs
  collected {c s s'} hc hs := by
    have hrun := hp.collected hc hs
    rw [spanned_run, spanned_run, hs.position]
    generalize hfirst : p c s = r at hrun
    generalize p c s' = r' at hrun
    cases hrun with
    | @ok make t t' ht =>
      have hspan : spanSince c s.position t' = spanSince c s.position t := by
        rw [spanSince, spanSince, ht.position, if_pos (hmoves hfirst), if_pos (hmoves hfirst)]
      dsimp only
      rw [hspan]
      exact .ok _ ht
    | error e ht => exact .error e ht
    | refused ht hw hrefuses => exact .refused ht hw hrefuses
    | failed ht hw hfails => exact .failed ht hw hfails
    | exhausted t r' => exact .exhausted t _

theorem inInitializer {p : Parser α} (hp : Collects p) : Collects (Parser.inInitializer p) where
  keeps := hp.keeps.inInitializer
  follows := hp.follows.inInitializer
  collected {c s s'} hc hs := by
    have hrun := hp.collected hc (hs.withInitializer true)
    rw [inInitializer_run, inInitializer_run, hs.inInitializer]
    generalize p c { s with inInitializer := true } = r at hrun
    generalize p c { s' with inInitializer := true } = r' at hrun
    cases hrun with
    | ok a ht => exact .ok a (ht.withInitializer _)
    | error e ht => exact .error e (ht.withInitializer _)
    | @refused _ _ _ _ f ht hw hrefuses =>
      cases f with
      | exhausted => exact .refused ht hw hrefuses
      | error e => exact .refused ht hw hrefuses
    | @failed _ _ _ _ f ht hw hfails =>
      cases f with
      | exhausted => exact .failed ht hw hfails
      | error e => exact .failed ht hw hfails
    | exhausted t r' => exact .exhausted t _

theorem under {p : Parser α} (hp : Collects p) (fl : Flags) : CollectsUnder fl p :=
  ⟨fun _ _ _ h => (hp.keeps h).under fl, hp.follows.under fl⟩

end Collects

/-! ### Classes -/

/-- At the end of a class the names that it does not resolve are collected by the class around
everything; without that one the earliest of them is refused. -/
theorem Collected.endClass (hc : c.Scoped) (found : Except SyntaxError α) {first : ClassScope}
    (hnodup : (first.waiting.map Prod.fst).Nodup) (hposition : s'.position = s.position)
    (hmark : s'.inInitializer = s.inInitializer)
    (hs : s.scopes = (ClassScopes.collecting []).around [first])
    (hs' : s'.scopes = ClassScopes.outside.around [first]) :
    Collected c (Parser.endClass found c s) (Parser.endClass found c s') := by
  have hcollected : noteUses [] first.unresolved = first.unresolved :=
    noteUses_of_nodup (hnodup.sublist (List.filter_sublist.map Prod.fst))
  have hexit : s.scopes.exit = (.ok first.unresolved.length, .collecting first.unresolved) := by
    rw [hs, ClassScopes.exit_collecting, hcollected]
  have hleft : s'.scopes.exit.2 = .outside := by
    rw [hs']
    exact ClassScopes.exit_snd first []
  have hscopes : s.scopes.exit.2 = .collecting first.unresolved := by rw [hexit]
  have hcount : s.scopes.exit.1 = .ok first.unresolved.length := by rw [hexit]
  rw [endClass_run, endClass_run, exitCount, exitCount, hc.checked, if_pos rfl, if_pos rfl]
  cases found with
  | error e =>
    by_cases hnone : first.unresolved = []
    · exact .error e ⟨hposition, hmark, hscopes.trans (by rw [hnone]), hleft⟩
    · exact .failed hscopes hnone fun e' he' => .inl (by injection he' with he'; exact he'.symm)
  | ok a =>
    cases hearliest : earliest? first.unresolved with
    | none =>
      have hnone := (earliest?_eq_none_iff _).1 hearliest
      have hcount' : s'.scopes.exit.1 = .ok 0 := by
        rw [hs']
        show (ClassScopes.mk [first]).exit.1 = _
        rw [ClassScopes.exit]
        simp only [hearliest]
      rw [hcount, hcount']
      exact .ok a ⟨hposition, hmark, hscopes.trans (by rw [hnone]), hleft⟩
    | some span =>
      have hrefused : s'.scopes.exit.1
          = .error (ClassScopes.nameError .undeclaredPrivateName span) := by
        rw [hs']
        show (ClassScopes.mk [first]).exit.1 = _
        rw [ClassScopes.exit]
        simp only [hearliest]
      rw [hcount, hrefused]
      refine .refused hscopes ?_ (.inr (.inl ⟨_, span, List.prefix_refl _, hearliest, rfl⟩))
      intro hnone
      rw [hnone] at hearliest
      cases hearliest

theorem Collects.inClass {p : Parser α} (hp : ∀ fl, CollectsUnder fl p) :
    Collects (Parser.inClass p) where
  keeps := .inClass fun fl => (hp fl).keeps
  follows := .inClass fun fl => (hp fl).follows
  collected {c s s'} hc hs := by
    -- Inside of the class both runs go the same way.
    have halike : s.entered.Alike (.below (ClassScopes.bare_collecting []) ClassScopes.bare_outside
        c.checks.undeclaredNames c.checks.undeclaredNames) 1 s'.entered := by
      refine ⟨hs.position, ⟨Nat.le_refl 1, [.empty], rfl, ?_, ?_⟩, hs.inInitializer⟩
      · rw [State.entered_scopes, hs.scopes]
        rfl
      · rw [State.entered_scopes, hs.outside]
        rfl
    have hsame := (hp _).follows rfl (fun _ => Nat.one_pos) (.refl c) halike
    have hend {found : Except SyntaxError α} {u u' : State} (hu : Ends (p c s.entered) u)
        (halike : u.Alike (.below (ClassScopes.bare_collecting []) ClassScopes.bare_outside
          c.checks.undeclaredNames c.checks.undeclaredNames) 1 u') :
        Collected c (endClass found c u) (endClass found c u') := by
      obtain ⟨-, inner, hdepth, hscopes, hscopes'⟩ := halike.scopes
      obtain ⟨first, rfl⟩ := List.length_eq_one_iff.1 hdepth
      have hkept := ((hp _).keeps hu rfl).1 hc.fields
      obtain ⟨inner, hinner, hnodup, -⟩ := hkept.scopes .empty [⟨[], []⟩] (by
        rw [State.entered_scopes, hs.scopes]
        rfl)
      obtain rfl : first = inner := by
        rw [hscopes] at hinner
        injection hinner with hinner
        injection hinner
      exact .endClass hc found (hnodup .nil) halike.position halike.inInitializer hscopes hscopes'
    rw [inClass_run, inClass_run, if_pos hc.fields, if_pos hc.fields]
    generalize hrun : p c s.entered = r at hsame
    generalize p c s'.entered = r' at hsame
    cases hsame with
    | ok a hu => exact hend (.inl ⟨a, hrun⟩) hu
    | error e hu => exact hend (.inr ⟨e, hrun⟩) hu
    | exhausted t r' => exact .exhausted t _

theorem CollectsUnder.bind {fl : Flags} {p : Parser α} {f : α → Parser β} (hp : CollectsUnder fl p)
    (hf : ∀ a, CollectsUnder fl (f a)) : CollectsUnder fl (p >>= f) where
  keeps := Keeps.bind (R := State.KeptUnder fl) (fun _ _ _ _ => State.KeptUnder.trans) hp.keeps
    fun a => (hf a).keeps
  follows := hp.follows.bind fun a => (hf a).follows

/-! ### The rules -/

namespace Rules

/-- Both rules collect what is refused elsewhere. -/
structure Collecting (g : Rules) : Prop where
  stmt : Collects g.stmt
  expr {mode : ExprMode} : mode.TakesCalls → Collects (g.expr mode)

/-- Rules that are built from such rules collect too, where nothing is tried. -/
theorem Collecting.reading {n : Nat} (h : (within n).Collecting) :
    ClosedOnReading (fun _ p _ => Collects p) (fun fl _ p _ => CollectsUnder fl p) (within n)
      (within n) :=
  have hkeeps := (within_keeping n).steps (within_reading n)
  have hfollows := (within_follows (Nat.le_refl n)).steps (within_reading n)
  { reading := within_reading n
    modes := .ofTakesCalls
    expr := fun _ hmode => h.expr hmode
    stmt := h.stmt
    pure := .pure
    fail := fun _ => .fail _
    bind := .bind
    position := .position
    spanned := .spanned
    look := .look
    next := .next
    acceptIf? := .acceptIf?
    named := .named
    flags := ⟨hkeeps.flags, hfollows.flags, fun _ hs => .ok _ hs⟩
    report := fun _ => .report _
    withNames := fun _ hp => hp.withNames
    arrowSign := .arrowSign
    inInitializer := .inInitializer
    checkArguments := .checkArguments
    checkSuper := .checkSuper
    usedName := .usedName
    inClass := .inClass
    weaken := fun hp => hp.under _
    class_bind := .bind
    class_spanned := fun hmoves hp =>
      ⟨fun _ _ _ h => hp.keeps (ends_spanned h), hfollows.class_spanned hmoves hp.follows⟩
    class_flags := fun hf =>
      ⟨fun _ _ _ h hfl => (hf _ hfl).keeps h hfl,
        hfollows.class_flags fun flags hfl => (hf flags hfl).follows⟩
    declaredName := fun hclass _ => ⟨.declaredName hclass, Follows.declaredName hclass⟩
    fuel := ParserRel.OnFuel.of_le (Q := fun _ p _ => Collects p) (fun _ _ => .exhausted)
      (Nat.le_refl _)
    class_fuel := fun {fl _} r _ hzero _ hsucc =>
      ParserRel.OnFuel.of_le (Q := fun _ p _ => CollectsUnder fl p)
        (fun _ _ => Collects.exhausted.under fl) (Nat.le_refl _) (fun n (_ : Unit) => r n)
        (fun n _ => r n) (fun _ => hzero) (fun _ => hzero) (fun n m ih _ => hsucc n m (ih ())) () }

end Rules

end EcmaScript
