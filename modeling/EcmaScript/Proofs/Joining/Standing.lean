import EcmaScript.Proofs.Joining.Enclosed
import EcmaScript.Proofs.Tree.Bare

namespace EcmaScript

open EcmaScript.Parser

/-!
# What is read stands when the text goes on

What a rule reads in a text, it reads also when the text goes on behind its end. Only there the two
runs may differ: where a semicolon was inserted at the end of the first text, the second one has a
semicolon, and a statement takes it along.

* `Stands`, `StandsUpTo` — the second run gives the same, or what is related where the first run
  comes to the end;
* `SameValue`, `SamePart` — expressions are the same but for whether a semicolon was inserted, and
  statements but for places and the semicolon;
* `Rules.Standing` — statements and expressions stand;
* `Stands.functionRest`, `StandsUpTo.climb`, … — so does each rule that is built from them.
-/

/-- When two runs that have come to the end may go on: the values they give, and the states. -/
abbrev EndRel (α : Type) := Nat → α → State → α → State → Prop

/-- What the first run reads, the second one reads too, up to a relation where the first run comes
to the end. -/
def KeptUpTo {α : Type} (rel : EndRel α) (n : Nat) (r r' : EStateM.Result Failure State α) : Prop :=
  ∀ ⦃a : α⦄ ⦃t : State⦄, r = .ok a t → t.position ≤ n ∧
    (r' = .ok a t ∨ t.position = n ∧ ∃ a' t', r' = .ok a' t' ∧ rel n a t a' t')

/-- What the parser reads in the first text, it reads in the second one, up to a relation. -/
def StandsUpTo {α : Type} (rel : EndRel α) (p : Parser α) : Prop :=
  ∀ ⦃n : Nat⦄ ⦃c c' : Context⦄ ⦃s : State⦄, c.GoesOn n c' → s.position ≤ n →
    KeptUpTo rel n (p c s) (p c' s)

/-- What the parser reads in the first text, it reads in the second one. -/
def Stands {α : Type} (p : Parser α) : Prop :=
  ∀ ⦃n : Nat⦄ ⦃c c' : Context⦄ ⦃s t : State⦄ ⦃a : α⦄, c.GoesOn n c' → s.position ≤ n →
    p c s = .ok a t → t.position ≤ n ∧ p c' s = .ok a t

/-- The same value, whether a semicolon was inserted behind it or not. -/
def SameValue {α : Type} : EndRel (α × Bool) := fun _ a t a' t' => a'.1 = a.1 ∧ t' = t

/-- The same for what is made from a place. -/
def SameMaker {α : Type} : EndRel (Span → α × Bool) :=
  fun _ make t make' t' => (∀ span, (make' span).1 = (make span).1) ∧ t' = t

/-- The second run may have read the semicolon. -/
structure State.Past (n : Nat) (t t' : State) : Prop where
  position : t'.position = n ∨ t'.position = n + 1
  scopes : t'.scopes = t.scopes
  inInitializer : t'.inInitializer = t.inInitializer

/-- Parts that are related, where the second run may have read the semicolon. -/
def SamePart {α : Type} (rel : α → α → Prop) : EndRel α := fun n a t a' t' => rel a a' ∧ t.Past n t'

variable {n : Nat} {c c' : Context} {s t u : State} {α β : Type}

theorem Untouched.stands {place : Place} {x : Int} {p : Parser α} (hp : Untouched place x p)
    (hplace : ∀ ⦃n : Nat⦄ ⦃c c' : Context⦄ ⦃s t : State⦄ ⦃a : α⦄, c.GoesOn n c' → s.position ≤ n →
      p c s = .ok a t → place.Holds n c.token s.position) : Stands p := by
  intro n c c' s t a hc hs hrun
  obtain ⟨hsame, hlead⟩ := hp hc hs (hplace hc hs hrun)
  exact ⟨(hlead hrun).1, hsame.trans hrun⟩

namespace Stands

open Grammar

theorem ofAnywhere {x : Int} {p : Parser α} (hp : Untouched .anywhere x p) : Stands p :=
  hp.stands fun _ _ _ _ _ _ _ _ _ => trivial

/-- What reads something begins before the end. -/
theorem lt_of_advances {p : Parser α} {a : α} (hadvances : Advances p) (hc : c.GoesOn n c')
    (hs : s.position ≤ n) (hrun : p c s = .ok a t) : s.position < n := by
  refine Nat.lt_of_le_of_ne hs fun heq => (hadvances hrun).2 ?_
  rw [heq]
  exact hc.eof

theorem ofBeforeEnd {x : Int} {p : Parser α} (hp : Untouched .beforeEnd x p)
    (hadvances : Advances p) : Stands p :=
  hp.stands fun _ _ _ _ _ _ hc hs hrun => lt_of_advances hadvances hc hs hrun

theorem pure (a : α) : Stands (Pure.pure a : Parser α) :=
  ofAnywhere (Untouched.pure a)

theorem bind {p : Parser α} {f : α → Parser β} (hp : Stands p) (hf : ∀ a, Stands (f a)) :
    Stands (p >>= f) := by
  intro n c c' s t b hc hs hrun
  obtain ⟨a, u, hfirst, hrest⟩ := bind_ok_iff.1 hrun
  obtain ⟨hu, hfirst'⟩ := hp hc hs hfirst
  obtain ⟨ht, hrest'⟩ := hf a hc hu hrest
  exact ⟨ht, bind_ok_iff.2 ⟨a, u, hfirst', hrest'⟩⟩

theorem map (f : α → β) {p : Parser α} (hp : Stands p) : Stands (f <$> p) := by
  rw [map_eq_bind]
  exact hp.bind fun _ => pure _

theorem ite {b : Prop} [Decidable b] {p q : Parser α} (hp : b → Stands p) (hq : ¬ b → Stands q) :
    Stands (if b then p else q) := by
  by_cases h : b
  · rw [if_pos h]
    exact hp h
  · rw [if_neg h]
    exact hq h

theorem fail (e : SyntaxError) : Stands (Parser.fail e : Parser α) :=
  ofAnywhere (x := 0) (Untouched.fail e)

theorem withNames (f : NameRules → NameRules) {p : Parser α} (hp : Stands p) :
    Stands (Parser.withNames f p) :=
  fun _ _ _ _ _ _ hc hs hrun => hp (hc.withNames f) hs hrun

theorem spanned {p : Parser (Span → α)} (hmoves : Moves p) (hp : Stands p) :
    Stands (Parser.spanned p) := by
  intro n c c' s t a hc hs hrun
  obtain ⟨make, hmake, rfl⟩ := spanned_ok_iff.1 hrun
  obtain ⟨ht, hmake'⟩ := hp hc hs hmake
  refine ⟨ht, spanned_ok_iff.2 ⟨make, hmake', ?_⟩⟩
  rw [Untouched.spanSince_same hc (hmoves hmake) ht]

/-- A part that reads tokens whenever it succeeds, with its place. -/
theorem spannedOf {p : Parser (Span → α)}
    (hreads : ∀ {c : Context} {s t : State} {a : α},
      Parser.spanned p c s = .ok a t → Reads c.token s.position t.position)
    (hp : Stands p) : Stands (Parser.spanned p) :=
  spanned (Advances.of_spanned hreads).moves hp

/-- It is enough that the parser does the same before the end, if it reads something. -/
theorem before {p : Parser α} (hadvances : Advances p)
    (h : ∀ ⦃n : Nat⦄ ⦃c c' : Context⦄ ⦃s t : State⦄ ⦃a : α⦄, c.GoesOn n c' → s.position < n →
      p c s = .ok a t → t.position ≤ n ∧ p c' s = .ok a t) : Stands p :=
  fun _ _ _ _ _ _ hc hs hrun => h hc (lt_of_advances hadvances hc hs hrun) hrun

theorem require {kind : TokenKind} (hk : kind ≠ .eof) : Stands (Parser.require kind) :=
  ofBeforeEnd (Untouched.require rfl) (.require hk)

theorem drop {kind : TokenKind} (hk : kind ≠ .eof) : Stands (discard (Parser.require kind)) := by
  rw [discard_eq_bind]
  exact (require hk).bind fun _ => pure _

theorem accept {kind : TokenKind} (hk : kind.isPlain ∧ kind ≠ .punctuator .semicolon) :
    Stands (Parser.accept kind) :=
  ofAnywhere (Untouched.accept hk.1 hk.2)

end Stands

namespace StandsUpTo

open Grammar

variable {rel : EndRel α} {rel' : EndRel β}

theorem ofStands {p : Parser α} (hp : Stands p) : StandsUpTo rel p := by
  intro n c c' s hc hs a t hrun
  obtain ⟨ht, hrun'⟩ := hp hc hs hrun
  exact ⟨ht, .inl hrun'⟩

/-- What follows a part that stands. -/
theorem after {p : Parser α} {f : α → Parser β} (hp : Stands p)
    (hf : ∀ a, StandsUpTo rel' (f a)) : StandsUpTo rel' (p >>= f) := by
  intro n c c' s hc hs b t hrun
  obtain ⟨a, u, hfirst, hrest⟩ := bind_ok_iff.1 hrun
  obtain ⟨hu, hfirst'⟩ := hp hc hs hfirst
  obtain ⟨ht, hrest' | ⟨hend, b', t', hrest', hrel⟩⟩ := hf a hc hu hrest
  · exact ⟨ht, .inl (bind_ok_iff.2 ⟨a, u, hfirst', hrest'⟩)⟩
  · exact ⟨ht, .inr ⟨hend, b', t', bind_ok_iff.2 ⟨a, u, hfirst', hrest'⟩, hrel⟩⟩

/-- Two parts in a row, the first of which has run already. Where it has come to the end, the second
one has to go on from both results. -/
theorem bind_run {p : Parser α} {f : α → Parser β} (hc : c.GoesOn n c')
    (hp : KeptUpTo rel n (p c s) (p c' s)) (hf : ∀ a, StandsUpTo rel' (f a))
    (hend : ∀ ⦃a a' : α⦄ ⦃t t' : State⦄ ⦃b : β⦄ ⦃u : State⦄, t.position = n → rel n a t a' t' →
      f a c t = .ok b u → u.position = n ∧ ∃ b' u', f a' c' t' = .ok b' u' ∧ rel' n b u b' u') :
    KeptUpTo rel' n ((p >>= f) c s) ((p >>= f) c' s) := by
  intro b u hrun
  obtain ⟨a, t, hfirst, hrest⟩ := bind_ok_iff.1 hrun
  obtain ⟨ht, hfirst' | ⟨hn, a', t', hfirst', hrel⟩⟩ := hp hfirst
  · obtain ⟨hu, hrest' | ⟨hn, b', u', hrest', hrel⟩⟩ := hf a hc ht hrest
    · exact ⟨hu, .inl (bind_ok_iff.2 ⟨a, t, hfirst', hrest'⟩)⟩
    · exact ⟨hu, .inr ⟨hn, b', u', bind_ok_iff.2 ⟨a, t, hfirst', hrest'⟩, hrel⟩⟩
  · obtain ⟨hu, b', u', hrest', hrel'⟩ := hend hn hrel hrest
    exact ⟨Nat.le_of_eq hu, .inr ⟨hu, b', u', bind_ok_iff.2 ⟨a', t', hfirst', hrest'⟩, hrel'⟩⟩

theorem bind {p : Parser α} {f : α → Parser β} (hp : StandsUpTo rel p)
    (hf : ∀ a, StandsUpTo rel' (f a))
    (hend : ∀ ⦃n : Nat⦄ ⦃c c' : Context⦄ ⦃a a' : α⦄ ⦃t t' : State⦄ ⦃b : β⦄ ⦃u : State⦄,
      c.GoesOn n c' → t.position = n → rel n a t a' t' → f a c t = .ok b u →
      u.position = n ∧ ∃ b' u', f a' c' t' = .ok b' u' ∧ rel' n b u b' u') :
    StandsUpTo rel' (p >>= f) :=
  fun _ _ _ _ hc hs => bind_run hc (hp hc hs) hf fun _ _ _ _ _ _ => hend hc

theorem ite {b : Prop} [Decidable b] {p q : Parser α} (hp : b → StandsUpTo rel p)
    (hq : ¬ b → StandsUpTo rel q) : StandsUpTo rel (if b then p else q) := by
  by_cases h : b
  · rw [if_pos h]
    exact hp h
  · rw [if_neg h]
    exact hq h

theorem before {p : Parser α} (hadvances : Advances p)
    (h : ∀ ⦃n : Nat⦄ ⦃c c' : Context⦄ ⦃s : State⦄, c.GoesOn n c' → s.position < n →
      KeptUpTo rel n (p c s) (p c' s)) : StandsUpTo rel p :=
  fun _ _ _ _ hc hs _ _ hrun => h hc (Stands.lt_of_advances hadvances hc hs hrun) hrun

/-- A part with its place, which is known where the run does not come to the end. -/
theorem spanned {p : Parser (Span → α)} {rel : EndRel (Span → α)} {rel' : EndRel α}
    (hmoves : Moves p) (hp : StandsUpTo rel p)
    (hrel : ∀ ⦃n : Nat⦄ ⦃c c' : Context⦄ ⦃i : Nat⦄ ⦃make make' : Span → α⦄ ⦃t t' : State⦄,
      c.GoesOn n c' → i < t.position → t.position ≤ n → rel n make t make' t' →
      rel' n (make (spanSince c i t)) t (make' (spanSince c' i t')) t') :
    StandsUpTo rel' (Parser.spanned p) := by
  intro n c c' s hc hs a t hrun
  obtain ⟨make, hmake, rfl⟩ := spanned_ok_iff.1 hrun
  obtain ⟨ht, hmake' | ⟨hn, make', t', hmake', hmakes⟩⟩ := hp hc hs hmake
  · refine ⟨ht, .inl (spanned_ok_iff.2 ⟨make, hmake', ?_⟩)⟩
    rw [Untouched.spanSince_same hc (hmoves hmake) ht]
  · exact ⟨ht, .inr ⟨hn, _, t', spanned_ok_iff.2 ⟨make', hmake', rfl⟩,
      hrel hc (hmoves hmake) ht hmakes⟩⟩

end StandsUpTo

/-! ### Expressions of which only the value is used -/

theorem Stands.ofValue {p : Parser (α × Bool)} (hp : StandsUpTo SameValue p)
    {f : α → Parser β} (hf : ∀ e, Stands (f e)) : Stands (p >>= fun found => f found.1) := by
  intro n c c' s u b hc hs hrun
  obtain ⟨a, t, hfirst, hrest⟩ := bind_ok_iff.1 hrun
  obtain ⟨ht, hfirst' | ⟨hn, a', _, hfirst', hvalue, rfl⟩⟩ := hp hc hs hfirst
  all_goals obtain ⟨hu, hrest'⟩ := hf a.1 hc ht hrest
  · exact ⟨hu, bind_ok_iff.2 ⟨a, t, hfirst', hrest'⟩⟩
  · exact ⟨hu, bind_ok_iff.2 ⟨a', _, hfirst', by rw [hvalue]; exact hrest'⟩⟩

/-- A value that is made from another one. -/
theorem StandsUpTo.mapValue {p : Parser (α × Bool)} (hp : StandsUpTo SameValue p)
    (f : α → β) : StandsUpTo SameValue (do
      let found ← p
      return (f found.1, found.2)) := by
  refine hp.bind (fun a => .ofStands (.pure _)) ?_
  rintro n c c' a a' t t' b u _ hn ⟨hvalue, rfl⟩ hrun
  obtain ⟨rfl, rfl⟩ := pure_ok_iff.1 hrun
  exact ⟨hn, _, _, rfl, congrArg f hvalue, rfl⟩

/-- A part that is made from another one. -/
theorem StandsUpTo.mapPart {r : α → α → Prop} {r' : β → β → Prop} {p : Parser α}
    (hp : StandsUpTo (SamePart r) p) {f : α → β} (hf : ∀ a a', r a a' → r' (f a) (f a')) :
    StandsUpTo (SamePart r') (p >>= fun a => Pure.pure (f a)) := by
  refine hp.bind (fun a => .ofStands (.pure _)) ?_
  rintro n c c' a a' t t' b u _ hn ⟨hpart, hpast⟩ hrun
  obtain ⟨rfl, rfl⟩ := pure_ok_iff.1 hrun
  exact ⟨hn, _, _, rfl, hf _ _ hpart, hpast⟩

/-- The same statement but for places. -/
abbrev SameStmt : EndRel Stmt := SamePart fun s s' => s'.bare = s.bare

/-- Statements and expressions stand, if an expression does not end at the end of the text. -/
structure Rules.Standing (g : Rules) : Prop where
  enclosed : g.Enclosed
  stmt : StandsUpTo SameStmt g.stmt
  expr (mode : ExprMode) : .eof ∉ mode.stops → StandsUpTo SameValue (g.expr mode)

/-- An operand, which has to bind more tightly. -/
theorem Rules.Standing.operand {g : Rules} (hg : g.Standing) {mode : ExprMode}
    (heof : .eof ∉ mode.stops) (least : Nat) :
    StandsUpTo SameValue (g.expr { mode with least := least }) := hg.expr _ heof

namespace Stands

open Grammar

variable {g : Rules}

/-! ### Functions and classes -/

theorem whole (hg : g.Standing) {stops : List TokenKind} (heof : .eof ∉ stops) :
    Stands (g.whole stops) :=
  ofValue (hg.expr (.whole stops) heof) fun _ => pure _

theorem parameters (hg : g.Enclosed) : Stands (parameters g) :=
  ofBeforeEnd (.parameters hg) (.of_reads (parameters_reads hg.reading))

theorem blockBody (hg : g.Enclosed) : Stands (blockBody g) :=
  ofBeforeEnd (.blockBody hg) (.of_reads (blockBody_reads hg.reading))

theorem functionRest (hg : g.Enclosed) (async generator : Bool) :
    Stands (functionRest g async generator) := by
  refine withNames _ (spanned (Untouched.functionParts_moves hg.reading _ _) ?_)
  exact (parameters hg).bind fun params => (blockBody hg).bind fun _ => pure _

theorem definitionName? : Stands definitionName? := ofAnywhere .definitionName?

theorem functionExpression (hg : g.Enclosed) : Stands (functionExpression g) := by
  refine spannedOf (functionExpression_reads hg.reading) ?_
  refine (accept (by decide)).bind fun async => (drop (by decide)).bind fun _ => ?_
  refine (accept (by decide)).bind fun generator => definitionName?.bind fun name => ?_
  exact (functionRest hg _ _).bind fun _ => pure _

theorem classTail (hg : g.Standing) : Stands (classTail g) := by
  have body (parent : Option Expr) : Stands (α := Option Expr × List Member) (do
      let members ← Grammar.classBody g
      return (parent, members)) :=
    (ofBeforeEnd (.classBody hg.enclosed)
      (.of_reads (classBody_reads hg.enclosed.reading))).bind fun _ => pure _
  refine (accept (by decide)).bind fun extended => ite (fun _ => ?_) fun _ => ?_
  · exact ((whole hg (by decide)).map _).bind fun parent => body parent
  · exact (pure _).bind fun parent => body parent

/-- The scope of a class ends the same way in both texts. -/
theorem inClass {p : Parser α} (hp : Stands p) : Stands (Parser.inClass p) := by
  intro n c c' s t a hc hs hrun
  by_cases hfields : c.options.classFields = true
  · obtain ⟨u, _, hinner, -, hposition, -⟩ := inClass_ok hfields hrun
    obtain ⟨hu, hinner'⟩ := hp hc (s := s.entered) hs hinner
    refine ⟨by rw [hposition]; exact hu, ?_⟩
    rw [inClass_run, if_pos hfields, hinner] at hrun
    rw [inClass_run, hc.options, if_pos hfields, hinner']
    exact (Untouched.endClass_same hc _).trans hrun
  · rw [inClass_run, if_neg hfields] at hrun
    rw [inClass_run, hc.options, if_neg hfields]
    exact hp hc hs hrun

theorem classExpression (hg : g.Standing) : Stands (classExpression g) := by
  refine spannedOf (classExpression_reads hg.enclosed.reading) ?_
  refine (drop (by decide)).bind fun _ => inClass ?_
  exact definitionName?.bind fun name => (classTail hg).bind fun _ => pure _

/-! ### Arrows -/

theorem arrowParameters_run (hg : g.Enclosed) (hc : c.GoesOn n c') (hs : s.position < n)
    (async : Bool) :
    (arrowParameters g async c' s = arrowParameters g async c s
        ∧ ∀ ps t, arrowParameters g async c s = .ok ps t → t.position ≤ n)
      ∨ ∃ e e' t, arrowParameters g async c s = .error (.error e) t
          ∧ arrowParameters g async c' s = .error (.error e') t
          ∧ e.cause ≠ .lineTerminatorAfterArrowParameters
          ∧ e'.cause ≠ .lineTerminatorAfterArrowParameters := by
  rw [arrowParameters_eq, bind_apply, bind_apply]
  obtain ⟨hsame, hlead⟩ :=
    Untouched.withNames (·.forAsync async) (.beforeArrow hg) hc (Nat.le_of_lt hs) hs
  rw [hsame]
  cases hbefore : Parser.withNames (·.forAsync async) (beforeArrow g) c s with
  | error e t => exact .inl ⟨rfl, fun ps u h => by cases h⟩
  | ok ps t =>
    obtain ⟨ht, -⟩ := hlead hbefore
    dsimp only
    rcases Nat.lt_or_eq_of_le ht with hlt | rfl
    · obtain ⟨hsign, hlead⟩ :=
        (Untouched.arrowSign.andThen fun _ => Untouched.pure ps) hc ht hlt
      exact .inl ⟨hsign, fun ps u h => (hlead h).1⟩
    · -- Neither the end nor the semicolon is an arrow.
      have missing {c : Context} (hkind : (c.token t.position).kind ≠ arrowKind) :
          (arrowSign >>= fun _ => Pure.pure ps) c t = .error
            (.error ((c.token t.position).misplaced (.requiredToken arrowKind))) t.advanced := by
        rw [bind_apply, arrowSign, bind_apply, require_run, if_neg hkind]
      refine .inr ⟨_, _, t.advanced, missing (by rw [hc.eof]; decide),
        missing (by rw [hc.semicolon]; decide), ?_, ?_⟩
      · exact Token.misplaced_cause_ne _ (by simp) (by simp) (by simp) (by simp)
      · exact Token.misplaced_cause_ne _ (by simp) (by simp) (by simp) (by simp)

theorem arrowParameters (hg : g.Enclosed) (async : Bool) : Stands (arrowParameters g async) := by
  refine before (.of_reads (arrowParameters_reads hg.reading)) fun n c c' s t ps hc hs hrun => ?_
  obtain ⟨hsame, hlead⟩ | ⟨_, _, _, hfail, -⟩ := arrowParameters_run hg hc hs async
  · exact ⟨hlead ps t hrun, hsame.trans hrun⟩
  · rw [hfail] at hrun
    cases hrun

/-- Parameters of an arrow function that are tried are found in both texts, or in none. -/
theorem attempt_arrowParameters (hg : g.Enclosed) (hc : c.GoesOn n c') (hs : s.position < n)
    {async : Bool} {found : Except SyntaxError (List Param)}
    (hrun : Parser.attempt (Grammar.arrowParameters g async) c s = .ok found t) :
    ∃ found', Parser.attempt (Grammar.arrowParameters g async) c' s = .ok found' t
      ∧ (found' = found ∨ ∃ e e', found = .error e ∧ found' = .error e'
        ∧ e.cause ≠ .lineTerminatorAfterArrowParameters
        ∧ e'.cause ≠ .lineTerminatorAfterArrowParameters) := by
  unfold Parser.attempt at hrun ⊢
  obtain ⟨hsame, -⟩ | ⟨e, e', u, he, he', hcause, hcause'⟩ := arrowParameters_run hg hc hs async
  · rw [hsame]
    exact ⟨found, hrun, .inl rfl⟩
  · rw [he] at hrun
    cases hrun
    rw [he']
    exact ⟨_, rfl, .inr ⟨e, e', rfl, rfl, hcause, hcause'⟩⟩

/-- The next token is the same in both texts, if the parser reads something. -/
theorem peekBind {f : Token → Parser β} (hadvances : Advances (Parser.peek >>= f))
    (hf : ∀ t, Stands (f t)) : Stands (Parser.peek >>= f) := by
  refine before hadvances fun n c c' s t b hc hs hrun => ?_
  rw [peek_bind] at hrun
  rw [peek_bind, hc.token hs]
  exact hf _ hc (s := s.looked 0) (Nat.le_of_lt hs) hrun

/-- The token after the next one, if the end and the semicolon mean the same. -/
theorem lookBind {f : Token → Parser β} (hadvances : Advances (Parser.look 1 >>= f))
    (hf : ∀ t, Stands (f t))
    (hend : ∀ t t' : Token, t.kind = .eof → t'.kind = .punctuator .semicolon → f t' = f t) :
    Stands (Parser.look 1 >>= f) := by
  refine before hadvances fun n c c' s t b hc hs hrun => ?_
  rw [look_bind] at hrun
  rw [look_bind, hc.second hs hend]
  exact hf _ hc (s := s.looked 1) (Nat.le_of_lt hs) hrun

theorem arrowBody (hg : g.Standing) {stops : List TokenKind} (heof : .eof ∉ stops) :
    Stands (arrowBody g stops) := by
  refine peekBind (.of_reads (arrowBody_reads hg.enclosed.reading)) fun t =>
    ite (fun _ => ?_) fun _ => ?_
  · exact (blockBody hg.enclosed).bind fun _ => pure _
  · exact ofValue (hg.expr (.assignment stops) heof) fun _ => pure _

theorem arrowFunction (hg : g.Standing) {stops : List TokenKind} (heof : .eof ∉ stops) :
    Stands (arrowFunction g stops) := by
  have tail (async : Bool) : Stands (α := Span → Expr) (do
      let params ← Grammar.arrowParameters g async
      let body ← Parser.withNames (·.forAsync async) (Grammar.arrowBody g stops)
      return fun span => .arrow span (.mk span true async false params body)) := by
    refine (arrowParameters hg.enclosed async).bind fun params => ?_
    exact (withNames _ (arrowBody hg heof)).bind fun _ => pure _
  have hreads {c : Context} {s t : State} {e : Expr}
      (hrun : Grammar.arrowFunction g stops c s = .ok e t) :=
    arrowFunction_reads hg.enclosed.reading hrun
  refine spannedOf hreads (lookBind (.of_spanned hreads) (fun second => ?_) fun t t' ht ht' => ?_)
  · refine ite (fun _ => ?_) fun _ => ?_
    · exact (pure _).bind fun async => tail async
    · exact (accept (by decide)).bind fun async => tail async
  · rw [ht, ht']
    rfl

theorem grouping (hg : g.Enclosed) (insertion : Bool) : Stands (grouping g insertion) :=
  ofBeforeEnd (.grouping hg insertion) (.of_reads (grouping_reads hg.reading))

theorem arrowOrGrouping (hg : g.Standing) {stops : List TokenKind} (heof : .eof ∉ stops)
    (insertion : Bool) : Stands (arrowOrGrouping g stops insertion) := by
  refine before (.of_reads (arrowOrGrouping_reads hg.enclosed.reading))
    fun n c c' s t a hc hs hrun => ?_
  have hle := Nat.le_of_lt hs
  have arrow : Stands (α := Expr × Bool) (do return (← Grammar.arrowFunction g stops, false)) :=
    (arrowFunction hg heof).bind fun _ => pure _
  rw [Grammar.arrowOrGrouping, position_bind] at hrun
  rw [Grammar.arrowOrGrouping, position_bind, bind_ok_iff]
  obtain ⟨found, u, htried, hrest⟩ := bind_ok_iff.1 hrun
  have group := grouping hg.enclosed insertion hc (s := { u with position := s.position })
    (t := t) (a := a) hle
  -- Without parameters there are parentheses, unless the line ends behind the parameters.
  obtain ⟨found', htried', heq | ⟨e, e', rfl, rfl, hcause, hcause'⟩⟩ :=
    attempt_arrowParameters hg.enclosed hc hs htried
  · subst heq
    cases found' with
    | ok ps =>
      obtain ⟨ht, hrest'⟩ := arrow hc (s := { u with position := s.position }) hle hrest
      exact ⟨ht, _, u, htried', hrest'⟩
    | error e =>
      dsimp only at hrest
      rw [ite_run] at hrest
      split at hrest
      · exact (fail_ok_iff.1 hrest).elim
      next hcause =>
        obtain ⟨ht, hrest'⟩ := group hrest
        exact ⟨ht, _, u, htried', (congrFun₂ (if_neg hcause) c' _).trans hrest'⟩
  · dsimp only at hrest
    rw [if_neg hcause] at hrest
    obtain ⟨ht, hrest'⟩ := group hrest
    exact ⟨ht, _, u, htried', (congrFun₂ (if_neg hcause') c' _).trans hrest'⟩

/-! ### Operands -/

/-- What begins with `async` as a modifier, by the tokens that stand there. -/
theorem asyncOperand? (hg : g.Standing) {stops : List TokenKind} (heof : .eof ∉ stops)
    (hc : c.GoesOn n c') (hs : s.position < n) {third : Token} {found : Option Expr}
    (hrun : asyncOperand? g stops (c.token s.position) (c.token (s.position + 1)) third c s
      = .ok found t) :
    t.position ≤ n ∧ Grammar.asyncOperand? g stops (c.token s.position)
      (c.token (s.position + 1)) third c' s = .ok found t := by
  have hle := Nat.le_of_lt hs
  have arrow : Stands (α := Option Expr) (do return some (← Grammar.arrowFunction g stops)) :=
    (arrowFunction hg heof).bind fun _ => pure _
  have word : Stands (α := Option Expr) (do return some (← Grammar.functionExpression g)) :=
    (functionExpression hg.enclosed).bind fun _ => pure _
  -- The cases are those of the token behind the word, in the order in which they are asked for.
  unfold Grammar.asyncOperand? at hrun ⊢
  rw [ite_run] at hrun ⊢
  by_cases hword : (c.token s.position).kind ≠ .keyword .kAsync
      || (c.token (s.position + 1)).newlineBefore
  · rw [if_pos hword] at hrun ⊢
    exact pure _ hc hle hrun
  rw [if_neg hword, ite_run] at hrun ⊢
  by_cases hopen : (c.token (s.position + 1)).kind = .punctuator .parenthesisOpen
  · have hnext : s.advanced.position < n := by
      refine Nat.lt_of_le_of_ne (Nat.succ_le_of_lt hs) fun hend => ?_
      have := hc.eof
      rw [← hend, State.advanced_position, hopen] at this
      cases this
    rw [if_pos hopen, position_bind, discard_bind, next_bind] at hrun ⊢
    obtain ⟨held, u, htried, hrest⟩ := bind_ok_iff.1 hrun
    obtain ⟨held', htried', heq | ⟨e, e', rfl, rfl, -, -⟩⟩ :=
      attempt_arrowParameters hg.enclosed hc hnext htried
    · subst heq
      rw [restore_bind] at hrest
      cases held' with
      | ok ps =>
        obtain ⟨ht, hrest'⟩ := arrow hc (s := { u with position := s.position }) hle hrest
        exact ⟨ht, bind_ok_iff.2 ⟨_, u, htried', hrest'⟩⟩
      | error e =>
        obtain ⟨rfl, rfl⟩ := pure_ok_iff.1 hrest
        exact ⟨hle, bind_ok_iff.2 ⟨_, u, htried', rfl⟩⟩
    · -- There are no parameters in either text, and the position goes back.
      rw [restore_bind] at hrest
      obtain ⟨rfl, rfl⟩ := pure_ok_iff.1 hrest
      exact ⟨hle, bind_ok_iff.2 ⟨_, u, htried', rfl⟩⟩
  rw [if_neg hopen, ite_run] at hrun ⊢
  by_cases hfunction : (c.token (s.position + 1)).kind = .keyword .kFunction
  · rw [if_pos hfunction] at hrun ⊢
    exact word hc hle hrun
  · rw [if_neg hfunction, nameRules_bind] at hrun ⊢
    rw [hc.names]
    exact ite (fun _ => arrow) (fun _ => pure _) hc hle hrun

theorem variableUse : Stands variableUse :=
  ofBeforeEnd .variableUse (.of_reads variableUse_reads)

theorem atom (hg : g.Standing) {mode : ExprMode} (heof : .eof ∉ mode.stops) (first : Token) :
    Stands (atom g mode first) := by
  have one {p : Parser Expr} (hp : Stands p) : Stands (do return (← p, false)) :=
    hp.bind fun _ => pure _
  unfold Grammar.atom
  split
  · exact one (ofBeforeEnd (.arrayLiteral hg.enclosed)
      (.of_reads (arrayLiteral_reads hg.enclosed.reading)))
  · exact one (ofBeforeEnd (.objectLiteral hg.enclosed)
      (.of_reads (objectLiteral_reads hg.enclosed.reading)))
  · exact one (classExpression hg)
  · exact one (functionExpression hg.enclosed)
  · refine (ofAnywhere (.checkSuper first)).bind fun _ => one ?_
    exact ofBeforeEnd .superReference (.of_reads superReference_reads)
  · exact one (ofBeforeEnd .thisReference (.of_reads thisReference_reads))
  · exact one (ofBeforeEnd .boolLiteral (.of_reads boolLiteral_reads))
  · exact one (ofBeforeEnd .boolLiteral (.of_reads boolLiteral_reads))
  · exact one (ofBeforeEnd .nullLiteral (.of_reads nullLiteral_reads))
  · exact one (ofBeforeEnd .numberLiteral (.of_reads numberLiteral_reads))
  · exact one (ofBeforeEnd .stringLiteral (.of_reads stringLiteral_reads))
  · exact arrowOrGrouping hg heof _
  · exact fail _

theorem privateName : Stands privateName := by
  refine (require (by decide)).bind fun t => ite (fun _ => ?_) fun _ => ?_
  · intro n c c' s u a hc hs hrun
    rw [peek_bind] at hrun
    exact (fail_ok_iff.1 hrun).elim
  · split
    · exact pure _
    · exact fail _

theorem memberAccess (object : Expr) : Stands (memberAccess object) := by
  have word (t : Token) : Stands (α := Expr) (do
      let name ← Grammar.identifierText t
      Parser.checkArguments t name
      return .member (object.span ∪ t.span) object name) :=
    (ofAnywhere (.identifierText t)).bind fun name =>
      (ofAnywhere (.checkArguments t name)).bind fun _ => pure _
  refine before (.of_reads memberAccess_reads) fun n c c' s t e hc hs hrun => ?_
  rw [Grammar.memberAccess, peek_bind] at hrun ⊢
  rw [hc.token hs]
  obtain ⟨p, hp, hrun⟩ := exists_run hrun
  rw [hp]
  split at hp
  · subst hp
    exact (privateName.bind fun name => (ofAnywhere (.usePrivate name)).bind fun _ => pure _) hc
      (s := s.looked 0) (Nat.le_of_lt hs) hrun
  · subst hp
    exact word _ hc (s := (s.looked 0).advanced) (Nat.succ_le_of_lt hs) hrun
  · subst hp
    exact word _ hc (s := (s.looked 0).advanced) (Nat.succ_le_of_lt hs) hrun
  · subst hp
    exact (fail_ok_iff.1 hrun).elim

end Stands

namespace StandsUpTo

open Grammar

variable {g : Rules} {mode : ExprMode}

/-! ### Operators before an operand -/

/-- What is done with the operand of an operator. -/
theorem unaryEnd {argument : Parser (Expr × Bool)} (hargument : StandsUpTo SameValue argument)
    (token : Token) (op : Operator) : StandsUpTo (α := Span → Expr × Bool) SameMaker (do
      let found ← argument
      if op = .delete then Grammar.checkDelete token found.1
      return fun span => (.unary span op found.1, found.2)) := by
  have check (e : Expr) : Stands (checkDelete token e) := .ofAnywhere (.checkDelete token e)
  refine hargument.bind (fun found => .ofStands ?_) ?_
  · exact .ite (fun _ => (check found.1).bind fun _ => .pure _) fun _ => .pure _
  rintro n c c' ⟨e, b⟩ ⟨e', b'⟩ t t' make u hc hn ⟨hvalue, rfl⟩ hrun
  obtain rfl : e' = e := hvalue
  by_cases hdelete : op = .delete
  · rw [if_pos hdelete] at hrun
    obtain ⟨_, v, hcheck, hrun⟩ := bind_ok_iff.1 hrun
    obtain ⟨rfl, rfl⟩ := pure_ok_iff.1 hrun
    obtain ⟨-, hcheck'⟩ := check e' hc (Nat.le_of_eq hn) hcheck
    refine ⟨(checkDelete_ok hcheck).1 ▸ hn, fun span => (.unary span op e', b'), v, ?_,
      fun _ => rfl, rfl⟩
    rw [if_pos hdelete]
    exact bind_ok_iff.2 ⟨_, v, hcheck', rfl⟩
  · rw [if_neg hdelete] at hrun
    obtain ⟨rfl, rfl⟩ := pure_ok_iff.1 hrun
    refine ⟨hn, fun span => (.unary span op e', b'), _, ?_, fun _ => rfl, rfl⟩
    rw [if_neg hdelete]
    rfl

/-- What stands behind an operator: `yield` has no operand at the end of the text, and none before
the semicolon. -/
theorem openUnary (hg : g.Standing) (heof : .eof ∉ mode.stops) (token : Token) (op : Operator) :
    StandsUpTo SameMaker (openUnary g mode token op) := by
  have argument {b : Prop} [Decidable b] : StandsUpTo SameValue (if b then
      Pure.pure (missingOperand token, false)
      else g.expr { mode with least := op.operandPrecedence }) :=
    .ite (fun _ => .ofStands (.pure _)) fun _ => hg.operand heof _
  intro n c c' s hc hs make t hrun
  unfold Grammar.openUnary at hrun ⊢
  rw [peek_bind] at hrun ⊢
  rcases Nat.lt_or_eq_of_le hs with hlt | rfl
  · rw [hc.token hlt]
    exact unaryEnd argument token op hc (s := s.looked 0) hs hrun
  -- At the end both texts have a token before which `yield` has no operand.
  have ends {following : Token} (hkind : following.kind = .eof ∨
      following.kind = .punctuator .semicolon) : endsYield mode.stops following = true := by
    unfold endsYield
    rcases hkind with hkind | hkind <;> rw [hkind] <;> simp
  unfold unaryArgument at hrun ⊢
  rw [ends (.inl hc.eof)] at hrun
  rw [ends (.inr hc.semicolon)]
  exact unaryEnd argument token op hc (s := s.looked 0) hs hrun

theorem unary (hg : g.Standing) (heof : .eof ∉ mode.stops) (leading : Operator)
    (hc : c.GoesOn n c') (hs : s.position < n) :
    KeptUpTo SameValue n (unary g mode leading c s) (unary g mode leading c' s) := by
  have hoperator : Stands (unaryOperator leading) :=
    .ite (fun _ => (Stands.accept (by decide)).bind fun _ => .pure _) fun _ => .pure _
  rw [unary_spanned]
  intro a t hrun
  obtain ⟨make, hmake, rfl⟩ := spanned_ok_iff.1 hrun
  have hlt := unary_moves hg.enclosed.reading mode leading hmake
  obtain ⟨ht, hmake' | ⟨hn, make', _, hmake', hmakes, rfl⟩⟩ :=
    (after hoperator fun op => openUnary hg heof (c.token s.position) op) hc (s := s.advanced)
      (Nat.succ_le_of_lt hs) hmake
  all_goals rw [← hc.token hs] at hmake'
  · refine ⟨ht, .inl (spanned_ok_iff.2 ⟨make, hmake', ?_⟩)⟩
    rw [Untouched.spanSince_same hc hlt ht]
  · refine ⟨ht, .inr ⟨hn, _, _, spanned_ok_iff.2 ⟨make', hmake', rfl⟩, ?_, rfl⟩⟩
    rw [Untouched.spanSince_same hc hlt ht, hmakes]

/-! ### Operands -/

theorem operand (hg : g.Standing) (heof : .eof ∉ mode.stops) :
    StandsUpTo SameValue (operand g mode) := by
  refine before (.of_reads (operand_reads hg.enclosed.reading)) fun n c c' s hc hs => ?_
  rw [operand_run, operand_run, hc.names, Untouched.operandFrom_tokens hc hs]
  unfold operandFrom
  cases leadingOperator? c.names (c.token s.position).kind with
  | some op => exact unary hg heof op hc (s := ((s.looked 0).looked 1).looked 2) hs
  | none =>
    intro a t hrun
    obtain ⟨found, u, hfound, hrest⟩ := bind_ok_iff.1 hrun
    obtain ⟨hu, hfound'⟩ :=
      Stands.asyncOperand? hg heof hc (s := ((s.looked 0).looked 1).looked 2) hs hfound
    cases found with
    | some e =>
      obtain ⟨ht, hrest'⟩ := Stands.pure (e, false) hc hu hrest
      exact ⟨ht, .inl (bind_ok_iff.2 ⟨some e, u, hfound', hrest'⟩)⟩
    | none =>
      have rest : Stands (α := Expr × Bool)
          (if c.names.allows (c.token s.position).kind then
            if (c.token (s.position + 1)).kind = arrowKind then
              return (← Grammar.arrowFunction g mode.stops, false)
            else return (← Grammar.variableUse, false)
          else Grammar.atom g mode (c.token s.position)) := by
        refine .ite (fun _ => .ite (fun _ => ?_) fun _ => ?_) fun _ => .atom hg heof _
        · exact (Stands.arrowFunction hg heof).bind fun _ => .pure _
        · exact Stands.variableUse.bind fun _ => .pure _
      obtain ⟨ht, hrest'⟩ := rest hc hu hrest
      exact ⟨ht, .inl (bind_ok_iff.2 ⟨none, u, hfound', hrest'⟩)⟩

/-! ### Operators behind an operand -/

/-- Behind an opening bracket a parser is inside of brackets. -/
theorem opened {p : Parser α} (hp : Untouched .inside (-1) p) (hc : c.GoesOn n c')
    (hs : s.position < n) (hopen : (c.token s.position).kind.weight = 1) :
    (discard Parser.next >>= fun _ => p) c' s = (discard Parser.next >>= fun _ => p) c s
      ∧ Leads n c s 0 ((discard Parser.next >>= fun _ => p) c s) := by
  obtain ⟨hsame, hlead⟩ := hp hc (s := s.advanced) (Nat.succ_le_of_lt hs)
    (hc.inside (Nat.le_of_lt hs) hopen)
  have hdepth : depth c.token s.advanced.position = depth c.token s.position + 1 := by
    rw [State.advanced_position, depth, hopen]
  exact ⟨hsame, hlead.shifted hdepth rfl⟩

theorem ofUntouched {r r' : EStateM.Result Failure State α} {x : Int} {rel : EndRel α}
    (h : r' = r ∧ Leads n c s x r) : KeptUpTo rel n r r' :=
  fun _ _ hrun => ⟨(h.2 hrun).1, .inl (h.1.trans hrun)⟩

/-- What an operator adds, which stands before the end. -/
theorem following (hg : g.Standing) (heof : .eof ∉ mode.stops) (hc : c.GoesOn n c')
    (hs : s.position ≤ n) {op : Operator}
    (hop : Operator.following? (c.token s.position).kind = some op) (left : Expr) :
    KeptUpTo SameValue n (following g mode op left c s) (following g mode op left c' s) := by
  have hlt : s.position < n := by
    refine Nat.lt_of_le_of_ne hs fun heq => ?_
    rw [heq, hc.eof] at hop
    cases hop
  have hle : s.advanced.position ≤ n := Nat.succ_le_of_lt hlt
  -- A call and a computed member end with a bracket; what else follows may end with the text.
  obtain ⟨rfl, hkind⟩ | ⟨rfl, hkind⟩ | ⟨hcall, hcomputed, hplain⟩ := following?_kind hop
  · rw [following_call]
    obtain ⟨hsame, hlead⟩ := opened ((Untouched.callArguments hg.enclosed).andThen fun as =>
      Untouched.pure fun span => (Expr.call (left.span ∪ span) left as, false)) hc hlt (hkind ▸ rfl)
    exact ofUntouched (Untouched.spanned_same hc (call_moves hg.enclosed.reading _) hsame hlead)
  · rw [Grammar.following, position_bind, position_bind]
    have bracket : Untouched .beforeEnd (-1) (Parser.require (.punctuator .bracketClose)) :=
      Untouched.require rfl
    exact ofUntouched (opened ((Untouched.whole hg.enclosed _).bind fun member =>
      (Untouched.ofBeforeEnd bracket).andThen fun _ => Untouched.pure _) hc hlt (hkind ▸ rfl))
  · have hcontinuation : StandsUpTo SameValue (continuation g mode s.position op left) := by
      unfold Grammar.continuation
      split
      · exact absurd rfl hcall
      · exact absurd rfl hcomputed
      · refine after (.whole hg (by decide)) fun consequent => after (.drop (by decide)) fun _ => ?_
        exact mapValue (hg.operand heof _) fun e =>
          Expr.conditional (left.span ∪ e.span) left consequent e
      · exact ofStands ((Stands.memberAccess left).bind fun _ => .pure _)
      · have right : StandsUpTo SameValue (α := Expr × Bool) (do
            let found ← g.expr { mode with least := op.operandPrecedence }
            return (.binary (left.span ∪ found.1.span) op left found.1, found.2)) :=
          mapValue (hg.operand heof _) fun e =>
            Expr.binary (left.span ∪ e.span) op left e
        refine ite (fun _ => ?_) fun _ => right
        exact after (.ofAnywhere (.checkAssignable left)) fun _ => right
    exact hcontinuation hc (s := s.advanced) hle

/-- At the end of the text an expression ends where a semicolon may be inserted, and then it ends
before the semicolon too. -/
theorem climb_atEnd (heof : .eof ∉ mode.stops) (hc : c.GoesOn n c') (hs : s.position = n)
    {left : Expr} {inserted : Bool} {fuel : Nat} {a : Expr × Bool}
    (hrun : climb g mode left inserted fuel c s = .ok a t) (inserted' : Bool) :
    t.position = n
      ∧ ∃ a' t', climb g mode left inserted' fuel c' s = .ok a' t' ∧ SameValue n a t a' t' := by
  cases fuel with
  | zero => cases hrun
  | succ fuel =>
    rw [climb_peek, peek_bind] at hrun ⊢
    subst hs
    have hupdate {t : Token} (ht : t.kind = .eof ∨ t.kind = .punctuator .semicolon) :
        Operator.update? t.kind = none ∧ Operator.following? t.kind = none := by
      rcases ht with h | h <;> rw [h] <;> decide
    have hinsertion : allowsInsertion (c'.token s.position) = true := by
      simp [allowsInsertion, hc.newlineBefore]
    obtain ⟨hnone, hnone'⟩ := hupdate (.inl hc.eof)
    rw [if_neg (by simpa [hc.eof] using heof), hnone, hnone'] at hrun
    dsimp only [Option.filter] at hrun
    obtain ⟨hnone, hnone'⟩ := hupdate (.inr hc.semicolon)
    rw [hnone, hnone', hinsertion]
    rw [ite_run] at hrun ⊢
    split at hrun
    next hallows =>
      obtain ⟨rfl, rfl⟩ := pure_ok_iff.1 hrun
      refine ⟨rfl, ?_⟩
      split
      · exact ⟨_, _, rfl, rfl, rfl⟩
      · dsimp only [Option.filter]
        rw [if_pos (by simp_all)]
        exact ⟨_, _, rfl, rfl, rfl⟩
    next =>
      rw [discard_bind, next_bind] at hrun
      exact (fail_ok_iff.1 hrun).elim

/-- What follows an operand: one operator after another, as long as there are any. -/
theorem climb (hg : g.Standing) (heof : .eof ∉ mode.stops) (left : Expr) (inserted : Bool)
    (fuel : Nat) : StandsUpTo SameValue (climb g mode left inserted fuel) := by
  induction fuel generalizing left inserted with
  | zero => exact fun _ _ _ _ _ _ _ _ hrun => by cases hrun
  | succ fuel ih =>
    intro n c c' s hc hs
    rcases Nat.lt_or_eq_of_le hs with hlt | heq
    · have stop (a : Expr × Bool) :
          KeptUpTo SameValue n (.ok a (s.looked 0)) (.ok a (s.looked 0)) :=
        ofStands (.pure a) hc (s := s.looked 0) hs
      rw [climb_peek, peek_bind, peek_bind, hc.token hlt, ite_run, ite_run]
      split
      · exact stop _
      cases (Operator.update? (c.token s.position).kind).filter
          fun _ => !(c.token s.position).newlineBefore with
      | some op =>
        dsimp only
        rw [ite_run, ite_run]
        split
        · exact stop _
        · exact ih _ _ hc (s := (s.looked 0).advanced) (Nat.succ_le_of_lt hlt)
      | none =>
        dsimp only
        cases hop : Operator.following? (c.token s.position).kind with
        | some op =>
          dsimp only
          rw [ite_run, ite_run]
          split
          · exact stop _
          -- The operand behind the operator may come to the end, and then the loop is there too.
          refine bind_run hc (following hg heof hc (s := s.looked 0) hs hop left)
            (fun found => ih _ _) ?_
          rintro a a' t t' b u hn ⟨hvalue, rfl⟩ hrun
          rw [hvalue]
          exact climb_atEnd heof hc hn hrun _
        | none =>
          dsimp only
          rw [ite_run, ite_run]
          split
          · exact stop _
          · exact fun b t hrun => by cases hrun
    · -- Nothing is left of the first text.
      intro a t hrun
      obtain ⟨ht, hrun'⟩ := climb_atEnd heof hc heq hrun inserted
      exact ⟨Nat.le_of_eq ht, .inr ⟨ht, hrun'⟩⟩

theorem expression (hg : g.Standing) (heof : .eof ∉ mode.stops) :
    StandsUpTo SameValue (expression g mode) := by
  refine (operand hg heof).bind (fun first => climb hg heof _ _ _) ?_
  rintro n c c' a a' t t' b u hc hn ⟨hvalue, rfl⟩ hrun
  dsimp only
  rw [hvalue]
  exact climb_atEnd heof hc hn hrun a'.2

end StandsUpTo

end EcmaScript
