import EcmaScript.Proofs.Grammar.Reading

namespace EcmaScript

open EcmaScript.Parser

/-!
# Relations between parsers

Two runs of the grammar are compared rule by rule. A relation between parsers that is closed under
the ways in which rules are put together relates each rule to itself, over any two pairs of
recursive rules that it relates.

* `ParserRel` — a relation between parsers, for every type of result;
* `Flags` — all that the rules ask of the options;
* `NameRules.Uniform` — a change of the rules for names that keeps alike what was alike;
* `Parser.named` — a look at a token that asks whether it may be a name;
* `Advances`, `Moves` — a parser that reads a token whenever it succeeds, be it the end of the text;
* `ExprMode.TakesCalls` — what all expressions of a script are read with: calls bind tightly enough;
* `ExprMode.Family` — the modes for which expressions are related: those of a script, or all;
* `ClosedOnTokens` — closed under sequences, and holds of the parsers that read tokens;
* `ClosedOnLists` — holds moreover of expressions and of lists with commas;
* `Closed` — holds moreover of statements, of initializers and of classes;
* `ClosedOnMembers` — holds moreover of members of objects and of classes;
* `ClosedOnStatements` — holds moreover of declarators, and of expressions in front;
* `Closed.blockBody`, `ClosedOnMembers.classTail`, `ClosedOnStatements.statement`, … — it relates
  each rule to itself then.

Every relation comes in three forms: `Q` for the rules in general; a stronger `P` for rules from
their first token on, so that it is enough to know `Q` of what stands behind that token; and a
weaker `K` for the rules that read the inside of a class. Names are declared there, but only where
the options allow it, so that `K` knows what they are.
-/

/-- What the rules ask of the options. -/
structure Flags where
  /-- Whether classes may have fields where the edition has them. -/
  classFields : Bool
  /-- Whether the edition has fields. -/
  fields : Bool
  /-- Whether the edition has async members. -/
  asyncMembers : Bool

/-- What the rules ask of these options. -/
def Options.flags (o : Options) : Flags := ⟨o.classFields, o.supportsFields, o.supportsAsyncMembers⟩

/-- A relation between parsers with one type of result. -/
abbrev ParserRel := ∀ ⦃α : Type⦄, Parser α → Parser α → Prop

/-! ### Rules for names -/

/-- Kinds of which two sets of rules allow the same are such kinds after the change, too. -/
def NameRules.Uniform (f : NameRules → NameRules) : Prop :=
  ∀ ⦃rules rules' : NameRules⦄ ⦃kind : TokenKind⦄, rules.allows kind = rules'.allows kind →
    (f rules).allows kind = (f rules').allows kind

namespace NameRules

theorem uniform_const (rules : NameRules) : Uniform fun _ => rules := fun _ _ _ _ => rfl

/-- What a set of rules allows of the two words that it is about, and of all others. -/
theorem allows_eq (rules : NameRules) (kind : TokenKind) :
    rules.allows kind = if kind = .keyword .kAwait then rules.awaitAllowed
      else if kind = .keyword .kYield then rules.yieldAllowed else script.allows kind := by
  cases kind with
  | keyword k => cases k <;> rfl
  | _ => rfl

theorem uniform_forAsync (async : Bool) : Uniform (·.forAsync async) := by
  intro rules rules' kind h
  rw [allows_eq, allows_eq rules'] at h
  rw [allows_eq, allows_eq (rules'.forAsync async)]
  split
  next hkind =>
    rw [if_pos hkind, if_pos hkind] at h
    exact congrArg (!async && ·) h
  next hkind =>
    rw [if_neg hkind, if_neg hkind] at h
    exact h

theorem uniform_forGenerator (generator : Bool) : Uniform (·.forGenerator generator) := by
  intro rules rules' kind h
  rw [allows_eq, allows_eq rules'] at h
  rw [allows_eq, allows_eq (rules'.forGenerator generator)]
  split
  next hkind =>
    rw [if_pos hkind, if_pos hkind] at h
    exact h
  next hkind =>
    rw [if_neg hkind, if_neg hkind] at h
    split
    next hyield =>
      rw [if_pos hyield, if_pos hyield] at h
      exact congrArg (!generator && ·) h
    next => rfl

theorem uniform_forFunction (async generator : Bool) :
    Uniform fun rules => (rules.forAsync async).forGenerator generator :=
  fun _ _ _ h => uniform_forGenerator generator (uniform_forAsync async h)

end NameRules

/-- The token `n` places on, and whether it may name a variable. This is all that the grammar ever
asks of the rules for names. -/
def Parser.named (n : Nat) : Parser (Token × Bool) := do
  let t ← look n
  let rules ← nameRules
  return (t, rules.allows t.kind)

theorem Parser.named_bind (n : Nat) {β : Type} (f : Token × Bool → Parser β) (c : Context)
    (s : State) : (named n >>= f) c s
      = f (c.token (s.position + n), c.names.allows (c.token (s.position + n)).kind) c
        (s.looked n) := rfl

theorem ParserRel.ite {Q : ParserRel} {α : Type} (b : Prop) [Decidable b] {p p' q q' : Parser α}
    (hp : Q p p') (hq : Q q q') : Q (if b then p else q) (if b then p' else q') := by
  by_cases hb : b
  · rw [if_pos hb, if_pos hb]
    exact hp
  · rw [if_neg hb, if_neg hb]
    exact hq

/-- The parser has read something when it succeeds. -/
def Advances {α : Type} (p : Parser α) : Prop :=
  ∀ ⦃c : Context⦄ ⦃s t : State⦄ ⦃a : α⦄, p c s = .ok a t →
    s.position < t.position ∧ (c.token s.position).kind ≠ .eof

/-- The parser has moved on when it succeeds. -/
def Moves {α : Type} (p : Parser α) : Prop :=
  ∀ ⦃c : Context⦄ ⦃s t : State⦄ ⦃a : α⦄, p c s = .ok a t → s.position < t.position

namespace Advances

variable {α β : Type}

theorem moves {p : Parser α} (h : Advances p) : Moves p := fun _ _ _ _ hrun => (h hrun).1

theorem of_reads {p : Parser α} (h : ∀ {c : Context} {s t : State} {a : α},
    p c s = .ok a t → Reads c.token s.position t.position) : Advances p :=
  fun _ _ _ _ hrun => ⟨(h hrun).lt, (h hrun).kind_ne_eof⟩

/-- What stands inside of a span. -/
theorem of_spanned {p : Parser (Span → α)} (h : ∀ {c : Context} {s t : State} {a : α},
    spanned p c s = .ok a t → Reads c.token s.position t.position) : Advances p :=
  of_reads fun hrun => h (spanned_ok_iff.2 ⟨_, hrun, rfl⟩)

theorem require {kind : TokenKind} (hk : kind ≠ .eof) : Advances (require kind) := by
  intro c s t a h
  obtain ⟨rfl, -, rfl⟩ := require_ok_iff.1 h
  exact ⟨Nat.lt_succ_self _, hk⟩

end Advances

namespace ExprMode

/-- A call behind a name belongs to the expression. -/
def TakesCalls (m : ExprMode) : Prop :=
  .punctuator .parenthesisOpen ∉ m.stops ∧ m.least ≤ Operator.call.precedence

instance (m : ExprMode) : Decidable m.TakesCalls :=
  inferInstanceAs (Decidable (_ ∧ _))

theorem whole_takesCalls {stops : List TokenKind} (h : .punctuator .parenthesisOpen ∉ stops) :
    (whole stops).TakesCalls :=
  ⟨h, show Operator.comma.precedence ≤ Operator.call.precedence by decide⟩

theorem assignment_takesCalls {stops : List TokenKind} (h : .punctuator .parenthesisOpen ∉ stops) :
    (assignment stops).TakesCalls :=
  ⟨h, show Operator.assignment.precedence ≤ Operator.call.precedence by decide⟩

/-- Modes that the rules do not lead out of. -/
structure Family (M : ExprMode → Prop) : Prop where
  takesCalls {mode : ExprMode} : mode.TakesCalls → M mode
  operand {mode : ExprMode} {least : Nat} : M mode → least ≤ Operator.call.precedence →
    M { mode with least := least }
  arrowBody {mode : ExprMode} : M mode → M (assignment mode.stops)

theorem Family.ofTakesCalls : Family TakesCalls where
  takesCalls := id
  operand hmode hleast := ⟨hmode.1, hleast⟩
  arrowBody hmode := assignment_takesCalls hmode.1

theorem Family.all : Family fun _ => True where
  takesCalls _ := trivial
  operand _ _ := trivial
  arrowBody _ := trivial

end ExprMode

/-- Only members and calls bind more tightly than calls. -/
theorem Operator.operandPrecedence_le {op : Operator} (hcall : op ≠ .call)
    (hmember : op ≠ .memberAccess) (hcomputed : op ≠ .computedMemberAccess) :
    op.operandPrecedence ≤ call.precedence := by
  cases op
  case call => exact absurd rfl hcall
  case memberAccess => exact absurd rfl hmember
  case computedMemberAccess => exact absurd rfl hcomputed
  all_goals decide

/-- A parenthesis begins a call in every expression. -/
theorem Grammar.climb_call {g : Rules} {c : Context} {s : State} {mode : ExprMode}
    (hmode : mode.TakesCalls) (left : Expr) (inserted : Bool) (n : Nat)
    (hopen : (c.token s.position).kind = .punctuator .parenthesisOpen) :
    climb g mode left inserted (n + 1) c s =
      (continuation g mode s.position .call left >>= fun found =>
        climb g mode found.1 (inserted || found.2) n) c s.advanced :=
  climb_following n (by rw [hopen]; rfl) (by rw [hopen]; exact hmode.1) hmode.2

/-- The cause of an error at a token is the one that was reported, unless the token is none. -/
theorem Token.misplaced_cause_ne {cause other : SyntaxError.Cause} (t : Token) (h : cause ≠ other)
    (hend : other ≠ .unexpectedEnd) (hcharacter : other ≠ .unexpectedCharacter)
    (hstring : other ≠ .lineTerminatorInString) : (t.misplaced cause).cause ≠ other := by
  unfold misplaced
  split
  · exact hend.symm
  · split
    · exact hstring.symm
    · exact hstring.symm
    · exact hcharacter.symm
  · exact h

/-! ### Tokens -/

open Grammar in
/-- Closed under sequences, and holds of the parsers that read tokens. Of the errors it need not
hold of the one for an arrow behind a line break. -/
structure ClosedOnTokens (Q : ParserRel) : Prop where
  pure {α : Type} (a : α) : Q (pure a) (pure a)
  fail {α : Type} {e : SyntaxError} : e.cause ≠ .lineTerminatorAfterArrowParameters →
    Q (fail e : Parser α) (fail e)
  bind {α β : Type} {p p' : Parser α} {f f' : α → Parser β} :
    Q p p' → (∀ a, Q (f a) (f' a)) → Q (p >>= f) (p' >>= f')
  look (n : Nat) : Q (look n) (look n)
  accept {kind : TokenKind} : kind ≠ arrowKind → Q (accept kind) (accept kind)
  require {kind : TokenKind} : kind ≠ arrowKind → Q (require kind) (require kind)
  named (n : Nat) : Q (named n) (named n)
  spanned {α : Type} {p p' : Parser (Span → α)} : Advances p → Q p p' → Q (spanned p) (spanned p')
  withNames {α : Type} {f : NameRules → NameRules} {p p' : Parser α} : NameRules.Uniform f →
    Q p p' → Q (withNames f p) (withNames f p')
  variableName : Q variableName variableName
  definitionName? : Q definitionName? definitionName?
  boolLiteral : Q boolLiteral boolLiteral
  declarationKind : Q declarationKind declarationKind
  directKey : Q directKey directKey
  checkSuper (t : Token) : Q (checkSuper t) (checkSuper t)

namespace ClosedOnTokens

open EcmaScript.Grammar

variable {Q : ParserRel} {α β : Type}

theorem discard (h : ClosedOnTokens Q) {p p' : Parser α} (hp : Q p p') :
    Q (discard p) (discard p') := by
  rw [discard_eq_bind, discard_eq_bind]
  exact h.bind hp fun _ => h.pure _

theorem map (h : ClosedOnTokens Q) (f : α → β) {p p' : Parser α} (hp : Q p p') :
    Q (f <$> p) (f <$> p') := by
  rw [map_eq_bind, map_eq_bind]
  exact h.bind hp fun _ => h.pure _

/-- A token by itself, which is dropped. -/
theorem drop (h : ClosedOnTokens Q) {kind : TokenKind} (hk : kind ≠ arrowKind) :
    Q (Functor.discard (Parser.require kind)) (Functor.discard (Parser.require kind)) :=
  h.discard (h.require hk)

/-- A token that may not stand where it does. -/
theorem misplaced (h : ClosedOnTokens Q) (t : Token) {cause : SyntaxError.Cause}
    (hcause : cause ≠ .lineTerminatorAfterArrowParameters) :
    Q (Parser.fail (t.misplaced cause) : Parser α) (Parser.fail (t.misplaced cause)) :=
  h.fail (t.misplaced_cause_ne hcause nofun nofun nofun)

/-- A part with its span, which reads tokens whenever it succeeds. -/
theorem spannedOf (h : ClosedOnTokens Q) {p p' : Parser (Span → α)}
    (hreads : ∀ {c : Context} {s t : State} {a : α},
      Parser.spanned p c s = .ok a t → Reads c.token s.position t.position)
    (hp : Q p p') : Q (Parser.spanned p) (Parser.spanned p') :=
  h.spanned (.of_spanned hreads) hp

theorem identifier (h : ClosedOnTokens Q) : Q identifier identifier :=
  h.spannedOf identifier_reads (h.bind h.variableName fun _ => h.pure _)

theorem numberValue (h : ClosedOnTokens Q) : Q numberValue numberValue := by
  refine h.bind (h.require (by decide)) fun t => ?_
  split
  · exact h.pure _
  · exact h.fail nofun

theorem stringValue (h : ClosedOnTokens Q) : Q stringValue stringValue := by
  refine h.bind (h.require (by decide)) fun t => ?_
  split
  · exact h.pure _
  · exact h.fail nofun

theorem numberLiteral (h : ClosedOnTokens Q) : Q numberLiteral numberLiteral :=
  h.spannedOf numberLiteral_reads (h.bind h.numberValue fun _ => h.pure _)

theorem stringLiteral (h : ClosedOnTokens Q) : Q stringLiteral stringLiteral :=
  h.spannedOf stringLiteral_reads (h.bind h.stringValue fun _ => h.pure _)

theorem nullLiteral (h : ClosedOnTokens Q) : Q nullLiteral nullLiteral :=
  h.spannedOf nullLiteral_reads (h.bind (h.drop (by decide)) fun _ => h.pure _)

theorem variableUse (h : ClosedOnTokens Q) : Q variableUse variableUse :=
  h.spannedOf variableUse_reads (h.bind h.variableName fun _ => h.pure _)

theorem superReference (h : ClosedOnTokens Q) : Q superReference superReference :=
  h.spannedOf superReference_reads (h.bind (h.drop (by decide)) fun _ => h.pure _)

theorem thisReference (h : ClosedOnTokens Q) : Q thisReference thisReference :=
  h.spannedOf thisReference_reads (h.bind (h.drop (by decide)) fun _ => h.pure _)

theorem emptyStatement (h : ClosedOnTokens Q) : Q emptyStatement emptyStatement :=
  h.spannedOf emptyStatement_reads (h.bind (h.drop (by decide)) fun _ => h.pure _)

theorem fieldEnd (h : ClosedOnTokens Q) : Q fieldEnd fieldEnd := by
  refine h.bind (h.accept (by decide)) fun _ => ?_
  refine ParserRel.ite _ (h.pure _) ?_
  refine h.bind (h.look 0) fun _ => ?_
  exact ParserRel.ite _ (h.pure _) (h.misplaced _ nofun)

theorem checkAssignable (h : ClosedOnTokens Q) (e : Expr) :
    Q (checkAssignable e) (checkAssignable e) := ParserRel.ite _ (h.pure _) (h.fail nofun)

theorem checkDelete (h : ClosedOnTokens Q) (op : Token) (e : Expr) :
    Q (checkDelete op e) (checkDelete op e) := by
  unfold Grammar.checkDelete
  split
  · exact h.fail nofun
  · exact h.pure _

end ClosedOnTokens

/-! ### Lists -/

/-- What is related for two budgets one longer than two for which it is related, is related for
these budgets, if a rule without a budget gives up. -/
def ParserRel.OnFuel (Q : ParserRel) (n m : Nat) : Prop :=
  ∀ {ι α : Type} (r r' : Nat → ι → Parser α), (∀ i, r 0 i = exhausted) → (∀ i, r' 0 i = exhausted) →
    (∀ n m, (∀ i, Q (r n i) (r' m i)) → ∀ i, Q (r (n + 1) i) (r' (m + 1) i)) →
    ∀ i, Q (r n i) (r' m i)

/-- A rule that gives up is related to every rule: then the first budget may be smaller. -/
theorem ParserRel.OnFuel.of_le {Q : ParserRel} (hexhausted : ∀ ⦃α : Type⦄ (p' : Parser α),
    Q exhausted p') {n m : Nat} (h : n ≤ m) : Q.OnFuel n m := by
  intro ι α r r' hzero hzero' hsucc i
  induction n generalizing m i with
  | zero =>
    rw [hzero i]
    exact hexhausted _
  | succ n ih =>
    obtain ⟨m, rfl⟩ := Nat.exists_eq_add_of_le' (Nat.lt_of_lt_of_le n.succ_pos h)
    exact hsucc n m (fun i => ih (Nat.le_of_succ_le_succ h) i) i

namespace ClosedOnTokens

open EcmaScript.Grammar

variable {Q : ParserRel} {g g' : Rules} {n m : Nat} {α : Type}

theorem list (h : ClosedOnTokens Q) (hfuel : Q.OnFuel n m) {close : TokenKind}
    (hclose : close ≠ arrowKind) {item item' : Parser (Span → α)} (hadvances : Advances item)
    (hitem : Q item item') :
    Q (separated (.punctuator .comma) close item n)
      (separated (.punctuator .comma) close item' m) := by
  refine hfuel (fun n (_ : Unit) => separated (.punctuator .comma) close item n)
    (fun n _ => separated (.punctuator .comma) close item' n) (fun _ => rfl) (fun _ => rfl)
    (fun n m ih _ => ?_) ()
  refine h.bind (h.accept hclose) fun _ => ?_
  refine ParserRel.ite _ (h.pure _) ?_
  refine h.bind (h.spanned hadvances hitem) fun _ => ?_
  refine h.bind (h.accept (by decide)) fun _ => ?_
  refine ParserRel.ite _ ?_ ?_
  · exact h.bind (ih ()) fun _ => h.pure _
  · exact h.bind (h.drop hclose) fun _ => h.pure _

theorem elements (h : ClosedOnTokens Q) (hfuel : Q.OnFuel n m)
    (hexpr : ∀ mode, mode.TakesCalls → Q (g.expr mode) (g'.expr mode)) :
    Q (elements g n) (elements g' m) := by
  refine hfuel (fun n (_ : Unit) => Grammar.elements g n) (fun n _ => Grammar.elements g' n)
    (fun _ => rfl) (fun _ => rfl) (fun n m ih _ => ?_) ()
  refine h.bind (h.accept (by decide)) fun _ => ?_
  refine ParserRel.ite _ ?_ ?_
  · exact h.bind (ih ()) fun _ => h.pure _
  refine h.bind (h.look 0) fun _ => ?_
  refine ParserRel.ite _ (h.pure _) ?_
  refine h.bind (h.accept (by decide)) fun _ => ?_
  refine h.bind (h.bind (hexpr _ (by decide)) fun _ => h.pure _) fun _ => ?_
  refine h.bind (h.look 0) fun _ => ?_
  refine ParserRel.ite _ (h.pure _) ?_
  refine h.bind (h.drop (by decide)) fun _ => ?_
  exact h.bind (ih ()) fun _ => h.pure _

theorem statements (h : ClosedOnTokens Q) (hfuel : Q.OnFuel n m) (hstmt : Q g.stmt g'.stmt)
    (stop : TokenKind) : Q (statements g stop n) (statements g' stop m) := by
  refine hfuel (fun n (_ : Unit) => Grammar.statements g stop n)
    (fun n _ => Grammar.statements g' stop n) (fun _ => rfl) (fun _ => rfl) (fun n m ih _ => ?_) ()
  refine h.bind (h.look 0) fun _ => ?_
  refine ParserRel.ite _ (h.pure _) ?_
  refine h.bind hstmt fun _ => ?_
  exact h.bind (ih ()) fun _ => h.pure _

theorem declarator (h : ClosedOnTokens Q)
    (hexpr : ∀ mode, mode.TakesCalls → Q (g.expr mode) (g'.expr mode)) :
    Q (declarator g) (declarator g') := by
  refine h.bind h.identifier fun _ => ?_
  refine h.bind (h.accept (by decide)) fun _ => ?_
  refine ParserRel.ite _ ?_ (h.pure _)
  exact h.bind (hexpr _ (by decide)) fun _ => h.pure _

theorem declarators (h : ClosedOnTokens Q) (hfuel : Q.OnFuel n m)
    (hexpr : ∀ mode, mode.TakesCalls → Q (g.expr mode) (g'.expr mode)) :
    Q (declarators g n) (declarators g' m) := by
  refine hfuel (fun n (_ : Unit) => Grammar.declarators g n) (fun n _ => Grammar.declarators g' n)
    (fun _ => rfl) (fun _ => rfl) (fun n m ih _ => ?_) ()
  refine h.bind (h.declarator hexpr) fun _ => ?_
  refine h.bind (h.accept (by decide)) fun _ => ?_
  refine ParserRel.ite _ (h.pure _) ?_
  refine ParserRel.ite _ (h.pure _) ?_
  refine h.bind (h.look 0) fun _ => ?_
  refine ParserRel.ite _ (h.pure _) ?_
  refine h.bind (h.drop (by decide)) fun _ => ?_
  exact h.bind (ih ()) fun _ => h.pure _

end ClosedOnTokens

/-! ### Parameters -/

/-- Holds moreover of expressions and of lists. A rule is related from its first token on if what
stands behind that token is related. -/
structure ClosedOnLists (P Q : ParserRel) (g g' : Rules)
    (M : ExprMode → Prop := ExprMode.TakesCalls) : Prop extends ClosedOnTokens Q where
  outer : ClosedOnTokens P
  reading : g.Reading
  modes : ExprMode.Family M
  expr (mode : ExprMode) : M mode → Q (g.expr mode) (g'.expr mode)
  behind {α : Type} {p p' : Parser α} : P p p' → Q p p'
  first {α β : Type} {p p' : Parser α} {f f' : α → Parser β} : Advances p →
    P p p' → (∀ a, Q (f a) (f' a)) → P (p >>= f) (p' >>= f')
  list {α : Type} {close : TokenKind} {item item' : Parser (Span → α)} :
    close ≠ Grammar.arrowKind → Advances item → Q item item' →
    Q (g.list close item) (g'.list close item')

namespace ClosedOnLists

open EcmaScript.Grammar

variable {P Q : ParserRel} {g g' : Rules} {M : ExprMode → Prop} {β : Type}

/-- A rule that begins with a word. -/
theorem word (h : ClosedOnLists P Q g g' M) {kind : TokenKind} (hk : kind ≠ arrowKind)
    (heof : kind ≠ .eof) {f f' : Token → Parser β} (hf : ∀ t, Q (f t) (f' t)) :
    P (Parser.require kind >>= f) (Parser.require kind >>= f') :=
  h.first (.require heof) (h.outer.require hk) hf

/-- A rule that begins with a word, which is dropped. -/
theorem opening (h : ClosedOnLists P Q g g' M) {kind : TokenKind} (hk : kind ≠ arrowKind)
    (heof : kind ≠ .eof) {f f' : PUnit → Parser β} (hf : ∀ x, Q (f x) (f' x)) :
    P (Functor.discard (Parser.require kind) >>= f)
      (Functor.discard (Parser.require kind) >>= f') := by
  rw [discard_bind, discard_bind]
  exact h.word hk heof fun _ => hf _

theorem taking (h : ClosedOnLists P Q g g' M) (mode : ExprMode) (hmode : mode.TakesCalls) :
    Q (g.expr mode) (g'.expr mode) := h.expr mode (h.modes.takesCalls hmode)

theorem whole (h : ClosedOnLists P Q g g' M) {stops : List TokenKind}
    (hstops : .punctuator .parenthesisOpen ∉ stops) : Q (g.whole stops) (g'.whole stops) :=
  h.bind (h.taking _ (ExprMode.whole_takesCalls hstops)) fun _ => h.pure _

theorem parameter (h : ClosedOnLists P Q g g' M) : Q (parameter g) (parameter g') := by
  refine h.bind (h.accept (by decide)) fun _ => ?_
  refine h.bind h.identifier fun _ => ?_
  refine h.bind (h.accept (by decide)) fun _ => ?_
  refine ParserRel.ite _ ?_ ?_
  · exact h.bind (h.map _ (h.whole (by decide))) fun _ => h.pure _
  · exact h.bind (h.pure _) fun _ => h.pure _

theorem parameters (h : ClosedOnLists P Q g g' M) : P (parameters g) (parameters g') := by
  refine h.opening (by decide) (by decide) fun _ => ?_
  exact h.list (by decide) (.of_reads (parameter_reads h.reading)) h.parameter

/-- What stands before an arrow. -/
theorem beforeArrow (h : ClosedOnLists P Q g g' M) : P (beforeArrow g) (beforeArrow g') := by
  have heq (g : Rules) : Grammar.beforeArrow g = (do
      let first ← named 0
      let second ← Parser.look 1
      if first.2 && second.kind = arrowKind then
        let name ← Grammar.identifier
        return [.mk name.span false name none]
      else Grammar.parameters g) := rfl
  rw [heq, heq]
  refine h.outer.bind (h.outer.named 0) fun _ => ?_
  refine h.outer.bind (h.outer.look 1) fun _ => ?_
  refine ParserRel.ite _ ?_ h.parameters
  exact h.outer.bind h.outer.identifier fun _ => h.outer.pure _

end ClosedOnLists

/-! ### Rules -/

open Grammar in
/-- Holds moreover of the recursive rules, of initializers and classes, and of lists without
separators. -/
structure Closed (P Q : ParserRel) (K : Flags → ParserRel) (g g' : Rules)
    (M : ExprMode → Prop := ExprMode.TakesCalls) : Prop extends ClosedOnLists P Q g g' M where
  stmt : Q g.stmt g'.stmt
  inInitializer {α : Type} {p p' : Parser α} : Q p p' → Q (inInitializer p) (inInitializer p')
  inClass {α : Type} {p p' : Parser α} : (∀ fl, K fl p p') → Q (inClass p) (inClass p')
  weaken {fl : Flags} {α : Type} {p p' : Parser α} : Q p p' → K fl p p'
  class_bind {fl : Flags} {α β : Type} {p p' : Parser α} {f f' : α → Parser β} :
    K fl p p' → (∀ a, K fl (f a) (f' a)) → K fl (p >>= f) (p' >>= f')
  memberAccess (object : Expr) : Q (memberAccess object) (memberAccess object)
  elements : Q (elements g g.budget) (elements g' g'.budget)
  statements (stop : TokenKind) : Q (statements g stop g.budget) (statements g' stop g'.budget)
  arrowParameters (async : Bool) : P (arrowParameters g async) (arrowParameters g' async)

namespace Closed

open EcmaScript.Grammar

variable {P Q : ParserRel} {K : Flags → ParserRel} {g g' : Rules} {M : ExprMode → Prop} {α β : Type}

theorem arrayLiteral (h : Closed P Q K g g' M) : P (arrayLiteral g) (arrayLiteral g') := by
  refine h.outer.spannedOf (arrayLiteral_reads h.reading) ?_
  refine h.opening (by decide) (by decide) fun _ => ?_
  refine h.bind h.elements fun _ => ?_
  exact h.bind (h.drop (by decide)) fun _ => h.pure _

/-! ### Functions and arrows -/

theorem blockBody (h : Closed P Q K g g' M) : P (blockBody g) (blockBody g') := by
  refine h.opening (by decide) (by decide) fun _ => ?_
  refine h.bind (h.statements _) fun _ => ?_
  exact h.bind (h.drop (by decide)) fun _ => h.pure _

theorem functionRest (h : Closed P Q K g g' M) (async generator : Bool) :
    Q (functionRest g async generator) (functionRest g' async generator) := by
  refine h.withNames (NameRules.uniform_forFunction async generator)
    (h.spanned (.of_reads fun hrun => ?_) ?_)
  · obtain ⟨_, u, hparams, hrun⟩ := bind_ok_iff.1 hrun
    obtain ⟨_, v, hbody, hrun⟩ := bind_ok_iff.1 hrun
    obtain ⟨-, rfl⟩ := pure_ok_iff.1 hrun
    exact (parameters_reads h.reading hparams).append (blockBody_reads h.reading hbody).balanced
  · refine h.bind (h.behind h.parameters) fun _ => ?_
    exact h.bind (h.behind h.blockBody) fun _ => h.pure _

theorem methodRest (h : Closed P Q K g g' M) (kind : MethodKind) (async generator : Bool) :
    Q (methodRest g kind async generator) (methodRest g' kind async generator) := by
  refine h.bind (h.functionRest async generator) fun func => ?_
  dsimp only
  split
  · exact h.pure _
  · exact h.fail nofun
  · exact ParserRel.ite _ (h.fail nofun) (h.pure _)
  · exact h.fail nofun
  · exact h.pure _

theorem functionExpression (h : Closed P Q K g g' M) :
    P (functionExpression g) (functionExpression g') := by
  refine h.outer.spannedOf (functionExpression_reads h.reading) ?_
  refine h.outer.bind (h.outer.accept (by decide)) fun _ => ?_
  refine h.opening (by decide) (by decide) fun _ => ?_
  refine h.bind (h.accept (by decide)) fun _ => ?_
  refine h.bind h.definitionName? fun _ => ?_
  exact h.bind (h.functionRest _ _) fun _ => h.pure _

theorem arrowBody (h : Closed P Q K g g' M) {stops : List TokenKind}
    (hstops : M (.assignment stops)) :
    Q (arrowBody g stops) (arrowBody g' stops) := by
  refine h.bind (h.look 0) fun _ => ?_
  refine ParserRel.ite _ ?_ ?_
  · exact h.bind (h.behind h.blockBody) fun _ => h.pure _
  · exact h.bind (h.expr _ hstops) fun _ => h.pure _

theorem arrowFunction (h : Closed P Q K g g' M) {stops : List TokenKind}
    (hstops : M (.assignment stops)) :
    P (arrowFunction g stops) (arrowFunction g' stops) := by
  have tail (async : Bool) : P (α := Span → Expr) (do
      let params ← Grammar.arrowParameters g async
      let body ← Parser.withNames (·.forAsync async) (Grammar.arrowBody g stops)
      return fun span => .arrow span (.mk span true async false params body)) (do
      let params ← Grammar.arrowParameters g' async
      let body ← Parser.withNames (·.forAsync async) (Grammar.arrowBody g' stops)
      return fun span => .arrow span (.mk span true async false params body)) := by
    refine h.first (.of_reads (arrowParameters_reads h.reading)) (h.arrowParameters async)
      fun _ => ?_
    refine h.bind ?_ fun _ => h.pure _
    exact h.withNames (NameRules.uniform_forAsync async) (h.arrowBody hstops)
  refine h.outer.spannedOf (arrowFunction_reads h.reading) ?_
  refine h.outer.bind (h.outer.look 1) fun _ => ?_
  refine ParserRel.ite _ ?_ ?_
  · exact h.outer.bind (h.outer.pure _) fun async => tail async
  · exact h.outer.bind (h.outer.accept (by decide)) fun async => tail async

theorem grouping (h : Closed P Q K g g' M) (insertion : Bool) :
    P (grouping g insertion) (grouping g' insertion) := by
  refine h.opening (by decide) (by decide) fun _ => ?_
  have hmode : ExprMode.TakesCalls
      ⟨Operator.comma.precedence, [.punctuator .parenthesisClose], insertion⟩ := by
    cases insertion <;> decide
  refine h.bind (h.taking _ hmode) fun _ => ?_
  exact h.bind (h.drop (by decide)) fun _ => h.pure _

/-! ### Members -/

theorem memberKey (h : Closed P Q K g g' M) : Q (memberKey g) (memberKey g') := by
  refine h.bind (h.accept (by decide)) fun _ => ?_
  refine ParserRel.ite _ ?_ ?_
  · refine h.bind (h.whole (by decide)) fun _ => ?_
    exact h.bind (h.drop (by decide)) fun _ => h.pure _
  · exact h.bind h.directKey fun _ => h.pure _

theorem fieldValue? (h : Closed P Q K g g' M) : Q (fieldValue? g) (fieldValue? g') := by
  refine h.bind (h.accept (by decide)) fun _ => ?_
  refine ParserRel.ite _ ?_ ?_
  · exact h.bind (h.inInitializer (h.taking _ (by decide))) fun _ => h.pure _
  · exact h.pure _

theorem classMethodRest (h : Closed P Q K g g' M) (head : MemberHead) :
    Q (classMethodRest g head) (classMethodRest g' head) := by
  refine h.bind (h.look 0) fun _ => ?_
  refine ParserRel.ite _ ?_ (h.misplaced _ nofun)
  exact h.bind (h.methodRest _ _ _) fun _ => h.pure _

/-! ### Parts of expressions -/

theorem callArguments (h : Closed P Q K g g' M) : Q (callArguments g) (callArguments g') := by
  refine h.list (by decide) (.of_reads fun hrun => ?_) ?_
  · obtain ⟨_, u, hspread, hrun⟩ := bind_ok_iff.1 hrun
    obtain ⟨_, v, hvalue, hrun⟩ := bind_ok_iff.1 hrun
    obtain ⟨-, rfl⟩ := pure_ok_iff.1 hrun
    exact .prepend (accept_balanced hspread rfl) (whole_reads h.reading hvalue)
  · refine h.bind (h.accept (by decide)) fun _ => ?_
    exact h.bind (h.whole (by decide)) fun _ => h.pure _

/-- The operand of an operator that has been read. -/
theorem unaryArgument (h : Closed P Q K g g' M) {mode : ExprMode} (hmode : M mode)
    (token : Token) {op : Operator} (hop : op.operandPrecedence ≤ Operator.call.precedence)
    (following : Token) :
    Q (unaryArgument g mode token op following) (unaryArgument g' mode token op following) :=
  ParserRel.ite _ (h.pure _) (h.expr _ (h.modes.operand hmode hop))

end Closed

/-! ### Members of objects and classes -/

open Grammar in
/-- Holds moreover of the members of objects and classes. -/
structure ClosedOnMembers (P Q : ParserRel) (K : Flags → ParserRel) (g g' : Rules)
    (M : ExprMode → Prop := ExprMode.TakesCalls) : Prop extends Closed P Q K g g' M where
  objectMember : Q (objectMember g) (objectMember g')
  classItems (fl : Flags) : K fl (classItems g g.budget) (classItems g' g'.budget)

namespace ClosedOnMembers

open EcmaScript.Grammar

variable {P Q : ParserRel} {K : Flags → ParserRel} {g g' : Rules} {M : ExprMode → Prop}

theorem objectLiteral (h : ClosedOnMembers P Q K g g' M) :
    P (objectLiteral g) (objectLiteral g') := by
  refine h.outer.spannedOf (objectLiteral_reads h.reading) ?_
  refine h.opening (by decide) (by decide) fun _ => ?_
  refine h.bind (h.list (by decide) ?_ h.objectMember) fun _ => h.pure _
  exact .of_reads (objectMember_reads h.reading)

theorem classTail (h : ClosedOnMembers P Q K g g' M) (fl : Flags) :
    K fl (classTail g) (classTail g') := by
  refine h.class_bind (h.weaken (h.accept (by decide))) fun _ => ?_
  have body : K fl (classBody g) (classBody g') :=
    h.class_bind (h.weaken (h.drop (by decide))) fun _ => h.classItems fl
  refine ParserRel.ite (Q := K fl) _ ?_ ?_
  · refine h.class_bind (h.weaken (h.map _ (h.whole (by decide)))) fun _ => ?_
    exact h.class_bind body fun _ => h.weaken (h.pure _)
  · refine h.class_bind (h.weaken (h.pure _)) fun _ => ?_
    exact h.class_bind body fun _ => h.weaken (h.pure _)

theorem classExpression (h : ClosedOnMembers P Q K g g' M) :
    P (classExpression g) (classExpression g') := by
  refine h.outer.spannedOf (classExpression_reads h.reading) ?_
  refine h.opening (by decide) (by decide) fun _ => h.inClass fun fl => ?_
  refine h.class_bind (h.weaken h.definitionName?) fun _ => ?_
  exact h.class_bind (h.classTail fl) fun _ => h.weaken (h.pure _)

theorem classDeclaration (h : ClosedOnMembers P Q K g g' M) :
    P (classDeclaration g) (classDeclaration g') := by
  refine h.outer.spannedOf (classDeclaration_reads h.reading) ?_
  refine h.word (by decide) (by decide) fun start => h.inClass fun fl => ?_
  refine h.class_bind (h.weaken h.definitionName?) fun name => ?_
  cases name with
  | none => exact h.weaken (h.fail nofun)
  | some name => exact h.class_bind (h.classTail fl) fun _ => h.weaken (h.pure _)

end ClosedOnMembers

/-! ### Statements -/

open Grammar in
/-- Holds moreover of declarators, and of an expression with which a statement begins. -/
structure ClosedOnStatements (P Q : ParserRel) (K : Flags → ParserRel) (g g' : Rules)
    (M : ExprMode → Prop := ExprMode.TakesCalls) : Prop extends ClosedOnMembers P Q K g g' M where
  value (mode : ExprMode) : mode.TakesCalls → P (g.expr mode) (g'.expr mode)
  declarators : Q (declarators g g.budget) (declarators g' g'.budget)

namespace ClosedOnStatements

open EcmaScript.Grammar

variable {P Q : ParserRel} {K : Flags → ParserRel} {g g' : Rules} {M : ExprMode → Prop}

theorem expressionEnd (h : ClosedOnStatements P Q K g g' M) :
    P (expressionEnd g) (expressionEnd g') := by
  refine h.outer.bind (h.value _ (by decide)) fun found => ?_
  refine ParserRel.ite _ (h.outer.pure _) ?_
  exact h.outer.bind (h.outer.drop (by decide)) fun _ => h.outer.pure _

theorem block (h : ClosedOnStatements P Q K g g' M) : P (block g) (block g') :=
  h.outer.spannedOf (block_reads h.reading) (h.outer.bind h.blockBody fun _ => h.outer.pure _)

theorem expressionStatement (h : ClosedOnStatements P Q K g g' M) :
    P (expressionStatement g) (expressionStatement g') :=
  h.outer.spannedOf (expressionStatement_reads h.reading)
    (h.outer.bind h.expressionEnd fun _ => h.outer.pure _)

theorem condition (h : ClosedOnStatements P Q K g g' M) : Q (condition g) (condition g') := by
  refine h.bind (h.drop (by decide)) fun _ => ?_
  refine h.bind (h.whole (by decide)) fun _ => ?_
  exact h.bind (h.drop (by decide)) fun _ => h.pure _

theorem ifStatement (h : ClosedOnStatements P Q K g g' M) : P (ifStatement g) (ifStatement g') := by
  refine h.outer.spannedOf (ifStatement_reads h.reading) ?_
  refine h.opening (by decide) (by decide) fun _ => ?_
  refine h.bind h.condition fun _ => ?_
  refine h.bind h.stmt fun _ => ?_
  refine h.bind (h.accept (by decide)) fun _ => ?_
  refine ParserRel.ite _ ?_ ?_
  · exact h.bind (h.map _ h.stmt) fun _ => h.pure _
  · exact h.bind (h.pure _) fun _ => h.pure _

theorem returnStatement (h : ClosedOnStatements P Q K g g' M) :
    P (returnStatement g) (returnStatement g') := by
  refine h.outer.spannedOf (returnStatement_reads h.reading) ?_
  refine h.opening (by decide) (by decide) fun _ => ?_
  refine h.bind (h.look 0) fun _ => ?_
  refine ParserRel.ite _ (h.pure _) ?_
  refine h.bind (h.accept (by decide)) fun _ => ?_
  refine ParserRel.ite _ (h.pure _) ?_
  exact h.bind (h.behind h.expressionEnd) fun _ => h.pure _

theorem throwStatement (h : ClosedOnStatements P Q K g g' M) :
    P (throwStatement g) (throwStatement g') := by
  refine h.outer.spannedOf (throwStatement_reads h.reading) ?_
  refine h.word (by decide) (by decide) fun _ => ?_
  refine h.bind (h.look 0) fun _ => ?_
  refine ParserRel.ite _ (h.fail nofun) ?_
  exact h.bind (h.behind h.expressionEnd) fun _ => h.pure _

theorem whileStatement (h : ClosedOnStatements P Q K g g' M) :
    P (whileStatement g) (whileStatement g') := by
  refine h.outer.spannedOf (whileStatement_reads h.reading) ?_
  refine h.opening (by decide) (by decide) fun _ => ?_
  refine h.bind h.condition fun _ => ?_
  exact h.bind h.stmt fun _ => h.pure _

theorem variableDeclaration (h : ClosedOnStatements P Q K g g' M) :
    P (variableDeclaration g) (variableDeclaration g') := by
  refine h.outer.spannedOf (variableDeclaration_reads h.reading) ?_
  refine h.first (.of_reads declarationKind_reads) h.outer.declarationKind fun _ => ?_
  exact h.bind h.declarators fun _ => h.pure _

theorem functionDeclaration (h : ClosedOnStatements P Q K g g' M) :
    P (functionDeclaration g) (functionDeclaration g') := by
  refine h.outer.spannedOf (functionDeclaration_reads h.reading) ?_
  refine h.outer.bind (h.outer.accept (by decide)) fun _ => ?_
  refine h.word (by decide) (by decide) fun _ => ?_
  refine h.bind (h.accept (by decide)) fun _ => ?_
  refine h.bind (h.withNames (NameRules.uniform_const _) h.definitionName?) fun name => ?_
  cases name with
  | none => exact h.fail nofun
  | some name => exact h.bind (h.functionRest _ _) fun _ => h.pure _

theorem statement (h : ClosedOnStatements P Q K g g' M) : P (statement g) (statement g') := by
  refine h.outer.bind (h.outer.look 0) fun first => ?_
  by_cases hlet : first.kind = .keyword .kLet
  · rw [hlet]
    -- What stands behind `let` is looked at together with the question whether it may be a name.
    show P
      (named 1 >>= fun x => if x.2 then Grammar.variableDeclaration g
        else Grammar.expressionStatement g)
      (named 1 >>= fun x => if x.2 then Grammar.variableDeclaration g'
        else Grammar.expressionStatement g')
    refine h.outer.bind (h.outer.named 1) fun _ => ?_
    exact ParserRel.ite _ h.variableDeclaration h.expressionStatement
  refine h.outer.bind (h.outer.look 1) fun second => ?_
  split
  · exact h.block
  · exact h.classDeclaration
  · exact h.variableDeclaration
  · exact h.variableDeclaration
  · exact absurd ‹first.kind = .keyword .kLet› hlet
  · exact ParserRel.ite _ h.functionDeclaration h.expressionStatement
  · exact h.functionDeclaration
  · exact h.ifStatement
  · exact h.returnStatement
  · exact h.throwStatement
  · exact h.whileStatement
  · exact h.outer.emptyStatement
  · exact h.expressionStatement

end ClosedOnStatements

end EcmaScript
