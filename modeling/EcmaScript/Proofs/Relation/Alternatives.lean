import EcmaScript.Proofs.Grammar.DefinedNames
import EcmaScript.Proofs.Relation.Impartial
import EcmaScript.Proofs.Relation.Replayed
import EcmaScript.Proofs.Relation.Stops

namespace EcmaScript

open EcmaScript.Parser

/-!
# Parameters and what they may be instead

What stands in parentheses is first tried as parameters, and then read as an expression or as
arguments. Both readings go the same way as long as the text can still be parameters. So the
second one leaves behind what the first one left, and an error that the first one hides.

* `SyntaxError.Hides` — an error that may be about a name which a class further on declares;
* `Includes` — a run that leaves all that another one left, and fails where that one hid an error;
* `Grammar.parameterTail_item` — a parameter, and an expression that begins at the same place;
-/

/-! ### Runs that leave what other runs left -/

/-- May the error be about an undeclared name, or about a token that is no operand? -/
def SyntaxError.Hides (e : SyntaxError) : Prop :=
  e.cause = .undeclaredPrivateName ∨ e.cause = .expected "expression operand"

theorem Token.misplaced_not_hides (t : Token) {cause : SyntaxError.Cause}
    (hname : cause ≠ .undeclaredPrivateName) (hoperand : cause ≠ .expected "expression operand") :
    ¬ (t.misplaced cause).Hides := by
  rintro (h | h)
  · exact t.misplaced_cause_ne hname nofun nofun nofun h
  · exact t.misplaced_cause_ne hoperand nofun nofun nofun h

theorem Token.unexpected_not_hides (t : Token) : ¬ (t.misplaced .unexpectedToken).Hides :=
  t.misplaced_not_hides (by simp) (by simp)

/-- Such an error is not about the line break before an arrow. -/
theorem SyntaxError.Hides.cause_ne {e : SyntaxError} (h : e.Hides) :
    e.cause ≠ .lineTerminatorAfterArrowParameters := by
  obtain h | h := h
  · exact h ▸ nofun
  · exact h ▸ nofun

/-- If the run ends well, what waits at `u` waits at its end. -/
def State.Trails (u : State) {α : Type} (r : EStateM.Result Failure State α) : Prop :=
  ∀ a t, r = .ok a t → ∃ uses, t.scopes = u.scopes.noting uses

/-- The run fails: with the same error, before a rest mark, or because its budget is used up. -/
def Context.FailsLike (c : Context) (e : SyntaxError) {α : Type}
    (r : EStateM.Result Failure State α) : Prop :=
  ∃ f t, r = .error f t ∧ (f = .exhausted ∨ f = .error e
    ∨ ∃ i, (c.token i).kind = .punctuator .dotDotDot
      ∧ f = .error ((c.token i).misplaced (.expected "expression operand")))

/-- The second run leaves what the first one left, and fails where the first one hides an error. -/
structure Includes (c : Context) {α β : Type} (r : EStateM.Result Failure State α)
    (r' : EStateM.Result Failure State β) : Prop where
  scopes : ∀ u, Ends r u → u.Trails r'
  errors : ∀ e u, r = .error (.error e) u → e.Hides → c.FailsLike e r'

/-- The parser leaves the classes as they are, and has no error that hides something. -/
def Quiet {α : Type} (p : Parser α) : Prop :=
  ∀ ⦃c : Context⦄ ⦃s t : State⦄, Ends (p c s) t →
    t.scopes = s.scopes ∧ ∀ e, p c s = .error (.error e) t → ¬ e.Hides

variable {α β γ : Type} {c c' : Context} {s s' t u : State}

namespace State.Trails

variable {r : EStateM.Result Failure State α}

theorem error (u : State) (f : Failure) (v : State) :
    u.Trails (.error f v : EStateM.Result Failure State α) :=
  fun _ _ h => by cases h

theorem of_keeps {p : Parser α} (hp : Keeps State.Kept p) (hu : s.scopes = u.scopes) :
    u.Trails (p c s) := by
  intro a t h
  obtain ⟨uses, -, ht⟩ := (hp (.inl ⟨a, h⟩)).scopes
  exact ⟨uses, hu ▸ ht⟩

theorem bind {p : Parser α} {f : α → Parser β} (hp : u.Trails (p c s))
    (hf : ∀ a, Keeps State.Kept (f a)) : u.Trails ((p >>= f) c s) := by
  intro b t h
  obtain ⟨a, v, ha, hb⟩ := bind_ok_iff.1 h
  obtain ⟨us, hv⟩ := hp a v ha
  obtain ⟨vs, -, ht⟩ := (hf a (.inl ⟨b, hb⟩)).scopes
  exact ⟨us ++ vs, by rw [ht, hv, ClassScopes.noting_append]⟩

theorem of_scopes (hu : u.scopes = t.scopes) (h : t.Trails r) : u.Trails r :=
  fun a v hv => hu ▸ h a v hv

end State.Trails

namespace Quiet

theorem pure (a : α) : Quiet (Pure.pure a : Parser α) := by
  intro c s t h
  rw [pure_apply] at h
  refine ⟨by rw [← ends_ok_iff.1 h], fun e he => by cases he⟩

theorem bind {p : Parser α} {f : α → Parser β} (hp : Quiet p) (hf : ∀ a, Quiet (f a)) :
    Quiet (p >>= f) := by
  intro c s t h
  refine ⟨?_, fun e he => ?_⟩
  · obtain h | ⟨a, u, ha, h⟩ := ends_bind h
    · exact (hp h).1
    · exact ((hf a h).1).trans (hp (.inl ⟨a, ha⟩)).1
  · obtain h | ⟨a, u, ha, h⟩ := bind_error_iff.1 he
    · exact (hp (.inr ⟨e, h⟩)).2 e h
    · exact (hf a (.inr ⟨e, h⟩)).2 e h

theorem fail {e : SyntaxError} (he : ¬ e.Hides) : Quiet (Parser.fail e : Parser α) := by
  intro c s t h
  rw [fail_apply] at h
  refine ⟨by rw [← ends_error_iff.1 h], fun e' he' => ?_⟩
  injection he' with he'
  injection he' with he'
  exact he' ▸ he

theorem ite (cond : Prop) [Decidable cond] {p q : Parser α} (hp : Quiet p) (hq : Quiet q) :
    Quiet (if cond then p else q) := by
  split
  · exact hp
  · exact hq

/-- A step that cannot fail. -/
theorem step {p : Parser α} (h : ∀ c s, ∃ a t, p c s = .ok a t ∧ t.scopes = s.scopes) :
    Quiet p := by
  intro c s t ht
  obtain ⟨a, u, hrun, hscopes⟩ := h c s
  rw [hrun] at ht ⊢
  exact ⟨by rw [← ends_ok_iff.1 ht, hscopes], fun e he => by cases he⟩

theorem next : Quiet Parser.next := step fun _ _ => ⟨_, _, rfl, rfl⟩

theorem nameRules : Quiet Parser.nameRules := step fun _ _ => ⟨_, _, rfl, rfl⟩

theorem require {kind : TokenKind} : Quiet (Parser.require kind) :=
  next.bind fun t => .ite _ (.pure _) (.fail (t.misplaced_not_hides nofun nofun))

theorem spanned {p : Parser (Span → α)} (hp : Quiet p) : Quiet (Parser.spanned p) :=
  fun _ _ _ h => ⟨(hp (ends_spanned h)).1,
    fun e he => (hp (.inr ⟨e, spanned_error_iff.1 he⟩)).2 e (spanned_error_iff.1 he)⟩

theorem checkArguments (t : Token) (name : String) : Quiet (Parser.checkArguments t name) := by
  intro c s u h
  rw [Parser.checkArguments, read_bind, get_bind, ite_run] at h ⊢
  split at h
  · refine ⟨by rw [← ends_error_iff.1 h], fun e he => ?_⟩
    rw [if_pos ‹_›] at he
    injection he with he
    injection he with he
    rw [← he]
    rintro (h | h) <;> cases h
  · refine ⟨by rw [← ends_ok_iff.1 h], fun e he => ?_⟩
    rw [if_neg ‹_›] at he
    cases he

theorem identifier : Quiet Grammar.identifier := by
  refine .spanned (.bind (.bind .next fun t => ?_) fun _ => .pure _)
  refine .bind .nameRules fun rules => .ite _ ?_ (.fail (t.misplaced_not_hides nofun nofun))
  refine .bind ?_ fun name => .bind (.checkArguments t name) fun _ => .pure _
  unfold Grammar.identifierText
  split
  · exact .pure _
  · refine .fail ?_
    rintro (h | h)
    · cases h
    · exact absurd (SyntaxError.Cause.expected.inj h) (by decide)

theorem arrowSign : Quiet Grammar.arrowSign := by
  refine .bind .require fun arrow => .ite _ (.fail ?_) (.pure _)
  rintro (h | h) <;> cases h

end Quiet

namespace Includes

variable {r : EStateM.Result Failure State α} {r' : EStateM.Result Failure State β}

theorem exhausted (u : State) (r' : EStateM.Result Failure State β) :
    Includes c (.error .exhausted u : EStateM.Result Failure State α) r' :=
  ⟨fun _ h => (not_ends_exhausted h).elim, fun _ _ h => by cases h⟩

theorem of_exhausted (r : EStateM.Result Failure State α) (u : State) :
    Includes c r (.error .exhausted u : EStateM.Result Failure State β) :=
  ⟨fun v _ => .error v _ _, fun _ _ _ _ => ⟨_, u, rfl, .inl rfl⟩⟩

/-- What the run would have given does not matter where it failed. -/
theorem retype {f : Failure} (h : Includes c (.error f u : EStateM.Result Failure State α) r') :
    Includes c (.error f u : EStateM.Result Failure State γ) r' := by
  cases f with
  | exhausted => exact .exhausted u r'
  | error e =>
    refine ⟨fun v hv => ?_, fun e' v hv hhides => ?_⟩
    · exact ends_error_iff.1 hv ▸ h.scopes u (ends_error_iff.2 rfl)
    · injection hv with hv
      exact h.errors e' u (by rw [hv]) hhides

theorem same_error (e : Failure) (u v : State) :
    Includes c (.error e u : EStateM.Result Failure State α)
      (.error e v : EStateM.Result Failure State β) := by
  refine ⟨fun w _ => .error w _ _, fun _ _ h _ => ⟨_, v, rfl, .inr (.inl ?_)⟩⟩
  injection h

theorem of_ok (a : α) (h : u.Trails r') : Includes c (.ok a u) r' := by
  refine ⟨fun v hv => ?_, fun _ _ h => by cases h⟩
  rw [← ends_ok_iff.1 hv]
  exact h

/-- An error that hides nothing. -/
theorem of_error {e : SyntaxError} (he : ¬ e.Hides) (h : u.Trails r') :
    Includes c (.error (.error e) u : EStateM.Result Failure State α) r' := by
  refine ⟨fun v hv => ?_, fun e' v hv hhides => ?_⟩
  · rw [← ends_error_iff.1 hv]
    exact h
  · injection hv with hv
    injection hv with hv
    exact absurd (hv ▸ hhides) he

/-- A run that changes no class, and whose errors hide nothing. -/
theorem of_quiet {p : Parser α} (hp : Quiet p) (h : s.Trails r') : Includes c (p c' s) r' := by
  refine ⟨fun u hu => h.of_scopes (hp hu).1, fun e u hu hhides => ?_⟩
  exact absurd hhides ((hp (.inr ⟨e, hu⟩)).2 e hu)

/-- The first run goes on quietly. -/
theorem prepend {p : Parser α} {f : α → Parser γ} (h : Includes c (p c' s) r')
    (hf : ∀ a, Quiet (f a)) : Includes c ((p >>= f) c' s) r' := by
  refine ⟨fun u hu => ?_, fun e u hu hhides => ?_⟩
  · obtain hu | ⟨a, v, ha, hu⟩ := ends_bind hu
    · exact h.scopes u hu
    · exact (h.scopes v (.inl ⟨a, ha⟩)).of_scopes (hf a hu).1
  · obtain hu | ⟨a, v, ha, hu⟩ := bind_error_iff.1 hu
    · exact h.errors e u hu hhides
    · exact absurd hhides ((hf a (.inr ⟨e, hu⟩)).2 e hu)

/-- The second run goes on and keeps the state. -/
theorem append {p : Parser β} {f : β → Parser γ} (h : Includes c r (p c' s))
    (hf : ∀ a, Keeps State.Kept (f a)) : Includes c r ((p >>= f) c' s) := by
  refine ⟨fun u hu => (h.scopes u hu).bind hf, fun e u hu hhides => ?_⟩
  obtain ⟨f', v, hv, hlike⟩ := h.errors e u hu hhides
  exact ⟨f', v, by rw [bind_apply, hv], hlike⟩

end Includes

/-! ### Items of a list -/

/-- The comma between items, and the parenthesis behind them, end an item. -/
def TokenKind.endsItem (kind : TokenKind) : Prop :=
  kind = .punctuator .comma ∨ kind = .punctuator .parenthesisClose

namespace ExprMode

/-- A default value is read as the whole expression is that an item may be. -/
structure ReadsItems (m : ExprMode) : Prop where
  least : m.least ≤ Operator.assignment.precedence
  equals : .punctuator .equals ∉ m.stops
  near : (whole Grammar.argumentStops).Near
    { m with least := Operator.assignment.operandPrecedence }

end ExprMode

namespace Grammar

/-- A parameter behind its rest mark. -/
def parameterTail (g : Rules) (rest : Bool) : Parser (Span → Param) := do
  let name ← identifier
  let default ←
    if ← accept (.punctuator .equals) then
      some <$> g.whole argumentStops
    else pure none
  return fun span => .mk span rest name default

/-- How a parameter and an expression go on that begin at the same place: the expression goes on
where the parameter ended, or they part before the item ends. -/
inductive ItemRuns (g : Rules) (m : ExprMode) (c : Context) {α : Type} :
    EStateM.Result Failure State α → EStateM.Result Failure State (Expr × Bool) → Prop where
  | same {a : α} {u w : State} (left : Expr) (inserted : Bool) (n : Nat) : u.Agrees w →
    ItemRuns g m c (.ok a u) (climb g m left inserted n c w)
  | apart {a : α} {u : State} {r' : EStateM.Result Failure State (Expr × Bool)} :
    ¬ (c.token u.position).kind.endsItem → u.Trails r' → ItemRuns g m c (.ok a u) r'
  | failed {f : Failure} {u : State} {r' : EStateM.Result Failure State (Expr × Bool)} :
    Includes c (.error f u : EStateM.Result Failure State α) r' → ItemRuns g m c (.error f u) r'
  | exhausted (r : EStateM.Result Failure State α) (v : State) :
    ItemRuns g m c r (.error .exhausted v)

variable {g : Rules} {m : ExprMode}

/-- Nothing goes on behind the word `async` if what stands there begins nothing. -/
theorem asyncOperand?_none {stops : List TokenKind} {first second third : Token}
    (hnext : second.kind.endsItem ∨ second.kind = .punctuator .equals) :
    asyncOperand? g stops first second third c s = .ok none s := by
  rw [asyncOperand?, ite_run]
  by_cases hfirst : (first.kind ≠ .keyword .kAsync || second.newlineBefore) = true
  · rw [if_pos hfirst]
    rfl
  rw [if_neg hfirst]
  obtain (h | h) | h := hnext
  · simp only [h, ite_run, nameRules_bind]
    rfl
  · simp only [h, ite_run, nameRules_bind]
    rfl
  · simp only [h, ite_run, nameRules_bind]
    rfl

/-- A name is an operand by itself where the item ends behind it, or its default value begins. -/
theorem operand_of_identifier {name : Ident} (h : identifier c s = .ok name u) (hs : s.Agrees s')
    (hnext : (c.token u.position).kind.endsItem ∨ (c.token u.position).kind = .punctuator .equals) :
    ∃ e w, isAssignable e = true ∧ operand g m c s' = .ok (e, false) w ∧ u.Agrees w := by
  simp only [identifier, spanned_ok_iff, bind_ok_iff, pure_ok_iff] at h
  obtain ⟨_, ⟨text, _, hname, -, rfl⟩, -⟩ := h
  obtain ⟨hallowed, hdecode, hguards, rfl⟩ := variableName_ok_iff.1 hname
  have hposition : s'.position = s.position := hs.position
  let x := ((s'.looked 0).looked 1).looked 2
  have hguards' : ¬ (c.Guards x ∧ text = "arguments") := fun h =>
    hguards ⟨⟨h.1.checks, hs.inInitializer.symm.trans h.1.inInitializer⟩, h.2⟩
  have hrun : variableName c x = .ok text x.advanced := by
    refine variableName_ok_iff.2 ⟨?_, ?_, hguards', rfl⟩
    · show c.names.allows (c.token s'.position).kind = true
      rw [hposition]
      exact hallowed
    · show Escape.decodeName? (c.token s'.position).text = some text
      rw [hposition]
      exact hdecode
  have hnext : (c.token (s.position + 1)).kind.endsItem
      ∨ (c.token (s.position + 1)).kind = .punctuator .equals := hnext
  have harrow : (c.token (s.position + 1)).kind ≠ arrowKind := by
    obtain (h | h) | h := hnext
    · rw [h]
      decide
    · rw [h]
      decide
    · rw [h]
      decide
  refine ⟨.ident (spanSince c x.position x.advanced) text, x.advanced, rfl, ?_, ?_⟩
  · rw [operand_run, operandFrom, hposition, leadingOperator?_of_allows hallowed]
    dsimp only
    rw [bind_apply, asyncOperand?_none hnext]
    dsimp only
    rw [if_pos hallowed, if_neg harrow, variableUse, bind_apply, spanned_run, bind_apply, hrun]
    rfl
  · exact ⟨congrArg (· + 1) hposition, hs.scopes, hs.inInitializer⟩

/-- An assignment to an operand goes on with its right side. -/
theorem climb_assignment {e : Expr} {n : Nat} (he : isAssignable e = true)
    (hkind : (c.token s.position).kind = .punctuator .equals) (hm : m.ReadsItems) :
    climb g m e false (n + 1) c s = (do
      let right ← g.expr { m with least := Operator.assignment.operandPrecedence }
      climb g m (.binary (e.span ∪ right.1.span) .assignment e right.1) right.2 n) c s.advanced := by
  have hends : m.ends (c.token s.position) = false := by
    have hless : ¬ Operator.assignment.precedence < m.least := Nat.not_lt.2 hm.least
    have hstop : m.stops.contains (.punctuator .equals) = false := by
      rw [Bool.eq_false_iff, ne_eq, List.contains_iff_mem]
      exact hm.equals
    rw [ExprMode.ends, hkind, hstop, Bool.false_or]
    exact decide_eq_false hless
  rw [climb_step, hends, hkind, if_neg Bool.false_ne_true]
  have hcontinuation : continuation g m s.position .assignment e = (do
      checkAssignable e
      let right ← g.expr { m with least := Operator.assignment.operandPrecedence }
      return (.binary (e.span ∪ right.1.span) .assignment e right.1, right.2)) := rfl
  have hcheck : checkAssignable e = pure () := if_pos he
  show (continuation g m s.position .assignment e >>= _) c s.advanced = _
  rw [hcontinuation, hcheck]
  simp only [pure_bind, bind_assoc, Bool.false_or]

/-- However long it goes on, an expression keeps the state. -/
theorem climb_keeps (n : Nat) (m : ExprMode) (left : Expr) (inserted : Bool) (k : Nat) :
    Keeps State.Kept (climb (.within n) m left inserted k) := by
  have hsteps := (Rules.within_keeping n).steps (Rules.within_reading n)
  exact hsteps.climb (m := k) trivial (.onFuel k) left inserted

/-- A default value is read like the right side of an assignment that begins at the same place. -/
theorem whole_item {j k n : Nat} (hj : j ≤ n) (hm : m.ReadsItems) (f : Expr → α) (left : Expr)
    (hs : s.Agrees s') :
    ItemRuns (.within (j + 1)) m c
      ((f <$> (Rules.within (n + 1)).whole argumentStops) c s)
      ((do
        let right ← (Rules.within (j + 1)).expr
          { m with least := Operator.assignment.operandPrecedence }
        climb (.within (j + 1)) m (.binary (left.span ∪ right.1.span) .assignment left right.1)
          right.2 k) c s') := by
  have hnear := Rules.within_near (n + 1) hm.near c s
  have hfollows := ((Rules.within_follows (Nat.succ_le_succ hj)).expr
    { m with least := Operator.assignment.operandPrecedence }).agrees (c := c) hs.symm
  rw [map_eq_bind, Rules.whole, bind_assoc, bind_apply, bind_apply]
  generalize (Rules.within (n + 1)).expr (.whole _) c s = whole at hnear
  generalize (Rules.within (n + 1)).expr _ c s = large at hnear hfollows
  generalize (Rules.within (j + 1)).expr _ c s' = small at hfollows
  cases hfollows with
  | exhausted t r' => exact .exhausted _ t
  | ok right ht =>
    cases hnear with
    | same => exact .same _ _ k ht.symm
    | stuck tok h =>
      obtain ⟨-, hscopes⟩ := h _ _ rfl
      refine .failed (.of_error tok.unexpected_not_hides ?_)
      exact .of_keeps (climb_keeps _ m _ _ k) (ht.scopes.symm.trans hscopes)
  | error e ht =>
    cases hnear with
    | same => exact .failed (.same_error _ _ _)
    | stuck tok h => exact .failed (.of_error tok.unexpected_not_hides (.error _ _ _))

/-- **Parameters begin like expressions.** -/
theorem parameterTail_item {j n : Nat} (hj : j ≤ n) (hm : m.ReadsItems) (rest : Bool)
    (hs : s.Agrees s') :
    ItemRuns (.within j) m c (parameterTail (.within (n + 1)) rest c s)
      (expression (.within j) m c s') := by
  have hexpression := (Rules.within_keeping (j + 1)).expr m
  rw [parameterTail, bind_apply]
  cases hname : identifier c s with
  | error f u =>
    cases f with
    | exhausted => exact .failed (.exhausted u _)
    | error e =>
      obtain ⟨hscopes, hquiet⟩ := Quiet.identifier (.inr ⟨e, hname⟩)
      refine .failed (.of_error (hquiet e hname) ?_)
      exact .of_keeps hexpression (hs.scopes.trans hscopes.symm)
  | ok name u =>
    have hscopes := (Quiet.identifier (.inl ⟨name, hname⟩)).1
    dsimp only
    rw [accept_bind]
    split
    next hequals =>
      obtain ⟨e, w, he, hoperand, hw⟩ :=
        operand_of_identifier (g := .within j) (m := m) hname hs (.inr hequals)
      rw [expression, bind_apply, hoperand]
      cases j with
      | zero => exact .exhausted _ w
      | succ j =>
        have hclimb := climb_assignment (g := .within (j + 1)) (n := j) he
          (hw.position ▸ hequals : (c.token w.position).kind = .punctuator .equals) hm
        have hvalue := whole_item (c := c) (k := j) (Nat.le_of_succ_le hj) hm
          (fun value span => Param.mk span rest name (some value)) e hw.advanced
        rw [← hclimb, map_eq_bind] at hvalue
        rw [if_pos rfl, map_eq_bind, bind_assoc]
        exact hvalue
    next hequals =>
      by_cases hends : (c.token u.position).kind.endsItem
      · obtain ⟨e, w, -, hoperand, hw⟩ :=
          operand_of_identifier (g := .within j) (m := m) hname hs (.inl hends)
        rw [expression, bind_apply, hoperand]
        exact .same e false _ ((u.agrees_looked 0).symm.trans hw)
      · exact .apart hends (.of_keeps hexpression (hs.scopes.trans hscopes.symm))

/-! ### Whole lists -/

/-- What stands behind an item of a list. -/
def separatedRest {α : Type} (separator close : TokenKind) (item : Parser (Span → α)) (n : Nat)
    (first : α) : Parser (List α) := do
  if ← accept separator then
    let rest ← separated separator close item n
    return first :: rest
  else
    discard <| require close
    return [first]

theorem separated_rest {α : Type} (separator close : TokenKind) (item : Parser (Span → α))
    (n : Nat) : separated separator close item (n + 1) = (do
      if ← accept close then return []
      else
        let first ← spanned item
        separatedRest separator close item n first) := rfl

/-- A list that does not go on ends quietly. -/
theorem separatedRest_includes {α : Type} {item : Parser (Span → α)} {n : Nat} {first : α}
    {close : TokenKind} {r' : EStateM.Result Failure State β}
    (hcomma : (c.token u.position).kind ≠ .punctuator .comma) (h : u.Trails r') :
    Includes c (separatedRest (.punctuator .comma) close item n first c u) r' := by
  rw [separatedRest, accept_bind, if_neg hcomma]
  exact .of_quiet (.bind (.bind .require fun _ => .pure _) fun _ => .pure _) (h.of_scopes rfl)

/-- A parameter and what stands behind it, and an expression and what stands behind it. -/
theorem item_includes {j k : Nat} {close : TokenKind} {p : Parser (Span → Param)}
    {item : Parser (Span → Param)} {f : Expr × Bool → Parser β}
    (hf : ∀ a, Keeps State.Kept (f a))
    (h : ItemRuns (.within j) m c (p c s) (expression (.within j) m c s'))
    (hrest : ∀ (first : Param) {u w : State} (left : Expr) (inserted : Bool) (n : Nat),
      u.Agrees w → (c.token u.position).kind.endsItem →
      Includes c (separatedRest (.punctuator .comma) close item k first c u)
        ((climb (.within j) m left inserted n >>= f) c w)) :
    Includes c ((spanned p >>= separatedRest (.punctuator .comma) close item k) c s)
      ((expression (.within j) m >>= f) c s') := by
  rw [bind_apply, spanned_run]
  have hexpression : Keeps State.Kept (expression (.within j) m) :=
    (Rules.within_keeping (j + 1)).expr m
  generalize p c s = r at h
  generalize hrun : expression (.within j) m c s' = r' at h
  cases h with
  | @same a u w left inserted n hw =>
    rw [bind_apply, hrun, ← bind_apply]
    by_cases hends : (c.token u.position).kind.endsItem
    · exact hrest _ left inserted n hw hends
    · refine separatedRest_includes (fun hcomma => hends (.inl hcomma)) ?_
      exact (State.Trails.of_keeps (climb_keeps j m left inserted n) hw.scopes).bind hf
  | apart hends htrails =>
    refine separatedRest_includes (fun hcomma => hends (.inl hcomma)) ?_
    exact (hrun ▸ htrails).bind hf
  | failed h => exact (hrun ▸ h.retype (γ := List Param)).append hf
  | exhausted r v =>
    rw [bind_apply, hrun]
    exact .of_exhausted _ v

/-- The comma and the parenthesis end an expression that binds more tightly than a comma. -/
theorem climb_of_ends {left : Expr} {inserted : Bool} {n : Nat} {f : Expr × Bool → Parser β}
    (hends : m.ends (c.token s.position) = true) :
    (climb g m left inserted (n + 1) >>= f) c s = f (left, inserted) c (s.looked 0) := by
  rw [bind_apply, climb_step, if_pos hends]

/-- The expression in parentheses is read like whole parameters. -/
def groupMode (least : Nat) (insertion : Bool) : ExprMode :=
  ⟨least, [.punctuator .parenthesisClose], insertion⟩

theorem groupMode_readsItems {least : Nat} (h : least ≤ Operator.assignment.precedence)
    (insertion : Bool) : (groupMode least insertion).ReadsItems := by
  refine ⟨h, by simp [groupMode],
    ⟨nofun, fun {kind} hkind => ?_, iff_of_true ?_ ?_, fun {op} hop => ?_⟩⟩
  · simp [ExprMode.whole, groupMode, argumentStops, hkind]
  · exact .inl List.mem_cons_self
  · exact .inr (show 1 < 3 by decide)
  · have hop : 3 ≤ op.precedence := hop
    show op.precedence < 1 ↔ op.precedence < 3
    omega

/-- One side of a comma ends where an item ends. -/
theorem groupMode_ends {least : Nat} (h : Operator.comma.precedence < least) (insertion : Bool)
    {t : Token} (ht : t.kind.endsItem) : (groupMode least insertion).ends t = true := by
  obtain ht | ht := ht
  · rw [ExprMode.ends, ht]
    exact decide_eq_true h
  · rw [ExprMode.ends, ht]
    rfl

theorem climb_comma (insertion : Bool) (left : Expr) (inserted : Bool) (n : Nat)
    (hcomma : (c.token s.position).kind = .punctuator .comma) :
    climb g (groupMode Operator.comma.precedence insertion) left inserted (n + 1) c s = (do
      let right ← g.expr (groupMode Operator.comma.operandPrecedence insertion)
      climb g (groupMode Operator.comma.precedence insertion)
        (.binary (left.span ∪ right.1.span) .comma left right.1) (inserted || right.2) n)
      c s.advanced := by
  have hends : (groupMode Operator.comma.precedence insertion).ends (c.token s.position)
      = false := by
    rw [ExprMode.ends, hcomma]
    rfl
  have hcontinuation : continuation g (groupMode Operator.comma.precedence insertion) s.position
      .comma left = (do
        let right ← g.expr (groupMode Operator.comma.operandPrecedence insertion)
        return (.binary (left.span ∪ right.1.span) .comma left right.1, right.2)) := rfl
  rw [climb_step, hends, hcomma, if_neg Bool.false_ne_true]
  show (continuation g _ s.position .comma left >>= _) c s.advanced = _
  rw [hcontinuation]
  simp only [pure_bind, bind_assoc]

/-- No operand begins with a rest mark. -/
theorem expression_restMark (hmark : (c.token s.position).kind = .punctuator .dotDotDot) :
    ∃ u, expression g m c s
      = .error (.error ((c.token s.position).misplaced (.expected "expression operand"))) u := by
  have hleading : leadingOperator? c.names (.punctuator .dotDotDot) = none := rfl
  have hasync : (c.token s.position).kind ≠ .keyword .kAsync := hmark ▸ nofun
  refine ⟨((s.looked 0).looked 1).looked 2, ?_⟩
  rw [expression, bind_apply, operand_run, operandFrom, asyncOperand?_of_ne hasync, atom, hmark,
    hleading]
  rfl

/-- So the expression fails there, where parameters may go on. -/
theorem includes_of_restMark {r : EStateM.Result Failure State α} {f : Expr × Bool → Parser β}
    (hmark : (c.token s.position).kind = .punctuator .dotDotDot) :
    Includes c r ((expression g m >>= f) c s) := by
  obtain ⟨u, hrun⟩ := expression_restMark (g := g) (m := m) hmark
  rw [bind_apply, hrun]
  exact ⟨fun v _ => .error v _ _, fun e v _ _ => ⟨_, u, rfl, .inr (.inr ⟨_, hmark, rfl⟩)⟩⟩

theorem parameter_item {j n : Nat} (hj : j ≤ n) (hm : m.ReadsItems) (hs : s.Agrees s')
    (hmark : (c.token s.position).kind ≠ .punctuator .dotDotDot) :
    ItemRuns (.within j) m c (parameter (.within (n + 1)) c s) (expression (.within j) m c s') := by
  have hparameter : parameter (.within (n + 1))
      = accept (.punctuator .dotDotDot) >>= parameterTail (.within (n + 1)) := rfl
  rw [hparameter, accept_bind, if_neg hmark]
  exact parameterTail_item hj hm false ((s.agrees_looked 0).symm.trans hs)

/-- **Parameters and an expression.** What stands behind a parameter, and the expression that has
read as much. -/
theorem separatedRest_climb {j n : Nat} (hj : j ≤ n) (insertion : Bool) (k : Nat) (first : Param)
    {u w : State} (hw : u.Agrees w) (left : Expr) (inserted : Bool) (fuel : Nat) :
    Includes c (separatedRest (.punctuator .comma) (.punctuator .parenthesisClose)
        (parameter (.within (n + 1))) k first c u)
      (climb (.within j) (groupMode Operator.comma.precedence insertion) left inserted fuel
        c w) := by
  induction k generalizing first u w left inserted fuel with
  | zero =>
    by_cases hcomma : (c.token u.position).kind = .punctuator .comma
    · rw [separatedRest, accept_bind, if_pos hcomma, if_pos rfl]
      exact .prepend (.exhausted _ _) fun _ => .pure _
    · exact separatedRest_includes hcomma (.of_keeps (climb_keeps j _ left inserted fuel) hw.scopes)
  | succ k ih =>
    have htrails := State.Trails.of_keeps (c := c) (climb_keeps j
      (groupMode Operator.comma.precedence insertion) left inserted fuel) hw.scopes
    by_cases hcomma : (c.token u.position).kind ≠ .punctuator .comma
    · exact separatedRest_includes hcomma htrails
    rw [not_not] at hcomma
    rw [separatedRest, accept_bind, if_pos hcomma, if_pos rfl]
    refine .prepend ?_ fun _ => .pure _
    rw [separated_rest, accept_bind]
    split
    next => exact .of_ok _ (htrails.of_scopes rfl)
    next =>
      rw [if_neg Bool.false_ne_true]
      -- Behind the comma the expression has a budget that is one less, and one less inside.
      cases fuel with
      | zero => exact .of_exhausted _ w
      | succ fuel =>
        rw [climb_comma insertion left inserted fuel (hw.position ▸ hcomma)]
        cases j with
        | zero => exact .of_exhausted _ w.advanced
        | succ j =>
          by_cases hmark : (c.token u.advanced.position).kind = .punctuator .dotDotDot
          · exact includes_of_restMark (s := w.advanced) (hw.advanced.position ▸ hmark)
          refine item_includes (fun _ => climb_keeps _ _ _ _ _)
            (parameter_item (s := u.advanced.looked 0) (Nat.le_of_succ_le hj)
              (groupMode_readsItems (by decide) insertion)
              ((u.advanced.agrees_looked 0).symm.trans hw.advanced) hmark) ?_
          intro next x y right insertedRight steps hy hends
          cases steps with
          | zero => exact .of_exhausted _ y
          | succ steps =>
            rw [climb_of_ends (groupMode_ends (by decide) insertion (hy.position ▸ hends))]
            exact ih next (hy.trans (y.agrees_looked 0)) _ _ fuel

/-- **Parameters and an expression in parentheses.** -/
theorem parameters_grouping (n : Nat) (insertion : Bool) (hs : s.Agrees s') :
    Includes c (parameters (.within n) c s) (grouping (.within n) insertion c s') := by
  rw [parameters, grouping, discard_bind, discard_bind, bind_apply, bind_apply, require_run,
    require_run, hs.position]
  by_cases hopen : (c.token s.position).kind ≠ .punctuator .parenthesisOpen
  · rw [if_neg hopen, if_neg hopen]
    exact .same_error _ _ _
  rw [not_not] at hopen
  rw [if_pos hopen, if_pos hopen]
  cases n with
  | zero => exact .exhausted _ _
  | succ n =>
    have hclose (found : Expr × Bool) : Keeps State.Kept (do
        discard <| require (.punctuator .parenthesisClose)
        return found) := by
      rw [discard_bind]
      exact (Keeps.require _).keptBind fun _ => .pure _
    show Includes c (separated _ _ (parameter (.within (n + 1))) (n + 1) c s.advanced)
      ((expression (.within n) (groupMode Operator.comma.precedence insertion) >>= fun found =>
        (do
          discard <| require (.punctuator .parenthesisClose)
          return found : Parser (Expr × Bool))) c s'.advanced)
    rw [separated_rest, accept_bind]
    split
    next =>
      have hexpression := (Rules.within_keeping (n + 1)).expr
        (groupMode Operator.comma.precedence insertion)
      exact .of_ok _ (.of_keeps (hexpression.keptBind hclose) hs.scopes)
    next =>
      rw [if_neg Bool.false_ne_true]
      by_cases hmark : (c.token s.advanced.position).kind = .punctuator .dotDotDot
      · exact includes_of_restMark (s := s'.advanced) (hs.advanced.position ▸ hmark)
      refine item_includes hclose (parameter_item (s := s.advanced.looked 0) (Nat.le_refl n)
        (groupMode_readsItems (by decide) insertion)
        ((s.advanced.agrees_looked 0).symm.trans hs.advanced) hmark) ?_
      intro first u w left inserted steps hw _
      exact (separatedRest_climb (Nat.le_refl n) insertion _ first hw left inserted steps).append
        hclose

/-- An argument is an expression, with a spread mark before it or without one. -/
theorem argument_bind {n : Nat} (f : Arg → Parser β) :
    ∃ x spread, (x = s.advanced ∧ (c.token s.position).kind = .punctuator .dotDotDot
        ∨ x = s.looked 0 ∧ (c.token s.position).kind ≠ .punctuator .dotDotDot)
      ∧ (spanned (argument (.within (n + 1))) >>= f) c s =
        (expression (.within n) (.whole argumentStops) >>= fun value => do
          f (.mk (← since s.position) spread value.1)) c x := by
  by_cases hmark : (c.token s.position).kind = .punctuator .dotDotDot
  · refine ⟨s.advanced, true, .inl ⟨rfl, hmark⟩, ?_⟩
    rw [spanned, argument]
    simp only [bind_assoc, position_bind, accept_bind, if_pos hmark, Rules.whole, pure_bind]
    rfl
  · refine ⟨s.looked 0, false, .inr ⟨rfl, hmark⟩, ?_⟩
    rw [spanned, argument]
    simp only [bind_assoc, position_bind, accept_bind, if_neg hmark, Rules.whole, pure_bind]
    rfl

theorem whole_readsItems : (ExprMode.whole argumentStops).ReadsItems := by
  refine ⟨by decide, by decide, ⟨nofun, fun _ => Iff.rfl, iff_of_true ?_ ?_, fun {op} hop => ?_⟩⟩
  · exact .inl List.mem_cons_self
  · exact .inl List.mem_cons_self
  · have hop : 3 ≤ op.precedence := hop
    show op.precedence < 1 ↔ op.precedence < 3
    omega

/-- A list keeps the state if its items do. -/
theorem separated_keeps {α : Type} (separator close : TokenKind) {item : Parser (Span → α)}
    (hitem : Keeps State.Kept item) (n : Nat) :
    Keeps State.Kept (separated separator close item n)
      ∧ ∀ first, Keeps State.Kept (separatedRest separator close item n first) := by
  have haccept (kind : TokenKind) : Keeps State.Kept (accept kind) :=
    (Keeps.acceptIf? _).keptBind fun _ => .pure _
  have hrest {n : Nat} (h : Keeps State.Kept (separated separator close item n)) (first : α) :
      Keeps State.Kept (separatedRest separator close item n first) := by
    refine (haccept separator).keptBind fun more => ?_
    split
    · exact h.keptBind fun _ => .pure _
    · rw [discard_bind]
      exact (Keeps.require close).keptBind fun _ => .pure _
  induction n with
  | zero =>
    have hzero : Keeps State.Kept (separated separator close item 0) :=
      fun _ _ _ h => (not_ends_exhausted h).elim
    exact ⟨hzero, hrest hzero⟩
  | succ n ih =>
    have hsucc : Keeps State.Kept (separated separator close item (n + 1)) := by
      refine (haccept close).keptBind fun done => ?_
      split
      · exact .pure _
      · exact Keeps.keptBind (fun _ _ _ h => hitem (ends_spanned h)) ih.2
    exact ⟨hsucc, hrest hsucc⟩

theorem argument_keeps (n : Nat) : Keeps State.Kept (argument (.within n)) := by
  have hwhole : Keeps State.Kept ((Rules.within n).whole argumentStops) :=
    ((Rules.within_keeping n).expr _).keptBind fun _ => .pure _
  exact ((Keeps.acceptIf? _).keptBind fun _ => .pure _).keptBind fun _ =>
    hwhole.keptBind fun _ => .pure _

/-- **Parameters and arguments.** -/
theorem parameters_separated_arguments (n k : Nat) (hs : s.Agrees s') :
    Includes c (separated (.punctuator .comma) (.punctuator .parenthesisClose)
        (parameter (.within (n + 1))) k c s)
      (separated (.punctuator .comma) (.punctuator .parenthesisClose)
        (argument (.within (n + 1))) k c s') := by
  induction k generalizing s s' with
  | zero => exact .exhausted _ _
  | succ k ih =>
    obtain ⟨hkeeps, -⟩ := separated_keeps (.punctuator .comma) (.punctuator .parenthesisClose)
      (argument_keeps (n + 1)) (k + 1)
    obtain ⟨-, hrest⟩ := separated_keeps (.punctuator .comma) (.punctuator .parenthesisClose)
      (argument_keeps (n + 1)) k
    by_cases hclose : (c.token s.position).kind = .punctuator .parenthesisClose
    · rw [separated_rest, accept_bind, if_pos hclose]
      exact .of_ok _ (.of_keeps hkeeps hs.scopes)
    rw [separated_rest, separated_rest, accept_bind, accept_bind, hs.position, if_neg hclose,
      if_neg hclose, if_neg Bool.false_ne_true, if_neg Bool.false_ne_true]
    obtain ⟨x, spread, hx, hrun⟩ := argument_bind (c := c) (s := s'.looked 0) (n := n)
      (separatedRest (.punctuator .comma) (.punctuator .parenthesisClose)
        (argument (.within (n + 1))) k)
    rw [hrun]
    have hlooked := ((s.agrees_looked 0).symm.trans hs).trans (s'.agrees_looked 0)
    refine item_includes (fun _ => (Keeps.since _).keptBind fun _ => hrest _) ?_ ?_
    · -- Both lists take a mark before the item.
      obtain ⟨rfl, hmark⟩ | ⟨rfl, hmark⟩ := hx
      · have hparameter : parameter (.within (n + 1))
            = accept (.punctuator .dotDotDot) >>= parameterTail (.within (n + 1)) := rfl
        rw [hparameter, accept_bind, if_pos (hlooked.position ▸ hmark)]
        exact parameterTail_item (Nat.le_refl n) whole_readsItems true hlooked.advanced
      · exact parameter_item (Nat.le_refl n) whole_readsItems
          (hlooked.trans ((s'.looked 0).agrees_looked 0)) (hlooked.position ▸ hmark)
    · intro first u w left inserted steps hw hends
      cases steps with
      | zero => exact .of_exhausted _ _
      | succ steps =>
        have hends' : (ExprMode.whole argumentStops).ends (c.token w.position) = true := by
          rw [hw.position, ExprMode.ends]
          obtain hends | hends := hends
          · rw [hends]
            rfl
          · rw [hends]
            rfl
        rw [climb_of_ends hends', since_bind]
        have hw := hw.trans (w.agrees_looked 0)
        by_cases hcomma : (c.token u.position).kind = .punctuator .comma
        · have hcomma' : (c.token (w.looked 0).position).kind = .punctuator .comma := by
            rw [hw.position]
            exact hcomma
          rw [separatedRest, separatedRest, accept_bind, accept_bind, if_pos hcomma,
            if_pos hcomma', if_pos rfl, if_pos rfl]
          exact .append (.prepend (ih hw.advanced) fun _ => .pure _) fun _ => .pure _
        · exact separatedRest_includes hcomma (.of_keeps (hrest _) hw.scopes)

/-- **Parameters in parentheses and arguments.** -/
theorem parameters_arguments (n : Nat) (hs : s.Agrees s')
    (hopen : (c.token s.position).kind = .punctuator .parenthesisOpen) :
    Includes c (parameters (.within n) c s) (callArguments (.within n) c s'.advanced) := by
  rw [parameters, discard_bind, bind_apply, require_run, if_pos hopen]
  cases n with
  | zero => exact .exhausted _ _
  | succ n => exact parameters_separated_arguments n (n + 1) hs.advanced

/-- Parameters through the arrow, where they begin with a parenthesis. -/
theorem arrowParameters_includes {n : Nat} {r' : EStateM.Result Failure State β}
    (hopen : (c.token s.position).kind = .punctuator .parenthesisOpen)
    (h : Includes c (parameters (.within n) c ((s.looked 0).looked 1)) r') :
    Includes c (arrowParameters (.within n) false c s) r' := by
  have hallows : c.names.allows (c.token s.position).kind = false := by
    rw [hopen]
    rfl
  have hparameters : beforeArrow (.within n) c s
      = parameters (.within n) c ((s.looked 0).looked 1) := by
    rw [beforeArrow, look_bind, look_bind, nameRules_bind, ite_run]
    simp only [Nat.add_zero, hallows, Bool.false_and, Bool.false_eq_true, if_false]
  rw [arrowParameters_eq]
  refine .prepend ?_ fun _ => .bind .arrowSign fun _ => .pure _
  rw [withNames_run]
  show Includes c (beforeArrow (.within n) c s) r'
  rw [hparameters]
  exact h

/-- Before an arrow the word `async` makes no difference where `await` is no token. -/
theorem arrowParameters_async {n : Nat}
    (hawait : ∀ i, s.position ≤ i → (c.token i).kind ≠ .keyword .kAwait) :
    arrowParameters (.within n) true c s = arrowParameters (.within n) false c s := by
  have hsteps := (Rules.within_impartial n).steps (Rules.within_reading n)
  have hsame := (hsteps.lists.beforeArrow).same (c := c) (s := s) (r := c.names.forAsync true)
    trivial fun i hi _ => ?_
  · rw [arrowParameters_eq, arrowParameters_eq, bind_apply, bind_apply, withNames_run,
      withNames_run, hsame]
    rfl
  · rw [NameRules.allows_eq, NameRules.allows_eq c.names, if_neg (hawait i hi), if_neg (hawait i hi)]
    rfl

/-- **Tried parameters and an expression in parentheses.** -/
theorem arrowParameters_grouping (n : Nat) (insertion : Bool)
    (hopen : (c.token s.position).kind = .punctuator .parenthesisOpen) (hs : s.Agrees s') :
    Includes c (arrowParameters (.within n) false c s) (grouping (.within n) insertion c s') :=
  arrowParameters_includes hopen <| parameters_grouping n insertion
    (((s.agrees_looked 0).trans ((s.looked 0).agrees_looked 1)).symm.trans hs)

/-- **Tried parameters and arguments.** -/
theorem arrowParameters_arguments (n : Nat)
    (hopen : (c.token s.position).kind = .punctuator .parenthesisOpen)
    (hawait : ∀ i, s.position ≤ i → (c.token i).kind ≠ .keyword .kAwait) (hs : s.Agrees s') :
    Includes c (arrowParameters (.within n) true c s) (callArguments (.within n) c s'.advanced) := by
  rw [arrowParameters_async hawait]
  exact arrowParameters_includes hopen <| parameters_arguments n
    (((s.agrees_looked 0).trans ((s.looked 0).agrees_looked 1)).symm.trans hs) hopen

end Grammar

end EcmaScript
