import EcmaScript.Proofs.Grammar.Reading

namespace EcmaScript

open EcmaScript.Parser

/-!
# Expressions that end at the same tokens

One text can be read as an expression in several ways. Where two ways end at the same tokens, and
only one of them may insert a semicolon, they come to the same end, unless the stricter one fails at
a token at which nothing can go on.

* `ExprMode.ends` — does a token end an expression?
* `ExprMode.Near` — two ways to read an expression that end it at the same tokens;
* `State.Stuck` — before a token at which no expression goes on;
* `NearOutcome` — the same end, or an end at such a token;
* `Rules.within_near` — expressions come to it, whatever the budget is.
-/

/-! ### Tokens that end an expression -/

namespace ExprMode

/-- A stop, or an operator that binds less tightly, ends the expression. -/
def ends (m : ExprMode) (t : Token) : Bool :=
  m.stops.contains t.kind ||
    match (Operator.update? t.kind).filter fun _ => !t.newlineBefore with
    | some op => op.precedence < m.least
    | none =>
      match Operator.following? t.kind with
      | some op => op.precedence < m.least
      | none => false

/-- Both end at the same tokens; the comma may end one as a stop and the other one as an operator.
A semicolon may be inserted behind the second one if it may behind the first one. -/
structure Near (m m' : ExprMode) : Prop where
  insertion : m.insertion = true → m'.insertion = true
  stops {kind : TokenKind} : kind ≠ .punctuator .comma → (kind ∈ m.stops ↔ kind ∈ m'.stops)
  comma : .punctuator .comma ∈ m.stops ∨ Operator.comma.precedence < m.least ↔
    .punctuator .comma ∈ m'.stops ∨ Operator.comma.precedence < m'.least
  least {op : Operator} : Operator.assignment.precedence ≤ op.precedence →
    (op.precedence < m.least ↔ op.precedence < m'.least)

end ExprMode

/-- Behind an operand no operator but the comma binds less tightly than an assignment. -/
theorem Operator.precedence_of_following? {kind : TokenKind} {op : Operator}
    (h : following? kind = some op) (hkind : kind ≠ .punctuator .comma) :
    assignment.precedence ≤ op.precedence := by
  unfold following? at h
  split at h
  all_goals first
    | exact absurd rfl hkind
    | cases h
  all_goals decide

theorem Operator.precedence_of_update? {kind : TokenKind} {op : Operator}
    (h : update? kind = some op) : assignment.precedence ≤ op.precedence := by
  unfold update? at h
  split at h
  · cases h
    decide
  · cases h
    decide
  · cases h

namespace ExprMode.Near

variable {m m' : ExprMode}

/-- An operand binds more tightly than the comma, and then the comma ends it anyway. -/
theorem operand (h : m.Near m') {least : Nat} (hleast : Operator.comma.precedence < least) :
    Near { m with least := least } { m' with least := least } :=
  ⟨h.insertion, h.stops, iff_of_true (.inr hleast) (.inr hleast), fun _ => Iff.rfl⟩

theorem assignment (h : m.Near m') :
    Near (ExprMode.assignment m.stops) (ExprMode.assignment m'.stops) :=
  have hleast : Operator.comma.precedence < Operator.assignment.precedence := by decide
  ⟨id, h.stops, iff_of_true (.inr hleast) (.inr hleast), fun _ => Iff.rfl⟩

theorem contains_eq (h : m.Near m') {kind : TokenKind} (hkind : kind ≠ .punctuator .comma) :
    m.stops.contains kind = m'.stops.contains kind := by
  rw [Bool.eq_iff_iff, List.contains_iff_mem, List.contains_iff_mem]
  exact h.stops hkind

theorem ends_eq (h : m.Near m') (t : Token) : m.ends t = m'.ends t := by
  by_cases hcomma : t.kind = .punctuator .comma
  · have hall (m : ExprMode) : m.ends t =
        decide (.punctuator .comma ∈ m.stops ∨ Operator.comma.precedence < m.least) := by
      rw [ends, hcomma, Bool.decide_or]
      simp [Operator.update?, Operator.following?]
    rw [hall, hall]
    exact decide_eq_decide.2 h.comma
  · rw [ends, ends, h.contains_eq hcomma]
    congr 1
    cases hupdate : (Operator.update? t.kind).filter fun _ => !t.newlineBefore with
    | some op =>
      have hop := Operator.precedence_of_update? (Option.filter_eq_some_iff.1 hupdate).1
      exact decide_eq_decide.2 (h.least hop)
    | none =>
      cases hfollowing : Operator.following? t.kind with
      | some op =>
        have hop := Operator.precedence_of_following? hfollowing hcomma
        exact decide_eq_decide.2 (h.least hop)
      | none => rfl

/-- The comma ends an operand of `yield` whatever the stops are. -/
theorem endsYield_eq (h : m.Near m') (t : Token) :
    Grammar.endsYield m.stops t = Grammar.endsYield m'.stops t := by
  by_cases hcomma : t.kind = .punctuator .comma
  · rw [Grammar.endsYield, Grammar.endsYield, hcomma, Bool.or_true, Bool.or_true]
  · rw [Grammar.endsYield, Grammar.endsYield, h.contains_eq hcomma]

end ExprMode.Near

/-! ### Tokens at which nothing goes on -/

/-- Before a token that is no stop and no operator. -/
structure State.Stuck (c : Context) (stops : List TokenKind) (t : State) : Prop where
  stop : (c.token t.position).kind ∉ stops
  update : ((Operator.update? (c.token t.position).kind).filter
    fun _ => !(c.token t.position).newlineBefore) = none
  following : Operator.following? (c.token t.position).kind = none

/-- The second run comes to the same end, or the first one fails at a token at which nothing goes on
and the second one ends before such a token, in the same classes, if it ends well. -/
inductive NearOutcome {α : Type} (c : Context) (stops : List TokenKind) :
    EStateM.Result Failure State α → EStateM.Result Failure State α → Prop where
  | same (r : EStateM.Result Failure State α) : NearOutcome c stops r r
  | stuck {u : State} {r' : EStateM.Result Failure State α} (t : Token) :
    (∀ a v, r' = .ok a v → v.Stuck c stops ∧ v.scopes = u.scopes) →
    NearOutcome c stops (.error (.error (t.misplaced .unexpectedToken)) u) r'

/-- The parser does not go on where nothing goes on. -/
def StaysStuck {α : Type} (stops : List TokenKind) (p : Parser α) : Prop :=
  ∀ ⦃c : Context⦄ ⦃s t : State⦄ ⦃a : α⦄, s.Stuck c stops → p c s = .ok a t →
    t.Stuck c stops ∧ t.scopes = s.scopes

namespace NearOutcome

variable {α β : Type} {c : Context} {stops : List TokenKind} {s : State}

theorem bind {p p' : Parser α} {f f' : α → Parser β}
    (hp : NearOutcome c stops (p c s) (p' c s))
    (hf : ∀ a u, p c s = .ok a u → NearOutcome c stops (f a c u) (f' a c u))
    (hstuck : ∀ a, StaysStuck stops (f' a)) :
    NearOutcome c stops ((p >>= f) c s) ((p' >>= f') c s) := by
  rw [bind_apply, bind_apply]
  generalize hr : p c s = r at hp hf
  generalize hr' : p' c s = r' at hp
  cases hp with
  | same r =>
    cases r with
    | ok a u => exact hf a u rfl
    | error e u => exact .same _
  | stuck t h =>
    refine .stuck t fun b w hw => ?_
    cases r' with
    | error e u => cases hw
    | ok a v =>
      obtain ⟨hv, hscopes⟩ := h a v rfl
      obtain ⟨hw, hsame⟩ := hstuck a hv hw
      exact ⟨hw, hsame.trans hscopes⟩

/-- What comes before is the same in both. -/
theorem behind (p : Parser α) {f f' : α → Parser β}
    (hf : ∀ a u, NearOutcome c stops (f a c u) (f' a c u)) :
    NearOutcome c stops ((p >>= f) c s) ((p >>= f') c s) := by
  rw [bind_apply, bind_apply]
  cases p c s with
  | ok a u => exact hf a u
  | error e u => exact .same _

/-- The names do not decide where nothing goes on. -/
theorem withNames {names : NameRules} {r r' : EStateM.Result Failure State α}
    (h : NearOutcome { c with names := names } stops r r') : NearOutcome c stops r r' := by
  cases h with
  | same r => exact .same r
  | stuck t h =>
    refine .stuck t fun a v hv => ?_
    obtain ⟨hstuck, hscopes⟩ := h a v hv
    exact ⟨⟨hstuck.stop, hstuck.update, hstuck.following⟩, hscopes⟩

theorem spanned {p p' : Parser (Span → α)} (hp : NearOutcome c stops (p c s) (p' c s)) :
    NearOutcome c stops (Parser.spanned p c s) (Parser.spanned p' c s) := by
  rw [spanned_run, spanned_run]
  generalize p c s = r at hp
  generalize p' c s = r' at hp
  cases hp with
  | same r => exact .same _
  | stuck t h =>
    refine .stuck t fun b w hw => ?_
    cases r' with
    | error e u => cases hw
    | ok make v =>
      injection hw with _ hv
      subst hv
      exact h make v rfl

end NearOutcome

namespace StaysStuck

variable {α β : Type} {stops : List TokenKind}

theorem pure (a : α) : StaysStuck stops (Pure.pure a : Parser α) := by
  intro c s t b hs h
  obtain ⟨-, rfl⟩ := pure_ok_iff.1 h
  exact ⟨hs, rfl⟩

theorem bind {p : Parser α} {f : α → Parser β} (hp : StaysStuck stops p)
    (hf : ∀ a, StaysStuck stops (f a)) : StaysStuck stops (p >>= f) := by
  intro c s t b hs h
  obtain ⟨a, u, ha, hb⟩ := bind_ok_iff.1 h
  obtain ⟨hu, hscopes⟩ := hp hs ha
  obtain ⟨ht, hscopes'⟩ := hf a hu hb
  exact ⟨ht, hscopes'.trans hscopes⟩

theorem since (start : Nat) : StaysStuck stops (Parser.since start) := by
  intro c s t b hs h
  rw [since_run] at h
  injection h with _ h
  exact ⟨h ▸ hs, h ▸ rfl⟩

theorem checkDelete (op : Token) (argument : Expr) :
    StaysStuck stops (Grammar.checkDelete op argument) := by
  intro c s t b hs h
  obtain ⟨rfl, -⟩ := Grammar.checkDelete_ok h
  exact ⟨hs, rfl⟩

end StaysStuck

namespace Grammar

variable {g : Rules} {c : Context} {s t : State} {m m' : ExprMode}

/-! ### One step of an expression -/

/-- How an expression goes on at a token. -/
theorem climb_step (m : ExprMode) (left : Expr) (inserted : Bool) (n : Nat) :
    climb g m left inserted (n + 1) c s =
      if m.ends (c.token s.position) then .ok (left, inserted) (s.looked 0)
      else
        match (Operator.update? (c.token s.position).kind).filter
            fun _ => !(c.token s.position).newlineBefore with
        | some op =>
          climb g m (.update (left.span ∪ (c.token s.position).span) op left) inserted n c s.advanced
        | none =>
          match Operator.following? (c.token s.position).kind with
          | some op =>
            (continuation g m s.position op left >>= fun found =>
              climb g m found.1 (inserted || found.2) n) c s.advanced
          | none =>
            if m.insertion && allowsInsertion (c.token s.position) then
              .ok (left, true) (s.looked 0)
            else .error (.error ((c.token s.position).misplaced .unexpectedToken)) s.advanced := by
  rw [climb, position_bind, next_bind, ite_run, ExprMode.ends]
  by_cases hstop : m.stops.contains (c.token s.position).kind = true
  · rw [if_pos hstop, hstop, Bool.true_or, if_pos rfl]
    rfl
  rw [if_neg hstop, Bool.eq_false_iff.2 hstop, Bool.false_or]
  cases (Operator.update? (c.token s.position).kind).filter
      fun _ => !(c.token s.position).newlineBefore with
  | some op =>
    dsimp only
    rw [ite_run]
    by_cases hless : op.precedence < m.least
    · rw [if_pos hless, if_pos (decide_eq_true hless)]
      rfl
    · rw [if_neg hless, if_neg (mt of_decide_eq_true hless)]
  | none =>
    cases Operator.following? (c.token s.position).kind with
    | some op =>
      dsimp only
      rw [ite_run]
      by_cases hless : op.precedence < m.least
      · rw [if_pos hless, if_pos (decide_eq_true hless)]
        rfl
      · rw [if_neg hless, if_neg (mt of_decide_eq_true hless)]
    | none =>
      dsimp only
      rw [ite_run, if_neg Bool.false_ne_true]
      rfl

/-- Nothing goes on there. -/
theorem climb_staysStuck (m : ExprMode) (left : Expr) (inserted : Bool) (n : Nat) :
    StaysStuck m.stops (climb g m left inserted n) := by
  intro c s t a hs h
  cases n with
  | zero => cases h
  | succ n =>
    have hends : m.ends (c.token s.position) = false := by
      rw [ExprMode.ends, hs.update, hs.following, Bool.or_false, Bool.eq_false_iff, ne_eq,
        List.contains_iff_mem]
      exact hs.stop
    rw [climb_step, hends, hs.update, hs.following, if_neg Bool.false_ne_true] at h
    dsimp only at h
    split at h
    · injection h with _ h
      subst h
      exact ⟨⟨hs.stop, hs.update, hs.following⟩, rfl⟩
    · cases h

end Grammar

/-! ### Rules -/

/-- Expressions come to the same end in modes that end them at the same tokens. -/
def Rules.Nearing (g : Rules) : Prop :=
  ∀ ⦃m m' : ExprMode⦄, m.Near m' → ∀ (c : Context) (s : State),
    NearOutcome c m'.stops (g.expr m c s) (g.expr m' c s)

namespace Grammar

variable {g : Rules} {m m' : ExprMode}

/-- Every operand is bound more tightly than by a comma. -/
theorem comma_lt_operandPrecedence (op : Operator) :
    Operator.comma.precedence < op.operandPrecedence := by
  cases op <;> decide

theorem continuation_near (hg : g.Nearing) (hm : m.Near m') (start : Nat) (op : Operator)
    (left : Expr) (c : Context) (s : State) :
    NearOutcome c m'.stops (continuation g m start op left c s)
      (continuation g m' start op left c s) := by
  have right (least : Nat) (hleast : Operator.comma.precedence < least)
      (f : Expr × Bool → Expr × Bool) (u : State) :
      NearOutcome c m'.stops ((do return f (← g.expr { m with least := least })) c u)
        ((do return f (← g.expr { m' with least := least })) c u) :=
    (hg (hm.operand hleast) c u).bind (fun _ _ _ => .same _) fun _ => .pure _
  unfold continuation
  split
  · exact .same _
  · exact .same _
  · refine .behind _ fun consequent u => ?_
    refine .behind _ fun _ v => ?_
    exact right _ (by decide) (fun found =>
      (.conditional (left.span ∪ found.1.span) left consequent found.1, found.2)) v
  · exact .same _
  · have binary (u : State) := right op.operandPrecedence (comma_lt_operandPrecedence op)
      (fun found => (.binary (left.span ∪ found.1.span) op left found.1, found.2)) u
    split
    · exact .behind _ fun _ u => binary u
    · exact .behind (pure PUnit.unit) fun _ u => binary u

theorem climb_near (hg : g.Nearing) (hm : m.Near m') (left : Expr) (inserted : Bool) (n : Nat)
    (c : Context) (s : State) :
    NearOutcome c m'.stops (climb g m left inserted n c s) (climb g m' left inserted n c s) := by
  induction n generalizing left inserted s with
  | zero => exact .same _
  | succ n ih =>
    rw [climb_step, climb_step, hm.ends_eq]
    split
    next => exact .same _
    next hends =>
      split
      next => exact ih _ _ _
      next hupdate =>
        split
        next op _ =>
          have hnear := continuation_near hg hm s.position op left c s.advanced
          refine hnear.bind (fun found u _ => ih _ _ u) fun found => ?_
          exact climb_staysStuck m' _ _ n
        next hfollowing =>
          have hstuck : (s.looked 0).Stuck c m'.stops := by
            refine ⟨fun hstop => hends ?_, hupdate, hfollowing⟩
            have hstop : (c.token s.position).kind ∈ m'.stops := hstop
            rw [ExprMode.ends, List.contains_iff_mem.2 hstop, Bool.true_or]
          cases hinsert : m.insertion with
          | true =>
            rw [hm.insertion hinsert]
            exact .same _
          | false =>
            -- Only the second one may insert a semicolon, where nothing goes on.
            rw [Bool.false_and, if_neg Bool.false_ne_true]
            split
            · refine .stuck _ fun a v hv => ?_
              injection hv with _ hv
              subst hv
              exact ⟨hstuck, rfl⟩
            · exact .same _

theorem unary_near (hg : g.Nearing) (hm : m.Near m') (leading : Operator) (c : Context)
    (s : State) : NearOutcome c m'.stops (unary g m leading c s) (unary g m' leading c s) := by
  rw [unary_eq, unary_eq]
  refine .behind _ fun start u => ?_
  refine .behind _ fun token v => ?_
  refine .behind _ fun op w => ?_
  unfold unaryRest
  refine .behind _ fun following x => ?_
  refine .bind ?_ (fun _ _ _ => .same _) fun found => ?_
  · unfold unaryArgument
    rw [hm.endsYield_eq]
    split
    · exact .same _
    · exact hg (hm.operand (comma_lt_operandPrecedence op)) c x
  · have tail : StaysStuck m'.stops (do
        return (Expr.unary (← since start) op found.1, found.2)) :=
      .bind (.since start) fun _ => .pure _
    split
    · exact .bind (.checkDelete token found.1) fun _ => tail
    · exact tail

theorem arrowBody_near (hg : g.Nearing) (hm : m.Near m') (c : Context) (s : State) :
    NearOutcome c m'.stops (arrowBody g m.stops c s) (arrowBody g m'.stops c s) := by
  unfold arrowBody
  refine .behind _ fun t u => ?_
  split
  · exact .same _
  · exact (hg hm.assignment c u).bind (fun _ _ _ => .same _) fun _ => .pure _

theorem arrowFunction_near (hg : g.Nearing) (hm : m.Near m') (c : Context) (s : State) :
    NearOutcome c m'.stops (arrowFunction g m.stops c s) (arrowFunction g m'.stops c s) := by
  unfold arrowFunction
  have tail (async : Bool) (u : State) : NearOutcome (α := Span → Expr) c m'.stops
      ((do
        let params ← arrowParameters g async
        let body ← withNames (·.forAsync async) (arrowBody g m.stops)
        return fun span => Expr.arrow span (.mk span true async false params body)) c u)
      ((do
        let params ← arrowParameters g async
        let body ← withNames (·.forAsync async) (arrowBody g m'.stops)
        return fun span => Expr.arrow span (.mk span true async false params body)) c u) := by
    refine .behind _ fun params v => ?_
    refine .bind ?_ (fun _ _ _ => .same _) fun _ => .pure _
    exact (arrowBody_near hg hm _ v).withNames
  refine .spanned (.behind _ fun second u => ?_)
  split
  · exact .behind _ fun async v => tail async v
  · exact .behind _ fun async v => tail async v

/-- Between parentheses the stop is required. -/
theorem grouping_near (hg : g.Nearing) {insertion insertion' : Bool}
    (hinsertion : insertion = true → insertion' = true) (stops : List TokenKind) (c : Context)
    (s : State) : NearOutcome c stops (grouping g insertion c s) (grouping g insertion' c s) := by
  have hmode : ExprMode.Near ⟨Operator.comma.precedence, [.punctuator .parenthesisClose], insertion⟩
      ⟨Operator.comma.precedence, [.punctuator .parenthesisClose], insertion'⟩ :=
    ⟨hinsertion, fun _ => Iff.rfl, Iff.rfl, fun _ => Iff.rfl⟩
  refine .behind _ fun _ u => ?_
  have hinside := hg hmode c u
  rw [bind_apply, bind_apply]
  generalize g.expr _ c u = r at hinside
  generalize g.expr _ c u = r' at hinside
  cases hinside with
  | same r => exact .same _
  | stuck t h =>
    refine .stuck t fun a v hv => ?_
    cases r' with
    | error e w => cases hv
    | ok found w =>
      -- The closing parenthesis is not there.
      simp only [discard_bind, require_bind_ok_iff] at hv
      exact absurd (List.mem_singleton.2 hv.1) (h found w rfl).1.stop

theorem arrowOrGrouping_near (hg : g.Nearing) (hm : m.Near m') (c : Context) (s : State) :
    NearOutcome c m'.stops (arrowOrGrouping g m.stops m.insertion c s)
      (arrowOrGrouping g m'.stops m'.insertion c s) := by
  refine .behind _ fun start u => ?_
  refine .behind _ fun found v => ?_
  split
  · refine .behind _ fun _ w => ?_
    exact (arrowFunction_near hg hm c w).bind (fun _ _ _ => .same _) fun _ => .pure _
  · split
    · exact .same _
    · exact .behind _ fun _ w => grouping_near hg hm.insertion _ c w

/-- What `async` begins comes before the other operands. -/
theorem asyncOperand?_near (hg : g.Nearing) (hm : m.Near m') (first second third : Token)
    {f f' : Option Expr → Parser (Expr × Bool)} (hsome : ∀ e, f (some e) = pure (e, false))
    (hsome' : ∀ e, f' (some e) = pure (e, false)) {c : Context}
    (hnone : ∀ u, NearOutcome c m'.stops (f none c u) (f' none c u)) (s : State) :
    NearOutcome c m'.stops ((asyncOperand? g m.stops first second third >>= f) c s)
      ((asyncOperand? g m'.stops first second third >>= f') c s) := by
  have none (u : State) : NearOutcome c m'.stops ((pure none >>= f) c u)
      ((pure none >>= f') c u) := hnone u
  have arrow (u : State) : NearOutcome c m'.stops
      (((do return some (← arrowFunction g m.stops)) >>= f) c u)
      (((do return some (← arrowFunction g m'.stops)) >>= f') c u) := by
    simp only [bind_assoc, pure_bind, hsome, hsome']
    exact (arrowFunction_near hg hm c u).bind (fun _ _ _ => .same _) fun _ => .pure _
  unfold asyncOperand?
  split
  · exact none s
  split
  · simp only [bind_assoc]
    refine .behind _ fun start u => .behind _ fun _ v => .behind _ fun found w => ?_
    refine .behind _ fun _ x => ?_
    split
    · exact arrow x
    · exact none x
  split
  · simp only [bind_assoc, pure_bind, hsome, hsome']
    exact .behind _ fun _ _ => .same _
  · rw [bind_assoc, bind_assoc]
    refine .behind _ fun rules u => ?_
    split
    · exact arrow u
    · exact none u

theorem atom_near (hg : g.Nearing) (hm : m.Near m') (first : Token) (c : Context) (s : State) :
    NearOutcome c m'.stops (atom g m first c s) (atom g m' first c s) := by
  have hatom : atom g m first = atom g m' first
      ∨ atom g m first = arrowOrGrouping g m.stops m.insertion
        ∧ atom g m' first = arrowOrGrouping g m'.stops m'.insertion := by
    unfold atom
    split
    case h_12 => exact .inr ⟨rfl, rfl⟩
    all_goals exact .inl rfl
  obtain hatom | ⟨hatom, hatom'⟩ := hatom
  · rw [hatom]
    exact .same _
  · rw [hatom, hatom']
    exact arrowOrGrouping_near hg hm c s

theorem operand_near (hg : g.Nearing) (hm : m.Near m') (c : Context) (s : State) :
    NearOutcome c m'.stops (operand g m c s) (operand g m' c s) := by
  refine .behind _ fun first u => .behind _ fun second v => .behind _ fun third w => ?_
  refine .behind _ fun rules x => ?_
  cases leadingOperator? rules first.kind with
  | some op => exact unary_near hg hm op c x
  | none =>
    refine asyncOperand?_near hg hm first second third (fun _ => rfl) (fun _ => rfl) (fun y => ?_) x
    dsimp only
    split
    · split
      · exact (arrowFunction_near hg hm c y).bind (fun _ _ _ => .same _) fun _ => .pure _
      · exact .same _
    · exact atom_near hg hm first c y

theorem expression_near (hg : g.Nearing) (hm : m.Near m') (c : Context) (s : State) :
    NearOutcome c m'.stops (expression g m c s) (expression g m' c s) :=
  (operand_near hg hm c s).bind (fun _ u _ => climb_near hg hm _ _ _ c u)
    fun _ => climb_staysStuck m' _ _ _

end Grammar

/-- **Every budget.** -/
theorem Rules.within_near (n : Nat) : (within n).Nearing := by
  induction n with
  | zero => exact fun _ _ _ _ _ => .same _
  | succ n ih => exact fun _ _ hm c s => Grammar.expression_near ih hm c s

end EcmaScript
