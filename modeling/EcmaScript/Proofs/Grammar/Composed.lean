import EcmaScript.Proofs.Grammar.Composing

namespace EcmaScript

open EcmaScript.Parser

/-!
# Whole scripts, put together from parts

* `Composing.operand`, `Composing.expression` — a property that goes from the parts to the whole
  holds of expressions, given what it does where parameters are tried;
* `Composing.statement` — it holds of statements;
* `Composing.within`, `Composing.program`, `Composing.script` — so it holds of both, whatever the
  budget is, and of whole scripts;
* `Compositional.within`, `Compositional.script` — so does a compositional property, of which
  nothing is left to be given.
-/

namespace Composing

open EcmaScript.Grammar

variable {Y Z : RunRel} {g : Rules} {c : Context} {s t u : State} {ns ms : List Node}

/-! ### Operands -/

theorem callArguments (hY : Composing Y Z) (hg : g.Composed Y) {as : List Arg}
    (h : callArguments g c s = .ok as t) : Y c s t (as.map .arg) := by
  refine hY.separated (by decide) (by decide) (fun hitem span => ?_) h
  simp only [bind_ok_iff, pure_ok_iff] at hitem
  obtain ⟨_, _, hspread, _, _, hvalue, rfl, rfl⟩ := hitem
  exact hY.plain rfl (hY.append (hY.accept hspread (by decide)) (hg.whole (by decide) hvalue))

theorem variableUse (hY : Composing Y Z) {e : Expr} (h : variableUse c s = .ok e t) :
    Y c s t [.expr e] := by
  have hplace := (variableUse_measured h).enclosed
  simp only [Grammar.variableUse, spanned_ok_iff, bind_ok_iff, pure_ok_iff] at h
  obtain ⟨_, ⟨_, _, hname, rfl, rfl⟩, rfl⟩ := h
  have hpermits := variableName_permits hname
  obtain ⟨hallowed, rfl⟩ := variableName_ok hname
  exact hY.node rfl ⟨trivial, hpermits, fun _ => hplace, .of_none rfl⟩
    (hY.token (NameRules.ne_privateName_of_allows hallowed))

theorem superReference (hY : Composing Y Z) {e : Expr} (hguards : ¬ c.Guards s)
    (h : superReference c s = .ok e t) : Y c s t [.expr e] := by
  have hplace := (superReference_measured h).enclosed
  simp only [Grammar.superReference, spanned_ok_iff, discard_bind, require_bind_ok_iff,
    pure_ok_iff] at h
  obtain ⟨_, ⟨hword, rfl, rfl⟩, rfl⟩ := h
  refine hY.node rfl ⟨trivial, fun h => hguards ?_, fun _ => hplace, .of_none rfl⟩
    (hY.word hword (by decide))
  exact ⟨h.checks, h.inInitializer⟩

theorem thisReference (hY : Composing Y Z) {e : Expr} (h : thisReference c s = .ok e t) :
    Y c s t [.expr e] := by
  have hplace := (thisReference_measured h).enclosed
  simp only [Grammar.thisReference, spanned_ok_iff, discard_bind, bind_ok_iff, pure_ok_iff] at h
  obtain ⟨_, ⟨_, _, hword, rfl, rfl⟩, rfl⟩ := h
  exact hY.plainExpr rfl (fun _ => hplace) (hY.require hword (by decide))

theorem unary (hY : Composing Y Z) (hg : g.Composed Y) {mode : ExprMode} (hmode : mode.TakesCalls)
    {leading : Operator} (hleading : leading.operandPrecedence ≤ Operator.call.precedence)
    {a : Expr × Bool} (hplain : (c.token s.position).kind.isPlain)
    (hword : (c.token s.position).kind ≠ .privateName)
    (h : unary g mode leading c s = .ok a t) : Y c s t [.expr a.1] := by
  have hplace := (unary_measured hg.reading hplain h).enclosed
  obtain ⟨op, u, argument, hop, hargument, hdelete, ha⟩ := unary_ok h
  obtain ⟨hop, hprecedence⟩ : Y c s.advanced u []
      ∧ op.operandPrecedence ≤ Operator.call.precedence := by
    rw [unaryOperator, ite_run] at hop
    split at hop
    · obtain ⟨star, v, hstar, hop⟩ := bind_ok_iff.1 hop
      obtain ⟨rfl, rfl⟩ := pure_ok_iff.1 hop
      exact ⟨hY.accept hstar (by decide), by cases star <;> decide⟩
    · obtain ⟨rfl, rfl⟩ := pure_ok_iff.1 hop
      exact ⟨hY.place (.refl _), hleading⟩
  have hop := hY.beforeLooks (hY.append (hY.token hword) hop) ((State.SamePlace.refl u).looked 0)
  rw [ha] at hplace ⊢
  refine hY.node rfl ⟨hdelete, fun _ => trivial, fun _ => hplace, .of_none rfl⟩ (hY.append hop ?_)
  rw [unaryArgument, ite_run] at hargument
  split at hargument
  · obtain ⟨hmissing, rfl⟩ := pure_ok_iff.1 hargument
    obtain ⟨rfl, -⟩ := Prod.mk.inj hmissing
    have hname : "undefined" ≠ "arguments" := by decide
    have hmissing := missingOperand_enclosed hplain
    exact hY.node rfl ⟨trivial, fun _ => hname, fun _ => hmissing, .of_none rfl⟩
      (hY.place (.refl _))
  · exact hg.expr (ExprMode.Family.ofTakesCalls.operand hmode hprecedence) hargument

theorem ne_privateName_of_leadingOperator? {rules : NameRules} {kind : TokenKind} {op : Operator}
    (h : leadingOperator? rules kind = some op) : kind ≠ .privateName := by
  rintro rfl
  cases h

/-- What `async` begins, given what was tried and what was tried in vain. -/
theorem asyncOperand? (hY : Composing Y Z) (hg : g.Composed Y) {stops : List TokenKind}
    (hstops : .punctuator .parenthesisOpen ∉ stops) {first second third : Token}
    (htried : ∀ {ps : List Param} {u : State} {e : Expr}, first.kind = .keyword .kAsync →
      second.kind = .punctuator .parenthesisOpen →
      Grammar.arrowParameters g true c s.advanced = .ok ps u →
      Grammar.arrowFunction g stops c { u with position := s.position } = .ok e t →
      Y c s t [.expr e])
    (hvain : ∀ {e : SyntaxError} {u : State}, first.kind = .keyword .kAsync →
      second.kind = .punctuator .parenthesisOpen →
      Grammar.arrowParameters g true c s.advanced = .error (.error e) u →
      Y c s { u with position := s.position } [])
    {a : Option Expr} (h : asyncOperand? g stops first second third c s = .ok a t) :
    Y c s t (a.toList.map .expr) := by
  obtain ⟨e, rfl, ⟨ps, u, hasync, hopen, hparams, harrow⟩ | hfunc | harrow⟩
    | ⟨rfl, rfl | ⟨e, u, hasync, hopen, hparams, rfl⟩⟩ := asyncOperand?_ok h
  · exact htried hasync hopen hparams harrow
  · exact hY.functionExpression hg hfunc
  · exact hY.arrowFunction hg hstops harrow
  · exact hY.place (.refl _)
  · exact hvain hasync hopen hparams

theorem atom (hY : Composing Y Z) (hg : g.Composed Y) {mode : ExprMode} {first : Token}
    {a : Expr × Bool}
    (hgroup : first.kind = .punctuator .parenthesisOpen →
      Grammar.arrowOrGrouping g mode.stops mode.insertion c s = .ok a t → Y c s t [.expr a.1])
    (h : atom g mode first c s = .ok a t) : Y c s t [.expr a.1] := by
  obtain ⟨hopen, h⟩ | ⟨e, rfl, h | h | h | h | h | h | h | h | h | h⟩ := atom_ok h
  · exact hgroup hopen h
  · exact hY.arrayLiteral hg h
  · exact hY.objectLiteral hg h
  · exact hY.classExpression hg h
  · exact hY.functionExpression hg h
  · exact hY.superReference h.2 h.1
  · exact hY.thisReference h
  · exact hY.boolLiteral h
  · exact hY.nullLiteral h
  · exact hY.numberLiteral h
  · exact hY.stringLiteral h

/-- What an expression begins with, given how `async` and a parenthesis begin one. -/
theorem operand (hY : Composing Y Z) (hg : g.Composed Y) {mode : ExprMode}
    (hmode : mode.TakesCalls) {a : Expr × Bool}
    (hasync : ∀ {u v : State} {found : Option Expr}, s.SamePlace u →
      Grammar.asyncOperand? g mode.stops (c.token s.position) (c.token (s.position + 1))
        (c.token (s.position + 2)) c u = .ok found v → Y c u v (found.toList.map .expr))
    (hgroup : ∀ {u : State}, (c.token u.position).kind = .punctuator .parenthesisOpen →
      Grammar.arrowOrGrouping g mode.stops mode.insertion c u = .ok a t → Y c u t [.expr a.1])
    (h : operand g mode c s = .ok a t) : Y c s t [.expr a.1] := by
  obtain ⟨u, hu, ⟨_, hop, h⟩ | ⟨found, v, hfound, h⟩⟩ := operand_ok h
  · have hleading := leadingOperator?_precedence hop
    rw [← hu.position] at hop
    have hne := ne_privateName_of_leadingOperator? hop
    exact hY.behindLooks hu (hY.unary hg hmode hleading (leadingOperator?_isPlain hop) hne h)
  · have hback := asyncOperand?_reads hg.reading hfound
    have hfound := hY.behindLooks hu (hasync hu hfound)
    obtain ⟨e, rfl, rfl, rfl⟩ | ⟨rfl, h⟩ := h
    · exact hfound
    · have hv : v.position = s.position := Eq.trans hback hu.position
      obtain ⟨e, rfl, h | h⟩ | h := h
      · exact hY.append hfound (hY.arrowFunction hg hmode.1 h)
      · exact hY.append hfound (hY.variableUse h)
      · exact hY.append hfound (hY.atom hg (fun hopen => hgroup (hv ▸ hopen)) h)

/-! ### Operators behind an operand -/

theorem memberAccess (hY : Composing Y Z) {object e : Expr} (hobject : Y c u s [.expr object])
    (hplace : InOrder c.token → e.Enclosed c.token) (h : memberAccess object c s = .ok e t) :
    Y c u t [.expr e] := by
  have hobject := hY.beforeLooks hobject ((State.SamePlace.refl s).looked 0)
  obtain ⟨name, v, hname, huse, rfl⟩ | ⟨_, -, ⟨hne, hpermits⟩, rfl, rfl⟩ := memberAccess_ok h
  · exact hY.plainExpr rfl hplace (hY.append hobject (hY.use hname huse))
  · have hword := hY.append hobject (hY.token (s := s.looked 0) hne)
    refine hY.node rfl ⟨trivial, fun hguards => hpermits ?_, hplace, .of_none rfl⟩ hword
    exact ⟨hguards.checks, hguards.inInitializer⟩

/-- The operator and what it adds go behind the expression on its left. -/
theorem continuation (hY : Composing Y Z) (hg : g.Composed Y) {mode : ExprMode}
    (hmode : mode.TakesCalls) {start : Nat}
    {op : Operator} {left : Expr} {a : Expr × Bool} (hleft : Y c u s [.expr left])
    (hplace : InOrder c.token → a.1.Enclosed c.token)
    (h : continuation g mode start op left c s = .ok a t) : Y c u t [.expr a.1] := by
  obtain ⟨-, as, has, rfl⟩ | ⟨-, member, v, hmember, hclose, rfl, rfl⟩
    | ⟨-, consequent, v, alternate, hconsequent, hcolon, halternate, ha⟩ | ⟨-, e, he, rfl⟩
    | ⟨hcall, hcomputed, hconditional, hmember, htarget, right, hright, ha⟩ := continuation_ok h
  · exact hY.plainExpr rfl hplace (hY.append hleft (hY.callArguments hg has))
  · have hmember := hY.append hleft (hg.whole (by decide) hmember)
    exact hY.plainExpr rfl hplace (hY.beforeWord hclose (by decide) hmember)
  · rw [ha] at hplace ⊢
    have hconsequent := hY.append hleft (hg.whole (by decide) hconsequent)
    have hconsequent := hY.beforeWord hcolon (by decide) hconsequent
    have halternate := hg.expr (ExprMode.Family.ofTakesCalls.operand hmode (by decide)) halternate
    exact hY.plainExpr rfl hplace (hY.append hconsequent halternate)
  · exact hY.memberAccess hleft hplace he
  · rw [ha] at hplace ⊢
    have hsort : op ∉ Node.ownSorts := by simp [Node.ownSorts, hcall, hmember, hcomputed,
      hconditional]
    have hprecedence := Operator.operandPrecedence_le hcall hmember hcomputed
    have hright := hg.expr (ExprMode.Family.ofTakesCalls.operand hmode hprecedence) hright
    have htarget (hop : op.isAssignment = true) := (Expr.isReference_iff left).2 (htarget hop)
    exact hY.node rfl ⟨⟨hsort, htarget⟩, fun _ => trivial, hplace, .of_none rfl⟩
      (hY.append hleft hright)

theorem climb (hY : Composing Y Z) (hg : g.Composed Y) {mode : ExprMode} (hmode : mode.TakesCalls)
    {left : Expr}
    {inserted : Bool} {n : Nat} {a : Expr × Bool} (hleft : Y c u s [.expr left])
    (hstands : InOrder c.token → left.StandsIn c.token u.position s.position)
    (h : climb g mode left inserted n c s = .ok a t) : Y c u t [.expr a.1] := by
  induction n generalizing s left inserted with
  | zero => cases h
  | succ n ih =>
    obtain ⟨ht, ha⟩ | ⟨op, hop, h⟩ | ⟨op, longer, inside, v, hop, hlonger, h⟩ := climb_ok h
    · rw [ha]
      exact hY.beforeLooks hleft ht
    · have hne : (c.token s.position).kind ≠ .privateName := by
        intro hkind
        rw [hkind] at hop
        cases hop
      have hword := hY.append hleft (hY.token hne)
      have hjoined (ho : InOrder c.token) := update_joined ho (hstands ho) hop
      exact ih (hY.plainExpr rfl (fun ho => (hjoined ho).enclosed) hword)
        (fun ho => (hjoined ho).standsIn) h
    · have hne : (c.token s.position).kind ≠ .privateName := by
        intro hkind
        rw [hkind] at hop
        cases hop
      have hword := hY.append hleft (hY.token hne)
      have hjoined (ho : InOrder c.token) :=
        continuation_joined hg.reading hg.covering ho (hstands ho) hop hlonger
      exact ih (hY.continuation hg hmode hword (fun ho => (hjoined ho).enclosed) hlonger)
        (fun ho => (hjoined ho).standsIn) h

/-- An expression, given what it begins with. -/
theorem expression (hY : Composing Y Z) (hg : g.Composed Y) {mode : ExprMode}
    (hmode : mode.TakesCalls) {a : Expr × Bool}
    (hoperand : ∀ {first : Expr × Bool} {u : State},
      Grammar.operand g mode c s = .ok first u → Y c s u [.expr first.1])
    (h : expression g mode c s = .ok a t) : Y c s t [.expr a.1] := by
  obtain ⟨_, u, hfirst, h⟩ := bind_ok_iff.1 h
  have hstands (ho : InOrder c.token) := operand_stands hg.reading hg.covering ho hfirst
  exact hY.climb hg hmode (hoperand hfirst) hstands h

/-! ### Statements -/

theorem expressionEnd (hY : Composing Y Z) (hg : g.Composed Y) {e : Expr}
    (h : expressionEnd g c s = .ok e t) : Y c s t [.expr e] := by
  obtain ⟨_, u, hvalue, rfl | ⟨hsemicolon, rfl⟩⟩ := expressionEnd_ok h
  · exact hg.expr (by decide) hvalue
  · exact hY.beforeWord hsemicolon (by decide) (hg.expr (by decide) hvalue)

theorem emptyStatement (hY : Composing Y Z) {a : Stmt} (h : emptyStatement c s = .ok a t) :
    Y c s t [.stmt a] := by
  simp only [Grammar.emptyStatement, spanned_ok_iff, discard_bind, bind_ok_iff, pure_ok_iff] at h
  obtain ⟨_, ⟨_, _, hsemicolon, rfl, rfl⟩, rfl⟩ := h
  exact hY.plain rfl (hY.require hsemicolon (by decide))

theorem block (hY : Composing Y Z) (hg : g.Composed Y) {a : Stmt}
    (h : block g c s = .ok a t) : Y c s t [.stmt a] := by
  simp only [Grammar.block, spanned_ok_iff, bind_ok_iff, pure_ok_iff] at h
  obtain ⟨_, ⟨_, _, hbody, rfl, rfl⟩, rfl⟩ := h
  exact hY.plain rfl (hY.blockBody hg hbody)

theorem expressionStatement (hY : Composing Y Z) (hg : g.Composed Y) {a : Stmt}
    (h : expressionStatement g c s = .ok a t) : Y c s t [.stmt a] := by
  simp only [Grammar.expressionStatement, spanned_ok_iff, bind_ok_iff, pure_ok_iff] at h
  obtain ⟨_, ⟨_, _, hvalue, rfl, rfl⟩, rfl⟩ := h
  exact hY.plain rfl (hY.expressionEnd hg hvalue)

theorem condition (hY : Composing Y Z) (hg : g.Composed Y) {e : Expr}
    (h : condition g c s = .ok e t) : Y c s t [.expr e] := by
  obtain ⟨hopen, u, hvalue, hclose, rfl⟩ := condition_ok h
  have hvalue := hY.behindWord hopen (by decide) (hg.whole (by decide) hvalue)
  exact hY.beforeWord hclose (by decide) hvalue

theorem ifStatement (hY : Composing Y Z) (hg : g.Composed Y) {a : Stmt}
    (h : ifStatement g c s = .ok a t) : Y c s t [.stmt a] := by
  obtain ⟨_, u, _, v, alternate, hword, htest, hconsequent, rfl, hrest⟩ := ifStatement_ok h
  have htest := hY.behindWord hword (by decide) (hY.condition hg htest)
  have hconsequent := hY.append htest (hg.stmt hconsequent)
  obtain ⟨rfl, ht⟩ | ⟨other, helse, hother, rfl⟩ := hrest
  · exact hY.plain rfl (hY.beforeLooks hconsequent ht)
  · have hother := hY.behindWord helse (by decide) (hg.stmt hother)
    exact hY.plain rfl (hY.append hconsequent hother)

theorem returnStatement (hY : Composing Y Z) (hg : g.Composed Y) {a : Stmt}
    (h : returnStatement g c s = .ok a t) : Y c s t [.stmt a] := by
  obtain ⟨value, u, hword, hu, rfl, hrest⟩ := returnStatement_ok h
  have hword := hY.beforeLooks (hY.word hword (by decide)) hu
  obtain ⟨rfl, rfl | ⟨rfl, hsemicolon⟩⟩ | ⟨e, he, rfl⟩ := hrest
  · exact hY.plain rfl hword
  · exact hY.plain rfl (hY.beforeWord hsemicolon (by decide) hword)
  · exact hY.plain rfl (hY.append hword (hY.expressionEnd hg he))

theorem throwStatement (hY : Composing Y Z) (hg : g.Composed Y) {a : Stmt}
    (h : throwStatement g c s = .ok a t) : Y c s t [.stmt a] := by
  obtain ⟨hword, _, he, rfl⟩ := throwStatement_ok h
  have hplace := (State.SamePlace.refl s.advanced).looked 0
  have he := hY.behindLooks hplace (hY.expressionEnd hg he)
  exact hY.plain rfl (hY.behindWord hword (by decide) he)

theorem whileStatement (hY : Composing Y Z) (hg : g.Composed Y) {a : Stmt}
    (h : whileStatement g c s = .ok a t) : Y c s t [.stmt a] := by
  simp only [Grammar.whileStatement, spanned_ok_iff, discard_bind, bind_ok_iff, pure_ok_iff] at h
  obtain ⟨_, ⟨_, _, hword, _, _, htest, _, _, hbody, rfl, rfl⟩, rfl⟩ := h
  have htest := hY.append (hY.require hword (by decide)) (hY.condition hg htest)
  exact hY.plain rfl (hY.append htest (hg.stmt hbody))

theorem declarator (hY : Composing Y Z) (hg : g.Composed Y) {a : Declarator × Bool}
    (h : declarator g c s = .ok a t) : Y c s t [.declarator a.1] := by
  obtain ⟨name, u, hname, hrest⟩ := declarator_ok h
  have hpermits (hmark : t.inInitializer = u.inInitializer) (hguards : c.Guards t) :
      name.name ≠ "arguments" := by
    exact identifier_permits hname ⟨hguards.checks, hmark.symm.trans hguards.inInitializer⟩
  obtain ⟨rfl, ht⟩ | ⟨_, hequals, hvalue, ha⟩ := hrest
  · exact hY.node rfl ⟨trivial, hpermits ht.inInitializer, fun _ => trivial, .of_none rfl⟩
      (hY.beforeLooks (hY.identifier hname) ht)
  · rw [ha]
    have hkept := hg.keeping.expr _ (.inl ⟨_, hvalue⟩)
    have hvalue := hY.behindWord hequals (by decide) (hg.expr (by decide) hvalue)
    exact hY.node rfl ⟨trivial, hpermits hkept.inInitializer, fun _ => trivial, .of_none rfl⟩
      (hY.append (hY.identifier hname) hvalue)

theorem declarators (hY : Composing Y Z) (hg : g.Composed Y) {n : Nat} {ds : List Declarator}
    (h : declarators g n c s = .ok ds t) : Y c s t (ds.map .declarator) := by
  induction n generalizing s ds with
  | zero => cases h
  | succ n ih =>
    obtain ⟨first, _, u, hfirst, ⟨rfl, ht | ⟨hsemicolon, rfl⟩⟩ | ⟨rest, v, hv, hcomma, hrest, rfl⟩⟩
      := declarators_ok h
    · exact hY.beforeLooks (hY.declarator hg hfirst) ht
    · exact hY.beforeWord hsemicolon (by decide) (hY.declarator hg hfirst)
    · have hrest := hY.behindLooks hv (hY.behindWord hcomma (by decide) (ih hrest))
      exact hY.append (hY.declarator hg hfirst) hrest

theorem variableDeclaration (hY : Composing Y Z) (hg : g.Composed Y) {a : Stmt}
    (h : variableDeclaration g c s = .ok a t) : Y c s t [.stmt a] := by
  simp only [Grammar.variableDeclaration, spanned_ok_iff, bind_ok_iff, pure_ok_iff] at h
  obtain ⟨_, ⟨_, _, hkind, _, _, hfound, rfl, rfl⟩, rfl⟩ := h
  obtain ⟨-, hne, rfl⟩ := declarationKind_ok hkind
  exact hY.plain rfl (hY.append (hY.token hne) (hY.declarators hg hfound))

theorem functionDeclaration (hY : Composing Y Z) (hg : g.Composed Y) {a : Stmt}
    (h : functionDeclaration g c s = .ok a t) : Y c s t [.stmt a] := by
  obtain ⟨_, u, _, v, _, w, _, hasync, hword, hgenerator, hname, hfunc, rfl⟩ :=
    functionDeclaration_ok h
  obtain ⟨k, hopen, hk⟩ := opensDefinition_function hword hgenerator
  have htaken := definitionName?_isTaken (c := { c with names := .script }) hopen hk hname
  have hword := hY.beforeWord hword (by decide) (hY.accept hasync (by decide))
  have hname := hY.withNames NameRules.script (hY.definitionName? hname)
  have hname := hY.append (hY.append hword (hY.accept hgenerator (by decide))) hname
  have hformed := (functionRest_ok hfunc).1
  exact hY.node rfl ⟨hformed, fun _ => trivial, fun _ => trivial, htaken⟩
    (hY.append hname (hY.functionRest hg hfunc))

theorem classDeclaration (hY : Composing Y Z) (hg : g.Composed Y) {a : Stmt}
    (h : classDeclaration g c s = .ok a t) : Y c s t [.stmt a] := by
  simp only [Grammar.classDeclaration, spanned_ok_iff, require_bind_ok_iff] at h
  obtain ⟨_, ⟨hword, h⟩, rfl⟩ := h
  obtain ⟨s', u, hinside, hclass⟩ := inClass_classRun h
  obtain ⟨name, w, hname, hinside⟩ := bind_ok_iff.1 hinside
  cases name with
  | none => exact (fail_ok_iff.1 hinside).elim
  | some name =>
    simp only [bind_ok_iff, pure_ok_iff] at hinside
    obtain ⟨⟨parent, members⟩, _, htail, rfl, rfl⟩ := hinside
    have htaken := definitionName?_isTaken (.ofClass hword) hclass.position hname
    have hinside :=
      hY.insideAppend (hY.inside rfl (hY.definitionName? hname)) (hY.classTail hg htail)
    refine hY.behindWord hword (by decide) ?_
    exact hY.classNode rfl (.of_members? rfl (fun _ => trivial) htaken)
      (declaredNames_class parent members) hclass hinside

theorem statement (hY : Composing Y Z) (hg : g.Composed Y) {a : Stmt}
    (h : statement g c s = .ok a t) : Y c s t [.stmt a] := by
  obtain ⟨u, hu, h⟩ := statement_ok h
  refine hY.behindLooks hu ?_
  obtain h | h | h | h | h | h | h | h | h | h := h
  · exact hY.block hg h
  · exact hY.classDeclaration hg h
  · exact hY.variableDeclaration hg h
  · exact hY.functionDeclaration hg h
  · exact hY.ifStatement hg h
  · exact hY.returnStatement hg h
  · exact hY.throwStatement hg h
  · exact hY.whileStatement hg h
  · exact hY.emptyStatement h
  · exact hY.expressionStatement hg h

/-! ### Scripts -/

/-- **Every budget.** A property that goes from the parts to the whole holds of statements and
expressions, given that it goes to expressions. -/
theorem within (hY : Composing Y Z)
    (hexpression : ∀ {n : Nat}, (Rules.within n).Composed Y →
      ∀ {c : Context} {s t : State} {mode : ExprMode} {a : Expr × Bool}, mode.TakesCalls →
        Grammar.expression (.within n) mode c s = .ok a t → Y c s t [.expr a.1])
    (n : Nat) : (Rules.within n).Composed Y := by
  induction n with
  | zero =>
    exact ⟨Rules.within_reading 0, Rules.within_covering 0, Rules.within_keeping 0,
      fun h => (nomatch h), fun _ h => (nomatch h)⟩
  | succ n ih =>
    exact ⟨Rules.within_reading _, Rules.within_covering _, Rules.within_keeping _,
      hY.statement ih, hexpression ih⟩

/-- **Whole scripts.** Such a property holds of a script that could be read, wherever it was
begun. -/
theorem program (hY : Composing Y Z) (hg : g.Composed Y) {p : Program}
    (h : Grammar.script g c s = .ok p t) : Y c s t [.program p] := by
  obtain ⟨u, hbody, heof, ht, -⟩ := Grammar.script_ok h
  have hbody := hY.withNames NameRules.script (hY.statements hg hbody)
  exact hY.plain rfl (hY.beforeLooks (hY.beforeWord heof (by decide) hbody) ht)

/-- So it does between the start of a text and the end of it. -/
theorem script (hY : Composing Y Z) (hg : ∀ n, (Rules.within n).Composed Y) {p : Program}
    (h : runScript c = .ok p t) : ∃ s, State.initial.SamePlace s ∧ Y c s t [.program p] := by
  rw [runScript_run] at h
  split at h
  next program v hscript =>
    injection h with hp ht
    subst hp ht
    have hend : v.SamePlace { v with trace := v.trace.push .endScript } :=
      ⟨Nat.le_refl _, rfl, rfl, rfl⟩
    refine ⟨c.begun, ⟨Nat.le_refl _, rfl, rfl, rfl⟩, ?_⟩
    exact hY.beforeLooks (hY.program (hg c.budget) hscript) hend
  next => cases h
  next => cases h

end Composing

/-! ### What was read in vain -/

namespace Compositional

open EcmaScript.Grammar

variable {Y Z : RunRel} {g : Rules} {c : Context} {s t u : State}

/-- An attempt at parameters gives nothing, whether it succeeds or fails. -/
theorem attempted (hY : Compositional Y Z) (hg : g.Composed Y) {async : Bool} {r : State}
    (hr : s.Kept c r) (h : Ends (Grammar.arrowParameters g async c r) u) :
    Y c s { u with position := s.position } [] := by
  have hkept := hr.trans ((hg.keeping.steps hg.reading).arrowParameters async h)
  exact hY.stay ⟨hkept.seen, hkept.inInitializer, hkept.scopes⟩ rfl

theorem arrowOrGrouping (hY : Compositional Y Z) (hg : g.Composed Y) {stops : List TokenKind}
    (hstops : .punctuator .parenthesisOpen ∉ stops) {insertion : Bool} {a : Expr × Bool}
    (h : arrowOrGrouping g stops insertion c s = .ok a t) : Y c s t [.expr a.1] := by
  have hs := State.Kept.refl c s
  obtain ⟨ps, u, e, hparams, harrow, rfl⟩ | ⟨e, u, hparams, -, hgroup⟩ := arrowOrGrouping_ok h
  · have hattempt := hY.attempted hg hs (.inl ⟨ps, hparams⟩)
    exact hY.append hattempt (hY.arrowFunction hg hstops harrow)
  · have hattempt := hY.attempted hg hs (.inr ⟨e, hparams⟩)
    exact hY.append hattempt (hY.grouping hg hgroup)

theorem expression (hY : Compositional Y Z) (hg : g.Composed Y) {mode : ExprMode}
    (hmode : mode.TakesCalls) {a : Expr × Bool} (h : expression g mode c s = .ok a t) :
    Y c s t [.expr a.1] := by
  -- The word `async` is read before the parameters are tried, and they go back behind it.
  have hadvanced (u : State) : u.Kept c u.advanced :=
    ⟨Nat.le_max_left .., rfl, [], by simp, by rw [ClassScopes.noting_nil]; rfl⟩
  refine hY.toComposing.expression hg hmode (hY.operand hg hmode ?_ ?_) h
  · intro u v found _ hfound
    refine hY.asyncOperand? hg hmode.1 ?_ ?_ hfound
    · intro ps w e _ _ hparams harrow
      have hattempt := hY.attempted hg (hadvanced u) (.inl ⟨ps, hparams⟩)
      exact hY.append hattempt (hY.arrowFunction hg hmode.1 harrow)
    · intro e w _ _ hparams
      exact hY.attempted hg (hadvanced u) (.inr ⟨e, hparams⟩)
  · intro u _ hgroup
    exact hY.arrowOrGrouping hg hmode.1 hgroup

/-- **Every budget.** A compositional property holds of statements and expressions. -/
theorem within (hY : Compositional Y Z) (n : Nat) : (Rules.within n).Composed Y :=
  hY.toComposing.within (fun hg _ _ _ _ _ hmode h => hY.expression hg hmode h) n

/-- **Whole scripts.** A compositional property holds of a script that could be read, between the
start of the text and the end of it. -/
theorem script (hY : Compositional Y Z) {p : Program} (h : runScript c = .ok p t) :
    ∃ s, State.initial.SamePlace s ∧ Y c s t [.program p] :=
  hY.toComposing.script hY.within h

end Compositional

end EcmaScript
