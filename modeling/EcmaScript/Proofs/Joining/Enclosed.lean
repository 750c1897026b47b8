import EcmaScript.Proofs.Joining.Untouched
import EcmaScript.Proofs.Relation.Steps

namespace EcmaScript

open EcmaScript.Parser

/-!
# Rules inside of brackets

Inside of brackets every rule does the same whether the text goes on or not, also where it fails:
what follows the last bracket is looked at in a few places, but there it does not matter.

* `Rules.Enclosed` — statements and expressions do the same inside of brackets;
* `Untouched.parameters`, `Untouched.blockBody`, … — so does each rule that is built from them, and
  those that begin with an opening bracket do wherever they stand;
* `Rules.within_enclosed` — so do the rules of the grammar, whatever their budget is.
-/

/-- Inside of brackets both rules do the same in two texts one of which goes on. -/
structure Rules.Enclosed (g : Rules) : Prop where
  reading : g.Reading
  stmt : Untouched .inside 0 g.stmt
  expr (mode : ExprMode) : Untouched .inside 0 (g.expr mode)

namespace Untouched

open Grammar

variable {g : Rules} {place : Place} {x : Int} {α β : Type}

/-! ### Steps -/

/-- Inside of brackets every token that is no bracket may be accepted. -/
theorem acceptPlain {kind : TokenKind} (hk : kind.isPlain) :
    Untouched .inside 0 (Parser.accept kind) := by
  by_cases hsemicolon : kind = .punctuator .semicolon
  · subst hsemicolon
    exact ofBeforeEnd acceptSemicolon
  · exact ofAnywhere (accept hk hsemicolon)

theorem inInitializer {p : Parser α} (hp : Untouched place x p) :
    Untouched place x (Parser.inInitializer p) := by
  intro n c c' s hc hs hplace
  obtain ⟨hsame, hlead⟩ := hp hc (s := { s with inInitializer := true }) hs hplace
  rw [inInitializer_run, inInitializer_run, hsame]
  refine ⟨rfl, fun a t hrun => ?_⟩
  cases hinner : p c { s with inInitializer := true } with
  | ok b u =>
    rw [hinner] at hrun
    cases hrun
    have hend := hlead hinner
    exact hend
  | error e u =>
    rw [hinner] at hrun
    cases e <;> cases hrun

/-- The end of a class does not depend on the tokens. -/
theorem endClass_same {n : Nat} {c c' : Context} {s : State} (hc : c.GoesOn n c')
    (found : Except SyntaxError α) : endClass found c' s = endClass found c s := by
  have hcount : exitCount c' s = exitCount c s := by rw [exitCount, exitCount, hc.checks]
  rw [endClass_run, endClass_run, hcount]

theorem inClass {p : Parser α} (hp : Untouched place x p) :
    Untouched place x (Parser.inClass p) := by
  intro n c c' s hc hs hplace
  obtain ⟨hsame, hlead⟩ := hp hc (s := s.entered) hs hplace
  obtain ⟨hsameOutside, hleadOutside⟩ := hp hc hs hplace
  -- Without fields there is no scope to enter.
  refine ⟨?_, fun a t hrun => ?_⟩
  · rw [inClass_run, inClass_run, hc.options, hsame, hsameOutside]
    split
    · cases p c s.entered with
      | ok b u => exact endClass_same hc _
      | error e u =>
        cases e with
        | error e => exact endClass_same hc _
        | exhausted => rfl
    · rfl
  · by_cases hfields : c.options.classFields = true
    · obtain ⟨u, _, hinner, -, hposition, -⟩ := inClass_ok hfields hrun
      rw [hposition]
      exact hlead hinner
    · rw [inClass_run, if_neg hfields] at hrun
      exact hleadOutside hrun

/-! ### Lists -/

theorem whole (hg : g.Enclosed) (stops : List TokenKind) : Untouched .inside 0 (g.whole stops) :=
  (hg.expr _).andThen fun _ => pure _

/-- Items up to the closing bracket, and the bracket. -/
theorem separated {close : TokenKind} (hclose : close.weight = -1) {item : Parser (Span → α)}
    (hadvances : Advances item) (hitem : Untouched .inside 0 item) (fuel : Nat) :
    Untouched .inside (-1) (Parser.separated (.punctuator .comma) close item fuel) := by
  induction fuel with
  | zero => exact exhausted
  | succ fuel ih =>
    refine acceptClosing hclose (pure _) ?_
    refine (spanned hadvances.moves hitem).bind fun first => ?_
    refine (acceptPlain rfl).bind fun more => ite (fun _ => ?_) fun _ => ?_
    · exact ih.andThen fun _ => pure _
    · exact Untouched.close hclose _

theorem list {close : TokenKind} (hclose : close.weight = -1) {item : Parser (Span → α)}
    (hadvances : Advances item) (hitem : Untouched .inside 0 item) :
    Untouched .inside (-1) (g.list close item) := separated hclose hadvances hitem g.budget

theorem elements (hg : g.Enclosed) (fuel : Nat) : Untouched .inside 0 (elements g fuel) := by
  induction fuel with
  | zero => exact exhausted
  | succ fuel ih =>
    refine (acceptPlain rfl).bind fun hole => ite (fun _ => ?_) fun _ => ?_
    · exact ih.andThen fun _ => pure _
    refine peekBind nofun fun t => ite (fun _ => pure _) fun _ => ?_
    refine (acceptPlain rfl).bind fun spread => (whole hg _).bind fun value => ?_
    refine peekBind nofun fun t => ite (fun _ => pure _) fun _ => ?_
    exact dropBind rfl (ih.andThen fun _ => pure _)

theorem statements (hg : g.Enclosed) (stop : TokenKind) (fuel : Nat) :
    Untouched .inside 0 (statements g stop fuel) := by
  induction fuel with
  | zero => exact exhausted
  | succ fuel ih =>
    refine peekBind nofun fun t => ite (fun _ => pure _) fun _ => ?_
    exact hg.stmt.bind fun first => ih.andThen fun _ => pure _

theorem arrayLiteral (hg : g.Enclosed) : Untouched .beforeEnd 0 (arrayLiteral g) := by
  refine spannedOf (arrayLiteral_reads hg.reading) (opening rfl ?_)
  exact (elements hg _).bind fun _ => close rfl _

/-! ### Functions and arrows -/

theorem parameter (hg : g.Enclosed) : Untouched .inside 0 (parameter g) := by
  refine (acceptPlain rfl).bind fun rest => (ofBeforeEnd identifier).bind fun name => ?_
  refine (acceptPlain rfl).bind fun more => ite (fun _ => ?_) fun _ => ?_
  · exact ((whole hg _).map _).andThen fun _ => pure _
  · exact (pure _).andThen fun _ => pure _

theorem parameters (hg : g.Enclosed) : Untouched .beforeEnd 0 (parameters g) :=
  opening rfl (list rfl (.of_reads (parameter_reads hg.reading)) (parameter hg))

theorem blockBody (hg : g.Enclosed) : Untouched .beforeEnd 0 (blockBody g) :=
  opening rfl ((statements hg _ _).bind fun _ => close rfl _)

/-- Parameters and a body are read before the function gets its place. -/
theorem functionParts_moves (hg : g.Reading) (async generator : Bool) : Moves (do
    let params ← Grammar.parameters g
    let body ← Grammar.blockBody g
    return fun span => Func.mk span false async generator params (.block body)) := by
  intro c s t make hrun
  obtain ⟨_, u, hparams, hrun⟩ := bind_ok_iff.1 hrun
  obtain ⟨_, v, hbody, hrun⟩ := bind_ok_iff.1 hrun
  obtain ⟨-, rfl⟩ := pure_ok_iff.1 hrun
  exact Nat.lt_trans (parameters_reads hg hparams).lt (blockBody_reads hg hbody).lt

theorem functionRest (hg : g.Enclosed) (async generator : Bool) :
    Untouched .inside 0 (functionRest g async generator) := by
  refine withNames _ (spanned (functionParts_moves hg.reading _ _) ?_)
  refine (ofBeforeEnd (parameters hg)).bind fun params => ?_
  exact (ofBeforeEnd (blockBody hg)).andThen fun _ => pure _

theorem methodRest (hg : g.Enclosed) (kind : MethodKind) (async generator : Bool) :
    Untouched .inside 0 (methodRest g kind async generator) := by
  refine (functionRest hg async generator).andThen fun func => ?_
  dsimp only
  split
  · exact pure _
  · exact fail _
  · exact ite (fun _ => fail _) fun _ => pure _
  · exact fail _
  · exact pure _

theorem functionExpression (hg : g.Enclosed) : Untouched .inside 0 (functionExpression g) := by
  refine spannedOf (functionExpression_reads hg.reading) ?_
  refine (acceptPlain rfl).bind fun async => dropBind rfl ?_
  refine (acceptPlain rfl).bind fun generator => (ofAnywhere definitionName?).bind fun name => ?_
  exact (functionRest hg _ _).andThen fun _ => pure _

theorem beforeArrow (hg : g.Enclosed) : Untouched .beforeEnd 0 (beforeArrow g) := by
  refine peekBind nofun fun first => look nofun (fun second => ?_) fun t t' ht ht' => ?_
  · intro n c c' s hc hs hlt
    rw [nameRules_bind, nameRules_bind, hc.names]
    exact ite (fun _ => identifier.andThen fun _ => pure _) (fun _ => parameters hg) hc hs hlt
  · rw [ht, ht']
    rfl

theorem arrowSign : Untouched .beforeEnd 0 arrowSign := by
  have arrow : Untouched .beforeEnd 0 (Parser.require arrowKind) := require rfl
  exact arrow.andThen fun _ => ite (fun _ => fail _) fun _ => pure _

theorem arrowParameters (hg : g.Enclosed) (async : Bool) :
    Untouched .inside 0 (arrowParameters g async) := by
  rw [arrowParameters_eq]
  exact (withNames _ (ofBeforeEnd (beforeArrow hg))).bind fun _ =>
    (ofBeforeEnd arrowSign).andThen fun _ => pure _

theorem arrowBody (hg : g.Enclosed) (stops : List TokenKind) :
    Untouched .inside 0 (arrowBody g stops) := by
  refine peekBind nofun fun t => ite (fun _ => ?_) fun _ => ?_
  · exact (ofBeforeEnd (blockBody hg)).andThen fun _ => pure _
  · exact (hg.expr _).andThen fun _ => pure _

theorem arrowFunction (hg : g.Enclosed) (stops : List TokenKind) :
    Untouched .inside 0 (arrowFunction g stops) := by
  have tail (async : Bool) : Untouched .inside (α := Span → Expr) 0 (do
      let params ← Grammar.arrowParameters g async
      let body ← Parser.withNames (·.forAsync async) (Grammar.arrowBody g stops)
      return fun span => .arrow span (.mk span true async false params body)) := by
    refine (arrowParameters hg async).bind fun params => ?_
    exact (withNames _ (arrowBody hg stops)).andThen fun _ => pure _
  refine spannedOf (arrowFunction_reads hg.reading) ?_
  refine look nofun (fun second => ite (fun _ => ?_) fun _ => ?_) fun t t' ht ht' => ?_
  · exact (pure _).bind fun async => tail async
  · exact (acceptPlain rfl).bind fun async => tail async
  · rw [ht, ht']
    rfl

theorem grouping (hg : g.Enclosed) (insertion : Bool) :
    Untouched .beforeEnd 0 (grouping g insertion) :=
  opening rfl ((hg.expr _).bind fun _ => close rfl _)

/-- What is held back is the same, and so is what follows it. -/
theorem attempt_run {n : Nat} {c c' : Context} {s u : State} {p : Parser α}
    {f : Except SyntaxError α → Parser β} (hp : p c' u = p c u)
    (hf : ∀ found v, f found c' v = f found c v ∧ Leads n c s x (f found c v)) :
    (Parser.attempt p >>= f) c' u = (Parser.attempt p >>= f) c u
      ∧ Leads n c s x ((Parser.attempt p >>= f) c u) := by
  rw [attempt_bind, attempt_bind, hp]
  cases p c u with
  | ok a v => exact hf _ v
  | error e v =>
    cases e with
    | error e => exact hf _ v
    | exhausted => exact ⟨rfl, fun b t h => by cases h⟩

/-- A parser that begins where the position has gone back to. -/
theorem restored {n : Nat} {c c' : Context} {s : State} {p : Parser α} (hp : Untouched .inside x p)
    (hc : c.GoesOn n c') (hs : s.position ≤ n) (hdepth : 1 ≤ depth c.token s.position) (u : State) :
    (Parser.restore s.position >>= fun _ => p) c' u = (Parser.restore s.position >>= fun _ => p) c u
      ∧ Leads n c s x ((Parser.restore s.position >>= fun _ => p) c u) :=
  hp hc (s := { u with position := s.position }) hs hdepth

theorem arrowOrGrouping (hg : g.Enclosed) (stops : List TokenKind) (insertion : Bool) :
    Untouched .inside 0 (arrowOrGrouping g stops insertion) := by
  intro n c c' s hc hs hdepth
  have arrow : Untouched .inside (α := Expr × Bool) 0
      (do return (← Grammar.arrowFunction g stops, false)) :=
    (arrowFunction hg stops).andThen fun _ => pure _
  rw [Grammar.arrowOrGrouping, position_bind, position_bind]
  refine attempt_run (arrowParameters hg false hc hs hdepth).1 fun found u => ?_
  cases found with
  | ok params => exact restored arrow hc hs hdepth u
  | error e =>
    dsimp only
    rw [ite_run, ite_run]
    split
    · exact ⟨rfl, fun b t h => by cases h⟩
    · exact restored (ofBeforeEnd (grouping hg insertion)) hc hs hdepth u

/-! ### Members -/

theorem memberKey (hg : g.Enclosed) : Untouched .inside 0 (memberKey g) := by
  refine acceptOpening rfl ?_ (directKey.andThen fun _ => pure _)
  exact (whole hg _).bind fun _ => close rfl _

theorem modifier (word : Keyword) (sameLine : Bool) :
    Untouched .inside 0 (modifier word sameLine) := by
  refine peekAt fun first => .look (fun second => .ite (fun _ => (pure _).at _) fun hword => ?_)
    fun t t' ht ht' => ?_
  · have hkind : first.kind = .keyword word := by
      by_contra hne
      exact hword (by simp [hne])
    rw [discard_bind]
    exact .nextPlain (by rw [hkind]; rfl) (pure _)
  · rw [ht, ht']
    simp [endsKey]

theorem methodModifiers : Untouched .inside 0 methodModifiers := by
  refine (acceptPlain rfl).bind fun star => ite (fun _ => pure _) fun _ => ?_
  refine bind ?_ fun async => ite (fun _ => ?_) fun _ => ?_
  · refine (ofAnywhere options).bind fun o => ite (fun _ => modifier _ _) fun _ => pure _
  · exact (acceptPlain rfl).andThen fun _ => pure _
  refine (modifier _ _).bind fun get => ite (fun _ => pure _) fun _ => ?_
  exact (modifier _ _).andThen fun set => ite (fun _ => pure _) fun _ => pure _

theorem memberHead (hg : g.Enclosed) (allowStatic : Bool) :
    Untouched .inside 0 (memberHead g allowStatic) := by
  rw [memberHead_eq]
  refine bind (ite (fun _ => modifier _ _) fun _ => pure _) fun static => ?_
  exact methodModifiers.bind fun found => (memberKey hg).andThen fun _ => pure _

theorem objectMember (hg : g.Enclosed) : Untouched .inside 0 (objectMember g) := by
  refine peekBind nofun fun first => look nofun (fun second => ?_) fun t t' ht ht' => ?_
  · refine (ofAnywhere nameRules).bind fun rules => ite (fun _ => ?_) fun _ => ?_
    · exact (ofBeforeEnd identifier).andThen fun _ => pure _
    refine (memberHead hg false).bind fun head => ?_
    have rest (isMethod : Bool) : Untouched .inside (α := Span → ObjectMember) 0 (do
        if isMethod then
          let func ← Grammar.methodRest g head.kind head.async head.generator
          return fun span => .method span head.key head.kind func
        else
          Functor.discard <| Parser.require (.punctuator .colon)
          let value ← g.whole [.punctuator .comma, .punctuator .braceClose]
          return fun span => .valued span head.key value) := by
      refine ite (fun _ => ?_) fun _ => ?_
      · exact (methodRest hg _ _ _).andThen fun _ => pure _
      · exact dropBind rfl ((whole hg _).andThen fun _ => pure _)
    refine ite (fun _ => ?_) fun _ => ?_
    · exact (pure _).bind fun isMethod => rest isMethod
    · refine peekBind nofun fun t => ?_
      exact (pure _).bind fun isMethod => rest isMethod
  · rw [ht, ht']
    rfl

theorem objectLiteral (hg : g.Enclosed) : Untouched .beforeEnd 0 (objectLiteral g) := by
  refine spannedOf (objectLiteral_reads hg.reading) (opening rfl ?_)
  refine (list rfl ?_ (objectMember hg)).andThen fun _ => pure _
  exact .of_reads (objectMember_reads hg.reading)

/-! ### Classes -/

theorem classMemberHead (hg : g.Enclosed) : Untouched .inside 0 (classMemberHead g) := by
  refine (memberHead hg true).andThen fun head => ?_
  split
  · exact ite (fun _ => pure _) fun _ => ite (fun _ => fail _) fun _ => pure _
  · exact pure _

theorem classMethodRest (hg : g.Enclosed) (head : MemberHead) :
    Untouched .inside 0 (classMethodRest g head) := by
  refine peekBind nofun fun t => ite (fun _ => ?_) fun _ => fail _
  exact (methodRest hg _ _ _).andThen fun _ => pure _

theorem classMethod (hg : g.Enclosed) : Untouched .inside 0 (classMethod g) :=
  spannedOf (classMethod_reads hg.reading)
    ((classMemberHead hg).bind fun head => classMethodRest hg head)

theorem fieldValue? (hg : g.Enclosed) : Untouched .inside 0 (fieldValue? g) := by
  refine (acceptPlain rfl).bind fun equals => ite (fun _ => ?_) fun _ => pure _
  exact (inInitializer (hg.expr _)).andThen fun _ => pure _

theorem fieldEnd : Untouched .inside 0 fieldEnd := by
  refine (acceptPlain rfl).bind fun semicolon => ite (fun _ => pure _) fun _ => ?_
  exact peekBind nofun fun t => ite (fun _ => pure _) fun _ => fail _

theorem declaredName : Untouched .inside 0 declaredName := by
  refine privateName.andThen fun name => ite (fun _ => fail _) fun _ => ?_
  exact (declarePrivate name).andThen fun _ => pure _

theorem privateField (hg : g.Enclosed) : Untouched .inside 0 (privateField g) := by
  rw [privateField_eq]
  refine (spanned (openField_moves hg.reading) ?_).bind fun field =>
    fieldEnd.andThen fun _ => pure _
  exact declaredName.bind fun name => (fieldValue? hg).andThen fun _ => pure _

theorem isField (head : MemberHead) : Untouched .inside 0 (isField head) := by
  refine (ofAnywhere options).bind fun o => ite (fun _ => ?_) fun _ => pure _
  exact peekBind nofun fun _ => pure _

theorem plainElement (hg : g.Enclosed) : Untouched .inside 0 (plainElement g) := by
  rw [plainElement_eq]
  refine (spanned (openElement_moves hg.reading) ?_).bind fun found =>
    ite (fun _ => fieldEnd.andThen fun _ => pure _) fun _ => pure _
  refine (classMemberHead hg).bind fun head => (isField head).bind fun field =>
    ite (fun _ => ?_) fun _ => ?_
  · refine (ofAnywhere (report _)).bind fun _ => (fieldValue? hg).andThen fun _ => pure _
  · exact (classMethodRest hg head).andThen fun _ => pure _

theorem classElement? (hg : g.Enclosed) : Untouched .inside 0 (classElement? g) := by
  refine (acceptPlain rfl).bind fun semicolon => ite (fun _ => pure _) fun _ => ?_
  refine peekBind nofun fun t => (ofAnywhere options).bind fun o =>
    ite (fun _ => ?_) fun _ => plainElement hg
  exact (privateField hg).andThen fun _ => pure _

theorem classItem? (hg : g.Enclosed) : Untouched .inside 0 (classItem? g) := by
  refine (ofAnywhere options).bind fun o => ite (fun _ => classElement? hg) fun _ => ?_
  refine (acceptPlain rfl).bind fun semicolon => ite (fun _ => pure _) fun _ => ?_
  exact (classMethod hg).andThen fun _ => pure _

theorem classItems (hg : g.Enclosed) (fuel : Nat) : Untouched .inside (-1) (classItems g fuel) := by
  induction fuel with
  | zero => exact exhausted
  | succ fuel ih =>
    refine acceptClosing rfl (pure _) ?_
    exact (classItem? hg).bind fun first => ih.andThen fun _ => pure _

theorem classBody (hg : g.Enclosed) : Untouched .beforeEnd 0 (classBody g) :=
  opening rfl (classItems hg _)

theorem classTail (hg : g.Enclosed) : Untouched .inside 0 (classTail g) := by
  have body (parent : Option Expr) : Untouched .inside (α := Option Expr × List Member) 0 (do
      let members ← Grammar.classBody g
      return (parent, members)) :=
    (ofBeforeEnd (classBody hg)).andThen fun _ => pure _
  refine (acceptPlain rfl).bind fun extended => ite (fun _ => ?_) fun _ => ?_
  · exact ((whole hg _).map _).bind fun parent => body parent
  · exact (pure _).bind fun parent => body parent

theorem classExpression (hg : g.Enclosed) : Untouched .inside 0 (classExpression g) := by
  refine spannedOf (classExpression_reads hg.reading) ?_
  refine dropBind rfl (inClass ?_)
  exact (ofAnywhere definitionName?).bind fun name => (classTail hg).andThen fun _ => pure _

/-! ### Expressions -/

theorem callArguments (hg : g.Enclosed) : Untouched .inside (-1) (callArguments g) := by
  refine list rfl (.of_reads fun hrun => ?_) ?_
  · obtain ⟨_, u, hspread, hrun⟩ := bind_ok_iff.1 hrun
    obtain ⟨_, v, hvalue, hrun⟩ := bind_ok_iff.1 hrun
    obtain ⟨-, rfl⟩ := pure_ok_iff.1 hrun
    exact .prepend (accept_balanced hspread rfl) (whole_reads hg.reading hvalue)
  · exact (acceptPlain rfl).bind fun spread => (whole hg _).andThen fun _ => pure _

/-- What stands behind an operator before its operand. -/
theorem unaryTail (hg : g.Enclosed) (mode : ExprMode) (token : Token) (leading : Operator) :
    Untouched .inside 0 (unaryOperator leading >>= openUnary g mode token) := by
  have rest (op : Operator) : Untouched .inside 0 (openUnary g mode token op) := by
    refine peekBind nofun fun following => bind ?_ fun found => ite (fun _ => ?_) fun _ => ?_
    · exact ite (fun _ => pure _) fun _ => hg.expr _
    · exact (ofAnywhere (checkDelete token found.1)).andThen fun _ => pure _
    · exact pure _
  refine bind (ite (fun _ => ?_) fun _ => pure _) rest
  exact (acceptPlain rfl).andThen fun _ => pure _

theorem unary (hg : g.Enclosed) (mode : ExprMode) (leading : Operator) {first : Token}
    (hfirst : first.kind.isPlain) : UntouchedAt first 0 (unary g mode leading) := by
  rw [unary_spanned]
  exact .spanned (unary_moves hg.reading mode leading) (.nextPlain hfirst (unaryTail hg _ _ _))

theorem asyncOperand? (hg : g.Enclosed) (stops : List TokenKind) (first second third : Token) :
    UntouchedAt first 0 (asyncOperand? g stops first second third) := by
  have arrow : Untouched .inside (α := Option Expr) 0
      (do return some (← Grammar.arrowFunction g stops)) :=
    (arrowFunction hg stops).andThen fun _ => pure _
  refine .ite (fun _ => (pure _).at _) fun hasync => .ite (fun _ => ?_) fun _ =>
    .ite (fun _ => ?_) fun _ => ?_
  · -- What follows the word is tried, and then the position goes back to the word.
    intro n c c' s hc hs hdepth hfirst
    have hlt := hc.lt hs hdepth
    have hbehind : depth c.token s.advanced.position = depth c.token s.position := by
      have hkind : first.kind = .keyword .kAsync := by
        by_contra hne
        exact hasync (by simp [hne])
      rw [State.advanced_position, depth, hfirst, hkind]
      exact Int.add_zero _
    rw [position_bind, position_bind, discard_bind, next_bind, next_bind]
    have hplace : Place.inside.Holds n c.token s.advanced.position := by
      rw [Place.Holds, hbehind]
      exact hdepth
    have htried := arrowParameters hg true hc (s := s.advanced) (Nat.succ_le_of_lt hlt) hplace
    -- Where the attempt has ended does not matter.
    refine attempt_run htried.1 fun found u => ?_
    refine restored ?_ hc hs hdepth u
    cases found with
    | ok _ => exact arrow
    | error _ => exact pure _
  · exact ((functionExpression hg).andThen fun _ => pure _).at _
  · exact ((ofAnywhere nameRules).bind fun rules => ite (fun _ => arrow) fun _ => pure _).at _

theorem atom (hg : g.Enclosed) (mode : ExprMode) (first : Token) :
    Untouched .inside 0 (atom g mode first) := by
  have one {p : Parser Expr} (hp : Untouched .inside 0 p) :
      Untouched .inside 0 (do return (← p, false) : Parser (Expr × Bool)) :=
    hp.andThen fun _ => pure _
  unfold Grammar.atom
  split
  · exact one (ofBeforeEnd (arrayLiteral hg))
  · exact one (ofBeforeEnd (objectLiteral hg))
  · exact one (classExpression hg)
  · exact one (functionExpression hg)
  · exact (ofAnywhere (checkSuper first)).bind fun _ => one (ofBeforeEnd superReference)
  · exact one (ofBeforeEnd thisReference)
  · exact one (ofBeforeEnd boolLiteral)
  · exact one (ofBeforeEnd boolLiteral)
  · exact one (ofBeforeEnd nullLiteral)
  · exact one (ofBeforeEnd numberLiteral)
  · exact one (ofBeforeEnd stringLiteral)
  · exact arrowOrGrouping hg _ _
  · exact fail _

/-- What an expression begins with, whose first token is known. -/
theorem operandFrom (hg : g.Enclosed) (mode : ExprMode) (rules : NameRules)
    (first second third : Token) :
    UntouchedAt first 0 (operandFrom g mode rules first second third) := by
  unfold Grammar.operandFrom
  split
  next op hop => exact unary hg mode op (leadingOperator?_isPlain hop)
  refine (asyncOperand? hg _ _ _ _).bind fun found => ?_
  cases found with
  | some e => exact pure _
  | none =>
    refine ite (fun _ => ite (fun _ => ?_) fun _ => ?_) fun _ => atom hg mode first
    · exact (arrowFunction hg _).andThen fun _ => pure _
    · exact (ofBeforeEnd variableUse).andThen fun _ => pure _

/-- Nothing begins with `async` as a modifier at the end of the first text. -/
theorem asyncOperand?_atEnd {stops : List TokenKind} {first second third : Token}
    (hend : second.kind = .eof ∨ second.kind = .punctuator .semicolon) :
    Grammar.asyncOperand? g stops first second third = Pure.pure none := by
  have hallowed (rules : NameRules) : rules.allows second.kind = false := by
    rcases hend with h | h <;> rw [h] <;> rfl
  have hparenthesis : second.kind ≠ .punctuator .parenthesisOpen := by
    rcases hend with h | h <;> rw [h] <;> decide
  have hfunction : second.kind ≠ .keyword .kFunction := by
    rcases hend with h | h <;> rw [h] <;> decide
  unfold Grammar.asyncOperand?
  rw [if_neg hparenthesis, if_neg hfunction]
  split
  · rfl
  · simp only [hallowed, Bool.false_and, Bool.false_eq_true, if_false]
    rfl

/-- The tokens with which an expression begins mean the same in both texts. -/
theorem operandFrom_tokens {n : Nat} {c c' : Context} (hc : c.GoesOn n c') {i : Nat} (hi : i < n)
    (mode : ExprMode) (rules : NameRules) :
    Grammar.operandFrom g mode rules (c'.token i) (c'.token (i + 1)) (c'.token (i + 2))
      = Grammar.operandFrom g mode rules (c.token i) (c.token (i + 1)) (c.token (i + 2)) := by
  rw [hc.token hi]
  rcases Nat.lt_or_ge (i + 1) n with hnext | hlast
  · rw [hc.token hnext]
    obtain hthird | ⟨-, heof, hsemicolon⟩ := hc.token_cases (Nat.succ_le_of_lt hnext)
    · rw [hthird]
    · unfold Grammar.operandFrom Grammar.asyncOperand?
      rw [heof, hsemicolon]
      rfl
  · -- What stands behind the semicolon is not asked for.
    have hn : i + 1 = n := Nat.le_antisymm hi hlast
    unfold Grammar.operandFrom
    rw [hn, asyncOperand?_atEnd (.inl hc.eof), asyncOperand?_atEnd (.inr hc.semicolon), hc.eof,
      hc.semicolon]
    rfl

theorem operand (hg : g.Enclosed) (mode : ExprMode) : Untouched .inside 0 (operand g mode) := by
  intro n c c' s hc hs hdepth
  have hlt := hc.lt hs hdepth
  rw [operand_run, operand_run, hc.names, operandFrom_tokens hc hlt]
  exact operandFrom hg mode c.names _ _ _ hc (s := ((s.looked 0).looked 1).looked 2) hs hdepth rfl

/-- An operator behind an expression, which is known before it is read. -/
theorem following (hg : g.Enclosed) (mode : ExprMode) {first : Token} {op : Operator}
    (hop : Operator.following? first.kind = some op) (left : Expr) :
    UntouchedAt first 0 (following g mode op left) := by
  obtain ⟨rfl, hkind⟩ | ⟨rfl, hkind⟩ | ⟨hcall, hcomputed, hplain⟩ := following?_kind hop
  · rw [following_call]
    refine .spanned (call_moves hg.reading _) ?_
    rw [discard_bind]
    refine .next (by rw [hkind]; decide) ?_
    rw [hkind]
    exact (callArguments hg).andThen fun _ => pure _
  · refine .position fun start => ?_
    rw [discard_bind]
    refine .next (by rw [hkind]; decide) ?_
    rw [hkind]
    have bracket : Untouched .beforeEnd (-1) (Parser.require (.punctuator .bracketClose)) :=
      Untouched.require rfl
    exact (whole hg _).bind fun member => (ofBeforeEnd bracket).andThen fun _ => pure _
  · refine .position fun start => ?_
    rw [discard_bind]
    refine .nextPlain hplain ?_
    unfold Grammar.continuation
    split
    · exact absurd rfl hcall
    · exact absurd rfl hcomputed
    · refine (whole hg _).bind fun consequent => dropBind rfl ?_
      exact (hg.expr _).andThen fun _ => pure _
    · exact (memberAccess left).andThen fun _ => pure _
    · have right : Untouched .inside (α := Expr × Bool) 0 (do
          let found ← g.expr { mode with least := op.operandPrecedence }
          return (.binary (left.span ∪ found.1.span) op left found.1, found.2)) :=
        (hg.expr _).andThen fun _ => pure _
      exact ite (fun _ => (ofAnywhere (checkAssignable left)).bind fun _ => right) fun _ => right

theorem climb (hg : g.Enclosed) (mode : ExprMode) (left : Expr) (inserted : Bool) (fuel : Nat) :
    Untouched .inside 0 (climb g mode left inserted fuel) := by
  induction fuel generalizing left inserted with
  | zero => exact exhausted
  | succ fuel ih =>
    rw [climb_peek]
    refine peekAt fun t => .ite (fun _ => (pure _).at _) fun _ => ?_
    split
    next op hop =>
      refine .ite (fun _ => (pure _).at _) fun _ => ?_
      rw [discard_bind]
      exact .nextPlain (update?_isPlain (Option.filter_eq_some_iff.1 hop).1) (ih _ _)
    split
    next op hop =>
      exact .ite (fun _ => (pure _).at _) fun _ => (following hg mode hop left).bind fun _ => ih _ _
    next =>
      -- Whatever is read there, it is an error.
      exact .ite (fun _ => (pure _).at _) fun _ _ _ _ _ _ _ _ _ => ⟨rfl, fun _ _ h => by cases h⟩

theorem expression (hg : g.Enclosed) (mode : ExprMode) : Untouched .inside 0 (expression g mode) :=
  (operand hg mode).bind fun _ => climb hg mode _ _ _

/-! ### Statements -/

theorem expressionEnd (hg : g.Enclosed) : Untouched .inside 0 (expressionEnd g) := by
  refine (hg.expr _).bind fun found => ite (fun _ => pure _) fun _ => ?_
  exact (ofBeforeEnd (drop rfl)).andThen fun _ => pure _

theorem block (hg : g.Enclosed) : Untouched .beforeEnd 0 (block g) :=
  spannedOf (block_reads hg.reading) ((blockBody hg).andThen fun _ => pure _)

theorem expressionStatement (hg : g.Enclosed) : Untouched .inside 0 (expressionStatement g) :=
  spannedOf (expressionStatement_reads hg.reading) ((expressionEnd hg).andThen fun _ => pure _)

theorem condition (hg : g.Enclosed) : Untouched .beforeEnd 0 (condition g) :=
  opening rfl ((whole hg _).bind fun _ => close rfl _)

theorem ifStatement (hg : g.Enclosed) : Untouched .inside 0 (ifStatement g) := by
  refine spannedOf (ifStatement_reads hg.reading) (dropBind rfl ?_)
  refine (ofBeforeEnd (condition hg)).bind fun test => hg.stmt.bind fun consequent => ?_
  refine (acceptPlain rfl).bind fun more => ite (fun _ => ?_) fun _ => ?_
  · exact (hg.stmt.map _).andThen fun _ => pure _
  · exact (pure _).andThen fun _ => pure _

theorem returnStatement (hg : g.Enclosed) : Untouched .inside 0 (returnStatement g) := by
  refine spannedOf (returnStatement_reads hg.reading) (dropBind rfl ?_)
  refine peekBind nofun fun t => ite (fun _ => pure _) fun _ => ?_
  refine (acceptPlain rfl).bind fun semicolon => ite (fun _ => pure _) fun _ => ?_
  exact (expressionEnd hg).andThen fun _ => pure _

theorem throwStatement (hg : g.Enclosed) : Untouched .inside 0 (throwStatement g) := by
  refine spannedOf (throwStatement_reads hg.reading) ?_
  have word : Untouched .beforeEnd 0 (Parser.require (.keyword .kThrow)) := Untouched.require rfl
  refine (ofBeforeEnd word).bind fun start => peekBind nofun fun t =>
    ite (fun _ => fail _) fun _ => ?_
  exact (expressionEnd hg).andThen fun _ => pure _

theorem whileStatement (hg : g.Enclosed) : Untouched .inside 0 (whileStatement g) := by
  refine spannedOf (whileStatement_reads hg.reading) (dropBind rfl ?_)
  exact (ofBeforeEnd (condition hg)).bind fun test => hg.stmt.andThen fun _ => pure _

theorem declarator (hg : g.Enclosed) : Untouched .inside 0 (declarator g) := by
  refine (ofBeforeEnd identifier).bind fun name => (acceptPlain rfl).bind fun equals =>
    ite (fun _ => ?_) fun _ => pure _
  exact (hg.expr _).andThen fun _ => pure _

theorem declarators (hg : g.Enclosed) (fuel : Nat) : Untouched .inside 0 (declarators g fuel) := by
  induction fuel with
  | zero => exact exhausted
  | succ fuel ih =>
    refine (declarator hg).bind fun found => (acceptPlain rfl).bind fun semicolon =>
      ite (fun _ => pure _) fun _ => ite (fun _ => pure _) fun _ => ?_
    refine peekBind nofun fun t => ite (fun _ => pure _) fun _ => dropBind rfl ?_
    exact ih.andThen fun _ => pure _

theorem variableDeclaration (hg : g.Enclosed) : Untouched .inside 0 (variableDeclaration g) := by
  refine spannedOf (variableDeclaration_reads hg.reading) ?_
  exact (ofBeforeEnd declarationKind).bind fun kind => (declarators hg _).andThen fun _ => pure _

theorem functionDeclaration (hg : g.Enclosed) : Untouched .inside 0 (functionDeclaration g) := by
  refine spannedOf (functionDeclaration_reads hg.reading) ?_
  have word : Untouched .beforeEnd 0 (Parser.require (.keyword .kFunction)) := Untouched.require rfl
  refine (acceptPlain rfl).bind fun async => (ofBeforeEnd word).bind fun start => ?_
  refine (acceptPlain rfl).bind fun generator => ?_
  refine (withNames _ (ofAnywhere definitionName?)).bind fun name => ?_
  cases name with
  | none => exact fail _
  | some name => exact (functionRest hg _ _).andThen fun _ => pure _

theorem classDeclaration (hg : g.Enclosed) : Untouched .inside 0 (classDeclaration g) := by
  refine spannedOf (classDeclaration_reads hg.reading) ?_
  have word : Untouched .beforeEnd 0 (Parser.require (.keyword .kClass)) := Untouched.require rfl
  refine (ofBeforeEnd word).bind fun start => inClass ?_
  refine (ofAnywhere definitionName?).bind fun name => ?_
  cases name with
  | none => exact fail _
  | some name => exact (classTail hg).andThen fun _ => pure _

theorem statement (hg : g.Enclosed) : Untouched .inside 0 (statement g) := by
  refine peekBind nofun fun first => look nofun (fun second => ?_) fun t t' ht ht' => ?_
  · split
    · exact ofBeforeEnd (block hg)
    · exact classDeclaration hg
    · exact variableDeclaration hg
    · exact variableDeclaration hg
    · refine (ofAnywhere nameRules).bind fun rules => ?_
      exact ite (fun _ => variableDeclaration hg) fun _ => expressionStatement hg
    · exact ite (fun _ => functionDeclaration hg) fun _ => expressionStatement hg
    · exact functionDeclaration hg
    · exact ifStatement hg
    · exact returnStatement hg
    · exact throwStatement hg
    · exact whileStatement hg
    · exact ofBeforeEnd emptyStatement
    · exact expressionStatement hg
  · rw [ht, ht']
    rfl

end Untouched

/-- **Every budget.** Whatever the budget is, inside of brackets the rules of the grammar do the
same in two texts one of which goes on. -/
theorem Rules.within_enclosed (n : Nat) : (Rules.within n).Enclosed := by
  induction n with
  | zero => exact ⟨within_reading 0, .exhausted, fun _ => .exhausted⟩
  | succ n ih => exact ⟨within_reading (n + 1), .statement ih, fun mode => .expression ih mode⟩

end EcmaScript
