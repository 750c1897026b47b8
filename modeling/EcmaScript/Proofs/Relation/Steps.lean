import EcmaScript.Proofs.Relation.Closed

namespace EcmaScript

open EcmaScript.Parser

/-!
# Relations that hold of single steps

Most relations hold already of the single steps from which every rule is made: of looking at a
token, of reading one, of going back. Such a relation is closed on all the rules.

* `Grammar.usedName`, `Grammar.declaredName`, `Grammar.tried`, `Grammar.rewound` — steps that the
  rules are made of, besides those of the parsers;
* `Grammar.operand_named`, … — rules that ask of a token whether it may be a name when they look at
  it;
* `Grammar.openElement`, `Grammar.following`, `Grammar.climb_peek` — parts that take their span when
  they have moved on;
* `PlainSteps` — closed under sequences, and holds of the steps in which the position never goes
  back;
* `ClosedOnElements` — holds moreover of what depends on the options, and so of members;
* `ClosedOnReading` — holds moreover of the other steps in which nothing is tried, and may be proved
  by an induction on budgets;
* `ClosedOnSteps` — holds moreover of attempts;
* `ClosedOnReading.statement`, `ClosedOnSteps.expression` — such relations are closed on the rules.
-/

/-- A private name that is used. -/
def Grammar.usedName : Parser Ident := do
  let name ← Grammar.privateName
  usePrivate name
  return name

/-- A private name that is declared. -/
def Grammar.declaredName : Parser Ident := do
  let name ← Grammar.privateName
  if name.name = "constructor" then fail ⟨.reservedConstructorField, name.span, none⟩
  else
    declarePrivate name
    return name

/-- Parameters that may be none: if they cannot be read, there is nothing, unless only the line
break before the arrow is wrong. -/
def Grammar.tried {α : Type} (p : Parser α) : Parser (Option α) := do
  match ← attempt p with
  | .ok a => return some a
  | .error e => if e.cause = .lineTerminatorAfterArrowParameters then fail e else return none

/-- A part that is read ahead: the position goes back to where it was. -/
def Grammar.rewound {α : Type} (p : Parser α) : Parser α := do
  let start ← position
  let a ← p
  restore start
  return a

/-- What begins with `async` as a modifier, where it is known whether the second token may be a
name. -/
def Grammar.asyncOperandNamed? (g : Rules) (stops : List TokenKind) (first second third : Token)
    (named : Bool) : Parser (Option Expr) := do
  if first.kind ≠ .keyword .kAsync || second.newlineBefore then return none
  else if second.kind = .punctuator .parenthesisOpen then
    match ← rewound (discard next >>= fun _ => attempt (arrowParameters g true)) with
    | .ok _ => return some (← arrowFunction g stops)
    | .error _ => return none
  else if second.kind = .keyword .kFunction then return some (← functionExpression g)
  else if named && third.kind = arrowKind then return some (← arrowFunction g stops)
  else return none

/-- An arrow function, if its parameters can be read behind `async`. -/
def Grammar.asyncArrow? (g : Rules) (stops : List TokenKind) : Parser (Option Expr) := do
  match ← rewound (discard next >>= fun _ => attempt (arrowParameters g true)) with
  | .ok _ => return some (← arrowFunction g stops)
  | .error _ => return none

/-- What an expression begins with, where it is known of the first two tokens whether they may be
names. -/
def Grammar.operandNamed (g : Rules) (mode : ExprMode) (first second : Token × Bool)
    (third : Token) : Parser (Expr × Bool) := do
  match leadingOperator? ⟨first.2, first.2⟩ first.1.kind with
  | some op => unary g mode op
  | none =>
    match ← asyncOperandNamed? g mode.stops first.1 second.1 third second.2 with
    | some found => return (found, false)
    | none =>
      if first.2 then
        if second.1.kind = arrowKind then return (← arrowFunction g mode.stops, false)
        else return (← variableUse, false)
      else atom g mode first.1

/-- A method, or a value behind a colon. -/
def Grammar.objectMemberTail (g : Rules) (head : MemberHead) (isMethod : Bool) :
    Parser (Span → ObjectMember) := do
  if isMethod then
    let func ← Grammar.methodRest g head.kind head.async head.generator
    return fun span => .method span head.key head.kind func
  else
    discard <| require (.punctuator .colon)
    let value ← g.whole [.punctuator .comma, .punctuator .braceClose]
    return fun span => .valued span head.key value

/-- What stands behind the head of a member of an object. -/
def Grammar.objectMemberRest (g : Rules) (head : MemberHead) : Parser (Span → ObjectMember) :=
  if head.hasModifiers then Grammar.objectMemberTail g head true
  else do
    let t ← peek
    Grammar.objectMemberTail g head (t.kind = .punctuator .parenthesisOpen)

/-- An element of a class that is no private field: a public field or a method. -/
def Grammar.plainElement (g : Rules) : Parser (Option Member) := do
  let start ← position
  let head ← Grammar.classMemberHead g
  if ← Grammar.isField head then
    report (.publicField head.key.staticName?)
    let value ← Grammar.fieldValue? g
    let span ← since start
    Grammar.fieldEnd
    return some (.field span head.key head.key.isComputed value)
  else
    let make ← Grammar.classMethodRest g head
    return some (make (← since start))

/-- The same through its value, and whether it is a field. -/
def Grammar.openElement (g : Rules) : Parser (Span → Bool × Member) := do
  let head ← Grammar.classMemberHead g
  if ← Grammar.isField head then
    report (.publicField head.key.staticName?)
    let value ← Grammar.fieldValue? g
    return fun span => (true, .field span head.key head.key.isComputed value)
  else
    let make ← Grammar.classMethodRest g head
    return fun span => (false, make span)

/-- A private field through its value. -/
def Grammar.openField (g : Rules) : Parser (Span → Member) := do
  let name ← Grammar.declaredName
  let value ← Grammar.fieldValue? g
  return fun span => .field span (.privateName name) false value

/-- What stands behind an operator that has been read. -/
def Grammar.openUnary (g : Rules) (mode : ExprMode) (token : Token) (op : Operator) :
    Parser (Span → Expr × Bool) := do
  let found ← Grammar.unaryArgument g mode token op (← peek)
  if op = .delete then Grammar.checkDelete token found.1
  return fun span => (.unary span op found.1, found.2)

/-- An operator behind an expression, and what it adds. -/
def Grammar.following (g : Rules) (mode : ExprMode) (op : Operator) (left : Expr) :
    Parser (Expr × Bool) := do
  let start ← position
  discard next
  Grammar.continuation g mode start op left

/-! ### Spans of parts

A span is empty where nothing was read since its start, and then it depends on the tokens that have
been looked at. No rule takes such a span. -/

namespace Grammar

variable {g : Rules}

theorem plainElement_eq (g : Rules) : plainElement g = (do
    let found ← spanned (openElement g)
    if found.1 then
      fieldEnd
      return some found.2
    else return some found.2) := by
  unfold plainElement openElement spanned
  simp only [bind_assoc]
  refine bind_congr fun start => bind_congr fun head => bind_congr fun field => ?_
  cases field
  · simp only [Bool.false_eq_true, if_false, bind_assoc, pure_bind]
  · simp only [if_true, bind_assoc, pure_bind]

theorem privateField_eq (g : Rules) : privateField g = (do
    let field ← spanned (openField g)
    fieldEnd
    return field) := by
  unfold privateField openField spanned declaredName
  simp only [bind_assoc]
  refine bind_congr fun start => bind_congr fun name => ?_
  split
  · rfl
  · simp only [bind_assoc, pure_bind]

theorem unary_spanned (mode : ExprMode) (leading : Operator) :
    unary g mode leading =
      spanned (next >>= fun token => unaryOperator leading >>= openUnary g mode token) := by
  rw [unary_eq]
  unfold unaryRest openUnary spanned
  simp only [bind_assoc]
  refine bind_congr fun start => bind_congr fun token => bind_congr fun op => ?_
  refine bind_congr fun following => bind_congr fun found => ?_
  split
  · simp only [bind_assoc, pure_bind]
  · simp only [pure_bind]

theorem following_call (mode : ExprMode) (left : Expr) : following g mode .call left = spanned (do
    discard next
    let arguments ← callArguments g
    return fun span => (.call (left.span ∪ span) left arguments, false)) := by
  unfold following continuation spanned
  simp only [bind_assoc, pure_bind]

/-! They have moved on. -/

variable {c : Context} {s t : State}

theorem openField_moves (hg : g.Reading) : Moves (openField g) := by
  intro c s t make hrun
  obtain ⟨name, u, hname, hrun⟩ := bind_ok_iff.1 hrun
  obtain ⟨_, v, hvalue, hrun⟩ := bind_ok_iff.1 hrun
  obtain ⟨-, rfl⟩ := pure_ok_iff.1 hrun
  obtain ⟨_, w, hname, hdeclare⟩ := bind_ok_iff.1 hname
  have hlt := (privateName_reads hname).lt
  have hle := (fieldValue?_balanced hg hvalue).le
  rw [ite_run] at hdeclare
  split at hdeclare
  · exact (fail_ok_iff.1 hdeclare).elim
  · obtain ⟨_, x, hx, hname⟩ := bind_ok_iff.1 hdeclare
    obtain ⟨-, rfl⟩ := pure_ok_iff.1 hname
    obtain ⟨_, -, rfl⟩ := declarePrivate_ok hx
    exact Nat.lt_of_lt_of_le hlt hle

theorem openElement_moves (hg : g.Reading) : Moves (openElement g) := by
  intro c s t make hrun
  obtain ⟨head, u, hhead, hrun⟩ := bind_ok_iff.1 hrun
  obtain ⟨field, v, hfield, hrun⟩ := bind_ok_iff.1 hrun
  have hlt := (classMemberHead_reads hg hhead).lt
  have hv := (isField_ok hfield).1.position
  rw [ite_run] at hrun
  split at hrun
  · rw [report_bind] at hrun
    obtain ⟨_, w, hvalue, hrun⟩ := bind_ok_iff.1 hrun
    obtain ⟨-, rfl⟩ := pure_ok_iff.1 hrun
    have hle := (fieldValue?_balanced hg hvalue).le
    exact Nat.lt_of_lt_of_le hlt (hv ▸ hle)
  · obtain ⟨_, w, hrest, hrun⟩ := bind_ok_iff.1 hrun
    obtain ⟨-, rfl⟩ := pure_ok_iff.1 hrun
    have hle := (classMethodRest_reads hg hrest).balanced.le
    exact Nat.lt_of_lt_of_le hlt (hv ▸ hle)

theorem unary_moves (hg : g.Reading) (mode : ExprMode) (leading : Operator) :
    Moves (next >>= fun token => unaryOperator leading >>= openUnary g mode token) := by
  intro c s t make hrun
  have hunary : unary g mode leading c s = .ok (make (spanSince c s.position t)) t := by
    rw [unary_spanned, spanned_ok_iff]
    exact ⟨make, hrun, rfl⟩
  exact (unary_balanced hg hunary).le

theorem call_moves (hg : g.Reading) {α : Type} (f : List Arg → Span → α) : Moves (do
    discard next
    let arguments ← callArguments g
    return f arguments) := by
  intro c s t make hrun
  rw [discard_bind, next_bind] at hrun
  obtain ⟨_, u, harguments, hrun⟩ := bind_ok_iff.1 hrun
  obtain ⟨-, rfl⟩ := pure_ok_iff.1 hrun
  obtain ⟨j, hj, -, ht⟩ := callArguments_balanced hg harguments
  rw [ht]
  exact Nat.lt_succ_of_lt hj.le

/-- The next token decides how an expression goes on, before it is read. -/
theorem climb_peek (mode : ExprMode) (left : Expr) (inserted : Bool) (n : Nat) :
    climb g mode left inserted (n + 1) = (do
      let t ← peek
      if mode.stops.contains t.kind then return (left, inserted)
      else
        match (Operator.update? t.kind).filter fun _ => !t.newlineBefore with
        | some op =>
          if op.precedence < mode.least then return (left, inserted)
          else
            discard next
            climb g mode (.update (left.span ∪ t.span) op left) inserted n
        | none =>
          match Operator.following? t.kind with
          | some op =>
            if op.precedence < mode.least then return (left, inserted)
            else
              let found ← following g mode op left
              climb g mode found.1 (inserted || found.2) n
          | none =>
            if mode.insertion && allowsInsertion t then return (left, true)
            else
              discard next
              fail (t.misplaced .unexpectedToken)) := by
  funext c s
  have hnext {α : Type} (p : Parser α) : (discard next >>= fun _ => p) c (s.looked 0)
      = p c s.advanced := by
    rw [discard_bind, next_bind, State.looked_advanced]
  rw [climb, position_bind, next_bind, peek_bind, ite_run, ite_run]
  split
  · rfl
  cases (Operator.update? (c.token s.position).kind).filter
      fun _ => !(c.token s.position).newlineBefore with
  | some op =>
    dsimp only
    rw [ite_run, ite_run, hnext]
    rfl
  | none =>
    cases Operator.following? (c.token s.position).kind with
    | some op =>
      dsimp only
      rw [following, bind_assoc, ite_run, ite_run, position_bind, bind_assoc, hnext]
      rfl
    | none =>
      dsimp only
      rw [ite_run, ite_run, hnext]
      rfl

/-! ### Rules for names

Where a rule asks which words may be names, it asks it of a token that it looks at. -/

theorem variableName_named : variableName = (do
    let x ← named 0
    discard next
    if x.2 then
      let name ← identifierText x.1
      checkArguments x.1 name
      return name
    else fail (x.1.misplaced (.expected "identifier"))) := by
  funext c s
  rw [named_bind, discard_bind, next_bind, State.looked_advanced, variableName, next_bind,
    nameRules_bind]
  rfl

theorem definitionName?_named : definitionName? = (do
    let x ← named 0
    if x.2 then
      let t ← next
      return some ⟨t.span, t.text⟩
    else return none) := by
  funext c s
  rw [named_bind, definitionName?, nameRules_bind, bind_apply, ite_run, next_bind,
    State.looked_advanced]
  cases hallowed : c.names.allows (c.token s.position).kind with
  | true =>
    rw [acceptIf?_of_pos hallowed]
    rfl
  | false =>
    rw [acceptIf?_of_neg hallowed]
    rfl

theorem objectMember_named (g : Rules) : objectMember g = (do
    let first ← named 0
    let second ← look 1
    if first.2 && (second.kind = .punctuator .comma || second.kind = .punctuator .braceClose) then
      let name ← identifier
      return fun span => .shorthand span name
    else memberHead g false >>= objectMemberRest g) := rfl

theorem leadingOperator?_named (rules : NameRules) (kind : TokenKind) :
    leadingOperator? rules kind = leadingOperator? ⟨rules.allows kind, rules.allows kind⟩ kind := by
  cases kind with
  | keyword k => cases k <;> rfl
  | punctuator p => cases p <;> rfl
  | _ => rfl

theorem rewound_next_bind {α β : Type} (p : Parser α) (f : α → Parser β) :
    rewound (discard next >>= fun _ => p) >>= f = (do
      let start ← position
      discard next
      let a ← p
      restore start
      f a) := by
  simp only [rewound, bind_assoc, pure_bind]

theorem asyncOperand?_named (g : Rules) (stops : List TokenKind) (first second third : Token) :
    asyncOperand? g stops first second third =
      nameRules >>= fun rules =>
        asyncOperandNamed? g stops first second third (rules.allows second.kind) := by
  funext c s
  rw [nameRules_bind, asyncOperand?, asyncOperandNamed?, ite_run, ite_run]
  split
  · rfl
  rw [ite_run, ite_run]
  split
  · exact (congrFun (congrFun (rewound_next_bind ..) c) s).symm
  rw [ite_run, ite_run]
  split
  · rfl
  · rw [nameRules_bind, ite_run]

theorem operandFrom_named (g : Rules) (mode : ExprMode) (first second third : Token) (c : Context)
    (s : State) : operandFrom g mode c.names first second third c s
      = operandNamed g mode (first, c.names.allows first.kind) (second, c.names.allows second.kind)
          third c s := by
  rw [operandFrom, operandNamed, leadingOperator?_named]
  dsimp only
  generalize leadingOperator? _ first.kind = leading
  cases leading with
  | some op => rfl
  | none =>
    dsimp only
    rw [asyncOperand?_named, bind_assoc]
    exact nameRules_bind ..

theorem operand_named (g : Rules) (mode : ExprMode) : operand g mode = (do
    let first ← named 0
    let second ← named 1
    let third ← look 2
    operandNamed g mode first second third) := by
  funext c s
  rw [operand_run, named_bind, named_bind, look_bind]
  exact operandFrom_named ..

end Grammar

/-! ### Plain steps -/

open Grammar in
/-- Closed under sequences, and holds of the single steps in which the position never goes back. -/
structure PlainSteps (Q : ParserRel) : Prop where
  pure {α : Type} (a : α) : Q (pure a) (pure a)
  fail {α : Type} {e : SyntaxError} : e.cause ≠ .lineTerminatorAfterArrowParameters →
    Q (fail e : Parser α) (fail e)
  bind {α β : Type} {p p' : Parser α} {f f' : α → Parser β} :
    Q p p' → (∀ a, Q (f a) (f' a)) → Q (p >>= f) (p' >>= f')
  position : Q position position
  spanned {α : Type} {p p' : Parser (Span → α)} : Moves p → Q p p' → Q (spanned p) (spanned p')
  look (n : Nat) : Q (look n) (look n)
  next : Q next next
  acceptIf? (cond : Token → Bool) : Q (acceptIf? cond) (acceptIf? cond)
  named (n : Nat) : Q (named n) (named n)
  flags : Q (options >>= fun o => Pure.pure o.flags) (options >>= fun o => Pure.pure o.flags)
  report (key : Option String) : Q (report (.publicField key)) (report (.publicField key))
  withNames {α : Type} {f : NameRules → NameRules} {p p' : Parser α} : NameRules.Uniform f →
    Q p p' → Q (withNames f p) (withNames f p')
  checkArguments (t : Token) (name : String) : Q (checkArguments t name) (checkArguments t name)
  checkSuper (t : Token) : Q (checkSuper t) (checkSuper t)
  usedName : Q usedName usedName

namespace PlainSteps

open EcmaScript.Grammar

variable {Q : ParserRel} {α β : Type}

theorem discard (h : PlainSteps Q) {p p' : Parser α} (hp : Q p p') :
    Q (discard p) (discard p') := by
  rw [discard_eq_bind, discard_eq_bind]
  exact h.bind hp fun _ => h.pure _

/-- A token that may not stand where it does. -/
theorem misplaced (h : PlainSteps Q) (t : Token) {cause : SyntaxError.Cause}
    (hcause : cause ≠ .lineTerminatorAfterArrowParameters) :
    Q (Parser.fail (t.misplaced cause) : Parser α) (Parser.fail (t.misplaced cause)) :=
  h.fail (t.misplaced_cause_ne hcause nofun nofun nofun)

theorem accept (h : PlainSteps Q) (kind : TokenKind) : Q (accept kind) (accept kind) :=
  h.bind (h.acceptIf? _) fun _ => h.pure _

theorem require (h : PlainSteps Q) (kind : TokenKind) :
    Q (require kind) (require kind) :=
  h.bind h.next fun t => ParserRel.ite _ (h.pure _) (h.misplaced t nofun)

/-- What depends on the options depends on their flags. -/
theorem ofFlags (h : PlainSteps Q) (f f' : Flags → Parser β) (hf : ∀ fl, Q (f fl) (f' fl)) :
    Q (options >>= fun o => f o.flags) (options >>= fun o => f' o.flags) := by
  have heq (f : Flags → Parser β) :
      (options >>= fun o => f o.flags) = ((options >>= fun o => Pure.pure o.flags) >>= f) := by
    simp only [bind_assoc, pure_bind]
  rw [heq f, heq f']
  exact h.bind h.flags hf

/-! ### Names and keys -/

theorem identifierText (h : PlainSteps Q) (t : Token) :
    Q (identifierText t) (identifierText t) := by
  unfold Grammar.identifierText
  split
  · exact h.pure _
  · exact h.fail nofun

theorem variableName (h : PlainSteps Q) : Q variableName variableName := by
  rw [variableName_named]
  refine h.bind (h.named 0) fun x => ?_
  refine h.bind (h.discard h.next) fun _ => ?_
  refine ParserRel.ite _ ?_ (h.misplaced _ nofun)
  refine h.bind (h.identifierText x.1) fun name => ?_
  exact h.bind (h.checkArguments x.1 name) fun _ => h.pure _

theorem definitionName? (h : PlainSteps Q) : Q definitionName? definitionName? := by
  rw [definitionName?_named]
  refine h.bind (h.named 0) fun _ => ?_
  exact ParserRel.ite _ (h.bind h.next fun _ => h.pure _) (h.pure _)

theorem boolLiteral (h : PlainSteps Q) : Q boolLiteral boolLiteral := by
  refine h.spanned (Advances.of_spanned boolLiteral_reads).moves (h.bind h.next fun t => ?_)
  split
  · exact h.pure _
  · exact h.pure _
  · exact h.misplaced _ nofun

theorem declarationKind (h : PlainSteps Q) : Q declarationKind declarationKind := by
  refine h.bind h.next fun t => ?_
  split
  · exact h.pure _
  · exact h.pure _
  · exact h.pure _
  · exact h.misplaced _ nofun

theorem numberValue (h : PlainSteps Q) : Q numberValue numberValue := by
  refine h.bind (h.require _) fun t => ?_
  split
  · exact h.pure _
  · exact h.fail nofun

theorem stringValue (h : PlainSteps Q) : Q stringValue stringValue := by
  refine h.bind (h.require _) fun t => ?_
  split
  · exact h.pure _
  · exact h.fail nofun

theorem directKey (h : PlainSteps Q) : Q directKey directKey := by
  refine h.spanned (Advances.of_spanned directKey_reads).moves (h.bind (h.look 0) fun t => ?_)
  refine h.bind ?_ fun _ => h.pure _
  unfold directKeyText
  split
  · exact h.stringValue
  · exact h.bind h.numberValue fun _ => h.pure _
  · refine h.bind h.next fun t => ?_
    refine h.bind (h.identifierText t) fun name => ?_
    exact h.bind (h.checkArguments t name) fun _ => h.pure _
  · exact h.bind h.next fun _ => h.pure _
  · exact h.misplaced _ nofun

theorem memberAccess (h : PlainSteps Q) (object : Expr) :
    Q (memberAccess object) (memberAccess object) := by
  have word (t : Token) : Q (do
      Functor.discard Parser.next
      let name ← Grammar.identifierText t
      Parser.checkArguments t name
      return Expr.member (object.span ∪ t.span) object name) (do
      Functor.discard Parser.next
      let name ← Grammar.identifierText t
      Parser.checkArguments t name
      return Expr.member (object.span ∪ t.span) object name) := by
    refine h.bind (h.discard h.next) fun _ => ?_
    refine h.bind (h.identifierText t) fun name => ?_
    exact h.bind (h.checkArguments t name) fun _ => h.pure _
  refine h.bind (h.look 0) fun t => ?_
  split
  · have heq : (do
        let name ← Grammar.privateName
        Parser.usePrivate name
        return Expr.privateMember (object.span ∪ name.span) object name) =
        Grammar.usedName >>= fun name =>
          Pure.pure (.privateMember (object.span ∪ name.span) object name) := by
      simp only [Grammar.usedName, bind_assoc, pure_bind]
    rw [heq]
    exact h.bind h.usedName fun _ => h.pure _
  · exact word t
  · exact word t
  · exact h.misplaced _ nofun

/-- A relation that holds of the plain steps is closed on all that reads tokens. -/
theorem tokens (h : PlainSteps Q) : ClosedOnTokens Q where
  pure := h.pure
  fail := h.fail
  bind := h.bind
  look := h.look
  accept _ := h.accept _
  require _ := h.require _
  named := h.named
  spanned hadvances := h.spanned hadvances.moves
  withNames := h.withNames
  variableName := h.variableName
  definitionName? := h.definitionName?
  boolLiteral := h.boolLiteral
  declarationKind := h.declarationKind
  directKey := h.directKey
  checkSuper := h.checkSuper

end PlainSteps

/-! ### Elements of objects and classes -/

open Grammar in
/-- Holds moreover of the plain steps, and of what depends on the options. -/
structure ClosedOnElements (P Q : ParserRel) (K : Flags → ParserRel) (g g' : Rules)
    (M : ExprMode → Prop := ExprMode.TakesCalls) : Prop extends Closed P Q K g g' M where
  steps : PlainSteps Q
  class_spanned {fl : Flags} {α : Type} {p p' : Parser (Span → α)} :
    Moves p → K fl p p' → K fl (Parser.spanned p) (Parser.spanned p')
  class_flags {fl : Flags} {β : Type} {f f' : Flags → Parser β} :
    (∀ flags, flags = fl → K fl (f flags) (f' flags)) →
    K fl (options >>= fun o => f o.flags) (options >>= fun o => f' o.flags)
  declaredName {fl : Flags} : fl.classFields = true → fl.fields = true →
    K fl declaredName declaredName

namespace ClosedOnElements

open EcmaScript.Grammar

variable {P Q : ParserRel} {K : Flags → ParserRel} {g g' : Rules} {M : ExprMode → Prop}

theorem modifier (h : ClosedOnElements P Q K g g' M) (k : Keyword) (sameLine : Bool) :
    Q (modifier k sameLine) (modifier k sameLine) := by
  refine h.bind (h.look 0) fun _ => ?_
  refine h.bind (h.look 1) fun _ => ?_
  refine ParserRel.ite _ (h.pure _) ?_
  exact h.bind (h.discard h.steps.next) fun _ => h.pure _

theorem methodModifiers (h : ClosedOnElements P Q K g g' M) :
    Q methodModifiers methodModifiers := by
  have async : Q (do
      if (← options).supportsAsyncMembers then Grammar.modifier .kAsync true else Pure.pure false)
      (do
      if (← options).supportsAsyncMembers then Grammar.modifier .kAsync true
      else Pure.pure false) :=
    h.steps.ofFlags
      (fun flags => if flags.asyncMembers then Grammar.modifier .kAsync true else Pure.pure false)
      (fun flags => if flags.asyncMembers then Grammar.modifier .kAsync true else Pure.pure false)
      fun _ => ParserRel.ite _ (h.modifier _ _) (h.pure _)
  refine h.bind (h.steps.accept _) fun _ => ?_
  refine ParserRel.ite _ (h.pure _) ?_
  refine h.bind async fun _ => ?_
  refine ParserRel.ite _ ?_ ?_
  · exact h.bind (h.steps.accept _) fun _ => h.pure _
  refine h.bind (h.modifier _ _) fun _ => ?_
  refine ParserRel.ite _ (h.pure _) ?_
  refine h.bind (h.modifier _ _) fun _ => ?_
  exact ParserRel.ite _ (h.pure _) (h.pure _)

theorem memberHead (h : ClosedOnElements P Q K g g' M) (allowStatic : Bool) :
    Q (memberHead g allowStatic) (memberHead g' allowStatic) := by
  rw [memberHead_eq, memberHead_eq]
  refine h.bind (ParserRel.ite _ (h.modifier _ _) (h.pure _)) fun _ => ?_
  refine h.bind h.methodModifiers fun _ => ?_
  exact h.bind h.memberKey fun _ => h.pure _

theorem objectMember (h : ClosedOnElements P Q K g g' M) :
    Q (objectMember g) (objectMember g') := by
  rw [objectMember_named, objectMember_named]
  refine h.bind (h.named 0) fun _ => ?_
  refine h.bind (h.look 1) fun _ => ?_
  refine ParserRel.ite _ ?_ ?_
  · exact h.bind h.identifier fun _ => h.pure _
  refine h.bind (h.memberHead false) fun head => ?_
  have tail (isMethod : Bool) :
      Q (objectMemberTail g head isMethod) (objectMemberTail g' head isMethod) := by
    refine ParserRel.ite _ ?_ ?_
    · exact h.bind (h.methodRest _ _ _) fun _ => h.pure _
    · refine h.bind (h.discard (h.steps.require _)) fun _ => ?_
      exact h.bind (h.whole (by decide)) fun _ => h.pure _
  exact ParserRel.ite _ (tail true) (h.bind (h.look 0) fun _ => tail _)

theorem classMemberHead (h : ClosedOnElements P Q K g g' M) :
    Q (classMemberHead g) (classMemberHead g') := by
  refine h.bind (h.memberHead true) fun head => ?_
  split
  · refine ParserRel.ite _ (h.pure _) ?_
    exact ParserRel.ite _ (h.fail nofun) (h.pure _)
  · exact h.pure _

theorem isField (h : ClosedOnElements P Q K g g' M) (head : MemberHead) :
    Q (isField head) (isField head) := by
  have choose (fields : Bool) : Q (α := Bool)
      (if fields && head.kind = .method && !head.hasModifiers then do
        return (← Parser.peek).kind ≠ .punctuator .parenthesisOpen
      else return false)
      (if fields && head.kind = .method && !head.hasModifiers then do
        return (← Parser.peek).kind ≠ .punctuator .parenthesisOpen
      else return false) :=
    ParserRel.ite _ (h.bind (h.look 0) fun _ => h.pure _) (h.pure _)
  exact h.steps.ofFlags _ _ fun flags => choose flags.fields

theorem privateField (h : ClosedOnElements P Q K g g' M) {fl : Flags}
    (hclass : fl.classFields = true) (hfields : fl.fields = true) :
    K fl (privateField g) (privateField g') := by
  rw [privateField_eq, privateField_eq]
  refine h.class_bind (h.class_spanned (openField_moves h.reading) ?_) fun _ => h.weaken ?_
  · refine h.class_bind (h.declaredName hclass hfields) fun name => h.weaken ?_
    exact h.bind h.fieldValue? fun _ => h.pure _
  · exact h.bind h.fieldEnd fun _ => h.pure _

theorem plainElement (h : ClosedOnElements P Q K g g' M) :
    Q (plainElement g) (plainElement g') := by
  rw [plainElement_eq, plainElement_eq]
  refine h.bind (h.steps.spanned (openElement_moves h.reading) ?_) fun _ => ?_
  · refine h.bind h.classMemberHead fun head => ?_
    refine h.bind (h.isField head) fun _ => ?_
    refine ParserRel.ite _ ?_ ?_
    · refine h.bind (h.steps.report _) fun _ => ?_
      exact h.bind h.fieldValue? fun _ => h.pure _
    · exact h.bind (h.classMethodRest head) fun _ => h.pure _
  · refine ParserRel.ite _ ?_ (h.pure _)
    exact h.bind h.fieldEnd fun _ => h.pure _

theorem classElement? (h : ClosedOnElements P Q K g g' M) {fl : Flags}
    (hclass : fl.classFields = true) : K fl (classElement? g) (classElement? g') := by
  refine h.class_bind (h.weaken (h.steps.accept _)) fun _ => ?_
  refine ParserRel.ite (Q := K fl) _ (h.weaken (h.pure _)) ?_
  refine h.class_bind (h.weaken (h.look 0)) fun t => ?_
  have choose (flags : Flags) (hflags : flags = fl) : K fl
      (if t.kind = .privateName && flags.fields then some <$> Grammar.privateField g
        else Grammar.plainElement g)
      (if t.kind = .privateName && flags.fields then some <$> Grammar.privateField g'
        else Grammar.plainElement g') := by
    subst hflags
    by_cases hprivate : (t.kind = .privateName && flags.fields) = true
    · rw [if_pos hprivate, if_pos hprivate, map_eq_bind, map_eq_bind]
      have hfields : flags.fields = true := (Bool.and_eq_true _ _ ▸ hprivate).2
      exact h.class_bind (h.privateField hclass hfields) fun _ => h.weaken (h.pure _)
    · rw [if_neg hprivate, if_neg hprivate]
      exact h.weaken h.plainElement
  simp only [map_eq_bind] at choose
  exact h.class_flags choose

theorem classMethod (h : ClosedOnElements P Q K g g' M) : Q (classMethod g) (classMethod g') :=
  h.steps.spanned (Advances.of_spanned (classMethod_reads h.reading)).moves
    (h.bind h.classMemberHead fun head => h.classMethodRest head)

theorem classItem? (h : ClosedOnElements P Q K g g' M) (fl : Flags) :
    K fl (classItem? g) (classItem? g') := by
  have choose (flags : Flags) (hflags : flags = fl) : K fl (α := Option Member)
      (if flags.classFields then Grammar.classElement? g else do
        if ← Parser.accept (.punctuator .semicolon) then return none
        else return some (← Grammar.classMethod g))
      (if flags.classFields then Grammar.classElement? g' else do
        if ← Parser.accept (.punctuator .semicolon) then return none
        else return some (← Grammar.classMethod g')) := by
    subst hflags
    by_cases hclass : flags.classFields = true
    · rw [if_pos hclass, if_pos hclass]
      exact h.classElement? hclass
    · rw [if_neg hclass, if_neg hclass]
      refine h.weaken (h.bind (h.steps.accept _) fun _ => ?_)
      refine ParserRel.ite _ (h.pure _) ?_
      exact h.bind h.classMethod fun _ => h.pure _
  exact h.class_flags choose

/-! ### Behind an operator -/

/-- What stands behind an operator before its operand. -/
theorem unaryTail (h : ClosedOnElements P Q K g g' M) {mode : ExprMode} (hmode : M mode)
    (token : Token) {leading : Operator}
    (hleading : leading.operandPrecedence ≤ Operator.call.precedence) :
    Q (unaryOperator leading >>= openUnary g mode token)
      (unaryOperator leading >>= openUnary g' mode token) := by
  have rest {op : Operator} (hop : op.operandPrecedence ≤ Operator.call.precedence) :
      Q (openUnary g mode token op) (openUnary g' mode token op) := by
    refine h.bind (h.look 0) fun following => ?_
    refine h.bind (h.unaryArgument hmode token hop following) fun found => ?_
    refine ParserRel.ite _ ?_ (h.pure _)
    exact h.bind (h.checkDelete token found.1) fun _ => h.pure _
  unfold unaryOperator
  split
  · rw [bind_assoc, bind_assoc]
    refine h.bind (h.steps.accept _) fun star => ?_
    rw [pure_bind, pure_bind]
    cases star
    · exact rest (by decide)
    · exact rest (by decide)
  · rw [pure_bind, pure_bind]
    exact rest hleading

/-- What an operator adds. Only a call takes a span. -/
theorem continuation (h : ClosedOnElements P Q K g g' M) {mode : ExprMode} (hmode : M mode)
    {start : Nat} {op : Operator} (hsince : op = .call → Q (since start) (since start))
    (left : Expr) :
    Q (continuation g mode start op left) (continuation g' mode start op left) := by
  unfold Grammar.continuation
  split
  · refine h.bind h.callArguments fun _ => ?_
    exact h.bind (hsince rfl) fun _ => h.pure _
  · refine h.bind (h.whole (by decide)) fun _ => ?_
    exact h.bind (h.steps.require _) fun _ => h.pure _
  · refine h.bind (h.whole (by decide)) fun _ => ?_
    refine h.bind (h.discard (h.steps.require _)) fun _ => ?_
    have hleast : Operator.conditionalAlternate.precedence ≤ Operator.call.precedence := by decide
    exact h.bind (h.expr _ (h.modes.operand hmode hleast)) fun _ => h.pure _
  · exact h.bind (h.memberAccess left) fun _ => h.pure _
  · rename_i hcall hcomputed _ hmember
    have hop := Operator.operandPrecedence_le hcall hmember hcomputed
    refine ParserRel.ite _ ?_ ?_
    · refine h.bind (h.checkAssignable left) fun _ => ?_
      exact h.bind (h.expr _ (h.modes.operand hmode hop)) fun _ => h.pure _
    · exact h.bind (h.expr _ (h.modes.operand hmode hop)) fun _ => h.pure _

theorem following (h : ClosedOnElements P Q K g g' M) {mode : ExprMode} (hmode : M mode)
    (op : Operator) (left : Expr) :
    Q (following g mode op left) (following g' mode op left) := by
  by_cases hcall : op = .call
  · subst hcall
    rw [following_call, following_call]
    refine h.steps.spanned (call_moves h.reading _) ?_
    refine h.bind (h.discard h.steps.next) fun _ => ?_
    exact h.bind h.callArguments fun _ => h.pure _
  · refine h.bind h.steps.position fun start => ?_
    refine h.bind (h.discard h.steps.next) fun _ => ?_
    exact h.continuation hmode (fun heq => absurd heq hcall) left

end ClosedOnElements

/-! ### All that is read -/

open Grammar in
/-- Closed under sequences, and holds of the single steps, where nothing is tried. A list reads its
items for as long as its budget lasts, so it is related by an induction on the budget. -/
structure ClosedOnReading (Q : ParserRel) (K : Flags → ParserRel) (g g' : Rules)
    (M : ExprMode → Prop := ExprMode.TakesCalls) : Prop extends PlainSteps Q where
  reading : g.Reading
  modes : ExprMode.Family M
  expr (mode : ExprMode) : M mode → Q (g.expr mode) (g'.expr mode)
  stmt : Q g.stmt g'.stmt
  arrowSign : Q arrowSign arrowSign
  inInitializer {α : Type} {p p' : Parser α} : Q p p' → Q (inInitializer p) (inInitializer p')
  inClass {α : Type} {p p' : Parser α} : (∀ fl, K fl p p') → Q (inClass p) (inClass p')
  weaken {fl : Flags} {α : Type} {p p' : Parser α} : Q p p' → K fl p p'
  class_bind {fl : Flags} {α β : Type} {p p' : Parser α} {f f' : α → Parser β} :
    K fl p p' → (∀ a, K fl (f a) (f' a)) → K fl (p >>= f) (p' >>= f')
  class_spanned {fl : Flags} {α : Type} {p p' : Parser (Span → α)} :
    Moves p → K fl p p' → K fl (Parser.spanned p) (Parser.spanned p')
  class_flags {fl : Flags} {β : Type} {f f' : Flags → Parser β} :
    (∀ flags, flags = fl → K fl (f flags) (f' flags)) →
    K fl (options >>= fun o => f o.flags) (options >>= fun o => f' o.flags)
  declaredName {fl : Flags} : fl.classFields = true → fl.fields = true →
    K fl declaredName declaredName
  fuel : Q.OnFuel g.budget g'.budget
  class_fuel {fl : Flags} {α : Type} (r r' : Nat → Parser α) : r 0 = exhausted → r' 0 = exhausted →
    (∀ n m, K fl (r n) (r' m) → K fl (r (n + 1)) (r' (m + 1))) →
    K fl (r g.budget) (r' g'.budget)

namespace ClosedOnReading

open EcmaScript.Grammar

variable {Q : ParserRel} {K : Flags → ParserRel} {g g' : Rules} {M : ExprMode → Prop} {α β : Type}

theorem lists (h : ClosedOnReading Q K g g' M) : ClosedOnLists Q Q g g' M where
  toClosedOnTokens := h.tokens
  outer := h.tokens
  reading := h.reading
  modes := h.modes
  expr := h.expr
  behind hp := hp
  first _ := h.bind
  list hclose hadvances hitem := h.tokens.list h.fuel hclose hadvances hitem

theorem arrowParameters (h : ClosedOnReading Q K g g' M) (async : Bool) :
    Q (arrowParameters g async) (arrowParameters g' async) := by
  rw [arrowParameters_eq, arrowParameters_eq]
  refine h.bind (h.withNames (NameRules.uniform_forAsync async) h.lists.beforeArrow) fun _ => ?_
  exact h.bind h.arrowSign fun _ => h.pure _

theorem closed (h : ClosedOnReading Q K g g' M) : Closed Q Q K g g' M where
  toClosedOnLists := h.lists
  stmt := h.stmt
  inInitializer := h.inInitializer
  inClass := h.inClass
  weaken := h.weaken
  class_bind := h.class_bind
  memberAccess := h.memberAccess
  elements := h.tokens.elements h.fuel h.lists.taking
  statements := h.tokens.statements h.fuel h.stmt
  arrowParameters := h.arrowParameters

theorem elements (h : ClosedOnReading Q K g g' M) : ClosedOnElements Q Q K g g' M where
  toClosed := h.closed
  steps := h.toPlainSteps
  class_spanned := h.class_spanned
  class_flags := h.class_flags
  declaredName := h.declaredName

theorem classItems (h : ClosedOnReading Q K g g' M) (fl : Flags) :
    K fl (classItems g g.budget) (classItems g' g'.budget) := by
  refine h.class_fuel (Grammar.classItems g) (Grammar.classItems g') rfl rfl fun n m ih => ?_
  refine h.class_bind (h.weaken (h.accept _)) fun _ => ?_
  refine ParserRel.ite (Q := K fl) _ (h.weaken (h.pure _)) ?_
  refine h.class_bind (h.elements.classItem? fl) fun _ => ?_
  exact h.class_bind ih fun _ => h.weaken (h.pure _)

theorem members (h : ClosedOnReading Q K g g' M) : ClosedOnMembers Q Q K g g' M where
  toClosed := h.closed
  objectMember := h.elements.objectMember
  classItems := h.classItems

/-! ### Operands -/

theorem unary (h : ClosedOnReading Q K g g' M) {mode : ExprMode} (hmode : M mode)
    {leading : Operator} (hleading : leading.operandPrecedence ≤ Operator.call.precedence) :
    Q (unary g mode leading) (unary g' mode leading) := by
  rw [unary_spanned, unary_spanned]
  refine h.spanned (unary_moves h.reading mode leading) ?_
  exact h.bind h.next fun token => h.elements.unaryTail hmode token hleading

/-- What begins with `async` as a modifier, given what is tried behind it. -/
theorem asyncOperandNamed? (h : ClosedOnReading Q K g g' M) {stops : List TokenKind}
    (hstops : M (.assignment stops)) {first second third : Token} {named : Bool}
    (htried : first.kind = .keyword .kAsync → second.newlineBefore = false →
      second.kind = .punctuator .parenthesisOpen → Q (asyncArrow? g stops) (asyncArrow? g' stops)) :
    Q (asyncOperandNamed? g stops first second third named)
      (asyncOperandNamed? g' stops first second third named) := by
  unfold Grammar.asyncOperandNamed?
  by_cases hmodifier : (first.kind ≠ .keyword .kAsync || second.newlineBefore) = true
  · rw [if_pos hmodifier, if_pos hmodifier]
    exact h.pure _
  rw [if_neg hmodifier, if_neg hmodifier]
  by_cases hopen : second.kind = .punctuator .parenthesisOpen
  · rw [if_pos hopen, if_pos hopen]
    simp only [Bool.or_eq_true, decide_eq_true_eq, not_or, not_not, Bool.not_eq_true] at hmodifier
    exact htried hmodifier.1 hmodifier.2 hopen
  rw [if_neg hopen, if_neg hopen]
  refine ParserRel.ite _ ?_ ?_
  · exact h.bind h.closed.functionExpression fun _ => h.pure _
  · refine ParserRel.ite _ ?_ (h.pure _)
    exact h.bind (h.closed.arrowFunction hstops) fun _ => h.pure _

/-- What begins with a token that is no name, given what begins with a parenthesis. -/
theorem atom (h : ClosedOnReading Q K g g' M) {mode : ExprMode} {first : Token}
    (hgroup : first.kind = .punctuator .parenthesisOpen →
      Q (arrowOrGrouping g mode.stops mode.insertion)
        (arrowOrGrouping g' mode.stops mode.insertion)) :
    Q (atom g mode first) (atom g' mode first) := by
  have members := h.members
  have one {p p' : Parser Expr} (hp : Q p p') :
      Q (do return (← p, false) : Parser (Expr × Bool)) (do return (← p', false)) :=
    h.bind hp fun _ => h.pure _
  unfold Grammar.atom
  split
  · exact one members.arrayLiteral
  · exact one members.objectLiteral
  · exact one members.classExpression
  · exact one members.functionExpression
  · exact h.bind (h.checkSuper first) fun _ => one h.tokens.superReference
  · exact one h.tokens.thisReference
  · exact one h.boolLiteral
  · exact one h.boolLiteral
  · exact one h.tokens.nullLiteral
  · exact one h.tokens.numberLiteral
  · exact one h.tokens.stringLiteral
  · exact hgroup ‹_›
  · exact h.misplaced _ nofun

/-- What an expression begins with, given what is tried where it begins. -/
theorem operandNamed (h : ClosedOnReading Q K g g' M) {mode : ExprMode} (hmode : M mode)
    {first second : Token × Bool} {third : Token}
    (htried : first.1.kind = .keyword .kAsync → second.1.newlineBefore = false →
      second.1.kind = .punctuator .parenthesisOpen →
      Q (asyncArrow? g mode.stops) (asyncArrow? g' mode.stops))
    (hgroup : first.1.kind = .punctuator .parenthesisOpen →
      Q (arrowOrGrouping g mode.stops mode.insertion)
        (arrowOrGrouping g' mode.stops mode.insertion)) :
    Q (operandNamed g mode first second third) (operandNamed g' mode first second third) := by
  unfold Grammar.operandNamed
  split
  · rename_i op hop
    exact h.unary hmode (leadingOperator?_precedence hop)
  refine h.bind (h.asyncOperandNamed? (h.modes.arrowBody hmode) htried) fun found => ?_
  cases found with
  | some e => exact h.pure _
  | none =>
    refine ParserRel.ite _ (ParserRel.ite _ ?_ ?_) (h.atom hgroup)
    · exact h.bind (h.closed.arrowFunction (h.modes.arrowBody hmode)) fun _ => h.pure _
    · exact h.bind h.tokens.variableUse fun _ => h.pure _

/-! ### Behind an operand -/

theorem climb (h : ClosedOnReading Q K g g' M) {mode : ExprMode} (hmode : M mode) {n m : Nat}
    (hfuel : Q.OnFuel n m) (left : Expr) (inserted : Bool) :
    Q (climb g mode left inserted n) (climb g' mode left inserted m) := by
  refine hfuel (fun n (i : Expr × Bool) => Grammar.climb g mode i.1 i.2 n)
    (fun n i => Grammar.climb g' mode i.1 i.2 n) (fun _ => rfl) (fun _ => rfl)
    (fun n m ih i => ?_) (left, inserted)
  rw [climb_peek, climb_peek]
  refine h.bind (h.look 0) fun t => ?_
  refine ParserRel.ite _ (h.pure _) ?_
  split
  · refine ParserRel.ite _ (h.pure _) ?_
    exact h.bind (h.discard h.next) fun _ => ih (_, _)
  split
  · refine ParserRel.ite _ (h.pure _) ?_
    exact h.bind (h.elements.following hmode _ _) fun found => ih (found.1, i.2 || found.2)
  · refine ParserRel.ite _ (h.pure _) ?_
    exact h.bind (h.discard h.next) fun _ => h.misplaced _ nofun

/-! ### Statements -/

theorem statements (h : ClosedOnReading Q K g g' M) : ClosedOnStatements Q Q K g g' M where
  toClosedOnMembers := h.members
  value := h.lists.taking
  declarators := h.tokens.declarators h.fuel h.lists.taking

/-- A relation that holds of the single steps is closed on statements. -/
theorem statement (h : ClosedOnReading Q K g g' M) : Q (statement g) (statement g') :=
  h.statements.statement

end ClosedOnReading

/-! ### All steps -/

open Grammar in
/-- Holds moreover of attempts, after which the position goes back. -/
structure ClosedOnSteps (Q : ParserRel) (K : Flags → ParserRel) (g g' : Rules)
    (M : ExprMode → Prop := ExprMode.TakesCalls) : Prop extends ClosedOnReading Q K g g' M where
  rewound {α : Type} {p p' : Parser α} : Q p p' → Q (rewound p) (rewound p')
  attempt {α : Type} {p p' : Parser α} : Q p p' → Q (attempt p) (attempt p')
  tried {α : Type} {p p' : Parser α} : Q p p' → Q (tried p) (tried p')

namespace ClosedOnSteps

open EcmaScript.Grammar

variable {Q : ParserRel} {K : Flags → ParserRel} {g g' : Rules} {M : ExprMode → Prop}

/-- An arrow function whose parameters are tried behind `async`. -/
theorem asyncArrow? (h : ClosedOnSteps Q K g g' M) {stops : List TokenKind}
    (hstops : M (.assignment stops)) : Q (asyncArrow? g stops) (asyncArrow? g' stops) := by
  refine h.bind (h.rewound ?_) fun found => ?_
  · exact h.bind (h.discard h.next) fun _ => h.attempt (h.arrowParameters true)
  cases found with
  | ok _ => exact h.bind (h.closed.arrowFunction hstops) fun _ => h.pure _
  | error _ => exact h.pure _

theorem arrowOrGrouping (h : ClosedOnSteps Q K g g' M) {stops : List TokenKind}
    (hstops : M (.assignment stops)) (insertion : Bool) :
    Q (arrowOrGrouping g stops insertion) (arrowOrGrouping g' stops insertion) := by
  have heq (g : Rules) : Grammar.arrowOrGrouping g stops insertion = (do
      match ← Grammar.rewound (Grammar.tried (Grammar.arrowParameters g false)) with
      | some _ => return (← Grammar.arrowFunction g stops, false)
      | none => Grammar.grouping g insertion) := by
    rw [Grammar.rewound, bind_assoc]
    refine bind_congr fun start => ?_
    rw [Grammar.tried, bind_assoc, bind_assoc]
    refine bind_congr fun found => ?_
    cases found with
    | ok _ => simp only [bind_assoc, pure_bind]
    | error e =>
      dsimp only
      split
      · rfl
      · simp only [bind_assoc, pure_bind]
  rw [heq, heq]
  refine h.bind (h.rewound (h.tried (h.arrowParameters false))) fun found => ?_
  cases found with
  | some _ => exact h.bind (h.closed.arrowFunction hstops) fun _ => h.pure _
  | none => exact h.closed.grouping insertion

theorem operand (h : ClosedOnSteps Q K g g' M) {mode : ExprMode} (hmode : M mode) :
    Q (operand g mode) (operand g' mode) := by
  rw [operand_named, operand_named]
  refine h.bind (h.named 0) fun first => ?_
  refine h.bind (h.named 1) fun second => ?_
  refine h.bind (h.look 2) fun third => ?_
  have hstops := h.modes.arrowBody hmode
  exact h.operandNamed hmode (fun _ _ _ => h.asyncArrow? hstops) fun _ => h.arrowOrGrouping hstops _

/-- A relation that holds of the single steps is closed on expressions. -/
theorem expression (h : ClosedOnSteps Q K g g' M) {mode : ExprMode} (hmode : M mode) :
    Q (expression g mode) (expression g' mode) :=
  h.bind (h.operand hmode) fun _ => h.climb hmode h.fuel _ _

end ClosedOnSteps

end EcmaScript
