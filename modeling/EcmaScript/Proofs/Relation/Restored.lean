import EcmaScript.Proofs.Relation.Budget
import EcmaScript.Proofs.Relation.Frame

namespace EcmaScript

open EcmaScript.Parser

/-!
# The state is restored on every path

Errors leave the grammar from any depth: from within initializers, from half-read classes, from
attempts at parameters. However a rule ends, what the rules around it rely on is as it was.

* `State.Restored` — what two states have to agree in: the mark of initializers and the classes
  around, but for more uses that wait in the innermost one;
* `Grammar.IsRule` — the rules for statements, for expressions and for their parts;
* `ClosedOnRules` — a relation that is closed on all of them;
* `Grammar.IsRule.ends_restored` — with enough budget every rule ends, and the state is restored.
-/

/-! ### Restored states -/

/-- What the classes around a place have declared so far, the innermost first. -/
def ClassScopes.declarations (s : ClassScopes) : List (List String) := s.scopes.map (·.declared)

/-- What waits in the classes around a place, the innermost first. -/
def ClassScopes.waiting (s : ClassScopes) : List (List (String × Span)) := s.scopes.map (·.waiting)

/-- The tokens that have been looked at. -/
def Context.lookedAt (c : Context) (s : State) : List Token := (List.range s.seen).map c.token

namespace State

/-- Two states agree in the mark of initializers and in what each class around has declared. Of the
names that wait, only those in the innermost class may differ: behind the ones that were there,
others may have come. More tokens may have been looked at. -/
structure Restored (c : Context) (s t : State) : Prop where
  inInitializer : t.inInitializer = s.inInitializer
  declarations : t.scopes.declarations = s.scopes.declarations
  depth : t.scopes.waiting.length = s.scopes.waiting.length
  outer : t.scopes.waiting.tail = s.scopes.waiting.tail
  inner : ∀ uses ∈ s.scopes.waiting.head?, ∃ uses' ∈ t.scopes.waiting.head?, uses <+: uses'
  tokens : c.lookedAt s <+: c.lookedAt t

end State

theorem Context.lookedAt_prefix {s t : State} (c : Context) (h : s.seen ≤ t.seen) :
    c.lookedAt s <+: c.lookedAt t := by
  refine List.IsPrefix.map _ ?_
  rw [List.prefix_iff_eq_take, List.length_range, List.take_range, Nat.min_eq_left h]

/-- What a part keeps is restored behind it. -/
theorem State.Kept.restored {c : Context} {s t : State} (h : s.Kept c t) : s.Restored c t := by
  obtain ⟨uses, -, hscopes⟩ := h.scopes
  refine ⟨h.inInitializer, ?_, ?_, ?_, ?_, c.lookedAt_prefix h.seen⟩
  all_goals
    rw [hscopes]
    obtain ⟨_ | ⟨inner, outer⟩⟩ := s.scopes
  · rfl
  · rfl
  · rfl
  · rfl
  · rfl
  · rfl
  · exact fun _ hinner => nomatch hinner
  · intro _ hinner
    obtain rfl := Option.some.inj hinner
    exact ⟨_, rfl, prefix_noteUses ..⟩

/-! ### All rules -/

namespace Grammar

/-- The rules for statements, for expressions and for their parts, with whatever they are given.
Those that read the inside of a class are not among them, since names are declared there. -/
inductive IsRule (g : Rules) : {α : Type} → Parser α → Prop
  -- Statements
  | stmt : IsRule g g.stmt
  | statement : IsRule g (statement g)
  | statements (stop : TokenKind) : IsRule g (statements g stop g.budget)
  | emptyStatement : IsRule g emptyStatement
  | block : IsRule g (block g)
  | blockBody : IsRule g (blockBody g)
  | expressionEnd : IsRule g (expressionEnd g)
  | expressionStatement : IsRule g (expressionStatement g)
  | condition : IsRule g (condition g)
  | ifStatement : IsRule g (ifStatement g)
  | returnStatement : IsRule g (returnStatement g)
  | throwStatement : IsRule g (throwStatement g)
  | whileStatement : IsRule g (whileStatement g)
  | declarationKind : IsRule g declarationKind
  | declarator : IsRule g (declarator g)
  | declarators : IsRule g (declarators g g.budget)
  | variableDeclaration : IsRule g (variableDeclaration g)
  | functionDeclaration : IsRule g (functionDeclaration g)
  | classDeclaration : IsRule g (classDeclaration g)
  -- Functions and arrows
  | parameter : IsRule g (parameter g)
  | parameters : IsRule g (parameters g)
  | functionRest (async generator : Bool) : IsRule g (functionRest g async generator)
  | methodRest (kind : MethodKind) (async generator : Bool) :
      IsRule g (methodRest g kind async generator)
  | functionExpression : IsRule g (functionExpression g)
  | arrowParameters (async : Bool) : IsRule g (arrowParameters g async)
  | arrowBody (stops : List TokenKind) : IsRule g (arrowBody g stops)
  | arrowFunction (stops : List TokenKind) : IsRule g (arrowFunction g stops)
  | grouping (insertion : Bool) : IsRule g (grouping g insertion)
  | arrowOrGrouping (stops : List TokenKind) (insertion : Bool) :
      IsRule g (arrowOrGrouping g stops insertion)
  -- Expressions
  | expr (mode : ExprMode) : IsRule g (g.expr mode)
  | expression (mode : ExprMode) : IsRule g (expression g mode)
  | whole (stops : List TokenKind) : IsRule g (g.whole stops)
  | asyncOperand? (stops : List TokenKind) (first second third : Token) :
      IsRule g (asyncOperand? g stops first second third)
  | unary (mode : ExprMode) {rules : NameRules} {kind : TokenKind} {leading : Operator} :
      leadingOperator? rules kind = some leading → IsRule g (unary g mode leading)
  | atom (mode : ExprMode) (first : Token) : IsRule g (atom g mode first)
  | operand (mode : ExprMode) : IsRule g (operand g mode)
  | memberAccess (object : Expr) : IsRule g (memberAccess object)
  | callArguments : IsRule g (callArguments g)
  | continuation (mode : ExprMode) (start : Nat) (op : Operator) (left : Expr) :
      IsRule g (continuation g mode start op left)
  | climb (mode : ExprMode) (left : Expr) (inserted : Bool) :
      IsRule g (climb g mode left inserted g.budget)
  | variableName : IsRule g variableName
  | variableUse : IsRule g variableUse
  | identifier : IsRule g identifier
  | definitionName? : IsRule g definitionName?
  | superReference : IsRule g superReference
  | thisReference : IsRule g thisReference
  | numberLiteral : IsRule g numberLiteral
  | stringLiteral : IsRule g stringLiteral
  | boolLiteral : IsRule g boolLiteral
  | nullLiteral : IsRule g nullLiteral
  | elements : IsRule g (elements g g.budget)
  | arrayLiteral : IsRule g (arrayLiteral g)
  -- Members, classes
  | directKey : IsRule g directKey
  | memberKey : IsRule g (memberKey g)
  | memberHead (allowStatic : Bool) : IsRule g (memberHead g allowStatic)
  | objectMember : IsRule g (objectMember g)
  | objectLiteral : IsRule g (objectLiteral g)
  | classMemberHead : IsRule g (classMemberHead g)
  | classMethodRest (head : MemberHead) : IsRule g (classMethodRest g head)
  | classMethod : IsRule g (classMethod g)
  | fieldValue? : IsRule g (fieldValue? g)
  | fieldEnd : IsRule g fieldEnd
  | classExpression : IsRule g (classExpression g)

end Grammar

open Grammar in
/-- A relation that is closed on all rules, from their first token on or behind it. -/
structure ClosedOnRules (P Q : ParserRel) (K : Flags → ParserRel) (g : Rules) : Prop where
  elements : ClosedOnElements P Q K g g fun _ => True
  statements : ClosedOnStatements P Q K g g fun _ => True
  asyncOperand? (stops : List TokenKind) (first second third : Token) :
    Q (asyncOperand? g stops first second third) (asyncOperand? g stops first second third)
  arrowOrGrouping (stops : List TokenKind) (insertion : Bool) :
    Q (arrowOrGrouping g stops insertion) (arrowOrGrouping g stops insertion)
  atom (mode : ExprMode) (first : Token) : Q (atom g mode first) (atom g mode first)
  operand (mode : ExprMode) : Q (operand g mode) (operand g mode)
  continuation (mode : ExprMode) (start : Nat) (op : Operator) (left : Expr) :
    Q (continuation g mode start op left) (continuation g mode start op left)
  climb (mode : ExprMode) (left : Expr) (inserted : Bool) :
    Q (climb g mode left inserted g.budget) (climb g mode left inserted g.budget)

namespace Grammar

variable {g : Rules} {α : Type} {p : Parser α}

theorem IsRule.related {P Q : ParserRel} {K : Flags → ParserRel} (h : ClosedOnRules P Q K g)
    (hp : IsRule g p) : Q p p := by
  have hs := h.statements
  have hexpr (mode : ExprMode) : Q (g.expr mode) (g.expr mode) := hs.expr mode trivial
  cases hp with
  | stmt => exact hs.stmt
  | statement => exact hs.behind hs.statement
  | statements stop => exact hs.toClosed.statements stop
  | emptyStatement => exact hs.emptyStatement
  | block => exact hs.behind hs.block
  | blockBody => exact hs.behind hs.blockBody
  | expressionEnd => exact hs.behind hs.expressionEnd
  | expressionStatement => exact hs.behind hs.expressionStatement
  | condition => exact hs.condition
  | ifStatement => exact hs.behind hs.ifStatement
  | returnStatement => exact hs.behind hs.returnStatement
  | throwStatement => exact hs.behind hs.throwStatement
  | whileStatement => exact hs.behind hs.whileStatement
  | declarationKind => exact hs.declarationKind
  | declarator => exact hs.declarator hs.taking
  | declarators => exact hs.declarators
  | variableDeclaration => exact hs.behind hs.variableDeclaration
  | functionDeclaration => exact hs.behind hs.functionDeclaration
  | classDeclaration => exact hs.behind hs.classDeclaration
  | parameter => exact hs.parameter
  | parameters => exact hs.behind hs.parameters
  | functionRest async generator => exact hs.functionRest async generator
  | methodRest kind async generator => exact hs.methodRest kind async generator
  | functionExpression => exact hs.behind hs.functionExpression
  | arrowParameters async => exact hs.behind (hs.arrowParameters async)
  | arrowBody stops => exact hs.arrowBody trivial
  | arrowFunction stops => exact hs.behind (hs.arrowFunction trivial)
  | grouping insertion => exact hs.behind (hs.grouping insertion)
  | arrowOrGrouping stops insertion => exact h.arrowOrGrouping stops insertion
  | expr mode => exact hexpr mode
  | expression mode =>
    exact hs.bind (h.operand mode) fun found => h.climb mode found.1 found.2
  | whole stops => exact hs.bind (hexpr _) fun _ => hs.pure _
  | asyncOperand? stops first second third => exact h.asyncOperand? stops first second third
  | unary mode hleading =>
    -- The argument takes calls, as no operator that can stand in front binds more tightly.
    rw [unary_spanned]
    refine h.elements.steps.spanned (unary_moves hs.reading mode _) ?_
    refine hs.bind h.elements.steps.next fun token => ?_
    exact h.elements.unaryTail trivial token (leadingOperator?_precedence hleading)
  | atom mode first => exact h.atom mode first
  | operand mode => exact h.operand mode
  | memberAccess object => exact hs.memberAccess object
  | callArguments => exact hs.callArguments
  | continuation mode start op left => exact h.continuation mode start op left
  | climb mode left inserted => exact h.climb mode left inserted
  | variableName => exact hs.variableName
  | variableUse => exact hs.variableUse
  | identifier => exact hs.identifier
  | definitionName? => exact hs.definitionName?
  | superReference => exact hs.superReference
  | thisReference => exact hs.thisReference
  | numberLiteral => exact hs.numberLiteral
  | stringLiteral => exact hs.stringLiteral
  | boolLiteral => exact hs.boolLiteral
  | nullLiteral => exact hs.nullLiteral
  | elements => exact hs.elements
  | arrayLiteral => exact hs.behind hs.arrayLiteral
  | directKey => exact hs.directKey
  | memberKey => exact hs.memberKey
  | memberHead allowStatic => exact h.elements.memberHead allowStatic
  | objectMember => exact hs.objectMember
  | objectLiteral => exact hs.behind hs.objectLiteral
  | classMemberHead => exact h.elements.classMemberHead
  | classMethodRest head => exact hs.classMethodRest head
  | classMethod => exact h.elements.classMethod
  | fieldValue? => exact hs.fieldValue?
  | fieldEnd => exact hs.fieldEnd
  | classExpression => exact hs.behind hs.classExpression

end Grammar

/-! ### The rules with a budget -/

namespace Rules

variable {g : Rules}

theorem Keeping.closedOnRules (hg : g.Reading) (h : g.Keeping) :
    ClosedOnRules (fun _ p _ => Keeps State.Kept p) (fun _ p _ => Keeps State.Kept p)
      (fun fl _ p _ => Keeps (State.KeptUnder fl) p) g where
  elements := (h.steps hg).elements
  statements := (h.steps hg).statements
  asyncOperand? stops first second third := by
    rw [Grammar.asyncOperand?_named]
    exact Keeps.nameRules.keptBind fun _ => (h.steps hg).asyncOperandNamed? trivial
      fun _ _ _ => (h.steps hg).asyncArrow? trivial
  arrowOrGrouping _ := (h.steps hg).arrowOrGrouping trivial
  atom _ _ := (h.steps hg).atom fun _ => (h.steps hg).arrowOrGrouping trivial _
  operand _ := (h.steps hg).operand trivial
  continuation _ start _ left := (h.steps hg).elements.continuation trivial
    (fun _ => .since start) left
  climb _ := (h.steps hg).climb (m := g.budget) trivial (h.steps hg).fuel

theorem Suffices.closedOnRules {k : Nat} (hg : g.Reading) (h : g.Suffices (k - 1))
    (hexpr : ∀ mode, Ample k (g.expr mode)) :
    ClosedOnRules (fun _ p _ => Ample k p) (fun _ p _ => Ample (k - 1) p)
      (fun fl _ p _ => AmpleUnder (k - 1) fl p) g where
  elements := h.closed hg
  statements := h.statements hg hexpr
  asyncOperand? stops first second third :=
    (h.asyncOperand? hg stops first second third).anti (Nat.sub_le k 1)
  arrowOrGrouping stops insertion := (h.arrowOrGrouping hg stops insertion).anti (Nat.sub_le k 1)
  atom mode first := (h.atom hg mode first).anti (Nat.sub_le k 1)
  operand mode := (h.operand hg mode).anti (Nat.sub_le k 1)
  continuation _ := h.continuation hg
  climb _ _ _ := fun hk _ _ hs =>
    have := h.budget
    Ample.climb (h.continuation hg) (by omega) hk (by omega) hs

/-- With enough budget a rule ends, well or with a syntax error. -/
theorem ends_of_isRule {n : Nat} {c : Context} {α : Type} {p : Parser α}
    (hp : Grammar.IsRule (within n) p) (hn : c.budget ≤ n) (s : State) : ∃ t, Ends (p c s) t := by
  rw [Context.budget] at hn
  have hsuffices : (within n).Suffices (c.tokens.size + 1) := within_suffices (by omega)
  have hexpr := (within_ample n).1 (c.tokens.size + 2) (by omega)
  have hample := hp.related (hsuffices.closedOnRules (within_reading n) hexpr)
  have hfinishes : Finishes (p c s) s.position := hample (by omega) (by omega)
  cases hrun : p c s with
  | ok a t => exact ⟨t, .inl ⟨a, rfl⟩⟩
  | error reason t =>
    cases reason with
    | error e => exact ⟨t, .inr ⟨e, rfl⟩⟩
    | exhausted =>
      rw [hrun] at hfinishes
      exact hfinishes.elim

end Rules

/-- **The state is restored on every path.** Every rule ends, well or with a syntax error, and then
the mark of initializers and the classes around are as before, but for more uses that wait in the
innermost one. -/
theorem Grammar.IsRule.ends_restored {n : Nat} {c : Context} {α : Type} {p : Parser α}
    (hp : IsRule (.within n) p) (hn : c.budget ≤ n) (s : State) :
    ∃ t, Ends (p c s) t ∧ s.Restored c t := by
  obtain ⟨t, ht⟩ := Rules.ends_of_isRule hp hn s
  have hkeeps := (Rules.within_keeping n).closedOnRules (Rules.within_reading n)
  exact ⟨t, ht, (hp.related hkeeps ht).restored⟩

set_option maxRecDepth 100000 in
/-- A class that cannot be read, for `arguments` in an initializer, with a name that is used and one
that is declared. Around it is a class that has declared a name, in which another one waits. -/
theorem Grammar.IsRule.ends_restored_error :
    ∃ e t, Grammar.expression (.within (Context.ofSource
        "class { m() { this.#a; } #b; c = arguments; }" true ⟨9, true⟩).budget) (.whole [])
        (Context.ofSource "class { m() { this.#a; } #b; c = arguments; }" true ⟨9, true⟩)
        ⟨0, 0, ⟨[⟨["d"], [("e", .point 0)]⟩]⟩, false, #[]⟩ = .error (.error e) t
      ∧ (State.mk 0 0 ⟨[⟨["d"], [("e", .point 0)]⟩]⟩ false #[]).Restored
        (Context.ofSource "class { m() { this.#a; } #b; c = arguments; }" true ⟨9, true⟩) t := by
  obtain ⟨t, ht, hrestored⟩ := IsRule.ends_restored
    (c := Context.ofSource "class { m() { this.#a; } #b; c = arguments; }" true ⟨9, true⟩)
    (IsRule.expression (.whole [])) (Nat.le_refl _)
    ⟨0, 0, ⟨[⟨["d"], [("e", .point 0)]⟩]⟩, false, #[]⟩
  obtain ⟨a, hok⟩ | ⟨e, herror⟩ := ht
  · have hfails : (match Grammar.expression (.within (Context.ofSource
        "class { m() { this.#a; } #b; c = arguments; }" true ⟨9, true⟩).budget) (.whole [])
        (Context.ofSource "class { m() { this.#a; } #b; c = arguments; }" true ⟨9, true⟩)
        ⟨0, 0, ⟨[⟨["d"], [("e", .point 0)]⟩]⟩, false, #[]⟩ with
        | .ok _ _ => false
        | .error _ _ => true) = true := by decide +kernel
    rw [hok] at hfails
    cases hfails
  · exact ⟨e, t, herror, hrestored⟩

end EcmaScript
