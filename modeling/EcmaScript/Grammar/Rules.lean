import EcmaScript.Parser.Basic

namespace EcmaScript

/-!
# The two recursive rules

Statements and expressions contain each other. Every other rule of the grammar is a function of
these two, given as `Rules`, so that a rule can be studied by itself: what holds of `Rules` for
smaller budgets carries over to the rules that are built from them.

* `ExprMode` — how an expression is read: how tight it has to bind, and where it may end;
* `Rules` — how to read a statement and an expression, and how many steps a list may take.
-/

/-- How an expression is read. -/
structure ExprMode where
  /-- Operators that bind less tightly end the expression. -/
  least : Nat
  /-- Tokens of these kinds end the expression. -/
  stops : List TokenKind
  /-- Whether a semicolon may be inserted where the expression cannot go on. -/
  insertion : Bool
deriving DecidableEq, Repr

namespace ExprMode

/-- A whole expression, commas included. -/
def whole (stops : List TokenKind) : ExprMode := ⟨Operator.comma.precedence, stops, false⟩

/-- A whole expression behind which a semicolon may be inserted. -/
def statement (stops : List TokenKind) : ExprMode := ⟨Operator.comma.precedence, stops, true⟩

/-- One side of a comma, behind which a semicolon may be inserted. -/
def assignment (stops : List TokenKind) : ExprMode :=
  ⟨Operator.assignment.precedence, stops, true⟩

end ExprMode

/-- How to read a statement and an expression. An expression also tells whether a semicolon was
inserted behind it, or behind its last part. -/
structure Rules where
  /-- Number of steps that a list may take. -/
  budget : Nat
  stmt : Parser Stmt
  expr : ExprMode → Parser (Expr × Bool)

namespace Rules

/-- A whole expression, up to one of the tokens that end it. -/
def whole (g : Rules) (stops : List TokenKind) : Parser Expr := return (← g.expr (.whole stops)).1

/-- A list of items with commas between them, through a closing token. -/
def list {α : Type} (g : Rules) (close : TokenKind) (item : Parser (Span → α)) : Parser (List α) :=
  Parser.separated (.punctuator .comma) close item g.budget

end Rules

end EcmaScript
