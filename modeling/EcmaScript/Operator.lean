import EcmaScript.Token.Kind

namespace EcmaScript

/-!
# Operators

Every form of expression that is built around an operator, with how tightly it binds.

* `Operator.precedence` — from 19, member access and calls, down to 1, the comma;
* `Operator.associativity` — on which side an operand of the same precedence may stand;
* `Operator.operandPrecedence` — the least precedence of what stands on the right;
* `Operator.leading?`, `Operator.following?` — the operators that a token is before and after an
  operand.
-/

/-- Which of two operators of one precedence binds first. -/
inductive Associativity where
  | left
  | right
deriving DecidableEq, Repr, Inhabited

/-- The forms of expression built around an operator. -/
inductive Operator where
  | addition
  | assignment
  | assignmentAddition
  | assignmentBitwiseAnd
  | assignmentBitwiseLeftShift
  | assignmentBitwiseOr
  | assignmentBitwiseRightShift
  | assignmentBitwiseUnsignedRightShift
  | assignmentBitwiseXor
  | assignmentDivision
  | assignmentExponentiation
  | assignmentLogicalAnd
  | assignmentLogicalOr
  | assignmentMultiplication
  | assignmentNullishCoalescing
  | assignmentRemainder
  | assignmentSubtraction
  | await
  | bitwiseAnd
  | bitwiseLeftShift
  | bitwiseNot
  | bitwiseOr
  | bitwiseRightShift
  | bitwiseUnsignedRightShift
  | bitwiseXor
  | call
  | comma
  | computedMemberAccess
  | conditional
  | conditionalAlternate
  | delete
  | division
  | equality
  | exponentiation
  | greaterThan
  | greaterThanOrEqual
  | inOp
  | inequality
  | instanceof
  | lessThan
  | lessThanOrEqual
  | logicalAnd
  | logicalNot
  | logicalOr
  | memberAccess
  | multiplication
  | new
  | nullishCoalescing
  | postfixDecrement
  | postfixIncrement
  | prefixDecrement
  | prefixIncrement
  | remainder
  | strictEquality
  | strictInequality
  | subtraction
  | typeof
  | unaryNegation
  | unaryPlus
  | void
  | yield
  | yieldDelegated
deriving DecidableEq, Repr, Inhabited

namespace Operator

/-- The name an operator goes by in written trees. -/
def name : Operator → String
  | addition => "Addition"
  | assignment => "Assignment"
  | assignmentAddition => "AssignmentAddition"
  | assignmentBitwiseAnd => "AssignmentBitwiseAnd"
  | assignmentBitwiseLeftShift => "AssignmentBitwiseLeftShift"
  | assignmentBitwiseOr => "AssignmentBitwiseOr"
  | assignmentBitwiseRightShift => "AssignmentBitwiseRightShift"
  | assignmentBitwiseUnsignedRightShift => "AssignmentBitwiseUnsignedRightShift"
  | assignmentBitwiseXor => "AssignmentBitwiseXor"
  | assignmentDivision => "AssignmentDivision"
  | assignmentExponentiation => "AssignmentExponentiation"
  | assignmentLogicalAnd => "AssignmentLogicalAnd"
  | assignmentLogicalOr => "AssignmentLogicalOr"
  | assignmentMultiplication => "AssignmentMultiplication"
  | assignmentNullishCoalescing => "AssignmentNullishCoalescing"
  | assignmentRemainder => "AssignmentRemainder"
  | assignmentSubtraction => "AssignmentSubtraction"
  | await => "Await"
  | bitwiseAnd => "BitwiseAnd"
  | bitwiseLeftShift => "BitwiseLeftShift"
  | bitwiseNot => "BitwiseNot"
  | bitwiseOr => "BitwiseOr"
  | bitwiseRightShift => "BitwiseRightShift"
  | bitwiseUnsignedRightShift => "BitwiseUnsignedRightShift"
  | bitwiseXor => "BitwiseXor"
  | call => "Call"
  | comma => "Comma"
  | computedMemberAccess => "ComputedMemberAccess"
  | conditional => "Conditional"
  | conditionalAlternate => "ConditionalAlternate"
  | delete => "Delete"
  | division => "Division"
  | equality => "Equality"
  | exponentiation => "Exponentiation"
  | greaterThan => "GreaterThan"
  | greaterThanOrEqual => "GreaterThanOrEqual"
  | inOp => "In"
  | inequality => "Inequality"
  | instanceof => "Instanceof"
  | lessThan => "LessThan"
  | lessThanOrEqual => "LessThanOrEqual"
  | logicalAnd => "LogicalAnd"
  | logicalNot => "LogicalNot"
  | logicalOr => "LogicalOr"
  | memberAccess => "MemberAccess"
  | multiplication => "Multiplication"
  | new => "New"
  | nullishCoalescing => "NullishCoalescing"
  | postfixDecrement => "PostfixDecrement"
  | postfixIncrement => "PostfixIncrement"
  | prefixDecrement => "PrefixDecrement"
  | prefixIncrement => "PrefixIncrement"
  | remainder => "Remainder"
  | strictEquality => "StrictEquality"
  | strictInequality => "StrictInequality"
  | subtraction => "Subtraction"
  | typeof => "Typeof"
  | unaryNegation => "UnaryNegation"
  | unaryPlus => "UnaryPlus"
  | void => "Void"
  | yield => "Yield"
  | yieldDelegated => "YieldDelegated"

/-- All operators, in the order of their declaration. -/
def all : List Operator :=
  [addition, assignment, assignmentAddition, assignmentBitwiseAnd, assignmentBitwiseLeftShift,
   assignmentBitwiseOr, assignmentBitwiseRightShift, assignmentBitwiseUnsignedRightShift,
   assignmentBitwiseXor, assignmentDivision, assignmentExponentiation, assignmentLogicalAnd,
   assignmentLogicalOr, assignmentMultiplication, assignmentNullishCoalescing,
   assignmentRemainder, assignmentSubtraction, await, bitwiseAnd, bitwiseLeftShift, bitwiseNot,
   bitwiseOr, bitwiseRightShift, bitwiseUnsignedRightShift, bitwiseXor, call, comma,
   computedMemberAccess, conditional, conditionalAlternate, delete, division, equality,
   exponentiation, greaterThan, greaterThanOrEqual, inOp, inequality, instanceof, lessThan,
   lessThanOrEqual, logicalAnd, logicalNot, logicalOr, memberAccess, multiplication, new,
   nullishCoalescing, postfixDecrement, postfixIncrement, prefixDecrement, prefixIncrement,
   remainder, strictEquality, strictInequality, subtraction, typeof, unaryNegation, unaryPlus,
   void, yield, yieldDelegated]

theorem mem_all (op : Operator) : op ∈ all := by
  cases op <;> decide

/-- The operator with a name. -/
def ofName? (n : String) : Option Operator := all.find? fun op => op.name == n

/-- How tightly an operator binds its operands; a greater number binds more tightly. -/
def precedence : Operator → Nat
  | memberAccess | computedMemberAccess | call => 19
  | new => 18
  | postfixIncrement | postfixDecrement => 17
  | logicalNot | bitwiseNot | unaryPlus | unaryNegation | prefixIncrement | prefixDecrement
  | typeof | void | delete | await => 16
  | exponentiation => 15
  | multiplication | division | remainder => 14
  | addition | subtraction => 13
  | bitwiseLeftShift | bitwiseRightShift | bitwiseUnsignedRightShift => 12
  | lessThan | lessThanOrEqual | greaterThan | greaterThanOrEqual | inOp | instanceof => 11
  | equality | inequality | strictEquality | strictInequality => 10
  | bitwiseAnd => 9
  | bitwiseXor => 8
  | bitwiseOr => 7
  | logicalAnd => 6
  | logicalOr | nullishCoalescing => 5
  | conditional => 4
  | assignment | assignmentAddition | assignmentBitwiseAnd | assignmentBitwiseLeftShift
  | assignmentBitwiseOr | assignmentBitwiseRightShift | assignmentBitwiseUnsignedRightShift
  | assignmentBitwiseXor | assignmentDivision | assignmentExponentiation | assignmentLogicalAnd
  | assignmentLogicalOr | assignmentMultiplication | assignmentNullishCoalescing
  | assignmentRemainder | assignmentSubtraction | conditionalAlternate => 3
  | yield | yieldDelegated => 2
  | comma => 1

/-- Which of two uses of the operator, side by side, binds first. -/
def associativity : Operator → Associativity
  | new | logicalNot | bitwiseNot | unaryPlus | unaryNegation | prefixIncrement
  | prefixDecrement | typeof | void | delete | await | exponentiation | conditional
  | assignment | assignmentAddition | assignmentBitwiseAnd | assignmentBitwiseLeftShift
  | assignmentBitwiseOr | assignmentBitwiseRightShift | assignmentBitwiseUnsignedRightShift
  | assignmentBitwiseXor | assignmentDivision | assignmentExponentiation | assignmentLogicalAnd
  | assignmentLogicalOr | assignmentMultiplication | assignmentNullishCoalescing
  | assignmentRemainder | assignmentSubtraction | conditionalAlternate | yield
  | yieldDelegated => .right
  | _ => .left

/-- The least precedence that an operand after the operator needs: a left-associative operator wants
a tighter one. -/
def operandPrecedence (op : Operator) : Nat :=
  match op.associativity with
  | .left => op.precedence + 1
  | .right => op.precedence

/-- The operators whose left side must be something that can be assigned to. -/
def isAssignment : Operator → Bool
  | assignment | assignmentAddition | assignmentBitwiseAnd | assignmentBitwiseLeftShift
  | assignmentBitwiseOr | assignmentBitwiseRightShift | assignmentBitwiseUnsignedRightShift
  | assignmentBitwiseXor | assignmentDivision | assignmentExponentiation | assignmentLogicalAnd
  | assignmentLogicalOr | assignmentMultiplication | assignmentNullishCoalescing
  | assignmentRemainder | assignmentSubtraction => true
  | _ => false

/-- The operator that a token is when it stands before its operand. -/
def leading? : TokenKind → Option Operator
  | .keyword .kAwait => some await
  | .punctuator .tilde => some bitwiseNot
  | .keyword .kDelete => some delete
  | .punctuator .exclamation => some logicalNot
  | .keyword .kNew => some new
  | .punctuator .hyphenHyphen => some prefixDecrement
  | .punctuator .plusPlus => some prefixIncrement
  | .punctuator .hyphen => some unaryNegation
  | .punctuator .plus => some unaryPlus
  | .keyword .kTypeof => some typeof
  | .keyword .kVoid => some void
  | .keyword .kYield => some yield
  | _ => none

/-- The operator that a token is when it stands after an operand: binary operators, assignments, and
the starts of calls, member accesses and conditionals. The updates `++` and `--` are not among them,
because a line break may not stand before those. -/
def following? : TokenKind → Option Operator
  | .punctuator .plus => some addition
  | .punctuator .equals => some assignment
  | .punctuator .plusEquals => some assignmentAddition
  | .punctuator .ampersandEquals => some assignmentBitwiseAnd
  | .punctuator .chevronLeftChevronLeftEquals => some assignmentBitwiseLeftShift
  | .punctuator .barEquals => some assignmentBitwiseOr
  | .punctuator .chevronRightChevronRightEquals => some assignmentBitwiseRightShift
  | .punctuator .chevronRightChevronRightChevronRightEquals =>
    some assignmentBitwiseUnsignedRightShift
  | .punctuator .caretEquals => some assignmentBitwiseXor
  | .punctuator .slashEquals => some assignmentDivision
  | .punctuator .asteriskAsteriskEquals => some assignmentExponentiation
  | .punctuator .ampersandAmpersandEquals => some assignmentLogicalAnd
  | .punctuator .barBarEquals => some assignmentLogicalOr
  | .punctuator .asteriskEquals => some assignmentMultiplication
  | .punctuator .questionQuestionEquals => some assignmentNullishCoalescing
  | .punctuator .percentEquals => some assignmentRemainder
  | .punctuator .hyphenEquals => some assignmentSubtraction
  | .punctuator .ampersand => some bitwiseAnd
  | .punctuator .chevronLeftChevronLeft => some bitwiseLeftShift
  | .punctuator .bar => some bitwiseOr
  | .punctuator .chevronRightChevronRight => some bitwiseRightShift
  | .punctuator .chevronRightChevronRightChevronRight => some bitwiseUnsignedRightShift
  | .punctuator .caret => some bitwiseXor
  | .punctuator .parenthesisOpen => some call
  | .punctuator .comma => some comma
  | .punctuator .bracketOpen => some computedMemberAccess
  | .punctuator .question => some conditional
  | .punctuator .slash => some division
  | .punctuator .equalsEquals => some equality
  | .punctuator .asteriskAsterisk => some exponentiation
  | .punctuator .chevronRight => some greaterThan
  | .punctuator .chevronRightEquals => some greaterThanOrEqual
  | .keyword .kIn => some inOp
  | .punctuator .exclamationEquals => some inequality
  | .keyword .kInstanceof => some instanceof
  | .punctuator .chevronLeft => some lessThan
  | .punctuator .chevronLeftEquals => some lessThanOrEqual
  | .punctuator .ampersandAmpersand => some logicalAnd
  | .punctuator .barBar => some logicalOr
  | .punctuator .dot => some memberAccess
  | .punctuator .asterisk => some multiplication
  | .punctuator .questionQuestion => some nullishCoalescing
  | .punctuator .percent => some remainder
  | .punctuator .equalsEqualsEquals => some strictEquality
  | .punctuator .exclamationEqualsEquals => some strictInequality
  | .punctuator .hyphen => some subtraction
  | _ => none

/-- The update that a token is when it stands after its operand. -/
def update? : TokenKind → Option Operator
  | .punctuator .plusPlus => some postfixIncrement
  | .punctuator .hyphenHyphen => some postfixDecrement
  | _ => none

end Operator

end EcmaScript
