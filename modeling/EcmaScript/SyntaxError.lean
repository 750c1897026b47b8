import EcmaScript.Position
import EcmaScript.Token.Basic

namespace EcmaScript

/-!
# Syntax errors

* `SyntaxError.Cause` — what is wrong, with its stable code and its wording;
* `SyntaxError` — a cause, the place where it was found, and the kind of the token there;
* `SyntaxError.summary`, `SyntaxError.details`, `SyntaxError.report` — the three ways in which an
  error is written.
-/

/-- What is wrong with a text. -/
inductive SyntaxError.Cause where
  | unexpectedToken
  | duplicatePrivateElement
  | undeclaredPrivateName
  | reservedConstructorField
  | privateDeleteForbidden
  | argumentsInFieldInitializer
  | superInFieldInitializer
  /-- Something else had to stand here. -/
  | expected (what : String)
  /-- A token of this kind had to stand here. -/
  | requiredToken (kind : TokenKind)
  | unexpectedCharacter
  | unexpectedEnd
  | invalidAssignmentTarget
  | lineTerminatorAfterArrowParameters
  | malformedNumber
  | lineTerminatorInString
deriving DecidableEq, Repr, Inhabited

namespace SyntaxError.Cause

/-- The stable code of a cause. -/
def code : Cause → String
  | unexpectedToken => "CF0001"
  | duplicatePrivateElement => "CF0002"
  | undeclaredPrivateName => "CF0003"
  | reservedConstructorField => "CF0004"
  | privateDeleteForbidden => "CF0005"
  | argumentsInFieldInitializer => "CF0006"
  | superInFieldInitializer => "CF0007"
  | expected _ => "CF0101"
  | requiredToken _ => "CF0102"
  | unexpectedCharacter => "CF0103"
  | unexpectedEnd => "CF0104"
  | invalidAssignmentTarget => "CF0105"
  | lineTerminatorAfterArrowParameters => "CF0106"
  | malformedNumber => "CF0107"
  | lineTerminatorInString => "CF0108"

/-- The wording of a cause, where `found` is the kind of the token that stands there. -/
def message (found : Option TokenKind) : Cause → String
  | unexpectedToken => "unexpected token"
  | duplicatePrivateElement => "duplicate private element"
  | undeclaredPrivateName => "usage of undeclared private name"
  | reservedConstructorField => "classes may not have a field named constructor"
  | privateDeleteForbidden => "private elements may not be deleted"
  | argumentsInFieldInitializer => "a class field initializer may not contain arguments"
  | superInFieldInitializer => "a class field initializer may not contain super"
  | expected what => "expected " ++ what
  | requiredToken kind => "expected token " ++ kind.name
  | unexpectedCharacter => "unexpected character"
  | unexpectedEnd =>
    match found with
    | some kind => "unexpected end before " ++ kind.name
    | none => "unexpected end of input"
  | invalidAssignmentTarget => "invalid assignment target"
  | lineTerminatorAfterArrowParameters =>
    "line terminator not allowed after arrow function parameters"
  | malformedNumber => "malformed number literal"
  | lineTerminatorInString => "line terminator not allowed in string literal"

end SyntaxError.Cause

/-- The first thing that is wrong with a text. -/
structure SyntaxError where
  cause : SyntaxError.Cause
  span : Span
  /-- The kind of the token at fault, where one is. -/
  token : Option TokenKind
deriving DecidableEq, Repr, Inhabited

namespace SyntaxError

/-- The short name of the cause. -/
def code (e : SyntaxError) : String := e.cause.code

/-- The cause in words. -/
def message (e : SyntaxError) : String := e.cause.message e.token

/-- Byte offset of the place. -/
def offset (e : SyntaxError) : Nat := e.span.start

/-- Two errors are alike when they have the same cause, wherever they stand. -/
def alike (a b : SyntaxError) : Bool := a.cause = b.cause

/-- Code and message. -/
def headline (e : SyntaxError) : String := "error[" ++ e.code ++ "]: " ++ e.message

/-- The headline and the offset. -/
def summary (e : SyntaxError) : String := e.headline ++ " (" ++ toString e.offset ++ ")"

/-- The summary and the whole span. -/
def details (e : SyntaxError) : String :=
  e.summary ++ " around loc [" ++ toString e.span.start ++ ":" ++ toString e.span.stop ++ "]"

/-- The line and column of the place in the source. -/
def position (e : SyntaxError) (source : String) : Position := Position.ofOffset source e.offset

/-- The headline, and the line and column in the source. -/
def report (e : SyntaxError) (source : String) : String :=
  let place := e.position source
  e.headline ++ " at " ++ toString place.line ++ ":" ++ toString place.column

end SyntaxError

namespace Token

/-- An error at a token. -/
def error (t : Token) (cause : SyntaxError.Cause) : SyntaxError := ⟨cause, t.span, some t.kind⟩

/-- An error at a token that cannot stand where it does. The end of the text and invalid text have
causes of their own, whatever was to be reported. -/
def misplaced (t : Token) (cause : SyntaxError.Cause) : SyntaxError :=
  match t.kind with
  | .eof => t.error .unexpectedEnd
  | .invalid =>
    match t.text.toList.head? with
    | some '"' | some '\'' => t.error .lineTerminatorInString
    | _ => t.error .unexpectedCharacter
  | _ => t.error cause

end Token

end EcmaScript
