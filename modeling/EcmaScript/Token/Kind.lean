import EcmaScript.Token.Keyword
import EcmaScript.Token.Punctuator

namespace EcmaScript

/-!
# Kinds of tokens

* `TokenKind` — what a token is, without its text and place;
* `TokenKind.name` — the name a kind goes by in messages and in written trees;
* `TokenKind.ofName?` — the kind with a given name.
-/

/-- Classes of text that are recognised inside a token or between two tokens. No token is of such a
class, but each has a name among the kinds. -/
inductive TextClass where
  | dummy
  | blockComment
  | blockCommentEnd
  | lineComment
  | lineTerminator
  | whitespace
  | binaryNumber
  | octalNumber
  | hexNumber
deriving DecidableEq, Repr, Inhabited

namespace TextClass

/-- The name of the class. -/
def name : TextClass → String
  | dummy => "_Dummy"
  | blockComment => "CommentMultiline"
  | blockCommentEnd => "CommentMultilineEnd"
  | lineComment => "CommentSingle"
  | lineTerminator => "LineTerminator"
  | whitespace => "Whitespace"
  | binaryNumber => "LiteralNumberBin"
  | octalNumber => "LiteralNumberOct"
  | hexNumber => "LiteralNumberHex"

/-- All the classes. -/
def all : List TextClass :=
  [dummy, blockComment, blockCommentEnd, lineComment, lineTerminator, whitespace, binaryNumber,
   octalNumber, hexNumber]

end TextClass

/-- What a token is. `eof` stands for the end of the text and `invalid` for text that is no
token. -/
inductive TokenKind where
  | eof
  | invalid
  | identifier
  | privateName
  | number
  | string
  | keyword (k : Keyword)
  | punctuator (p : Punctuator)
  | textClass (c : TextClass)
deriving DecidableEq, Repr, Inhabited

namespace TokenKind

/-- The name of the kind in messages and in written trees. -/
def name : TokenKind → String
  | eof => "EOF"
  | invalid => "Invalid"
  | identifier => "Identifier"
  | privateName => "PrivateName"
  | number => "LiteralNumber"
  | string => "LiteralString"
  | keyword k => k.kindName
  | punctuator p => p.kindName
  | textClass c => c.name

/-- All the kinds. -/
def all : List TokenKind :=
  [eof, invalid, identifier, privateName, number, string] ++ Keyword.all.map keyword
    ++ Punctuator.all.map punctuator ++ TextClass.all.map textClass

/-- The kind with a name. -/
def ofName? (n : String) : Option TokenKind := all.find? fun k => k.name == n

/-- The text that every token of a keyword kind has. -/
def keywordSpelling? : TokenKind → Option String
  | keyword k => some k.spelling
  | _ => none

/-- The text that begins every token of a symbol kind: a punctuator's text, or the sigil of a
private name. -/
def symbolSpelling? : TokenKind → Option String
  | punctuator p => some p.spelling
  | privateName => some "#"
  | _ => none

/-- Is every token of this kind a keyword? -/
def isKeyword : TokenKind → Bool
  | keyword _ => true
  | _ => false

end TokenKind

end EcmaScript
