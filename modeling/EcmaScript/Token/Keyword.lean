namespace EcmaScript

/-!
# Keywords

The reserved and contextual words, and the three literals that are spelled as words.

* `Keyword.spelling` — the text of a keyword;
* `Keyword.ofSpelling?` — the keyword with a given text;
* `Keyword.isUnreserved` — contextual words that may still name parameters and variables.
-/

/-- A word with a token kind of its own. -/
inductive Keyword where
  | kAsync
  | kAwait
  | kBreak
  | kCase
  | kCatch
  | kClass
  | kConst
  | kContinue
  | kDebugger
  | kDefault
  | kDelete
  | kDo
  | kElse
  | kEnum
  | kExport
  | kExtends
  | kFinally
  | kFor
  | kFunction
  | kGet
  | kIf
  | kImport
  | kIn
  | kInstanceof
  | kLet
  | kNew
  | kReturn
  | kSet
  | kStatic
  | kSuper
  | kSwitch
  | kThis
  | kThrow
  | kTry
  | kTypeof
  | kVar
  | kVoid
  | kWhile
  | kWith
  | kYield
  | kTrue
  | kFalse
  | kNull
deriving DecidableEq, Repr, Inhabited

namespace Keyword

/-- The text of the keyword. -/
def spelling : Keyword → String
  | kAsync => "async"
  | kAwait => "await"
  | kBreak => "break"
  | kCase => "case"
  | kCatch => "catch"
  | kClass => "class"
  | kConst => "const"
  | kContinue => "continue"
  | kDebugger => "debugger"
  | kDefault => "default"
  | kDelete => "delete"
  | kDo => "do"
  | kElse => "else"
  | kEnum => "enum"
  | kExport => "export"
  | kExtends => "extends"
  | kFinally => "finally"
  | kFor => "for"
  | kFunction => "function"
  | kGet => "get"
  | kIf => "if"
  | kImport => "import"
  | kIn => "in"
  | kInstanceof => "instanceof"
  | kLet => "let"
  | kNew => "new"
  | kReturn => "return"
  | kSet => "set"
  | kStatic => "static"
  | kSuper => "super"
  | kSwitch => "switch"
  | kThis => "this"
  | kThrow => "throw"
  | kTry => "try"
  | kTypeof => "typeof"
  | kVar => "var"
  | kVoid => "void"
  | kWhile => "while"
  | kWith => "with"
  | kYield => "yield"
  | kTrue => "true"
  | kFalse => "false"
  | kNull => "null"

/-- Every keyword, in alphabetical order, and then the literals. -/
def all : List Keyword :=
  [.kAsync, .kAwait, .kBreak, .kCase, .kCatch, .kClass, .kConst, .kContinue, .kDebugger,
   .kDefault, .kDelete, .kDo, .kElse, .kEnum, .kExport, .kExtends, .kFinally, .kFor,
   .kFunction, .kGet, .kIf, .kImport, .kIn, .kInstanceof, .kLet, .kNew, .kReturn, .kSet,
   .kStatic, .kSuper, .kSwitch, .kThis, .kThrow, .kTry, .kTypeof, .kVar, .kVoid, .kWhile,
   .kWith, .kYield, .kTrue, .kFalse, .kNull]

theorem mem_all (k : Keyword) : k ∈ all := by
  cases k <;> decide

/-- The keyword that a word spells. -/
def ofSpelling? (word : String) : Option Keyword :=
  all.find? fun k => k.spelling == word

/-- The literals `true`, `false` and `null`. -/
def isLiteral : Keyword → Bool
  | kTrue | kFalse | kNull => true
  | _ => false

/-- The contextual keywords that may name parameters and variables everywhere. -/
def isUnreserved : Keyword → Bool
  | kAsync | kGet | kLet | kSet | kStatic => true
  | _ => false

/-- The name of the token kind of a keyword: its class, then its spelling with a capital. -/
def kindName (k : Keyword) : String :=
  (if k.isLiteral then "Literal" else "Keyword") ++ k.spelling.capitalize

/-- No other keyword is spelled like this one. -/
theorem ofSpelling?_spelling (k : Keyword) : ofSpelling? k.spelling = some k := by
  cases k <;> rfl

/-- A word that is found is the spelling of what is found. -/
theorem spelling_of_ofSpelling? {word : String} {k : Keyword} (h : ofSpelling? word = some k) :
    k.spelling = word := by
  simpa using List.find?_some h

end Keyword

end EcmaScript
