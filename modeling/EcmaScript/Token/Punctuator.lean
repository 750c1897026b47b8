namespace EcmaScript

/-!
# Punctuators

Brackets, separators and operator symbols.

* `Punctuator.spelling` — the text of a punctuator;
* `Punctuator.longest?` — the longest punctuator that a text begins with.
-/

/-- A symbol with a token kind of its own, named after its characters. -/
inductive Punctuator where
  | ampersand
  | ampersandAmpersand
  | ampersandAmpersandEquals
  | ampersandEquals
  | asterisk
  | asteriskAsterisk
  | asteriskAsteriskEquals
  | asteriskEquals
  | bar
  | barBar
  | barBarEquals
  | barEquals
  | braceClose
  | braceOpen
  | bracketClose
  | bracketOpen
  | caret
  | caretEquals
  | chevronLeft
  | chevronLeftChevronLeft
  | chevronLeftChevronLeftEquals
  | chevronLeftEquals
  | chevronRight
  | chevronRightChevronRight
  | chevronRightChevronRightChevronRight
  | chevronRightChevronRightChevronRightEquals
  | chevronRightChevronRightEquals
  | chevronRightEquals
  | colon
  | comma
  | dot
  | dotDotDot
  | equals
  | equalsChevronRight
  | equalsEquals
  | equalsEqualsEquals
  | exclamation
  | exclamationEquals
  | exclamationEqualsEquals
  | hyphen
  | hyphenEquals
  | hyphenHyphen
  | parenthesisClose
  | parenthesisOpen
  | percent
  | percentEquals
  | plus
  | plusEquals
  | plusPlus
  | question
  | questionQuestion
  | questionQuestionEquals
  | semicolon
  | slash
  | slashEquals
  | tilde
deriving DecidableEq, Repr, Inhabited

namespace Punctuator

/-- The text of the punctuator. -/
def spelling : Punctuator → String
  | ampersand => "&"
  | ampersandAmpersand => "&&"
  | ampersandAmpersandEquals => "&&="
  | ampersandEquals => "&="
  | asterisk => "*"
  | asteriskAsterisk => "**"
  | asteriskAsteriskEquals => "**="
  | asteriskEquals => "*="
  | bar => "|"
  | barBar => "||"
  | barBarEquals => "||="
  | barEquals => "|="
  | braceClose => "\x7d"
  | braceOpen => "\x7b"
  | bracketClose => "]"
  | bracketOpen => "["
  | caret => "^"
  | caretEquals => "^="
  | chevronLeft => "<"
  | chevronLeftChevronLeft => "<<"
  | chevronLeftChevronLeftEquals => "<<="
  | chevronLeftEquals => "<="
  | chevronRight => ">"
  | chevronRightChevronRight => ">>"
  | chevronRightChevronRightChevronRight => ">>>"
  | chevronRightChevronRightChevronRightEquals => ">>>="
  | chevronRightChevronRightEquals => ">>="
  | chevronRightEquals => ">="
  | colon => ":"
  | comma => ","
  | dot => "."
  | dotDotDot => "..."
  | equals => "="
  | equalsChevronRight => "=>"
  | equalsEquals => "=="
  | equalsEqualsEquals => "==="
  | exclamation => "!"
  | exclamationEquals => "!="
  | exclamationEqualsEquals => "!=="
  | hyphen => "-"
  | hyphenEquals => "-="
  | hyphenHyphen => "--"
  | parenthesisClose => ")"
  | parenthesisOpen => "("
  | percent => "%"
  | percentEquals => "%="
  | plus => "+"
  | plusEquals => "+="
  | plusPlus => "++"
  | question => "?"
  | questionQuestion => "??"
  | questionQuestionEquals => "??="
  | semicolon => ";"
  | slash => "/"
  | slashEquals => "/="
  | tilde => "~"

/-- The name of the token kind of a punctuator. -/
def kindName : Punctuator → String
  | ampersand => "Ampersand"
  | ampersandAmpersand => "AmpersandAmpersand"
  | ampersandAmpersandEquals => "AmpersandAmpersandEquals"
  | ampersandEquals => "AmpersandEquals"
  | asterisk => "Asterisk"
  | asteriskAsterisk => "AsteriskAsterisk"
  | asteriskAsteriskEquals => "AsteriskAsteriskEquals"
  | asteriskEquals => "AsteriskEquals"
  | bar => "Bar"
  | barBar => "BarBar"
  | barBarEquals => "BarBarEquals"
  | barEquals => "BarEquals"
  | braceClose => "BraceClose"
  | braceOpen => "BraceOpen"
  | bracketClose => "BracketClose"
  | bracketOpen => "BracketOpen"
  | caret => "Caret"
  | caretEquals => "CaretEquals"
  | chevronLeft => "ChevronLeft"
  | chevronLeftChevronLeft => "ChevronLeftChevronLeft"
  | chevronLeftChevronLeftEquals => "ChevronLeftChevronLeftEquals"
  | chevronLeftEquals => "ChevronLeftEquals"
  | chevronRight => "ChevronRight"
  | chevronRightChevronRight => "ChevronRightChevronRight"
  | chevronRightChevronRightChevronRight => "ChevronRightChevronRightChevronRight"
  | chevronRightChevronRightChevronRightEquals => "ChevronRightChevronRightChevronRightEquals"
  | chevronRightChevronRightEquals => "ChevronRightChevronRightEquals"
  | chevronRightEquals => "ChevronRightEquals"
  | colon => "Colon"
  | comma => "Comma"
  | dot => "Dot"
  | dotDotDot => "DotDotDot"
  | equals => "Equals"
  | equalsChevronRight => "EqualsChevronRight"
  | equalsEquals => "EqualsEquals"
  | equalsEqualsEquals => "EqualsEqualsEquals"
  | exclamation => "Exclamation"
  | exclamationEquals => "ExclamationEquals"
  | exclamationEqualsEquals => "ExclamationEqualsEquals"
  | hyphen => "Hyphen"
  | hyphenEquals => "HyphenEquals"
  | hyphenHyphen => "HyphenHyphen"
  | parenthesisClose => "ParenthesisClose"
  | parenthesisOpen => "ParenthesisOpen"
  | percent => "Percent"
  | percentEquals => "PercentEquals"
  | plus => "Plus"
  | plusEquals => "PlusEquals"
  | plusPlus => "PlusPlus"
  | question => "Question"
  | questionQuestion => "QuestionQuestion"
  | questionQuestionEquals => "QuestionQuestionEquals"
  | semicolon => "Semicolon"
  | slash => "Slash"
  | slashEquals => "SlashEquals"
  | tilde => "Tilde"

/-- Every punctuator, longer ones first. -/
def all : List Punctuator :=
  [.chevronRightChevronRightChevronRightEquals, .ampersandAmpersandEquals,
   .asteriskAsteriskEquals, .barBarEquals, .chevronLeftChevronLeftEquals,
   .chevronRightChevronRightChevronRight, .chevronRightChevronRightEquals, .dotDotDot,
   .equalsEqualsEquals, .exclamationEqualsEquals, .questionQuestionEquals,
   .ampersandAmpersand, .ampersandEquals, .asteriskAsterisk, .asteriskEquals, .barBar,
   .barEquals, .caretEquals, .chevronLeftChevronLeft, .chevronLeftEquals,
   .chevronRightChevronRight, .chevronRightEquals, .equalsChevronRight, .equalsEquals,
   .exclamationEquals, .hyphenEquals, .hyphenHyphen, .percentEquals, .plusEquals, .plusPlus,
   .questionQuestion, .slashEquals, .ampersand, .asterisk, .bar, .braceClose, .braceOpen,
   .bracketClose, .bracketOpen, .caret, .chevronLeft, .chevronRight, .colon, .comma, .dot,
   .equals, .exclamation, .hyphen, .parenthesisClose, .parenthesisOpen, .percent, .plus,
   .question, .semicolon, .slash, .tilde]

theorem mem_all (p : Punctuator) : p ∈ all := by
  cases p <;> decide

/-- The longest punctuator at the front of a text: the list has the longer ones first. -/
def longest? (cs : List Char) : Option Punctuator :=
  all.find? fun p => p.spelling.toList.isPrefixOf cs

/-- What is found stands at the front of the text. -/
theorem spelling_isPrefixOf_of_longest? {cs : List Char} {p : Punctuator}
    (h : longest? cs = some p) : p.spelling.toList <+: cs := by
  simpa using List.find?_some h

theorem spelling_length_pos (p : Punctuator) : 0 < p.spelling.toList.length := by
  cases p <;> decide

end Punctuator

end EcmaScript
