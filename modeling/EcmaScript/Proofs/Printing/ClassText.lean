import EcmaScript.Proofs.Printing.Lines
import EcmaScript.Proofs.Tree.Bare

namespace EcmaScript

open Word (sign)

/-!
# Printed classes

Members of classes as they are written, each with the member that it is. What is no member cannot be
built: a word comes with what it spells, and a method with parameters that its kind may have.

* `ClassText.NameWord`, `ClassText.NumberWord`, `ClassText.KeyWord`, `ClassText.PrivateWord` — words
  with what they spell;
* `ClassText.Value`, `ClassText.Parameter` — initial values of fields, and parameters of methods;
* `ClassText.Key`, `ClassText.FieldKey` — the keys of methods and of fields;
* `ClassText.Field`, `ClassText.Method`, `ClassText.Item` — members, with their words and trees;
* `ClassText.text` — a class with these members: one blank between two words, a line break in place
  of the semicolon behind some of its fields;
* `ClassText.endsLines` — every such line break ends its field;
* `ClassText.isToken_classWords` — the words of such a class are tokens.
-/

namespace ClassText

variable {rules : NameRules}

/-! ### Words -/

/-- A word that may name a variable. -/
structure NameWord (rules : NameRules) where
  word : Word
  isToken : word.IsToken
  allowed : rules.allows word.kind = true
  name : String
  spells : Escape.decodeName? word.text = some name

/-- A number. -/
structure NumberWord where
  word : Word
  isToken : word.IsToken
  isNumber : word.kind = .number
  value : Number
  spells : Number.ofLiteral? word.text = some value

/-- What a word stands for as a key: a name, a keyword, a string or a number. -/
def keyText? (w : Word) : Option String :=
  match w.kind with
  | .identifier => Escape.decodeName? w.text
  | .keyword _ => some w.text
  | .string => (Escape.decode? (w.text.toList.drop 1).dropLast).map String.ofList
  | .number => (Number.ofLiteral? w.text).map Number.display
  | _ => none

/-- A key that is spelled out. -/
structure KeyWord where
  word : Word
  isToken : word.IsToken
  text : String
  spells : keyText? word = some text

/-- A private name with its sigil. -/
structure PrivateWord where
  word : Word
  isToken : word.IsToken
  isPrivate : word.kind = .privateName
  long : 1 < word.text.length
  name : String
  spells : Escape.decodeName? (String.ofList (word.text.toList.drop 1)) = some name
  ne_constructor : name ≠ "constructor"

/-- The word as a key. -/
def KeyWord.tree (k : KeyWord) : DirectKey := ⟨default, k.text, k.word.kind⟩

/-- A plain name is a name wherever names may stand. -/
def NameWord.plain (text : String) (h : Lexeme.isPlainName text = true) : NameWord rules where
  word := .name text
  isToken := (Word.separate_name h).isToken nofun
  allowed := rfl
  name := text
  spells := Lexeme.decodeName?_of_isPlainName h

/-- A plain name is a key. -/
def KeyWord.plain (text : String) (h : Lexeme.isPlainName text = true) : KeyWord where
  word := .name text
  isToken := (Word.separate_name h).isToken nofun
  text := text
  spells := Lexeme.decodeName?_of_isPlainName h

/-- Every keyword is a key. -/
def KeyWord.keyword (k : Keyword) : KeyWord where
  word := sign (.keyword k)
  isToken := Word.isToken_keyword k
  text := (sign (.keyword k)).text
  spells := rfl

/-- The word, or nothing. -/
def optional (b : Bool) (w : Word) : List Word := if b then [w] else []

/-! ### Values and parameters -/

/-- A number or a name. -/
inductive Value (rules : NameRules) where
  | number (n : NumberWord)
  | name (n : NameWord rules)

namespace Value

/-- The word of the value. -/
def word : Value rules → Word
  | number n => n.word
  | name n => n.word

/-- The value as an expression. -/
def tree : Value rules → Expr
  | number n => .numberLit default n.value
  | name n => .ident default n.name

/-- Is the value the name `arguments`? -/
def isArguments : Value rules → Bool
  | number _ => false
  | name n => n.name = "arguments"

end Value

/-- Nothing, or an equals sign and a value. -/
def initialWords : Option (Value rules) → List Word
  | none => []
  | some v => [sign (.punctuator .equals), v.word]

/-- A parameter: perhaps a rest mark, a name, perhaps a default value. -/
structure Parameter (rules : NameRules) where
  rest : Bool
  name : NameWord rules
  initial : Option (Value rules)

namespace Parameter

/-- The words of the parameter. -/
def words (p : Parameter rules) : List Word :=
  optional p.rest (sign (.punctuator .dotDotDot)) ++ p.name.word :: initialWords p.initial

/-- Parameters with commas between them. -/
def listWords : List (Parameter rules) → List Word
  | [] => []
  | [p] => p.words
  | p :: q :: rest => p.words ++ sign (.punctuator .comma) :: listWords (q :: rest)

/-- The parameter as a part of a function. -/
def tree (p : Parameter rules) : Param :=
  .mk default p.rest ⟨default, p.name.name⟩ (p.initial.map Value.tree)

end Parameter

/-- Parameters in parentheses, and an empty body. -/
def functionWords (ps : List (Parameter rules)) : List Word :=
  sign (.punctuator .parenthesisOpen) :: (Parameter.listWords ps
    ++ [sign (.punctuator .parenthesisClose), sign (.punctuator .braceOpen),
      sign (.punctuator .braceClose)])

/-! ### Keys -/

/-- A key of a method: spelled out, or a name in brackets. -/
inductive Key where
  | spelled (key : KeyWord)
  | computed (name : NameWord .script)

namespace Key

/-- The words of the key. -/
def words : Key → List Word
  | spelled k => [k.word]
  | computed n => [sign (.punctuator .bracketOpen), n.word, sign (.punctuator .bracketClose)]

/-- The key as a part of a member. -/
def tree : Key → EcmaScript.Key
  | spelled k => .direct k.tree
  | computed n => .computed (.ident default n.name)

/-- Does the key make a method the constructor? -/
def isConstructor : Key → Bool
  | spelled k => k.text = "constructor" && (k.word.kind = .identifier || k.word.kind = .string)
  | computed _ => false

/-- Is the key this word? -/
def isKeyword (word : Keyword) : Key → Bool
  | spelled k => k.word.kind = .keyword word
  | computed _ => false

end Key

/-- A key of a field, which may be private and is never the constructor. -/
inductive FieldKey where
  | plain (key : Key) (ne_constructor : key.isConstructor = false)
  | privateName (name : PrivateWord)

namespace FieldKey

/-- The words of the key. -/
def words : FieldKey → List Word
  | plain key _ => key.words
  | privateName n => [n.word]

/-- The key as a part of a member. -/
def tree : FieldKey → EcmaScript.Key
  | plain key _ => key.tree
  | privateName n => .privateName ⟨default, n.name⟩

/-- Is the key this word? -/
def isKeyword (word : Keyword) : FieldKey → Bool
  | plain key _ => key.isKeyword word
  | privateName _ => false

/-- The private name that the key declares. -/
def privateName? : FieldKey → Option String
  | plain _ _ => none
  | privateName n => some n.name

end FieldKey

/-! ### Members -/

/-- A field: its key, perhaps a value, and whether a line break ends it or a semicolon. -/
structure Field where
  key : FieldKey
  initial : Option (Value .script)
  ne_arguments : ∀ v ∈ initial, v.isArguments = false
  endsLine : Bool

namespace Field

/-- The words of the field. -/
def words (f : Field) : List Word :=
  f.key.words ++ initialWords f.initial
    ++ optional (!f.endsLine) (sign (.punctuator .semicolon))

/-- The field as a member. -/
def tree (f : Field) : Member :=
  .field default f.key.tree f.key.tree.isComputed (f.initial.map Value.tree)

/-- Is the field only a word that would be a modifier on the next line, too? -/
def isBareModifier (f : Field) : Bool :=
  f.initial.isNone
    && (f.key.isKeyword .kGet || f.key.isKeyword .kSet || f.key.isKeyword .kStatic)

/-- Does a line break before a token of this kind end the field? A value goes on with an operator on
the next line. -/
def endsBefore (f : Field) (next : TokenKind) : Bool :=
  !f.isBareModifier && (f.initial.isNone || (Operator.following? next).isNone)

end Field

/-- The words before the key of a method other than `static`. -/
inductive Modifier where
  | none
  | async
  | generator
  | asyncGenerator
  | get
  | set
deriving DecidableEq, Repr

namespace Modifier

/-- Is the method async? -/
def isAsync : Modifier → Bool
  | async | asyncGenerator => true
  | _ => false

/-- Is the method a generator? -/
def isGenerator : Modifier → Bool
  | generator | asyncGenerator => true
  | _ => false

/-- The kind of the method, unless it is the constructor. -/
def kind : Modifier → MethodKind
  | get => .get
  | set => .set
  | _ => .method

/-- The words of the modifier. -/
def words : Modifier → List Word
  | none => []
  | async => [sign (.keyword .kAsync)]
  | generator => [sign (.punctuator .asterisk)]
  | asyncGenerator => [sign (.keyword .kAsync), sign (.punctuator .asterisk)]
  | get => [sign (.keyword .kGet)]
  | set => [sign (.keyword .kSet)]

/-- The words that may be names in the method. -/
def names (m : Modifier) : NameRules :=
  (NameRules.script.forAsync m.isAsync).forGenerator m.isGenerator

/-- May the method have parameters with these rest marks? -/
def takes : Modifier → List Bool → Bool
  | get, rests => rests.isEmpty
  | set, rests => rests = [false]
  | _, _ => true

end Modifier

/-- The words of a member up to its key. -/
def headWords (static : Bool) (m : Modifier) (key : Key) : List Word :=
  optional static (sign (.keyword .kStatic)) ++ (m.words ++ key.words)

/-- A method with an empty body. -/
structure Method where
  static : Bool
  modifier : Modifier
  key : Key
  parameters : List (Parameter modifier.names)
  takes_parameters : modifier.takes (parameters.map Parameter.rest) = true
  plain_constructor : static = false → key.isConstructor = true → modifier = .none

namespace Method

/-- The words of the method. -/
def words (m : Method) : List Word :=
  headWords m.static m.modifier m.key ++ functionWords m.parameters

/-- What the method is to its class. -/
def kind (m : Method) : MethodKind :=
  if !m.static && m.key.isConstructor then .constructor else m.modifier.kind

/-- The parameters and the body of the method. -/
def function (m : Method) : Func :=
  .mk default false m.modifier.isAsync m.modifier.isGenerator
    (m.parameters.map Parameter.tree) (.block [])

/-- The method as a member. -/
def tree (m : Method) : Member := .method default m.key.tree m.static m.kind m.function

end Method

/-- A member of a class. -/
inductive Item where
  | field (f : Field)
  | method (m : Method)

namespace Item

/-- The words of the member. -/
def words : Item → List Word
  | field f => f.words
  | method m => m.words

/-- The member as a part of the class. -/
def tree : Item → Member
  | field f => f.tree
  | method m => m.tree

/-- Does a line break end the member? -/
def endsLine : Item → Bool
  | field f => f.endsLine
  | method _ => false

/-- The private name that the member declares. -/
def privateName? : Item → Option String
  | field f => f.key.privateName?
  | method _ => none

/-- Does the member end before a token of this kind, on the next line if a line break ends it? -/
def endsBefore (next : TokenKind) : Item → Bool
  | field f => !f.endsLine || f.endsBefore next
  | method _ => true

end Item

/-! ### Classes -/

/-- Words on one line, the first one perhaps on a new line. -/
def onLine (newline : Bool) : List Word → List PlacedWord
  | [] => []
  | w :: ws => ⟨newline, w⟩ :: ws.map (PlacedWord.mk false)

/-- Members and the closing brace. -/
def bodyWords (newline : Bool) : List Item → List PlacedWord
  | [] => [⟨newline, sign (.punctuator .braceClose)⟩]
  | item :: rest => onLine newline item.words ++ bodyWords item.endsLine rest

/-- The words of a class behind `class`. -/
def classWords (items : List Item) : List PlacedWord :=
  ⟨false, .name "A"⟩ :: ⟨false, sign (.punctuator .braceOpen)⟩ :: bodyWords false items

/-- A class with these members. -/
def text (items : List Item) : String :=
  (sign (.keyword .kClass)).linesText (classWords items)

/-- The kind of the first token of these members and the closing brace. -/
def nextKind (items : List Item) : TokenKind :=
  match bodyWords false items with
  | [] => .eof
  | w :: _ => w.word.kind

/-- Does every line break that stands in place of a semicolon end its field? -/
def endsLines : List Item → Bool
  | [] => true
  | item :: rest => item.endsBefore (nextKind rest) && endsLines rest

/-- Where every field has its semicolon, there is no such line break. -/
theorem endsLines_of_semicolons {items : List Item} (h : ∀ item ∈ items, item.endsLine = false) :
    endsLines items = true := by
  induction items with
  | nil => rfl
  | cons item rest ih =>
    obtain ⟨hitem, hrest⟩ := List.forall_mem_cons.1 h
    have hends : item.endsBefore (nextKind rest) = true := by
      cases item with
      | field f => exact congrArg (!· || f.endsBefore _) hitem
      | method m => rfl
    rw [endsLines, hends, ih hrest]
    rfl

/-- The private names that the members declare. -/
def privateNames (items : List Item) : List String := items.filterMap Item.privateName?

/-- The script that a class with these members is. -/
def tree (items : List Item) : Program :=
  ⟨default, [.classDecl default ⟨default, "A"⟩ none (items.map Item.tree)]⟩

/-! ### Tokens -/

theorem Value.isToken (v : Value rules) : v.word.IsToken := by
  cases v with
  | number n => exact n.isToken
  | name n => exact n.isToken

theorem isToken_optional {w : Word} (b : Bool) (hw : w.IsToken) :
    ∀ v ∈ optional b w, v.IsToken := by
  cases b with
  | true => exact List.forall_mem_singleton.2 hw
  | false => exact nofun

theorem isToken_initialWords (initial : Option (Value rules)) :
    ∀ w ∈ initialWords initial, w.IsToken := by
  cases initial with
  | none => exact nofun
  | some v =>
    exact List.forall_mem_cons.2
      ⟨Word.isToken_punctuator .equals, List.forall_mem_singleton.2 v.isToken⟩

theorem Parameter.isToken_words (p : Parameter rules) : ∀ w ∈ p.words, w.IsToken :=
  List.forall_mem_append.2 ⟨isToken_optional p.rest (Word.isToken_punctuator .dotDotDot),
    List.forall_mem_cons.2 ⟨p.name.isToken, isToken_initialWords p.initial⟩⟩

theorem Parameter.isToken_listWords (ps : List (Parameter rules)) :
    ∀ w ∈ listWords ps, w.IsToken := by
  induction ps with
  | nil => exact nofun
  | cons p ps ih =>
    cases ps with
    | nil => exact p.isToken_words
    | cons q rest =>
      exact List.forall_mem_append.2
        ⟨p.isToken_words, List.forall_mem_cons.2 ⟨Word.isToken_punctuator .comma, ih⟩⟩

theorem isToken_functionWords (ps : List (Parameter rules)) :
    ∀ w ∈ functionWords ps, w.IsToken := by
  refine List.forall_mem_cons.2 ⟨Word.isToken_punctuator .parenthesisOpen,
    List.forall_mem_append.2 ⟨Parameter.isToken_listWords ps, ?_⟩⟩
  simp only [List.forall_mem_cons]
  exact ⟨Word.isToken_punctuator .parenthesisClose, Word.isToken_punctuator .braceOpen,
    Word.isToken_punctuator .braceClose, nofun⟩

theorem Key.isToken_words (key : Key) : ∀ w ∈ key.words, w.IsToken := by
  cases key with
  | spelled k => exact List.forall_mem_singleton.2 k.isToken
  | computed n =>
    simp only [words, List.forall_mem_cons]
    exact ⟨Word.isToken_punctuator .bracketOpen, n.isToken,
      Word.isToken_punctuator .bracketClose, nofun⟩

theorem Modifier.isToken_words (m : Modifier) : ∀ w ∈ m.words, w.IsToken := by
  have hasync := Word.isToken_keyword .kAsync
  have hstar := Word.isToken_punctuator .asterisk
  cases m with
  | none => exact nofun
  | async => exact List.forall_mem_singleton.2 hasync
  | generator => exact List.forall_mem_singleton.2 hstar
  | asyncGenerator =>
    exact List.forall_mem_cons.2 ⟨hasync, List.forall_mem_singleton.2 hstar⟩
  | get => exact List.forall_mem_singleton.2 (Word.isToken_keyword .kGet)
  | set => exact List.forall_mem_singleton.2 (Word.isToken_keyword .kSet)

theorem Field.isToken_words (f : Field) : ∀ w ∈ f.words, w.IsToken := by
  refine List.forall_mem_append.2 ⟨List.forall_mem_append.2 ⟨?_, isToken_initialWords _⟩,
    isToken_optional _ (Word.isToken_punctuator .semicolon)⟩
  cases f.key with
  | plain key _ => exact key.isToken_words
  | privateName n => exact List.forall_mem_singleton.2 n.isToken

/-- The words of a member are tokens. -/
theorem Item.isToken_words (item : Item) : ∀ w ∈ item.words, w.IsToken := by
  cases item with
  | field f => exact f.isToken_words
  | method m =>
    exact List.forall_mem_append.2
      ⟨List.forall_mem_append.2 ⟨isToken_optional m.static (Word.isToken_keyword .kStatic),
        List.forall_mem_append.2 ⟨m.modifier.isToken_words, m.key.isToken_words⟩⟩,
      isToken_functionWords m.parameters⟩

theorem isToken_onLine {ws : List Word} (hws : ∀ w ∈ ws, w.IsToken) (newline : Bool) :
    ∀ w ∈ onLine newline ws, w.word.IsToken := by
  cases ws with
  | nil => exact nofun
  | cons w ws =>
    rw [List.forall_mem_cons] at hws
    exact List.forall_mem_cons.2 ⟨hws.1, List.forall_mem_map.2 hws.2⟩

theorem isToken_bodyWords (newline : Bool) (items : List Item) :
    ∀ w ∈ bodyWords newline items, w.word.IsToken := by
  induction items generalizing newline with
  | nil => exact List.forall_mem_singleton.2 (Word.isToken_punctuator .braceClose)
  | cons item rest ih =>
    exact List.forall_mem_append.2 ⟨isToken_onLine item.isToken_words newline, ih _⟩

/-- The words of a class are tokens. -/
theorem isToken_classWords (items : List Item) : ∀ w ∈ classWords items, w.word.IsToken :=
  List.forall_mem_cons.2 ⟨(Word.separate_name (by decide)).isToken nofun,
    List.forall_mem_cons.2 ⟨Word.isToken_punctuator .braceOpen, isToken_bodyWords false items⟩⟩

end ClassText

end EcmaScript
