import EcmaScript.ClassScopes
import EcmaScript.Options
import EcmaScript.Trace
import EcmaScript.Tree.Basic

namespace EcmaScript

/-!
# Parsers

A parser reads a list of tokens from a position on, and knows the classes around it.

* `Context` — what stays the same while a part is read: the tokens, the options, the words that
  may be names;
* `State` — what changes: the position, the scopes of the classes around it, whether it lies in a
  field initializer, and what has been reported;
* `Failure` — a syntax error, or a budget of steps that did not suffice;
* `Parser` — reads a part, and keeps its state also where it fails;
* `Parser.attempt`, `Parser.inClass`, `Parser.inInitializer` — the ways in which a failure is held
  until the state around it is in order;
* `Parser.bind_ok_iff`, `Parser.bind_error_iff` — how a sequence comes to its end.
-/

/-- Whether `await` and `yield` may name variables. -/
structure NameRules where
  awaitAllowed : Bool
  yieldAllowed : Bool
deriving DecidableEq, Repr, Inhabited

namespace NameRules

/-- Both may, as outside of all functions. -/
def script : NameRules := ⟨true, true⟩

/-- May a token of this kind name a variable? -/
def allows (rules : NameRules) : TokenKind → Bool
  | .identifier => true
  | .keyword .kAwait => rules.awaitAllowed
  | .keyword .kYield => rules.yieldAllowed
  | .keyword k => k.isUnreserved
  | _ => false

/-- In an async part `await` is no name. -/
def forAsync (rules : NameRules) (async : Bool) : NameRules :=
  { rules with awaitAllowed := !async && rules.awaitAllowed }

/-- In a generator `yield` is no name. -/
def forGenerator (rules : NameRules) (generator : Bool) : NameRules :=
  { rules with yieldAllowed := !generator && rules.yieldAllowed }

end NameRules

/-- Which of the errors that are not about the form of a script are reported. -/
structure Checks where
  /-- Private names that no class declares. -/
  undeclaredNames : Bool
  /-- `arguments` and `super` in field initializers. -/
  initializers : Bool
deriving DecidableEq, Repr

namespace Checks

/-- All of them. -/
def all : Checks := ⟨true, true⟩

end Checks

/-- What stays the same while a part is read. -/
structure Context where
  /-- The tokens, through the first one for the end of the text. -/
  tokens : Array Token
  /-- Number of bytes of the text. -/
  sourceLength : Nat
  options : Options
  names : NameRules
  checks : Checks

namespace Context

/-- The token with an index; the text ends again and again behind its end. -/
def token (c : Context) (i : Nat) : Token := c.tokens.getD i (.endOfText c.sourceLength)

end Context

/-- What changes while a part is read. -/
structure State where
  /-- Index of the next token. -/
  position : Nat
  /-- Number of tokens that have been looked at, from the first on. -/
  seen : Nat
  scopes : ClassScopes
  /-- Whether the position lies in a field initializer, at any depth. -/
  inInitializer : Bool
  /-- What has been reported so far. -/
  trace : Array TraceEntry
deriving DecidableEq, Repr

namespace State

/-- Before the first token. -/
def initial : State := ⟨0, 0, .outside, false, #[]⟩

end State

/-- Why a part could not be read. -/
inductive Failure where
  | error (e : SyntaxError)
  /-- The budget of steps did not suffice. -/
  | exhausted
deriving DecidableEq, Repr

/-- Reads a part. A failure keeps the state in which it happened. -/
abbrev Parser := ReaderT Context (EStateM Failure State)

namespace Parser

variable {α β : Type}

/-! ### Failing -/

/-- Fails with a syntax error. -/
def fail (e : SyntaxError) : Parser α := throw (.error e)

/-- Fails because the budget of steps did not suffice. -/
def exhausted : Parser α := throw .exhausted

/-- Reads a part, and holds a syntax error back. The state stays as the part left it. -/
def attempt (p : Parser α) : Parser (Except SyntaxError α) := fun ctx s =>
  match p ctx s with
  | .ok a after => .ok (.ok a) after
  | .error (.error e) after => .ok (.error e) after
  | .error .exhausted after => .error .exhausted after

/-- What was held back goes on. -/
def resume (result : Except SyntaxError α) : Parser α :=
  match result with
  | .ok a => pure a
  | .error e => fail e

/-! ### Tokens -/

/-- Index of the next token. -/
def position : Parser Nat := return (← get).position

/-- Goes back, or forward, to a token. -/
def restore (i : Nat) : Parser Unit := modify fun s => { s with position := i }

/-- The token `n` places on from the next one; the position stays. -/
def look (n : Nat) : Parser Token := do
  let i := (← get).position + n
  modify fun s => { s with seen := max s.seen (i + 1) }
  return (← read).token i

/-- The next token; the position stays. -/
def peek : Parser Token := look 0

/-- Reads the next token. -/
def next : Parser Token := do
  let t ← peek
  modify fun s => { s with position := s.position + 1 }
  return t

/-- Reads the next token if it satisfies a condition. -/
def acceptIf? (p : Token → Bool) : Parser (Option Token) := do
  let t ← peek
  if p t then
    modify fun s => { s with position := s.position + 1 }
    return some t
  else return none

/-- Reads the next token if it is of this kind. -/
def accept (kind : TokenKind) : Parser Bool := return (← acceptIf? (·.kind = kind)).isSome

/-- Reads the next token, which has to be of this kind. -/
def require (kind : TokenKind) : Parser Token := do
  let t ← next
  if t.kind = kind then return t else fail (t.misplaced (.requiredToken kind))

/-- Reads the next token, whose kind has to satisfy a condition. -/
def requireIf (p : TokenKind → Bool) (what : String) : Parser Token := do
  let t ← next
  if p t.kind then return t else fail (t.misplaced (.expected what))

/-- From the start of the token at `start` to the end of the last one that was read. Where nothing
was read since, an empty span: at that token if it has been looked at, and else behind the last
token that has been. -/
def since (start : Nat) : Parser Span := do
  let ctx ← read
  let s ← get
  if start < s.position then
    -- The last token that was read stands right before the position.
    return ⟨(ctx.token start).span.start, (ctx.token (s.position - 1)).span.stop⟩
  else if start < s.seen then return .point (ctx.token start).span.start
  else if s.seen = 0 then return .point 0
  else return .point (ctx.token (s.seen - 1)).span.stop

/-- Reads a part, and gives it its span. -/
def spanned (p : Parser (Span → α)) : Parser α := do
  let start ← position
  let make ← p
  return make (← since start)

/-! ### Names, classes and initializers -/

/-- The options of the script. -/
def options : Parser Options := return (← read).options

/-- The words that may be names here. -/
def nameRules : Parser NameRules := return (← read).names

/-- Reads a part in which other words may be names. -/
def withNames (f : NameRules → NameRules) (p : Parser α) : Parser α :=
  withReader (fun ctx => { ctx with names := f ctx.names }) p

/-- Reports something. -/
def report (entry : TraceEntry) : Parser Unit :=
  modify fun s => { s with trace := s.trace.push entry }

/-- Reads a field initializer: `arguments` and `super` may not stand anywhere in it. -/
def inInitializer (p : Parser α) : Parser α := do
  let before := (← get).inInitializer
  modify fun s => { s with inInitializer := true }
  let result ← attempt p
  -- The mark goes back also when the initializer could not be read: an arrow attempt around it may
  -- still be given up, and the text be read again.
  modify fun s => { s with inInitializer := before }
  resume result

/-- A name that is read where `arguments` is refused in initializers. -/
def checkArguments (t : Token) (name : String) : Parser Unit := do
  if (← read).checks.initializers && (← get).inInitializer && name == "arguments" then
    fail (t.error .argumentsInFieldInitializer)

/-- A use of `super`, which is refused in initializers. -/
def checkSuper (t : Token) : Parser Unit := do
  if (← read).checks.initializers && (← get).inInitializer then
    fail (t.error .superInFieldInitializer)

/-- Declares a private name in the innermost class. -/
def declarePrivate (name : Ident) : Parser Unit := do
  match (← get).scopes.declare name.name name.span with
  | .ok scopes => modify fun s => { s with scopes := scopes }
  | .error e => fail e

/-- Uses a private name. -/
def usePrivate (name : Ident) : Parser Unit := do
  match (← get).scopes.use name.name name.span with
  | .ok scopes => modify fun s => { s with scopes := scopes }
  | .error e => if (← read).checks.undeclaredNames then fail e

/-- Ends the innermost class, and gives the number of names that wait for the class around it. -/
def exitClass : Parser (Except SyntaxError Nat) := do
  let (result, scopes) := (← get).scopes.exit
  modify fun s => { s with scopes := scopes }
  if (← read).checks.undeclaredNames then return result else return .ok (result.toOption.getD 0)

/-- The scope of a class begins. -/
def beginClass : Parser Unit := do
  modify fun s => { s with scopes := s.scopes.enter }
  report (.beginClass (← get).scopes.depth)

/-- The scope of a class ends, whether the class could be read or not. An error of the class goes
before one of its names. -/
def endClass (result : Except SyntaxError α) : Parser α := do
  match result, ← exitClass with
  | .ok a, .ok count =>
    report (.propagated count)
    report .endClass
    return a
  | .ok _, .error e =>
    report .endClass
    fail e
  | .error e, _ =>
    report .endClass
    fail e

/-- Reads a class, which is a scope of private names where these are on. -/
def inClass (p : Parser α) : Parser α := do
  if (← options).classFields then
    beginClass
    endClass (← attempt p)
  else p

/-! ### Lists -/

/-- Items with separators between them, through a closing token; a separator may stand before it. -/
def separated (separator close : TokenKind) (item : Parser (Span → α)) : Nat → Parser (List α)
  | 0 => exhausted
  | fuel + 1 => do
    if ← accept close then return []
    let first ← spanned item
    if ← accept separator then
      let rest ← separated separator close item fuel
      return first :: rest
    else
      discard <| require close
      return [first]

/-! ### Runs -/

/-- A sequence succeeds when its two parts do, one after the other. -/
theorem bind_ok_iff {p : Parser α} {f : α → Parser β} {ctx : Context} {s t : State} {b : β} :
    (p >>= f) ctx s = .ok b t ↔ ∃ a u, p ctx s = .ok a u ∧ f a ctx u = .ok b t := by
  show EStateM.bind (p ctx) (fun a => f a ctx) s = .ok b t ↔ _
  unfold EStateM.bind
  cases p ctx s <;> simp [and_assoc]

/-- A sequence fails when its first part does, or its second part after it. -/
theorem bind_error_iff {p : Parser α} {f : α → Parser β} {ctx : Context} {s t : State}
    {e : Failure} :
    (p >>= f) ctx s = .error e t ↔
      p ctx s = .error e t ∨ ∃ a u, p ctx s = .ok a u ∧ f a ctx u = .error e t := by
  show EStateM.bind (p ctx) (fun a => f a ctx) s = .error e t ↔ _
  unfold EStateM.bind
  cases p ctx s <;> simp [and_assoc]

@[simp] theorem pure_apply (a : α) (ctx : Context) (s : State) :
    (pure a : Parser α) ctx s = .ok a s := rfl

@[simp] theorem fail_apply (e : SyntaxError) (ctx : Context) (s : State) :
    (fail e : Parser α) ctx s = .error (.error e) s := rfl

theorem look_apply (n : Nat) (ctx : Context) (s : State) :
    look n ctx s =
      .ok (ctx.token (s.position + n)) { s with seen := max s.seen (s.position + n + 1) } := rfl

theorem next_apply (ctx : Context) (s : State) :
    next ctx s =
      .ok (ctx.token s.position)
        { s with position := s.position + 1, seen := max s.seen (s.position + 1) } := rfl

theorem acceptIf?_of_pos {p : Token → Bool} {ctx : Context} {s : State}
    (h : p (ctx.token s.position) = true) :
    acceptIf? p ctx s =
      .ok (some (ctx.token s.position))
        { s with position := s.position + 1, seen := max s.seen (s.position + 1) } := by
  rw [acceptIf?, peek]
  show (if p (ctx.token s.position) then _ else _ : Parser (Option Token)) ctx _ = _
  rw [if_pos h]
  rfl

theorem acceptIf?_of_neg {p : Token → Bool} {ctx : Context} {s : State}
    (h : p (ctx.token s.position) = false) :
    acceptIf? p ctx s = .ok none { s with seen := max s.seen (s.position + 1) } := by
  rw [acceptIf?, peek]
  show (if p (ctx.token s.position) then _ else _ : Parser (Option Token)) ctx _ = _
  rw [if_neg (by rw [h]; decide)]
  rfl

end Parser

end EcmaScript
