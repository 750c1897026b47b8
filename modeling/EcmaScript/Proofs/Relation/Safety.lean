import EcmaScript.Proofs.Grammar.Progress
import EcmaScript.Proofs.Lexer.Slices
import EcmaScript.Proofs.Parser.TokenBuffer
import EcmaScript.Proofs.Relation.Buffered
import EcmaScript.Proofs.Relation.ErrorPlaces
import EcmaScript.Proofs.Relation.Lockstep

namespace EcmaScript

open EcmaScript.Parser

/-!
# Parsing ends, and stays in bounds

Whatever the source is, the rules progress, their loops consume, and the whole ends. What is cut
from the source, indexed, or reported as the place of an error lies in bounds.

* `Rules.Progressing`, `Rules.Looping` — what the rules and their loops do with every state;
* `Context.Sliced` — tokens, bodies of strings and private names are slices of a source;
* `TokenBuffer.Serves` — a buffer that has each token it is asked for;
* `Grammar.script_value` — a larger budget gives the same;
* `parse_safe` — all of it together, for every source.
-/

/-! ### Progress -/

namespace Rules

open Grammar

/-- The rules for statements, expressions, members, names and declarations progress. -/
structure Progressing (g : Rules) : Prop where
  stmt : Progresses g.stmt
  statement : Progresses (statement g)
  expr (mode : ExprMode) : Progresses (g.expr mode)
  expression (mode : ExprMode) : Progresses (expression g mode)
  classMethod : Progresses (classMethod g)
  classElement? : Progresses (classElement? g)
  objectMember : Progresses (objectMember g)
  memberKey : Progresses (memberKey g)
  identifier : Progresses identifier
  classDeclaration : Progresses (classDeclaration g)
  classExpression : Progresses (classExpression g)
  functionDeclaration : Progresses (functionDeclaration g)
  functionExpression : Progresses (functionExpression g)
  parameter : Progresses (parameter g)
  argument : Progresses (argument g)

/-- Each round of a loop reads a token, or leaves the loop. -/
structure Looping (g : Rules) : Prop where
  statements (stop : TokenKind) :
    IsLoop (statementsRound g stop) fun n _ => statements g stop n
  classItems : IsLoop (classItemsRound g) fun n _ => classItems g n
  list {α : Type} {close : TokenKind} {item : Parser (Span → α)} : Progresses item →
    IsLoop (separatedRound (.punctuator .comma) close item) fun n _ =>
      separated (.punctuator .comma) close item n
  elements : IsLoop (elementsRound g) fun n _ => elements g n
  declarators : IsLoop (declaratorsRound g) fun n _ => declarators g n
  climb (mode : ExprMode) :
    IsLoop (climbRound g mode) fun n found => climb g mode found.1 found.2 n

theorem Reading.progressing {g : Rules} (hg : g.Reading) : g.Progressing where
  stmt := .of_reads hg.stmt
  statement := .of_reads (statement_reads hg)
  expr _ := .of_reads hg.expr
  expression _ := .of_reads (expression_reads hg)
  classMethod := .of_reads (classMethod_reads hg)
  classElement? := .of_reads (classElement?_reads hg)
  objectMember := .of_reads (objectMember_reads hg)
  memberKey := .of_reads (memberKey_reads hg)
  identifier := .of_reads identifier_reads
  classDeclaration := .of_reads (classDeclaration_reads hg)
  classExpression := .of_reads (classExpression_reads hg)
  functionDeclaration := .of_reads (functionDeclaration_reads hg)
  functionExpression := .of_reads (functionExpression_reads hg)
  parameter := .of_reads (parameter_reads hg)
  argument := .of_reads (argument_reads hg)

theorem Reading.looping {g : Rules} (hg : g.Reading) : g.Looping where
  statements := statements_isLoop hg
  classItems := classItems_isLoop hg
  list := separated_isLoop (by decide)
  elements := elements_isLoop hg
  declarators := declarators_isLoop hg
  climb := climb_isLoop hg

end Rules

/-! ### Slices and indices -/

/-- Tokens, what stands between the quotes of strings, and what stands behind the sigils of private
names are slices of the source. -/
structure Context.Sliced (c : Context) (source : String) : Prop where
  token (i : Nat) : (c.token i).span.Cuts source (c.token i).text.toList
  body {i : Nat} : (c.token i).kind = .string →
    Span.Cuts ⟨(c.token i).span.start + 1, (c.token i).span.stop - 1⟩ source
      ((c.token i).text.toList.drop 1).dropLast
  name {i : Nat} : (c.token i).kind = .privateName →
    Span.Cuts ⟨(c.token i).span.start + 1, (c.token i).span.stop⟩ source
      ((c.token i).text.toList.drop 1)

theorem Context.sliced_ofSource (source : String) (privateNames : Bool) (options : Options) :
    (Context.ofSource source privateNames options).Sliced source where
  token := token_cuts source privateNames options
  body := body_cuts
  name := name_cuts

namespace Grammar

/-- Parameters and body of a setter, whose first parameter is asked for where it has just one. -/
def setterRest (g : Rules) (async generator : Bool) : Parser Func := do
  let func ← functionRest g async generator
  if h : func.params.length = 1 then
    if func.params[0].rest then
      fail ⟨.expected "setter with exactly one parameter", func.span, none⟩
    else return func
  else fail ⟨.expected "setter with exactly one parameter", func.span, none⟩

theorem methodRest_set (g : Rules) (async generator : Bool) :
    methodRest g .set async generator = setterRest g async generator := by
  refine bind_congr fun func => ?_
  obtain ⟨span, arrow, async, generator, params, body⟩ := func
  rcases params with _ | ⟨p, _ | ⟨q, rest⟩⟩
  · rfl
  · rfl
  · have hlength :
        (Func.mk span arrow async generator (p :: q :: rest) body).params.length ≠ 1 := by
      show rest.length + 1 + 1 ≠ 1
      omega
    rw [dif_neg hlength]
    rfl

end Grammar

/-- The buffer has the next token, and those between a mark and the last one that was read. -/
structure TokenBuffer.Serves (b : TokenBuffer) : Prop where
  forward (reads : Token → Bool) : (b.forward reads).isSome
  since (mark : Nat) : (b.since mark).isSome

/-- The buffer of a parser that is not behind the tokens taken has each token it is asked for. -/
theorem TokenBuffer.under_serves (source : String) (privateNames : Bool) {s : State}
    (h : s.position ≤ s.seen) : (under (Lexer.ofString source privateNames) s).Serves where
  forward reads := by rw [under_forward h]; rfl
  since mark := by
    rw [under_since (Context.token_ofSource_eq_stream source privateNames default) rfl h]
    rfl

/-! ### Budgets -/

/-- What a run gives, whatever the state behind it. -/
def Run.value {α : Type} : EStateM.Result Failure State α → Except Failure α
  | .ok a _ => .ok a
  | .error e _ => .error e

/-- **The budget does not matter**, once it suffices. -/
theorem Grammar.script_value (source : String) (options : Options) {n : Nat}
    (h : (Context.ofSource source options.classFields options).budget ≤ n) :
    Run.value (script (.within n) (.ofSource source options.classFields options)
      (Context.ofSource source options.classFields options).begun) = parse source options := by
  set c := Context.ofSource source options.classFields options
  -- A run under the larger budget follows the one that parses, which never runs out.
  have halike : c.begun.Alike (.beside (.refl .outside) true) 0 c.begun :=
    ⟨rfl, ⟨[], [], rfl, rfl, rfl⟩, rfl⟩
  have hfollows := script_follows h (.refl c) halike
  have hends := parse_ne_exhausted source options
  rw [parse_eq_script] at hends ⊢
  generalize script (.within c.budget) c c.begun = r at hends hfollows ⊢
  generalize script (.within n) c c.begun = r' at hfollows ⊢
  cases hfollows with
  | ok _ _ => rfl
  | error _ _ => rfl
  | exhausted _ _ => exact absurd rfl hends

/-! ### Every source -/

/-- Parsing a source progresses, stays in bounds and ends. -/
structure Safe (source : String) (options : Options) (c : Context) : Prop where
  /-- From every state, in every context. -/
  progressing (n : Nat) : (Rules.within n).Progressing
  looping (n : Nat) : (Rules.within n).Looping
  /-- With enough budget each rule ends, from every state. -/
  ends {n : Nat} {α : Type} {p : Parser α} : Grammar.IsRule (.within n) p → c.budget ≤ n →
    ∀ s, ∃ t, Ends (p c s) t
  terminates : parse source options ≠ .error .exhausted
  budget {n : Nat} : c.budget ≤ n →
    Run.value (Grammar.script (.within n) c c.begun) = parse source options
  sliced : c.Sliced source
  setter (g : Rules) (async generator : Bool) :
    Grammar.methodRest g .set async generator = Grammar.setterRest g async generator
  /-- No rule asks for a token that has not been taken from the text. -/
  buffered {n : Nat} {α : Type} {p : Parser α} : Grammar.IsRule (.within n) p → Buffered p
  script_buffered (n : Nat) : Buffered (Grammar.script (.within n))
  serves {s : State} : s.position ≤ s.seen →
    (TokenBuffer.under (Lexer.ofString source options.classFields) s).Serves
  errorPlace {e : SyntaxError} : parse source options = .error (.error e) → e.span.IsIn source

/-- **Parsing progresses, stays in bounds and ends**, whatever the source is. -/
theorem parse_safe (source : String) (options : Options) :
    Safe source options (.ofSource source options.classFields options) where
  progressing n := (Rules.within_reading n).progressing
  looping n := (Rules.within_reading n).looping
  ends hp hn := Rules.ends_of_isRule hp hn
  terminates := parse_ne_exhausted source options
  budget := Grammar.script_value source options
  sliced := Context.sliced_ofSource source options.classFields options
  setter := Grammar.methodRest_set
  buffered := Grammar.IsRule.buffered
  script_buffered := Grammar.script_buffered
  serves := TokenBuffer.under_serves source options.classFields
  errorPlace := parse_error_isIn

end EcmaScript
