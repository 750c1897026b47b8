import EcmaScript.Grammar.Statement
import EcmaScript.Lexer

namespace EcmaScript

/-!
# Scripts

* `Rules.within` — the rules of the grammar for a budget of nested steps;
* `Grammar.script` — all the statements of a script;
* `parse` — the tree of a source text, or its first syntax error;
* `parseTraced` — the same, with what was reported on the way.
-/

open EcmaScript.Parser

/-- The grammar for a budget of nested steps: each rule builds on the rules for one step less. -/
def Rules.within : Nat → Rules
  | 0 => ⟨0, exhausted, fun _ => exhausted⟩
  | n + 1 =>
    ⟨n + 1, fun ctx s => Grammar.statement (within n) ctx s,
      fun mode ctx s => Grammar.expression (within n) mode ctx s⟩

namespace Grammar

/-- All the statements of a script. Its span is the whole source, trivia at both ends included. -/
def script (g : Rules) : Parser Program := withNames (fun _ => .script) do
  let body ← statements g .eof g.budget
  discard <| require .eof
  report (.statementsRead body.length)
  return ⟨⟨0, (← read).sourceLength⟩, body⟩

end Grammar

namespace Context

/-- A source text before anything is read, outside of all functions. -/
def ofSource (source : String) (privateNames : Bool) (options : Options) : Context where
  tokens := (Lexer.ofString source privateNames).tokens.toArray
  sourceLength := source.utf8ByteSize
  options := options
  names := .script
  checks := .all

/-- A budget that no script with these tokens uses up: of two steps, one inside the other, at least
one reads a token. -/
def budget (c : Context) : Nat := 2 * c.tokens.size + 8

end Context

/-- Reads a whole source text, which ends with the state after it. -/
def runScript (c : Context) : EStateM.Result Failure State Program :=
  let read : Parser Program := do
    report (.beginScript c.options.edition c.options.classFields)
    let result ← attempt (Grammar.script (.within c.budget))
    -- The section ends also where the script could not be read.
    report .endScript
    resume result
  read c .initial

/-- The tree of a source text, and what was reported while it was read. -/
def parseTraced (source : String) (options : Options) :
    Except Failure Program × List TraceEntry :=
  match runScript (.ofSource source options.classFields options) with
  | .ok program s => (.ok program, s.trace.toList)
  | .error e s => (.error e, s.trace.toList)

/-- The tree of a source text. -/
def parse (source : String) (options : Options) : Except Failure Program :=
  (parseTraced source options).1

end EcmaScript
