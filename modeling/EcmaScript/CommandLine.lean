import EcmaScript.Grammar.Script
import EcmaScript.Tree.Json

namespace EcmaScript

/-!
# The command line

The program reads a script from its standard input and writes the tree as JSON, or one line about
the first error.

* `Request.ofArguments` — what the arguments ask for;
* `Outcome` — what the program writes, and its exit code;
* `Request.answer` — the outcome of a request for an input.
-/

/-- What a run of the program is to do. -/
inductive Request where
  | parse (options : Options) (trace : Bool)
  | showVersion
  | showHelp
  /-- The arguments make no sense. -/
  | refuse
deriving DecidableEq, Repr

namespace Request

/-- The options that have been given so far; each may be given once. -/
structure Given where
  ecmaVersion : Option Nat
  classFields : Bool
  trace : Bool
deriving DecidableEq, Repr

/-- The greatest number that the language version may have. -/
def greatestVersion : Nat := 0xffffffff

/-- A number that may be a version. A sign may stand before it, which for zero may be a minus. -/
def version? (text : String) : Option Nat :=
  let (negative, digits) :=
    match text.toList with
    | '-' :: rest => (true, rest)
    | '+' :: rest => (false, rest)
    | cs => (false, cs)
  if digits.isEmpty || !digits.all Char.isDigit then none
  else
    let n := Number.digitsValue digits
    if greatestVersion < n || (negative && n ≠ 0) then none else some n

/-- What a group of one-letter options asks for: its first letter decides. -/
def ofLetters : List Char → Request
  | 'V' :: _ => showVersion
  | 'h' :: _ => showHelp
  | _ => refuse

/-- Goes through the arguments in order. A request for the version or for help takes effect at
once, and so does an argument that makes no sense. -/
def scan (given : Given) : List String → Request
  | [] => parse ⟨given.ecmaVersion.getD 9, given.classFields⟩ given.trace
  | ["--"] => parse ⟨given.ecmaVersion.getD 9, given.classFields⟩ given.trace
  | "--class-fields" :: rest =>
    if given.classFields then refuse else scan { given with classFields := true } rest
  | "--trace" :: rest => if given.trace then refuse else scan { given with trace := true } rest
  | "--version" :: _ => showVersion
  | "--help" :: _ => showHelp
  | "--ecma-version" :: value :: rest =>
    match given.ecmaVersion, version? value with
    | none, some n =>
      if value.startsWith "-" then refuse else scan { given with ecmaVersion := some n } rest
    | _, _ => refuse
  | argument :: rest =>
    match argument.toList with
    | '-' :: '-' :: _ =>
      match argument.dropPrefix? "--ecma-version=" with
      | some value =>
        match given.ecmaVersion, version? value.toString with
        | none, some n => scan { given with ecmaVersion := some n } rest
        | _, _ => refuse
      | none => refuse
    | '-' :: letters => ofLetters letters
    | _ => refuse

/-- What the arguments ask for. -/
def ofArguments (arguments : List String) : Request := scan ⟨none, false, false⟩ arguments

/-- Does the request need the standard input? -/
def readsInput : Request → Bool
  | parse .. => true
  | _ => false

end Request

/-- What a run of the program writes, and the code with which it ends. -/
structure Outcome where
  exitCode : Nat
  stdout : String
  stderr : List String
deriving DecidableEq, Repr

namespace Request

/-- The version line. -/
def versionText : String := "class-fields-js-cli 0.1.0\n"

/-- A short help text. -/
def helpText : String :=
  "Usage: class-fields-js-cli [--ecma-version <VERSION>] [--class-fields] [--trace]\n"

/-- The tree of a source, or a line about its first error. -/
def answerSource (options : Options) (trace : Bool) (source : String) : Outcome :=
  let (result, entries) := parseTraced source options
  let reports := if trace then entries.map fun e => e.toJson.compress else []
  match result with
  | .ok program => ⟨0, program.toJson.compress, reports⟩
  | .error (.error e) => ⟨1, "", reports ++ [e.report source]⟩
  | .error .exhausted => ⟨1, "", reports ++ ["the input is nested too deeply"]⟩

/-- The outcome of a request, given the bytes of the standard input. -/
def answer (request : Request) (input : ByteArray) : Outcome :=
  match request with
  | showVersion => ⟨0, versionText, []⟩
  | showHelp => ⟨0, helpText, []⟩
  | refuse => ⟨2, "", []⟩
  | parse options trace =>
    match String.fromUTF8? input with
    | some source => answerSource options trace source
    | none => ⟨1, "", ["input is not valid UTF-8"]⟩

end Request

end EcmaScript
