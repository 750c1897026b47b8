import EcmaScript.Json

namespace EcmaScript

/-!
# Traces

What a parse reports of its course: sections that begin and end, and events inside them. Text that
is read twice is reported twice.

* `TraceEntry` — one report;
* `TraceEntry.what`, `TraceEntry.subject`, `TraceEntry.fields` — the parts of its written form.
-/

/-- One report. -/
inductive TraceEntry where
  /-- A script begins. -/
  | beginScript (edition : Nat) (classFields : Bool)
  /-- A class begins, with `depth - 1` classes around it. -/
  | beginClass (depth : Nat)
  /-- A field with a key that is no private name; the key may be computed. -/
  | publicField (key : Option String)
  /-- The class has ended well, and that many names wait for the class around it. -/
  | propagated (count : Nat)
  /-- All statements of a script have been read. -/
  | statementsRead (count : Nat)
  | endClass
  | endScript
deriving DecidableEq, Repr

namespace TraceEntry

/-- The sort of report. -/
def what : TraceEntry → String
  | beginScript .. | beginClass .. => "span"
  | publicField .. | statementsRead .. => "event"
  | propagated .. => "record"
  | endClass | endScript => "exit"

/-- The section that is reported of, or the level of an event. -/
def subject : TraceEntry → String
  | beginScript .. | endScript => "parse"
  | beginClass .. | propagated .. | endClass => "class_fields.class_body"
  | publicField .. => "TRACE"
  | statementsRead .. => "DEBUG"

/-- What is reported. -/
def fields : TraceEntry → List (String × Json)
  | beginScript edition classFields =>
    [("ecma_version", .nat edition), ("class_fields", .bool classFields)]
  | beginClass depth => [("depth", .nat depth)]
  | publicField key =>
    ("message", .string "class_fields.public_field")
      :: (key.map fun text => ("key", Json.string text)).toList
  | propagated count => [("propagated", .nat count)]
  | statementsRead count =>
    [("message", .string "parsed top level"), ("statements", .nat count)]
  | endClass => []
  | endScript => []

/-- A report as one object. -/
def toJson (e : TraceEntry) : Json :=
  .object [("what", .string e.what), ("subject", .string e.subject), ("fields", .object e.fields)]

end TraceEntry

end EcmaScript
