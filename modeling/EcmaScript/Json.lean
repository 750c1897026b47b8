import EcmaScript.Number.Basic

namespace EcmaScript

/-!
# JSON values

* `Json` — values whose objects keep their fields in order, and whose numbers are either counts or
  doubles;
* `Json.compress` — a value as text, without spaces.
-/

/-- A JSON value. The members of an object keep their order. -/
inductive Json where
  | null
  | bool (b : Bool)
  | nat (n : Nat)
  /-- Infinities and NaN are written as `null`. -/
  | number (x : Number)
  | string (s : String)
  | array (items : List Json)
  | object (fields : List (String × Json))

namespace Json

instance : Inhabited Json := ⟨null⟩

/-- A value that may be missing. -/
def ofOption {α : Type} (f : α → Json) : Option α → Json
  | some a => f a
  | none => null

/-- One hexadecimal digit. -/
def hexDigit (n : Nat) : Char := (Nat.toDigits 16 n).headD '0'

/-- A character inside quotes. Only quotes, backslashes and control characters are escaped. -/
def escape (c : Char) : String :=
  if c = '"' then "\\\""
  else if c = '\\' then "\\\\"
  else if c = '\n' then "\\n"
  else if c = '\r' then "\\r"
  else if c = '\t' then "\\t"
  else if c = '\x08' then "\\b"
  else if c = '\x0c' then "\\f"
  else if c.toNat < 0x20 then
    "\\u00" ++ String.ofList [hexDigit (c.toNat / 16), hexDigit (c.toNat % 16)]
  else String.singleton c

/-- A text in quotes, after `out`. -/
def writeString (out s : String) : String :=
  (s.toList.foldl (fun acc c => acc ++ escape c) (out ++ "\"")) ++ "\""

mutual

/-- A value, after `out`. -/
def write (out : String) : Json → String
  | null => out ++ "null"
  | bool b => out ++ (if b then "true" else "false")
  | nat n => out ++ toString n
  | number x => out ++ x.numeral?.getD "null"
  | string s => writeString out s
  | array items => writeItems (out ++ "[") true items ++ "]"
  | object fields => writeFields (out ++ "\x7b") true fields ++ "\x7d"

/-- Items with commas between them; `first` says that none stands before these. -/
def writeItems (out : String) (first : Bool) : List Json → String
  | [] => out
  | item :: rest => writeItems (write (if first then out else out ++ ",") item) false rest

/-- Fields with commas between them. -/
def writeFields (out : String) (first : Bool) : List (String × Json) → String
  | [] => out
  | (name, value) :: rest =>
    writeFields (write (writeString (if first then out else out ++ ",") name ++ ":") value) false
      rest

end

/-- A value as text, without spaces. -/
def compress (v : Json) : String := write "" v

end Json

end EcmaScript
