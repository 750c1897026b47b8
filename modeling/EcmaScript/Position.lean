import EcmaScript.CharSet

namespace EcmaScript

/-!
# Lines and columns

* `Position.ofOffset` — the line and column, both counted from one, of a byte offset. Columns count
  characters, and CR LF is one line break.
-/

/-- A place in a text as people count it, from one. -/
structure Position where
  line : Nat
  column : Nat
deriving DecidableEq, Repr, Inhabited

namespace Position

/-- The place of the first character of a text. -/
def first : Position := ⟨1, 1⟩

/-- The place after one more character, where `afterReturn` says that a CR comes just before it:
an LF there belongs to the break that the CR has made. -/
def advance (p : Position) (afterReturn : Bool) (c : Char) : Position :=
  if c = '\n' && afterReturn then p
  else if CharSet.lineTerminator.has c then ⟨p.line + 1, 1⟩
  else ⟨p.line, p.column + 1⟩

/-- Moves over the characters that start before `offset`; the first of them starts at `here`. -/
def walk (offset : Nat) (p : Position) (here : Nat) (afterReturn : Bool) : List Char → Position
  | [] => p
  | c :: rest =>
    if offset ≤ here then p
    else walk offset (p.advance afterReturn c) (here + c.utf8Size) (c = '\r') rest

/-- The place of the byte at `offset`; offsets past the end give the place after the last
character. -/
def ofOffset (source : String) (offset : Nat) : Position :=
  walk offset first 0 false source.toList

end Position

end EcmaScript
