import EcmaScript.CharSet

namespace EcmaScript

/-!
# Trivia

What stands between tokens: whitespace, line terminators and comments.

* `Trivia.take?` — the piece of trivia that a text begins with;
* `Trivia.leading` — all the trivia that a text begins with;
* `Trivia.endsLine` — the pieces that count as a line break for the token after them;
* `Trivia.leading_isPrefix` — the pieces, written out, are what the text begins with.
-/

/-- A piece of text between two tokens. The body of a comment is what follows its two opening
characters, its end included. -/
inductive Trivia where
  | whitespace (c : Char)
  | lineTerminator (c : Char)
  | lineComment (body : List Char)
  | blockComment (body : List Char)
deriving DecidableEq, Repr

namespace Trivia

/-- The text of a piece. -/
def chars : Trivia → List Char
  | whitespace c => [c]
  | lineTerminator c => [c]
  | lineComment body => '/' :: '/' :: body
  | blockComment body => '/' :: '*' :: body

/-- Line terminators and line comments end a line; a block comment does when an LF or a CR is in
it. -/
def endsLine : Trivia → Bool
  | whitespace _ => false
  | lineTerminator _ => true
  | lineComment _ => true
  | blockComment body => body.any fun c => c = '\n' || c = '\r'

theorem chars_ne_nil (t : Trivia) : t.chars ≠ [] := by
  cases t <;> simp [chars]

theorem chars_length_pos (t : Trivia) : 0 < t.chars.length :=
  List.length_pos_iff.2 t.chars_ne_nil

/-- The front of a text through its first LF, or all of it. -/
def lineCommentBody (cs : List Char) : List Char :=
  cs.take ((cs.takeWhile (· ≠ '\n')).length + 1)

/-- The front of a text through its first closing mark, or all of it. -/
def blockCommentBody : List Char → List Char
  | '*' :: '/' :: _ => ['*', '/']
  | c :: rest => c :: blockCommentBody rest
  | [] => []

theorem blockCommentBody_isPrefix (cs : List Char) : blockCommentBody cs <+: cs := by
  fun_induction blockCommentBody cs with
  | case1 rest => exact ⟨rest, rfl⟩
  | case2 c rest _ ih => exact (List.cons_prefix_cons).2 ⟨rfl, ih⟩
  | case3 => exact List.nil_prefix

/-- The piece of trivia that a text begins with. -/
def take? : List Char → Option Trivia
  | '/' :: '/' :: rest => some (lineComment (lineCommentBody rest))
  | '/' :: '*' :: rest => some (blockComment (blockCommentBody rest))
  | c :: _ =>
    if CharSet.lineTerminator.has c then some (lineTerminator c)
    else if CharSet.whitespace.has c then some (whitespace c)
    else none
  | [] => none

/-- What is taken stands at the front of the text. -/
theorem chars_isPrefix_of_take? {cs : List Char} {t : Trivia} (h : take? cs = some t) :
    t.chars <+: cs := by
  unfold take? at h
  split at h
  · obtain rfl := Option.some.inj h
    simpa [chars, lineCommentBody] using List.take_prefix _ _
  · obtain rfl := Option.some.inj h
    simpa [chars] using blockCommentBody_isPrefix _
  · rename_i c rest _ _
    split at h
    · obtain rfl := Option.some.inj h
      exact ⟨rest, rfl⟩
    · split at h
      · obtain rfl := Option.some.inj h
        exact ⟨rest, rfl⟩
      · simp at h
  · simp at h

/-- The text after a piece that was taken is shorter. -/
theorem length_drop_lt_of_take? {cs : List Char} {t : Trivia} (h : take? cs = some t) :
    (cs.drop t.chars.length).length < cs.length := by
  have hle := (chars_isPrefix_of_take? h).length_le
  have hpos := t.chars_length_pos
  simp only [List.length_drop]
  omega

/-- The trivia that a text begins with, as many pieces as there are. -/
def leading (cs : List Char) : List Trivia :=
  match _h : take? cs with
  | none => []
  | some t => t :: leading (cs.drop t.chars.length)
termination_by cs.length
decreasing_by exact length_drop_lt_of_take? _h

/-- The leading trivia, written out, is what the text begins with. -/
theorem leading_isPrefix (cs : List Char) : (leading cs).flatMap chars <+: cs := by
  fun_induction leading cs with
  | case1 => exact List.nil_prefix
  | case2 cs t h ih =>
    obtain ⟨rest, hrest⟩ := chars_isPrefix_of_take? h
    subst hrest
    simp only [List.drop_left] at ih
    simpa using ih

end Trivia

end EcmaScript
