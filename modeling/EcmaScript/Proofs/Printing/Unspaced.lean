import EcmaScript.Proofs.Printing.Lines

namespace EcmaScript

open Lexer (byteLength)
open Word (sign)

/-!
# Words without anything between them

Words one right behind the other are cut into these words again if each of them ends in front of the
next one. A name does in front of a character that goes on with no name, and there are signs that no
longer sign begins with.

* `Lexeme.read_name_append` — a name in front of such a character;
* `Word.StandsBefore` — the word ends in front of a text;
* `Word.StandTogether` — each word does in front of those behind it;
* `Lexer.tokens_words` — the tokens of such words, with their places, and those of what follows;
* `Context.begins_joined` — the same for the tokens of a source.
-/

/-! ### Single words -/

/-- No trivia begins with a character other than a slash, unless the character is one. -/
theorem Trivia.take?_of_ne_slash {c : Char} (hc : c ≠ '/') (rest rest' : List Char) :
    take? (c :: rest) = take? (c :: rest') := by
  have hslash {tail after : List Char} (d : Char) : c :: tail ≠ '/' :: d :: after :=
    fun heq => hc (List.cons.inj heq).1
  rw [take?_cons (fun _ => hslash '/') fun _ => hslash '*',
    take?_cons (fun _ => hslash '/') fun _ => hslash '*']

namespace Lexeme

/-- The kinds of the tokens that may be names. -/
def IsNameKind (kind : TokenKind) : Prop := kind = .identifier ∨ ∃ k, kind = .keyword k

variable {kind : TokenKind} {c : Char} {x : List Char}

/-- What is read as a name begins with no slash. -/
theorem ne_slash_of_read {privateNames : Bool} {d : Char} (hkind : IsNameKind kind)
    (hread : read privateNames (d :: x) = ⟨kind, x.length + 1⟩) : d ≠ '/' := by
  rintro rfl
  have hslash : read privateNames ('/' :: x) = punctuator ('/' :: x) := rfl
  have hpunctuator := punctuator_kind ('/' :: x)
  rw [← hslash, hread] at hpunctuator
  obtain rfl | ⟨k, rfl⟩ := hkind <;> simp at hpunctuator

/-- **A name ends in front of a character that goes on with no name**, in both modes. -/
theorem read_name_append {privateNames : Bool} (hkind : IsNameKind kind) (hne : x ≠ [])
    (hread : read privateNames x = ⟨kind, x.length⟩) (hc : EndsName c)
    (hnear : isForeignLetter c = false) (mode : Bool) (z : List Char) :
    read mode (x ++ c :: z) = ⟨kind, x.length⟩ := by
  obtain ⟨d, x, rfl⟩ := List.exists_cons_of_ne_nil hne
  have hfar {p : Prop} (hforeign : isForeignLetter c = true) : p :=
    absurd (hnear.symm.trans hforeign) Bool.false_ne_true
  rw [List.cons_append]
  -- Only the first three classes of lexemes have names among them.
  simp only [read] at hread ⊢
  split at hread
  next hd =>
    obtain ⟨rfl, hlength⟩ := Lexeme.mk.inj hread
    have htail : identifierTail (x ++ []) = x.length := by
      rw [List.append_nil]
      exact Nat.succ.inj hlength
    rw [if_pos hd, identifierTail_cut hc (y := []) (Nat.le_of_eq htail) hfar, htail]
    rfl
  rw [if_neg ‹_›]
  split at hread
  next hd =>
    have hword : word (d :: x ++ []) = ⟨kind, (d :: x).length⟩ := by rwa [List.append_nil]
    rw [if_pos hd, ← hword]
    exact word_cut hc (by rw [hword]) (fun habsorbs => hfar habsorbs.2) z
  rw [if_neg ‹_›]
  split at hread
  next hd =>
    have hescaped : escapedIdentifier (d :: x ++ []) = ⟨kind, (d :: x).length⟩ := by
      rwa [List.append_nil]
    rw [if_pos hd, ← hescaped]
    refine escapedIdentifier_cut hc ?_ (by rw [hescaped]) (fun habsorbs => hfar habsorbs.2) z
    rw [hescaped]
    obtain rfl | ⟨k, rfl⟩ := hkind <;> simp
  exfalso
  have hnumber := number_kind (d :: x)
  have hstring := stringTail_kind d 1 x
  have hpunctuator := punctuator_kind (d :: x)
  split at hread
  · rw [hread] at hnumber
    obtain rfl | ⟨k, rfl⟩ := hkind <;> simp at hnumber
  split at hread
  · rw [← string, hread] at hstring
    obtain rfl | ⟨k, rfl⟩ := hkind <;> simp at hstring
  split at hread
  · obtain rfl | ⟨k, rfl⟩ := hkind <;> cases hread
  · rw [hread] at hpunctuator
    obtain rfl | ⟨k, rfl⟩ := hkind <;> simp at hpunctuator

end Lexeme

namespace Word

/-- In front of this text the word is a token, in both modes of the lexer. -/
structure StandsBefore (w : Word) (rest : List Char) : Prop where
  ne_nil : w.text.toList ≠ []
  take?_eq_none : Trivia.take? (w.text.toList ++ rest) = none
  read (privateNames : Bool) :
    Lexeme.read privateNames (w.text.toList ++ rest) = ⟨w.kind, w.text.toList.length⟩

/-- The text begins with a character that goes on with no name. -/
def EndsNames (rest : List Char) : Prop :=
  ∃ c z, rest = c :: z ∧ EndsName c ∧ Lexeme.isForeignLetter c = false

/-- A name ends in front of such a text. -/
theorem IsToken.standsBefore {w : Word} (hw : w.IsToken) (hkind : Lexeme.IsNameKind w.kind)
    {rest : List Char} (hrest : EndsNames rest) : w.StandsBefore rest where
  ne_nil := hw.ne_nil
  take?_eq_none := by
    have htake := hw.take?_eq_none
    have hread := hw.read
    obtain ⟨d, x, hcons⟩ := List.exists_cons_of_ne_nil hw.ne_nil
    rw [hcons] at htake hread ⊢
    rw [← htake]
    exact Trivia.take?_of_ne_slash (Lexeme.ne_slash_of_read hkind hread) _ _
  read privateNames := by
    obtain ⟨c, z, rfl, hc, hnear⟩ := hrest
    exact Lexeme.read_name_append hkind hw.ne_nil hw.read hc hnear privateNames z

/-- The signs of arrays, with which no longer sign begins. -/
theorem standsBefore_of_mem {p : Punctuator}
    (hp : p ∈ [.bracketOpen, .bracketClose, .comma, .dotDotDot]) (rest : List Char) :
    (sign (.punctuator p)).StandsBefore rest := by
  simp only [List.mem_cons, List.not_mem_nil, or_false] at hp
  obtain rfl | rfl | rfl | rfl := hp
  all_goals exact ⟨by decide, rfl, fun _ => rfl⟩

/-! ### Words one behind the other -/

/-- The characters of the words. -/
def joined (ws : List Word) : List Char := ws.flatMap fun w => w.text.toList

@[simp] theorem joined_nil : joined [] = [] := rfl

@[simp] theorem joined_cons (w : Word) (ws : List Word) :
    joined (w :: ws) = w.text.toList ++ joined ws := List.flatMap_cons

@[simp] theorem joined_append (ws vs : List Word) : joined (ws ++ vs) = joined ws ++ joined vs :=
  List.flatMap_append

/-- Each of the words ends in front of those behind it, and the last one in front of the text. -/
def StandTogether : List Word → List Char → Prop
  | [], _ => True
  | w :: ws, after => w.StandsBefore (joined ws ++ after) ∧ StandTogether ws after

/-- The tokens that the words become, the first of them at an offset. -/
def tokensAt : Nat → List Word → List Token
  | _, [] => []
  | offset, w :: ws =>
    ⟨w.kind, w.text, ⟨offset, offset + byteLength w.text.toList⟩, false⟩
      :: tokensAt (offset + byteLength w.text.toList) ws

@[simp] theorem length_tokensAt (offset : Nat) (ws : List Word) :
    (tokensAt offset ws).length = ws.length := by
  induction ws generalizing offset with
  | nil => rfl
  | cons w ws ih => rw [tokensAt, List.length_cons, List.length_cons, ih]

/-- The last token ends where the words do. -/
theorem exists_tokensAt_concat {ws : List Word} (hne : ws ≠ []) (offset : Nat) :
    ∃ front t, tokensAt offset ws = front ++ [t] ∧ front.length + 1 = ws.length
      ∧ t.span.stop = offset + byteLength (joined ws) := by
  induction ws generalizing offset with
  | nil => exact absurd rfl hne
  | cons w ws ih =>
    by_cases hnil : ws = []
    · subst hnil
      exact ⟨[], _, rfl, rfl, by simp⟩
    · obtain ⟨front, t, heq, hlength, hstop⟩ := ih hnil (offset + byteLength w.text.toList)
      refine ⟨_ :: front, t, by rw [tokensAt, heq, List.cons_append], ?_, ?_⟩
      · rw [List.length_cons, List.length_cons, hlength]
      · rw [hstop, joined_cons, Lexer.byteLength_append, Nat.add_assoc]

end Word

open Word (joined tokensAt)

namespace Lexer

/-- **Words that end in front of each other are cut into these words**, and what follows them is
read as if it stood by itself. -/
theorem tokens_words {ws : List Word} {after : List Char} (h : Word.StandTogether ws after)
    {l : Lexer} (hrest : l.rest = joined ws ++ after) :
    l.tokens = tokensAt l.offset ws
      ++ tokens ⟨l.offset + byteLength (joined ws), after, l.privateNames⟩ := by
  induction ws generalizing l with
  | nil =>
    obtain ⟨offset, rest, privateNames⟩ := l
    obtain rfl : rest = after := hrest
    rfl
  | cons w ws ih =>
    obtain ⟨hw, hws⟩ := h
    have hpos := List.length_pos_iff.2 hw.ne_nil
    rw [Word.joined_cons, List.append_assoc] at hrest
    have hcut : l.Cut [] w.kind w.text.toList (joined ws ++ after) :=
      ⟨hrest, .nil, hw.take?_eq_none, hw.ne_nil, by rw [hw.read],
        by rw [hw.read]; exact Nat.max_eq_left hpos⟩
    have hnext : l.next = (⟨w.kind, w.text, ⟨l.offset, l.offset + byteLength w.text.toList⟩, false⟩,
        ⟨l.offset + byteLength w.text.toList, joined ws ++ after, l.privateNames⟩) := by
      rw [hcut.next, String.ofList_toList]
      rfl
    rw [hcut.tokens, hnext, ih hws rfl, tokensAt, Word.joined_cons, byteLength_append,
      Nat.add_assoc]
    rfl

end Lexer

namespace Context

/-- A token is told by what stands before it. -/
theorem token_of_tokens {c : Context} (front : List Token) {rest : List Token} {t : Token}
    (h : c.tokens.toList = front ++ t :: rest) : c.token front.length = t := by
  have hget : c.tokens.toList[front.length]? = some t := by
    rw [h, List.getElem?_append_right (Nat.le_refl _), Nat.sub_self, List.getElem?_cons_zero]
  rw [token, Array.getD_eq_getD_getElem?, ← Array.getElem?_toList, hget, Option.getD_some]

/-- The tokens of the words are these words. -/
theorem hasWords_of_tokens {c : Context} {ws : List Word} {offset : Nat} (front : List Token)
    {rest : List Token}
    (h : c.tokens.toList = front ++ (tokensAt offset ws ++ rest)) : c.HasWords front.length ws := by
  induction ws generalizing offset front with
  | nil => trivial
  | cons w ws ih =>
    rw [tokensAt, List.cons_append] at h
    refine ⟨?_, ?_⟩
    · rw [token_of_tokens front h]
      exact ⟨rfl, rfl⟩
    · have htail := ih (front ++ [_]) (h.trans (List.append_cons ..))
      rwa [List.length_append] at htail

/-- The tokens of a source begin with these words, which take up these bytes, and go on with what
follows them. -/
structure Begins (c : Context) (ws : List Word) (size : Nat) (following : Lexer) : Prop where
  hasWords : c.HasWords 0 ws
  start_eq : (c.token 0).span.start = 0
  stop_eq : (c.token (ws.length - 1)).span.stop = size
  following_eq : c.token ws.length = following.next.1
  lt_size : ws.length < c.tokens.size

/-- A source that begins with words that end in front of each other. -/
theorem begins_joined {ws : List Word} {source after : String} (hne : ws ≠ [])
    (h : Word.StandTogether ws after.toList) (hsource : source.toList = joined ws)
    (privateNames : Bool) (options : Options) :
    (ofSource (source ++ after) privateNames options).Begins ws source.utf8ByteSize
      ⟨source.utf8ByteSize, after.toList, privateNames⟩ := by
  have hsize : byteLength (joined ws) = source.utf8ByteSize := by
    rw [← hsource, Lexer.byteLength_toList]
  obtain ⟨others, hfollowing⟩ : ∃ others,
      Lexer.tokens ⟨source.utf8ByteSize, after.toList, privateNames⟩
        = (Lexer.next ⟨source.utf8ByteSize, after.toList, privateNames⟩).1 :: others := by
    rw [Lexer.tokens_eq]
    split
    · exact ⟨[], rfl⟩
    · exact ⟨_, rfl⟩
  have htokens : (ofSource (source ++ after) privateNames options).tokens.toList
      = tokensAt 0 ws
        ++ (Lexer.next ⟨source.utf8ByteSize, after.toList, privateNames⟩).1 :: others := by
    have hrest :
        (Lexer.ofString (source ++ after) privateNames).rest = joined ws ++ after.toList := by
      rw [Lexer.ofString, String.toList_append, hsource]
    rw [ofSource, List.toList_toArray, Lexer.tokens_words h hrest, hsize, ← hfollowing]
    exact congrArg (tokensAt 0 ws ++ Lexer.tokens ⟨·, after.toList, privateNames⟩) (Nat.zero_add _)
  refine ⟨hasWords_of_tokens [] htokens, ?_, ?_, ?_, ?_⟩
  · obtain ⟨w, ws, rfl⟩ := List.exists_cons_of_ne_nil hne
    exact congrArg (·.span.start) (token_of_tokens [] htokens)
  · obtain ⟨front, t, heq, hlength, hstop⟩ := Word.exists_tokensAt_concat hne 0
    rw [heq, List.append_assoc] at htokens
    rw [← hlength, Nat.add_sub_cancel, token_of_tokens _ htokens, hstop, hsize, Nat.zero_add]
  · have hnext := token_of_tokens _ htokens
    rwa [Word.length_tokensAt] at hnext
  · have hlength := congrArg List.length htokens
    rw [Array.length_toList, List.length_append, Word.length_tokensAt, List.length_cons] at hlength
    omega

end Context

end EcmaScript
