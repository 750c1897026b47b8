import EcmaScript.Proofs.Lexer.Decoded
import EcmaScript.Proofs.Lexer.Joined

namespace EcmaScript

/-!
# Layout between tokens

What stands between tokens does not change them. Where all tokens are valid, a separator more is seen
nowhere, with one exception: a byte order mark right behind a name becomes part of it. And the texts
of the tokens by themselves, with a blank behind each, are cut into the same tokens again.

* `Lexeme.isForeignLetter_behind_name` — a name goes on with every letter beyond ASCII;
* `Token.bare` — a token without its place;
* `Lexer.tokens_separator_iff` — one separator more, between two tokens of a text;
* `Lexer.tokens_insert_iff` — the same for a source;
* `Lexer.spaced`, `Lexer.tokens_spaced` — the texts of the tokens, a blank behind each;
* `Lexer.tokens_respelled` — the same for a source.
-/

/-! ### Names go on with every letter beyond ASCII -/

namespace Lexeme

theorem isForeignLetter_behind_identifierTail {cs rest : List Char} {d : Char}
    (h : cs.drop (identifierTail cs) = d :: rest) : isForeignLetter d = false := by
  fun_induction identifierTail cs with
  | case1 => cases h
  | case2 c cs _ ih => exact ih h
  | case3 cs n _ _ ih =>
    rw [← List.drop_drop] at h
    exact ih h
  | case4 =>
    obtain rfl := (List.cons.inj h).1
    decide
  | case5 c cs hc _ =>
    obtain rfl := (List.cons.inj h).1
    simp only [Bool.or_eq_true, not_or, Bool.not_eq_true] at hc
    exact hc.2

theorem isForeignLetter_behind_escape {cs rest : List Char} {d : Char} {n : Nat}
    (h : cs.drop (n + identifierTail (cs.drop n)) = d :: rest) : isForeignLetter d = false := by
  rw [← List.drop_drop] at h
  exact isForeignLetter_behind_identifierTail h

theorem isForeignLetter_behind_privateTail {cs rest : List Char} {d : Char}
    (h : cs.drop (privateTail cs) = d :: rest) : isForeignLetter d = false := by
  unfold privateTail at h
  split at h
  next => cases h
  next c cs =>
    split at h
    next hback =>
      split at h
      next => exact isForeignLetter_behind_escape h
      next =>
        obtain rfl := (List.cons.inj h).1
        rw [hback]
        decide
    next =>
      split at h
      next => exact isForeignLetter_behind_identifierTail h
      next hstart =>
        obtain rfl := (List.cons.inj h).1
        simp only [Bool.or_eq_true, not_or, Bool.not_eq_true] at hstart
        exact hstart.2

/-- **A name, private or not, goes on with every letter beyond ASCII.** -/
theorem isForeignLetter_behind_name {privateNames : Bool} {cs rest : List Char} {d : Char}
    (hname : (read privateNames cs).kind = .identifier ∨ (read privateNames cs).kind = .privateName)
    (h : cs.drop (read privateNames cs).length = d :: rest) : isForeignLetter d = false := by
  cases cs with
  | nil => cases h
  | cons c cs =>
    -- The cases are those of the first character, in the order in which the lexer asks for them.
    simp only [read] at hname h
    split at hname
    next hascii =>
      rw [if_pos hascii] at h
      exact isForeignLetter_behind_identifierTail h
    rw [if_neg ‹_›] at h
    split at hname
    next hstart =>
      rw [if_pos hstart] at h
      rw [word_eq] at hname h
      split at hname
      next => simp at hname
      next hword =>
        rw [hword] at h
        exact isForeignLetter_behind_identifierTail h
    rw [if_neg ‹_›] at h
    split at hname
    next hback =>
      rw [if_pos hback] at h
      unfold escapedIdentifier at hname h
      split at hname
      next n hscan =>
        rw [hscan] at h
        exact isForeignLetter_behind_escape h
      next => simp at hname
    rw [if_neg ‹_›] at h
    split at hname
    next => rcases number_kind (c :: cs) with hkind | hkind <;> simp [hkind] at hname
    rw [if_neg ‹_›] at h
    split at hname
    next => rcases stringTail_kind c 1 cs with hkind | hkind <;> simp [string, hkind] at hname
    rw [if_neg ‹_›] at h
    split at hname
    next hsigil =>
      rw [if_pos hsigil] at h
      exact isForeignLetter_behind_privateTail h
    next =>
      rcases punctuator_kind (c :: cs) with ⟨p, hkind⟩ | hkind <;> simp [hkind] at hname

/-- A name is not empty. -/
theorem length_pos_of_name {privateNames : Bool} {cs : List Char}
    (hname : (read privateNames cs).kind = .identifier ∨ (read privateNames cs).kind = .privateName) :
    0 < (read privateNames cs).length := by
  cases cs with
  | nil => simp [read] at hname
  | cons c cs =>
    obtain hname | hname := hname
    · exact (isRawName_read hname).1
    · obtain ⟨-, rest, -, hread⟩ := privateName_of_read hname
      rw [hread]
      exact Nat.succ_pos _

end Lexeme

/-- The token without its place. -/
def Token.bare (t : Token) : TokenKind × String := (t.kind, t.text)

namespace Lexer

open Trivia (Fills IsPiece)

/-- The tokens of a text do not depend on where it begins. -/
theorem map_bare_tokens {l m : Lexer} (hrest : m.rest = l.rest)
    (hmode : m.privateNames = l.privateNames) :
    m.tokens.map Token.bare = l.tokens.map Token.bare := by
  have hstart (l : Lexer) : l.tokens.map Token.bare
      = (tokens ⟨0, l.rest, l.privateNames⟩).map Token.bare := by
    have hmoved : (⟨0, l.rest, l.privateNames⟩ : Lexer).moved l.offset = l := by
      simp [moved]
    rw [← hmoved, tokens_moved, List.map_map]
    rfl
  rw [hstart, hstart l, hrest, hmode]

/-- A token but the last ends behind the place from which it is read. -/
theorem offset_lt_stop {l : Lexer} {t : Token} (ht : t ∈ l.tokens) (hkind : t.kind ≠ .eof) :
    l.offset < t.span.stop := by
  have htile := l.tokens_tile
  have hle := htile.offset_le ht
  obtain ⟨inner, newline, htokens, hinner⟩ := htile.ends
  rw [htokens, List.mem_append, List.mem_singleton] at ht
  obtain ht | rfl := ht
  · have := (hinner t ht).2
    omega
  · exact absurd rfl hkind

namespace Cut

variable {l : Lexer} {gap : List Trivia} {kind : TokenKind} {text rest : List Char}

/-- The tokens of a place that is cut. -/
theorem tokens (h : l.Cut gap kind text rest) : l.tokens = l.next.1 :: l.next.2.tokens := by
  rw [tokens_eq, if_neg]
  rw [h.next]
  exact h.kind_ne_eof

theorem map_bare (h : l.Cut gap kind text rest) : l.tokens.map Token.bare
    = (kind, String.ofList text) :: l.next.2.tokens.map Token.bare := by
  rw [h.tokens, List.map_cons, h.next]
  rfl

/-- Other trivia in front of it does not change what is read. -/
theorem regap (h : l.Cut gap kind text rest) {m : Lexer} {gap' : List Trivia}
    (hmode : m.privateNames = l.privateNames)
    (hrest : m.rest = gap'.flatMap Trivia.chars ++ (text ++ rest))
    (hfills : Fills gap' (text ++ rest)) : m.Cut gap' kind text rest :=
  ⟨hrest, hfills, h.take?_eq_none, h.text_ne_nil, by rw [hmode, h.read_kind],
    by rw [hmode, h.read_length]⟩

/-- The first token lies between the trivia and the rest, and the others lie behind it. -/
theorem mem_tokens_iff (h : l.Cut gap kind text rest) {t : Token} :
    t ∈ l.tokens ↔ t = l.next.1 ∨ t ∈ l.next.2.tokens := by
  rw [h.tokens, List.mem_cons]

end Cut

end Lexer

/-! ### A separator more -/

/-- A separator is a piece of trivia by itself. -/
theorem IsSeparator.exists_piece {c : Char} (hc : IsSeparator c) :
    ∃ t : Trivia, t.chars = [c] ∧ ∀ after, Trivia.IsPiece t after := by
  obtain h | h := hc
  · exact ⟨.whitespace c, rfl, fun _ => .whitespace h⟩
  · exact ⟨.lineTerminator c, rfl, fun _ => .lineTerminator (CharSet.has_ofList.1 h)⟩

namespace Trivia

variable {gap : List Trivia} {after : List Char} {c : Char}

/-- A separator behind trivia that has an end of its own. -/
theorem Fills.concat (h : Fills gap after) (hafter : after ≠ []) (hc : IsSeparator c) :
    ∃ gap', gap'.flatMap chars = gap.flatMap chars ++ [c] ∧ Fills gap' after := by
  obtain ⟨piece, hpiece, hchars⟩ := hc.exists_piece
  induction h with
  | nil => exact ⟨[piece], by simp [hpiece], .cons (hchars _) .nil⟩
  | @cons t rest after ht _ ih =>
    obtain ⟨gap', hgap', hfills⟩ := ih hafter
    refine ⟨t :: gap', by simp [hgap'], .cons (ht.of_ne_nil ?_ _) hfills⟩
    exact List.append_ne_nil_of_right_ne_nil _ hafter

/-- A separator behind the last trivia of a text. It may become part of a comment. -/
theorem Fills.concat_last (h : Fills gap after) (hafter : after = []) (hc : IsSeparator c) :
    ∃ gap', gap'.flatMap chars = gap.flatMap chars ++ [c] ∧ Fills gap' after := by
  obtain ⟨piece, hpiece, hchars⟩ := hc.exists_piece
  induction h with
  | nil => exact ⟨[piece], by simp [hpiece], .cons (hchars _) .nil⟩
  | @cons t rest after ht _ ih =>
    subst hafter
    obtain ⟨gap', hgap', hfills⟩ := ih rfl
    have closed (hclosed : ∀ after, IsPiece t after) :
        ∃ gap', gap'.flatMap chars = (t :: rest).flatMap chars ++ [c] ∧ Fills gap' [] :=
      ⟨t :: gap', by simp [hgap'], .cons (hclosed _) hfills⟩
    generalize htail : rest.flatMap chars ++ [] = tail at ht
    rw [List.append_nil] at htail
    cases ht with
    | whitespace h => exact closed fun _ => .whitespace h
    | lineTerminator h => exact closed fun _ => .lineTerminator h
    | lineComment h => exact closed fun _ => .lineComment h
    | blockComment h => exact closed fun _ => .blockComment h
    | @openLineComment body hbody =>
      -- An LF ends the comment, and anything else belongs to it.
      refine ⟨[.lineComment (body ++ [c])], by simp [chars, htail], .cons ?_ .nil⟩
      by_cases hline : c = '\n'
      · rw [hline]
        exact .lineComment hbody
      · refine .openLineComment ?_
        rw [List.mem_append, List.mem_singleton, not_or]
        exact ⟨hbody, fun heq => hline heq.symm⟩
    | @openBlockComment body hbody =>
      refine ⟨[.blockComment (body ++ [c])], by simp [chars, htail], .cons ?_ .nil⟩
      refine .openBlockComment fun hinfix => ?_
      -- A closing mark at the end would end with the separator.
      obtain hend | hinside := List.infix_concat_iff.1 hinfix
      · obtain hnil | ⟨front, hfront, -⟩ := List.suffix_concat_iff.1 hend
        · cases hnil
        · have hlast : '/' = c := by simpa [closing] using congrArg List.getLast? hfront
          exact hc.ne (by decide) hlast.symm
      · exact hbody hinside

end Trivia

namespace Lexer

open Trivia (Fills IsPiece)

/-- The text begins at the place, or some token begins or ends there. -/
def IsBoundary (l : Lexer) (place : Nat) : Prop :=
  place = l.offset ∨ ∃ t ∈ l.tokens, place = t.span.start ∨ place = t.span.stop

/-- A name, private or not, ends at the place. -/
def NameEndsAt (l : Lexer) (place : Nat) : Prop :=
  ∃ t ∈ l.tokens, (t.kind = .identifier ∨ t.kind = .privateName) ∧ t.span.stop = place

/-- No name ends where the text begins. -/
theorem not_nameEndsAt {l : Lexer} {place : Nat} (h : place ≤ l.offset) : ¬ l.NameEndsAt place := by
  rintro ⟨t, ht, hname, rfl⟩
  have := offset_lt_stop ht (by rcases hname with hkind | hkind <;> simp [hkind])
  omega

/-- A front of a text in front of another one. -/
theorem exists_append_of_byteLength_le {x y u v : List Char} (h : x ++ y = u ++ v)
    (hle : byteLength u ≤ byteLength x) : ∃ x', x = u ++ x' ∧ v = x' ++ y := by
  obtain ⟨a, rfl, hy⟩ | ⟨x', hx, hv⟩ := List.append_eq_append_iff.1 h
  · have hnil : a = [] := by
      by_contra hne
      have := byteLength_pos hne
      rw [byteLength_append] at hle
      omega
    subst hnil
    exact ⟨[], by simp, by simpa using hy.symm⟩
  · exact ⟨x', hx, hv⟩

namespace Cut

variable {l : Lexer} {gap : List Trivia} {kind : TokenKind} {text rest x y : List Char}

theorem nameEndsAt_iff (h : l.Cut gap kind text rest) {place : Nat} :
    l.NameEndsAt place ↔
      (kind = .identifier ∨ kind = .privateName) ∧ l.next.2.offset = place
        ∨ l.next.2.NameEndsAt place := by
  simp only [NameEndsAt, h.mem_tokens_iff, or_and_right, exists_or, exists_eq_left, h.next]

/-- A place where a token begins or ends is not inside of the first one. -/
theorem isBoundary_cases (h : l.Cut gap kind text rest) (hl : l.rest = x ++ y)
    (hplace : l.IsBoundary (l.offset + byteLength x)) :
    x = [] ∨ x = gap.flatMap Trivia.chars
      ∨ ∃ x', x = gap.flatMap Trivia.chars ++ text ++ x' ∧ rest = x' ++ y
        ∧ l.next.2.IsBoundary (l.next.2.offset + byteLength x') := by
  have hsplit : x ++ y = gap.flatMap Trivia.chars ++ (text ++ rest) := hl.symm.trans h.rest_eq
  have hsplit' : x ++ y = gap.flatMap Trivia.chars ++ text ++ rest := by
    rw [hsplit, List.append_assoc]
  obtain hstart | ⟨t, ht, hplace⟩ := hplace
  · left
    by_contra hne
    have := byteLength_pos hne
    omega
  · rw [h.mem_tokens_iff, h.next] at ht
    obtain rfl | ht := ht
    · right
      obtain hstart | hstop := hplace
      · exact .inl (eq_of_byteLength_eq hsplit (by dsimp only at hstart; omega)).1
      · obtain ⟨hx, hy⟩ := eq_of_byteLength_eq hsplit' (by
          rw [byteLength_append]
          dsimp only at hstop
          omega)
        exact .inr ⟨[], by simpa using hx, by simpa using hy.symm, .inl rfl⟩
    · have htile := tokens_tile (⟨l.offset + byteLength (gap.flatMap Trivia.chars)
        + byteLength text, rest, l.privateNames⟩ : Lexer)
      have hle := htile.offset_le ht
      obtain ⟨_, _, -, hspan⟩ := htile.slice ht
      obtain ⟨x', hx, hrest⟩ := exists_append_of_byteLength_le hsplit' (by
        rw [byteLength_append]
        rw [hspan] at hle hplace
        dsimp only at hle hplace
        omega)
      refine .inr (.inr ⟨x', hx, hrest, ?_⟩)
      rw [h.next]
      refine .inr ⟨t, ht, ?_⟩
      rw [hx, byteLength_append, byteLength_append] at hplace
      dsimp only
      omega

end Cut

variable {l m : Lexer} {gap : List Trivia} {kind : TokenKind} {text rest x y : List Char} {c : Char}

/-- Where nothing but trivia is left, a separator more is trivia as well. -/
theorem map_bare_tokens_atEnd (heof : l.next.1.kind = .eof) (hl : l.rest = x ++ y)
    (hm : m.rest = x ++ c :: y) (hc : IsSeparator c)
    (hplace : l.IsBoundary (l.offset + byteLength x)) :
    l.tokens = [l.next.1] ∧ m.tokens.map Token.bare = l.tokens.map Token.bare := by
  have htokens : l.tokens = [l.next.1] := by rw [tokens_eq, if_pos heof]
  obtain ⟨gap, hrest, hfills⟩ := exists_trivia heof
  have hnext := next_of_trivia hrest hfills
  have hsplit : x ++ y = gap.flatMap Trivia.chars ++ [] := by rw [← hl, hrest, List.append_nil]
  obtain ⟨gap', hgap', hfills'⟩ : ∃ gap', m.rest = gap'.flatMap Trivia.chars ∧ Fills gap' [] := by
    have hcut : x = [] ∨ x = gap.flatMap Trivia.chars ∧ y = [] := by
      obtain hstart | ⟨t, ht, hplace⟩ := hplace
      · left
        by_contra hne
        have := byteLength_pos hne
        omega
      · right
        rw [htokens, List.mem_singleton] at ht
        rw [ht, hnext] at hplace
        refine eq_of_byteLength_eq hsplit ?_
        obtain hplace | hplace := hplace
        · exact Nat.add_left_cancel hplace
        · exact Nat.add_left_cancel hplace
    obtain rfl | ⟨rfl, rfl⟩ := hcut
    · obtain ⟨piece, hpiece, hchars⟩ := hc.exists_piece
      refine ⟨piece :: gap, ?_, .cons (hchars _) hfills⟩
      rw [hm, List.flatMap_cons, hpiece, ← hrest, hl]
      rfl
    · obtain ⟨gap', hgap', hfills'⟩ := hfills.concat_last rfl hc
      exact ⟨gap', by rw [hm, hgap'], hfills'⟩
  have hnext' := next_of_trivia hgap' hfills'
  refine ⟨htokens, ?_⟩
  rw [htokens, tokens_eq, if_pos (by rw [hnext']), hnext', hnext]
  rfl

/-- A separator more in front of a token is trivia. -/
theorem Cut.map_bare_tokens_inGap (h : l.Cut gap kind text rest) (hl : l.rest = x ++ y)
    (hm : m.rest = x ++ c :: y) (hmode : m.privateNames = l.privateNames) (hc : IsSeparator c)
    (hplace : x = [] ∨ x = gap.flatMap Trivia.chars) :
    m.tokens.map Token.bare = l.tokens.map Token.bare := by
  have hne : text ++ rest ≠ [] := List.append_ne_nil_of_left_ne_nil h.text_ne_nil rest
  obtain ⟨gap', hgap', hfills'⟩ : ∃ gap', m.rest = gap'.flatMap Trivia.chars ++ (text ++ rest)
      ∧ Fills gap' (text ++ rest) := by
    obtain rfl | rfl := hplace
    · obtain ⟨piece, hpiece, hchars⟩ := hc.exists_piece
      refine ⟨piece :: gap, ?_, .cons (hchars _) h.fills⟩
      have hy : y = gap.flatMap Trivia.chars ++ (text ++ rest) := hl.symm.trans h.rest_eq
      rw [hm, List.flatMap_cons, hpiece, List.append_assoc, ← hy]
      rfl
    · obtain rfl : y = text ++ rest := List.append_cancel_left (hl.symm.trans h.rest_eq)
      obtain ⟨gap', hgap', hfills'⟩ := h.fills.concat hne hc
      refine ⟨gap', ?_, hfills'⟩
      rw [hm, hgap', List.append_assoc]
      rfl
  have hcut := h.regap hmode hgap' hfills'
  rw [hcut.map_bare, h.map_bare]
  congr 1
  refine map_bare_tokens ?_ ?_
  · rw [hcut.next, h.next]
  · rw [hcut.next, h.next]
    exact hmode

/-- A letter beyond ASCII right behind a name belongs to it. -/
theorem Cut.bare_next_ne (h : l.Cut gap kind text y)
    (hm : m.rest = gap.flatMap Trivia.chars ++ (text ++ c :: y)) (hc : IsSeparator c)
    (habsorbs : Lexeme.Absorbs kind c) : m.next.1.bare ≠ (kind, String.ofList text) := by
  have hne : text ++ y ≠ [] := List.append_ne_nil_of_left_ne_nil h.text_ne_nil y
  obtain ⟨kind', text', rest', hsplit, hcut⟩ := exists_cut_of_fills hm (h.fills.of_ne_nil hne _)
    (Trivia.take?_cut h.take?_eq_none h.text_ne_nil hc y)
    (List.append_ne_nil_of_left_ne_nil h.text_ne_nil _)
  have hbare : m.next.1.bare = (kind', String.ofList text') := by
    rw [hcut.next]
    rfl
  intro heq
  obtain ⟨rfl, htext⟩ := Prod.mk.inj (hbare.symm.trans heq)
  obtain rfl := String.ofList_injective htext
  obtain rfl := List.append_cancel_left hsplit
  -- The name would end in front of a letter.
  have hkind := hcut.read_kind
  have hlength := hcut.read_length
  have hname := habsorbs.1
  rw [← hkind] at hname
  have hpos := Lexeme.length_pos_of_name hname
  have hdrop : (text' ++ c :: y).drop (Lexeme.read m.privateNames (text' ++ c :: y)).length
      = c :: y := by
    rw [show (Lexeme.read m.privateNames (text' ++ c :: y)).length = text'.length by omega,
      List.drop_left]
  exact absurd habsorbs.2 (by rw [Lexeme.isForeignLetter_behind_name hname hdrop]; decide)

/-- **One separator more.** In a text of valid tokens, a separator where a token begins or ends
changes neither the kinds nor the texts of the tokens, unless it is a byte order mark right behind a
name. -/
theorem tokens_separator_iff (l m : Lexer) {x y : List Char} {c : Char} (hl : l.rest = x ++ y)
    (hm : m.rest = x ++ c :: y) (hmode : m.privateNames = l.privateNames) (hc : IsSeparator c)
    (hvalid : ∀ t ∈ l.tokens, t.kind ≠ .invalid)
    (hplace : l.IsBoundary (l.offset + byteLength x)) :
    m.tokens.map Token.bare = l.tokens.map Token.bare
      ↔ ¬ (c = '\ufeff' ∧ l.NameEndsAt (l.offset + byteLength x)) := by
  by_cases heof : l.next.1.kind = .eof
  · obtain ⟨htokens, hsame⟩ := map_bare_tokens_atEnd heof hl hm hc hplace
    refine ⟨fun _ h => ?_, fun _ => hsame⟩
    obtain ⟨t, ht, hname, -⟩ := h.2
    rw [htokens, List.mem_singleton] at ht
    rw [ht, heof] at hname
    simp at hname
  obtain ⟨gap, kind, text, rest, hcut⟩ := exists_cut heof
  have hoffset : l.next.2.offset
      = l.offset + byteLength (gap.flatMap Trivia.chars) + byteLength text := by
    rw [hcut.next]
  have inGap (hx : x = [] ∨ x = gap.flatMap Trivia.chars) :
      m.tokens.map Token.bare = l.tokens.map Token.bare
        ↔ ¬ (c = '\ufeff' ∧ l.NameEndsAt (l.offset + byteLength x)) := by
    have hlt : l.offset + byteLength x < l.next.2.offset := by
      have hpos := byteLength_pos hcut.text_ne_nil
      obtain rfl | rfl := hx
      · rw [byteLength_nil]
        omega
      · omega
    refine ⟨fun _ h => ?_, fun _ => hcut.map_bare_tokens_inGap hl hm hmode hc hx⟩
    obtain ⟨-, hstop⟩ | hbehind := hcut.nameEndsAt_iff.1 h.2
    · omega
    · exact not_nameEndsAt hlt.le hbehind
  obtain hx | hx | ⟨x', rfl, rfl, hplace'⟩ := hcut.isBoundary_cases hl hplace
  · exact inGap (.inl hx)
  · exact inGap (.inr hx)
  have hm' : m.rest = gap.flatMap Trivia.chars ++ (text ++ (x' ++ c :: y)) := by
    rw [hm, List.append_assoc, List.append_assoc]
  have hstop : l.next.2.offset + byteLength x'
      = l.offset + byteLength (gap.flatMap Trivia.chars ++ text ++ x') := by
    rw [hoffset, byteLength_append, byteLength_append]
    omega
  by_cases habsorbs : x' = [] ∧ Lexeme.Absorbs kind c
  · obtain ⟨rfl, habsorbs⟩ := habsorbs
    refine iff_of_false (fun hsame => ?_) (fun h => h ⟨?_, ?_⟩)
    · refine hcut.bare_next_ne hm' hc habsorbs ?_
      rw [hcut.map_bare, tokens_eq] at hsame
      split at hsame
      · exact (List.cons.inj hsame).1
      · exact (List.cons.inj hsame).1
    · exact hc.isForeignLetter_iff.1 habsorbs.2
    · exact hcut.nameEndsAt_iff.2 (.inl ⟨habsorbs.1, hstop⟩)
  · have hne : text ++ (x' ++ y) ≠ [] := List.append_ne_nil_of_left_ne_nil hcut.text_ne_nil _
    have hfirst : l.next.1 ∈ l.tokens := by
      rw [hcut.tokens]
      exact List.mem_cons_self
    have hkind : kind ≠ .invalid := by
      have hnot := hvalid _ hfirst
      rwa [hcut.next] at hnot
    have hcut' := hcut.separate hkind hc (fun h hx => habsorbs ⟨hx, h⟩) hmode hm'
      (hcut.fills.of_ne_nil hne _)
    have := next_rest_length_lt heof
    have ih := tokens_separator_iff l.next.2 m.next.2 (x := x') (y := y) (c := c)
      (by rw [hcut.next]) (by rw [hcut'.next]) (by rw [hcut.next, hcut'.next, hmode]) hc
      (fun t ht => hvalid t (hcut.mem_tokens_iff.2 (.inr ht))) hplace'
    rw [hcut'.map_bare, hcut.map_bare, List.cons_inj_right, ih, hstop, hcut.nameEndsAt_iff]
    -- The name in front does not end here, unless the mark would belong to it.
    refine not_congr (and_congr_right fun hmark => (or_iff_right fun hname => habsorbs ?_).symm)
    rw [← hstop] at hname
    refine ⟨?_, hname.1, hc.isForeignLetter_iff.2 hmark⟩
    by_contra hx'
    have := byteLength_pos hx'
    omega
termination_by l.rest.length

/-- **Inserted layout is seen nowhere.** One character of whitespace or one line terminator more,
where a token of a source begins or ends or at its start, changes neither the kinds nor the texts of
the tokens if all of them are valid, except for a byte order mark right behind a name. -/
theorem tokens_insert_iff {before after : String} {privateNames : Bool} {c : Char}
    (hvalid : ∀ t ∈ (ofString (before ++ after) privateNames).tokens, t.kind ≠ .invalid)
    (hc : CharSet.whitespace.has c = true ∨ CharSet.lineTerminator.has c = true)
    (hplace : before = "" ∨ ∃ t ∈ (ofString (before ++ after) privateNames).tokens,
      before.utf8ByteSize = t.span.start ∨ before.utf8ByteSize = t.span.stop) :
    (ofString (before ++ String.singleton c ++ after) privateNames).tokens.map
          (fun t => (t.kind, t.text))
        = (ofString (before ++ after) privateNames).tokens.map (fun t => (t.kind, t.text))
      ↔ ¬ (c = '\ufeff' ∧ ∃ t ∈ (ofString (before ++ after) privateNames).tokens,
          (t.kind = .identifier ∨ t.kind = .privateName)
            ∧ t.span.stop = before.utf8ByteSize) := by
  have hstart : (ofString (before ++ after) privateNames).offset + byteLength before.toList
      = before.utf8ByteSize := by
    rw [byteLength_toList]
    exact Nat.zero_add _
  have hiff := tokens_separator_iff (ofString (before ++ after) privateNames)
    (ofString (before ++ String.singleton c ++ after) privateNames) (x := before.toList)
    (y := after.toList) (c := c) (by simp [ofString]) (by simp [ofString]) rfl hc hvalid
  rw [hstart] at hiff
  refine hiff ?_
  obtain rfl | ⟨t, ht, hplace⟩ := hplace
  · exact .inl rfl
  · exact .inr ⟨t, ht, hplace⟩

/-- Behind a name, an ogham space is seen nowhere, and a byte order mark is. -/
theorem tokens_insert_ogham :
    (∀ t ∈ (ofString ("a" ++ "+1") false).tokens, t.kind ≠ .invalid)
      ∧ (ofString ("a" ++ String.singleton '\u1680' ++ "+1") false).tokens.map
          (fun t => (t.kind, t.text))
        = (ofString ("a" ++ "+1") false).tokens.map (fun t => (t.kind, t.text))
      ∧ (ofString ("a" ++ String.singleton '\ufeff' ++ "+1") false).tokens.map
          (fun t => (t.kind, t.text))
        ≠ (ofString ("a" ++ "+1") false).tokens.map (fun t => (t.kind, t.text)) := by
  have hvalid : ∀ t ∈ (ofString ("a" ++ "+1") false).tokens, t.kind ≠ .invalid := by
    decide +kernel
  have hname : (⟨.identifier, "a", ⟨0, 1⟩, false⟩ : Token)
      ∈ (ofString ("a" ++ "+1") false).tokens := by
    decide +kernel
  have hplace : "a" = "" ∨ ∃ t ∈ (ofString ("a" ++ "+1") false).tokens,
      "a".utf8ByteSize = t.span.start ∨ "a".utf8ByteSize = t.span.stop :=
    .inr ⟨_, hname, .inr (by decide)⟩
  refine ⟨hvalid, (tokens_insert_iff hvalid (by decide) hplace).2 fun h => ?_, fun hsame => ?_⟩
  · exact absurd h.1 (by decide)
  · exact (tokens_insert_iff hvalid (by decide) hplace).1 hsame
      ⟨rfl, _, hname, .inl rfl, by decide⟩

/-! ### The texts of the tokens -/

/-- The texts of the tokens in front of the end of the text, a blank behind each. -/
def spaced (tokens : List Token) : List Char :=
  (tokens.filter (·.kind ≠ .eof)).flatMap fun t => t.text.toList ++ [' ']

/-- **The texts of the tokens are cut into the same tokens**, behind any trivia that has an end of
its own. -/
theorem tokens_spaced (l m : Lexer) {gap : List Trivia} (hgap : ∀ after, Fills gap after)
    (hm : m.rest = gap.flatMap Trivia.chars ++ spaced l.tokens)
    (hmode : m.privateNames = l.privateNames) (hvalid : ∀ t ∈ l.tokens, t.kind ≠ .invalid) :
    m.tokens.map Token.bare = l.tokens.map Token.bare := by
  by_cases heof : l.next.1.kind = .eof
  · obtain ⟨gap', hrest, hfills⟩ := exists_trivia heof
    have htokens : l.tokens = [l.next.1] := by rw [tokens_eq, if_pos heof]
    have hspaced : spaced l.tokens = [] := by simp [htokens, spaced, heof]
    rw [hspaced, List.append_nil] at hm
    have hnext := next_of_trivia hm (hgap [])
    rw [htokens, tokens_eq, if_pos (by rw [hnext]), hnext, next_of_trivia hrest hfills]
    rfl
  · obtain ⟨gap', kind, text, rest, hcut⟩ := exists_cut heof
    have hspaced : spaced l.tokens = text ++ ([] ++ ' ' :: spaced l.next.2.tokens) := by
      rw [hcut.tokens, spaced, List.filter_cons_of_pos (by simpa using heof), List.flatMap_cons,
        hcut.next]
      simp [spaced]
    rw [hspaced] at hm
    have hkind : kind ≠ .invalid := by
      have hnot := hvalid _ (hcut.mem_tokens_iff.2 (.inl rfl))
      rwa [hcut.next] at hnot
    -- A blank belongs to no name.
    have hcut' := Cut.separate (x := []) hcut hkind (c := ' ') (by decide)
      (fun h => absurd h.2 (by decide)) hmode hm (hgap _)
    have := next_rest_length_lt heof
    have hblank (after : List Char) : Fills [.whitespace ' '] after :=
      .cons (.whitespace (by decide)) .nil
    have ih := tokens_spaced l.next.2 m.next.2 hblank (by rw [hcut'.next]; rfl)
      (by rw [hcut.next, hcut'.next, hmode])
      fun t ht => hvalid t (hcut.mem_tokens_iff.2 (.inr ht))
    rw [hcut'.map_bare, hcut.map_bare, ih]
termination_by l.rest.length

/-- **Tokens are what their texts are read as.** If all tokens of a source are valid, their texts,
with a blank behind each, have the same tokens in the same mode, with the end of the text behind
them. -/
theorem tokens_respelled {source : String} {privateNames : Bool}
    (hvalid : ∀ t ∈ (ofString source privateNames).tokens, t.kind ≠ .invalid) :
    (ofString (String.join (((ofString source privateNames).tokens.filter (·.kind ≠ .eof)).map
        fun t => t.text ++ " ")) privateNames).tokens.map (fun t => (t.kind, t.text))
      = (ofString source privateNames).tokens.map (fun t => (t.kind, t.text)) := by
  refine tokens_spaced (ofString source privateNames) _ (fun _ => .nil) ?_ rfl hvalid
  simp [ofString, spaced, String.toList_join, List.flatMap_map]

/-- Comments and line ends between the tokens of a statement. -/
theorem tokens_respelled_comments :
    (∀ t ∈ (ofString "a/**/+\n++b//c" false).tokens, t.kind ≠ .invalid)
      ∧ (ofString "a + ++ b " false).tokens.map (fun t => (t.kind, t.text))
        = (ofString "a/**/+\n++b//c" false).tokens.map (fun t => (t.kind, t.text)) := by
  have hvalid : ∀ t ∈ (ofString "a/**/+\n++b//c" false).tokens, t.kind ≠ .invalid := by
    decide +kernel
  refine ⟨hvalid, ?_⟩
  rw [← tokens_respelled hvalid]
  congr 2
  decide +kernel

end Lexer

end EcmaScript
