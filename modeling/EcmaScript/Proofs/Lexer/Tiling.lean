import EcmaScript.Proofs.Lexer.Bounds
import EcmaScript.Proofs.Lexer.Modes
import Mathlib.Data.List.TakeWhile

namespace EcmaScript

/-!
# Tokens and trivia tile the source

The tokens of a text, with the trivia in front of each, are the whole text: nothing is left out and
nothing is read twice.

* `Trivia.IsPiece`, `Trivia.Fills` — what a piece of trivia is, and a sequence of them, said by the
  text alone;
* `Trivia.leading_fills` — the trivia in front of a token is such a sequence;
* `Lexer.Tiles` — a text is cut into trivia and tokens, each with its place;
* `Lexer.tokens_tile` — every text is cut so by its tokens;
* `Lexer.Tiles.length_le`, `Lexer.Tiles.slice`, `Lexer.Tiles.pairwise` — how many tokens there are,
  what they cover, and in which order;
* `Lexer.tokens_ofString` — all of this for a source text.
-/

/-! ### Pieces of trivia -/

namespace Trivia

/-- The mark that ends a block comment. -/
def closing : List Char := ['*', '/']

/-- The piece is one that may stand in front of the text `after`: a comment goes on through what
ends it, or through the end of the text where nothing does. -/
inductive IsPiece : Trivia → List Char → Prop where
  | whitespace {c : Char} {after : List Char} : CharSet.whitespace.has c →
      IsPiece (.whitespace c) after
  | lineTerminator {c : Char} {after : List Char} : c ∈ ['\n', '\r', '\u2028', '\u2029'] →
    IsPiece (.lineTerminator c) after
  | lineComment {body after : List Char} : '\n' ∉ body →
      IsPiece (.lineComment (body ++ ['\n'])) after
  | openLineComment {body : List Char} : '\n' ∉ body → IsPiece (.lineComment body) []
  | blockComment {body after : List Char} : ¬ closing <:+: body ++ ['*'] →
    IsPiece (.blockComment (body ++ closing)) after
  | openBlockComment {body : List Char} : ¬ closing <:+: body → IsPiece (.blockComment body) []

/-- The pieces, one behind the other, may stand in front of the text `after`. -/
inductive Fills : List Trivia → List Char → Prop where
  | nil {after : List Char} : Fills [] after
  | cons {t : Trivia} {rest : List Trivia} {after : List Char} :
    IsPiece t (rest.flatMap chars ++ after) → Fills rest after → Fills (t :: rest) after

/-- A line comment goes on through the first LF, or through the end of the text. -/
theorem lineCommentBody_eq (cs : List Char) :
    (∃ body, '\n' ∉ body ∧ lineCommentBody cs = body ++ ['\n'])
      ∨ '\n' ∉ cs ∧ lineCommentBody cs = cs := by
  have hbody : '\n' ∉ cs.takeWhile (· ≠ '\n') := by
    intro hmem
    simpa using List.mem_takeWhile_imp hmem
  have hsplit := List.takeWhile_append_dropWhile (p := (· ≠ '\n')) (l := cs)
  cases hrest : cs.dropWhile (· ≠ '\n') with
  | nil =>
    rw [hrest, List.append_nil] at hsplit
    refine .inr ⟨hsplit ▸ hbody, ?_⟩
    rw [lineCommentBody, hsplit]
    exact List.take_of_length_le (Nat.le_succ _)
  | cons c rest =>
    have hc : c = '\n' := by
      have hfirst := List.head?_dropWhile_not (· ≠ '\n') cs
      rw [hrest] at hfirst
      simpa using hfirst
    rw [hrest, hc] at hsplit
    refine .inl ⟨_, hbody, ?_⟩
    generalize hlength : cs.takeWhile (· ≠ '\n') = body at hsplit
    calc lineCommentBody cs = cs.take (body.length + 1) := by rw [lineCommentBody, hlength]
      _ = (body ++ '\n' :: rest).take (body.length + 1) := by rw [hsplit]
      _ = body ++ ['\n'] := List.take_length_add_append 1

/-- A block comment goes on through the first closing mark, or through the end of the text. -/
theorem blockCommentBody_eq (cs : List Char) :
    (∃ body, ¬ closing <:+: body ++ ['*'] ∧ blockCommentBody cs = body ++ closing)
      ∨ ¬ closing <:+: cs ∧ blockCommentBody cs = cs := by
  fun_induction blockCommentBody cs with
  | case1 rest => exact .inl ⟨[], by decide, rfl⟩
  | case2 c rest hne ih =>
    -- No closing mark begins with `c`, because the comment would have ended there.
    have hfirst {more : List Char} (h : more <+: rest) : ¬ closing <+: c :: more := by
      intro hclosing
      obtain ⟨hc, hmore⟩ := List.cons_prefix_cons.1 hclosing
      obtain ⟨tail, rfl⟩ := hmore.trans h
      exact hne tail hc.symm rfl
    obtain ⟨body, hbody, heq⟩ | ⟨hrest, heq⟩ := ih
    · have hprefix : body ++ ['*'] <+: rest := by
        refine List.IsPrefix.trans ⟨['/'], ?_⟩ (blockCommentBody_isPrefix rest)
        rw [heq, List.append_assoc]
        rfl
      refine .inl ⟨c :: body, ?_, by rw [heq]; rfl⟩
      intro hinfix
      rcases List.infix_cons_iff.1 hinfix with hstart | hinside
      · exact hfirst hprefix hstart
      · exact hbody hinside
    · refine .inr ⟨?_, by rw [heq]⟩
      intro hinfix
      rcases List.infix_cons_iff.1 hinfix with hstart | hinside
      · exact hfirst (List.prefix_refl rest) hstart
      · exact hrest hinside
  | case3 => exact .inr ⟨by decide, rfl⟩

/-- What is taken from the front of a text may stand in front of the rest of it. -/
theorem isPiece_of_take? {cs after : List Char} {t : Trivia} (h : take? cs = some t)
    (hcs : cs = t.chars ++ after) : IsPiece t after := by
  unfold take? at h
  split at h
  next rest =>
    obtain rfl := Option.some.inj h
    have hrest : rest = lineCommentBody rest ++ after := by simpa [chars] using hcs
    obtain ⟨body, hbody, heq⟩ | ⟨hbody, heq⟩ := lineCommentBody_eq rest
    · rw [heq]
      exact .lineComment hbody
    · rw [heq] at hrest ⊢
      obtain rfl : after = [] := by simpa using hrest
      exact .openLineComment hbody
  next rest =>
    obtain rfl := Option.some.inj h
    have hrest : rest = blockCommentBody rest ++ after := by simpa [chars] using hcs
    obtain ⟨body, hbody, heq⟩ | ⟨hbody, heq⟩ := blockCommentBody_eq rest
    · rw [heq]
      exact .blockComment hbody
    · rw [heq] at hrest ⊢
      obtain rfl : after = [] := by simpa using hrest
      exact .openBlockComment hbody
  next c rest _ _ =>
    split at h
    next hline =>
      obtain rfl := Option.some.inj h
      exact .lineTerminator (CharSet.has_ofList.1 hline)
    next =>
      split at h
      next hspace =>
        obtain rfl := Option.some.inj h
        exact .whitespace hspace
      next => cases h
  next => cases h

/-- **The trivia in front of a token** are pieces one behind the other. -/
theorem leading_fills {cs after : List Char} (h : cs = (leading cs).flatMap chars ++ after) :
    Fills (leading cs) after := by
  fun_induction leading cs generalizing after with
  | case1 => exact .nil
  | case2 cs t ht ih =>
    rw [List.flatMap_cons, List.append_assoc] at h
    have hdrop : cs.drop t.chars.length
        = (leading (cs.drop t.chars.length)).flatMap chars ++ after := by
      conv_lhs => rw [h]
      exact List.drop_left
    exact .cons (isPiece_of_take? ht h) (ih hdrop)

end Trivia

/-! ### Tiles -/

namespace Lexer

open Trivia

/-- The text from an offset on is cut into trivia and tokens: in front of each token stands a gap
filled with trivia, and the token has its place right behind the gap. The last token stands for the
end of the text. -/
inductive Tiles : Nat → List Char → List Token → Prop where
  | last {offset : Nat} {gap : List Trivia} : Fills gap [] →
    Tiles offset (gap.flatMap chars)
      [⟨.eof, "", .point (offset + byteLength (gap.flatMap chars)), gap.any endsLine⟩]
  | cons {offset start : Nat} {gap : List Trivia} {kind : TokenKind} {text rest : List Char}
    {tokens : List Token} : Fills gap (text ++ rest) → kind ≠ .eof → text ≠ [] →
    start = offset + byteLength (gap.flatMap chars) →
    Tiles (start + byteLength text) rest tokens →
    Tiles offset (gap.flatMap chars ++ text ++ rest)
      (⟨kind, String.ofList text, ⟨start, start + byteLength text⟩, gap.any endsLine⟩ :: tokens)

/-- A lexeme has at least one character where the text goes on, and never more than there are. -/
theorem lexeme_length {l : Lexer} (h : l.rest ≠ []) :
    0 < l.lexeme.length ∧ l.lexeme.length ≤ l.rest.length := by
  have hread := Lexeme.read_le l.privateNames l.rest
  have hpos := List.length_pos_iff.2 h
  simp only [lexeme]
  omega

/-- **Every text is tiled by its tokens.** -/
theorem tokens_tile (l : Lexer) : Tiles l.offset l.rest l.tokens := by
  obtain ⟨after, hafter⟩ := leading_isPrefix l.rest
  have hfills := leading_fills hafter.symm
  generalize hgap : leading l.rest = gap at hafter hfills
  have hskip : l.skip (gap.flatMap chars).length
      = ⟨l.offset + byteLength (gap.flatMap chars), after, l.privateNames⟩ := by
    rw [skip, ← hafter, List.take_left, List.drop_left]
  have hnext : l.next = (l.skip (gap.flatMap chars).length).token (gap.any endsLine) := by
    rw [next, hgap]
  rw [hskip] at hnext
  rw [tokens_eq]
  cases after with
  | nil =>
    -- Nothing but trivia is left.
    have htoken : l.next.1
        = ⟨.eof, "", .point (l.offset + byteLength (gap.flatMap chars)), gap.any endsLine⟩ := by
      rw [hnext]
      rfl
    rw [if_pos (by rw [htoken]), htoken, ← hafter, List.append_nil]
    exact .last hfills
  | cons c after =>
    set place : Lexer := ⟨l.offset + byteLength (gap.flatMap chars), c :: after, l.privateNames⟩
    have hlength := lexeme_length (l := place) (List.cons_ne_nil c after)
    have htoken : l.next = (⟨place.lexeme.kind, String.ofList (place.rest.take place.lexeme.length),
        ⟨place.offset, place.offset + byteLength (place.rest.take place.lexeme.length)⟩,
        gap.any endsLine⟩, place.skip place.lexeme.length) := by
      rw [hnext]
      rfl
    have hkind : place.lexeme.kind ≠ .eof := Lexeme.read_cons_kind_ne_eof _ c after
    have hmore : l.next.1.kind ≠ .eof := by
      rw [htoken]
      exact hkind
    have := next_rest_length_lt hmore
    have htext : place.rest.take place.lexeme.length ≠ [] := by
      rw [← List.length_pos_iff, List.length_take]
      omega
    have hrest := tokens_tile l.next.2
    rw [htoken] at hrest
    rw [if_neg hmore, ← hafter, ← List.take_append_drop place.lexeme.length (c :: after),
      ← List.append_assoc]
    rw [htoken]
    refine .cons ?_ hkind htext rfl hrest
    rw [List.take_append_drop]
    exact hfills
termination_by l.rest.length

/-! ### What a tiled text is like -/

theorem byteLength_pos {cs : List Char} (h : cs ≠ []) : 0 < byteLength cs := by
  cases cs with
  | nil => exact absurd rfl h
  | cons c rest =>
    have hc := c.utf8Size_pos
    rw [byteLength_cons]
    omega

/-- A text has no more characters than bytes. -/
theorem length_le_byteLength (cs : List Char) : cs.length ≤ byteLength cs := by
  induction cs with
  | nil => exact Nat.le_refl 0
  | cons c rest ih =>
    have hc := c.utf8Size_pos
    rw [byteLength_cons, List.length_cons]
    omega

namespace Tiles

variable {offset : Nat} {cs : List Char} {tokens : List Token}

/-- There are no more tokens than bytes, the one for the end of the text apart. -/
theorem length_le (h : Tiles offset cs tokens) : tokens.length ≤ byteLength cs + 1 := by
  induction h with
  | last _ => exact Nat.le_add_left _ _
  | cons _ _ htext _ _ ih =>
    have hpos := byteLength_pos htext
    simp only [List.length_cons, byteLength_append]
    omega

/-- The last token, and no other, stands for the end of the text. All the others cover something. -/
theorem ends (h : Tiles offset cs tokens) :
    ∃ inner newline, tokens
        = inner ++ [⟨.eof, "", .point (offset + byteLength cs), newline⟩]
      ∧ ∀ t ∈ inner, t.kind ≠ .eof ∧ t.span.start < t.span.stop := by
  induction h with
  | @last offset gap _ => exact ⟨[], gap.any endsLine, rfl, by simp⟩
  | @cons offset start gap kind text rest tokens _ hkind htext hstart _ ih =>
    obtain ⟨inner, newline, rfl, hinner⟩ := ih
    have hend : start + byteLength text + byteLength rest
        = offset + byteLength (gap.flatMap chars ++ text ++ rest) := by
      rw [byteLength_append, byteLength_append, hstart]
      omega
    refine ⟨_ :: inner, newline, by rw [hend]; rfl, fun t ht => ?_⟩
    rcases List.mem_cons.1 ht with rfl | ht
    · exact ⟨hkind, Nat.lt_add_of_pos_right (byteLength_pos htext)⟩
    · exact hinner t ht

/-- The text of a token is what stands at its place. -/
theorem slice (h : Tiles offset cs tokens) {t : Token} (ht : t ∈ tokens) :
    ∃ before after, cs = before ++ t.text.toList ++ after
      ∧ t.span = ⟨offset + byteLength before,
          offset + byteLength before + byteLength t.text.toList⟩ := by
  induction h with
  | @last offset gap _ =>
    obtain rfl := List.mem_singleton.1 ht
    exact ⟨gap.flatMap chars, [], by simp, rfl⟩
  | @cons offset start gap kind text rest tokens _ _ _ hstart _ ih =>
    rcases List.mem_cons.1 ht with rfl | ht
    · refine ⟨gap.flatMap chars, rest, ?_, ?_⟩
      · rw [String.toList_ofList]
      · rw [String.toList_ofList, ← hstart]
    · obtain ⟨before, after, hrest, hspan⟩ := ih ht
      refine ⟨gap.flatMap chars ++ text ++ before, after, by simp [hrest], ?_⟩
      have hoffset : start + byteLength text + byteLength before
          = offset + byteLength (gap.flatMap chars ++ text ++ before) := by
        rw [byteLength_append, byteLength_append, hstart]
        omega
      rw [hspan, hoffset]

theorem offset_le (h : Tiles offset cs tokens) {t : Token} (ht : t ∈ tokens) :
    offset ≤ t.span.start := by
  obtain ⟨before, _, -, hspan⟩ := h.slice ht
  rw [hspan]
  exact Nat.le_add_right _ _

/-- Every token begins behind the ones in front of it. -/
theorem pairwise (h : Tiles offset cs tokens) :
    tokens.Pairwise fun a b => a.span.stop ≤ b.span.start ∧ a.span.start < b.span.start := by
  induction h with
  | last _ => exact List.pairwise_singleton _ _
  | cons _ _ htext _ hrest ih =>
    refine List.pairwise_cons.2 ⟨fun t ht => ?_, ih⟩
    have hpos := byteLength_pos htext
    have hle := hrest.offset_le ht
    exact ⟨hle, by dsimp only; omega⟩

end Tiles

/-- **Lexing tiles the source.** A text has at most one token more than it has bytes. The last token
stands for the end of the text; every other one covers something and begins behind those in front of
it. Every token has the text that stands at its place, between two characters of the source. In
front of each token, and behind the last one, stand only pieces of trivia, and the token knows
whether one of them ends a line. No lexeme, wherever it begins, is longer than the text. -/
theorem tokens_ofString (source : String) (privateNames : Bool) :
    (ofString source privateNames).tokens.length ≤ source.utf8ByteSize + 1
    ∧ (∃ inner newline, (ofString source privateNames).tokens
          = inner ++ [⟨.eof, "", ⟨source.utf8ByteSize, source.utf8ByteSize⟩, newline⟩]
        ∧ ∀ t ∈ inner, t.kind ≠ .eof ∧ t.span.start < t.span.stop)
    ∧ (ofString source privateNames).tokens.Pairwise
        (fun a b => a.span.stop ≤ b.span.start ∧ a.span.start < b.span.start)
    ∧ (∀ t ∈ (ofString source privateNames).tokens,
        ∃ before after, source = before ++ t.text ++ after
          ∧ t.span = ⟨before.utf8ByteSize, before.utf8ByteSize + t.text.utf8ByteSize⟩)
    ∧ Tiles 0 source.toList (ofString source privateNames).tokens
    ∧ ∀ before after, source.toList = before ++ after →
        (Lexeme.read privateNames after).length ≤ after.length := by
  have htile : Tiles 0 source.toList (ofString source privateNames).tokens :=
    tokens_tile (ofString source privateNames)
  have hsize : byteLength source.toList = source.utf8ByteSize := byteLength_toList source
  refine ⟨?_, ?_, htile.pairwise, fun t ht => ?_, htile, fun _ after _ => ?_⟩
  · rw [← hsize]
    exact htile.length_le
  · obtain ⟨inner, newline, htokens, hinner⟩ := htile.ends
    rw [Nat.zero_add, hsize] at htokens
    exact ⟨inner, newline, htokens, hinner⟩
  · obtain ⟨before, after, hsource, hspan⟩ := htile.slice ht
    refine ⟨String.ofList before, String.ofList after, ?_, ?_⟩
    · apply String.toList_injective
      simpa using hsource
    · rw [hspan, byteLength_ofList, byteLength_toList, Nat.zero_add]
  · exact Lexeme.read_le privateNames after

end Lexer

end EcmaScript
