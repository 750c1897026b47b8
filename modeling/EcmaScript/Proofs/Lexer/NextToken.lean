import EcmaScript.Proofs.Lexer.Separated
import EcmaScript.Proofs.Lexer.Tiling

namespace EcmaScript

/-!
# The next token, by the text alone

A place of a text is cut into trivia, the text of the next token, and what is left.

* `Trivia.leading_eq` — pieces in front of a text that begins with none are all its trivia;
* `Lexer.Cut` — how a text is cut at a place;
* `Lexer.exists_cut`, `Lexer.Cut.next` — the next token stands for the one way to cut it;
* `Lexer.Cut.separate` — the cut stays where it is, if a separator stands anywhere behind it.
-/

/-! ### Trivia -/

namespace Trivia

variable {gap : List Trivia} {cs after : List Char}

/-- A line comment goes on through its first LF. -/
theorem lineCommentBody_append {body : List Char} (hbody : '\n' ∉ body) (after : List Char) :
    lineCommentBody (body ++ '\n' :: after) = body ++ ['\n'] := by
  have hline : (body ++ '\n' :: after).takeWhile (· ≠ '\n') = body := by
    rw [List.takeWhile_append_of_pos fun c hc => ?_]
    · simp
    · simpa using fun heq : c = '\n' => hbody (heq ▸ hc)
  rw [lineCommentBody, hline]
  exact List.take_length_add_append 1

/-- A block comment goes on through its first closing mark. -/
theorem blockCommentBody_append {body : List Char} (hbody : ¬ closing <:+: body ++ ['*'])
    (after : List Char) :
    blockCommentBody (body ++ closing ++ after) = body ++ closing := by
  induction body with
  | nil => rfl
  | cons c body ih =>
    have hrest : ¬ closing <:+: body ++ ['*'] :=
      fun h => hbody (h.trans (List.suffix_cons _ _).isInfix)
    rw [List.cons_append, List.cons_append, blockCommentBody, ih hrest]
    -- A closing mark would begin with `c`.
    intro more hc hmore
    cases body with
    | nil => exact absurd (List.cons.inj hmore).1 (by decide)
    | cons d body =>
      obtain ⟨hd, -⟩ := List.cons.inj hmore
      exact hbody ⟨[], body ++ ['*'], by rw [hc, hd]; rfl⟩

/-- What begins no comment. -/
theorem take?_cons {c : Char} {rest : List Char} (hline : ∀ after, c :: rest ≠ '/' :: '/' :: after)
    (hblock : ∀ after, c :: rest ≠ '/' :: '*' :: after) : take? (c :: rest) =
      if CharSet.lineTerminator.has c then some (lineTerminator c)
      else if CharSet.whitespace.has c then some (whitespace c)
      else none := by
  rw [take?]
  · exact fun after hc hrest => hline after (by rw [hc, hrest])
  · exact fun after hc hrest => hblock after (by rw [hc, hrest])

/-- A line comment that nothing ends goes on through the end of the text. -/
theorem lineCommentBody_of_notMem {body : List Char} (hbody : '\n' ∉ body) :
    lineCommentBody body = body := by
  obtain ⟨front, -, heq⟩ | ⟨-, heq⟩ := lineCommentBody_eq body
  · have hmem : '\n' ∈ lineCommentBody body := by
      rw [heq]
      exact List.mem_append_right _ (List.mem_singleton.2 rfl)
    exact absurd (List.mem_of_mem_take hmem) hbody
  · exact heq

/-- So does a block comment. -/
theorem blockCommentBody_of_not_infix {body : List Char} (hbody : ¬ closing <:+: body) :
    blockCommentBody body = body := by
  obtain ⟨front, -, heq⟩ | ⟨-, heq⟩ := blockCommentBody_eq body
  · refine absurd (List.IsInfix.trans ?_ (blockCommentBody_isPrefix body).isInfix) hbody
    rw [heq]
    exact (List.suffix_append _ _).isInfix
  · exact heq

/-- A piece of trivia is taken as far as it goes. -/
theorem take?_of_isPiece {t : Trivia} (h : IsPiece t after) :
    take? (t.chars ++ after) = some t := by
  have single {c : Char} (hslash : c ≠ '/') : take? (c :: after) =
      if CharSet.lineTerminator.has c then some (.lineTerminator c)
      else if CharSet.whitespace.has c then some (.whitespace c)
      else none :=
    take?_cons (fun _ heq => hslash (List.cons.inj heq).1) fun _ heq => hslash (List.cons.inj heq).1
  cases h with
  | @whitespace c _ hc =>
    have hslash : c ≠ '/' := by
      rintro rfl
      exact absurd hc (by decide)
    have hline : ¬ CharSet.lineTerminator.has c := by
      intro h
      rw [CharSet.lineTerminator, CharSet.has_ofList] at h
      simp only [List.mem_cons, List.not_mem_nil, or_false] at h
      rcases h with rfl | rfl | rfl | rfl <;> exact absurd hc (by decide)
    rw [chars, List.singleton_append, single hslash, if_neg hline, if_pos hc]
  | @lineTerminator c _ hc =>
    have hslash : c ≠ '/' := by
      rintro rfl
      exact absurd hc (by decide)
    have hline : CharSet.lineTerminator.has c := CharSet.has_ofList.2 hc
    rw [chars, List.singleton_append, single hslash, if_pos hline]
  | @lineComment body _ hbody =>
    show take? ('/' :: '/' :: (body ++ ['\n'] ++ after)) = _
    rw [take?, List.append_assoc, List.singleton_append, lineCommentBody_append hbody]
  | @openLineComment body hbody =>
    show take? ('/' :: '/' :: (body ++ [])) = _
    rw [take?, List.append_nil, lineCommentBody_of_notMem hbody]
  | @blockComment body _ hbody =>
    show take? ('/' :: '*' :: (body ++ closing ++ after)) = _
    rw [take?, blockCommentBody_append hbody]
  | @openBlockComment body hbody =>
    show take? ('/' :: '*' :: (body ++ [])) = _
    rw [take?, List.append_nil, blockCommentBody_of_not_infix hbody]

/-- The trivia in front of a text that begins with none. -/
theorem leading_eq (hfills : Fills gap after) (hnone : take? after = none) :
    leading (gap.flatMap chars ++ after) = gap := by
  induction hfills with
  | nil =>
    rw [List.flatMap_nil, List.nil_append, leading]
    split
    next => rfl
    next t ht => cases hnone.symm.trans ht
  | @cons t rest after hpiece _ ih =>
    have htake := take?_of_isPiece hpiece
    rw [List.flatMap_cons, List.append_assoc, leading]
    split
    next h => cases htake.symm.trans h
    next u hu =>
      obtain rfl := Option.some.inj (htake.symm.trans hu)
      rw [List.drop_left, ih hnone]

/-- What stands behind the trivia begins with none. -/
theorem take?_of_leading (h : cs = (leading cs).flatMap chars ++ after) : take? after = none := by
  fun_induction leading cs generalizing after with
  | case1 cs hnone =>
    rw [List.flatMap_nil, List.nil_append] at h
    rwa [← h]
  | case2 cs t ht ih =>
    rw [List.flatMap_cons, List.append_assoc] at h
    refine ih ?_
    conv_lhs => rw [h]
    exact List.drop_left

/-- A text that begins with no trivia begins with none if it goes on behind a separator. -/
theorem take?_cut {x y : List Char} {c : Char} (h : take? (x ++ y) = none) (hx : x ≠ [])
    (hc : IsSeparator c) (z : List Char) : take? (x ++ c :: z) = none := by
  obtain ⟨d, x, rfl⟩ := List.exists_cons_of_ne_nil hx
  rw [List.cons_append] at h
  have hline (after : List Char) : d :: (x ++ y) ≠ '/' :: '/' :: after := by
    intro heq
    rw [heq, take?] at h
    cases h
  have hblock (after : List Char) : d :: (x ++ y) ≠ '/' :: '*' :: after := by
    intro heq
    rw [heq, take?] at h
    cases h
  rw [take?_cons hline hblock] at h
  -- A comment that begins here has both of its characters in front of the separator.
  rw [List.cons_append, take?_cons, h]
  · intro after heq
    obtain ⟨after', hafter⟩ := Lexeme.exists_front (x := d :: x) hc (by decide) (by decide) heq
    exact hline (after' ++ y) (congrArg (· ++ y) hafter)
  · intro after heq
    obtain ⟨after', hafter⟩ := Lexeme.exists_front (x := d :: x) hc (by decide) (by decide) heq
    exact hblock (after' ++ y) (congrArg (· ++ y) hafter)

/-- A piece behind which the text goes on has an end of its own, whatever follows. -/
theorem IsPiece.of_ne_nil {t : Trivia} (h : IsPiece t after) (hafter : after ≠ [])
    (after' : List Char) : IsPiece t after' := by
  cases h with
  | whitespace hc => exact .whitespace hc
  | lineTerminator hc => exact .lineTerminator hc
  | lineComment hbody => exact .lineComment hbody
  | openLineComment _ => exact absurd rfl hafter
  | blockComment hbody => exact .blockComment hbody
  | openBlockComment _ => exact absurd rfl hafter

/-- Trivia behind which the text goes on is the same, whatever follows. -/
theorem Fills.of_ne_nil (h : Fills gap after) (hafter : after ≠ []) (after' : List Char) :
    Fills gap after' := by
  induction h with
  | nil => exact .nil
  | cons hpiece _ ih =>
    exact .cons (hpiece.of_ne_nil (List.append_ne_nil_of_right_ne_nil _ hafter) _) (ih hafter)

end Trivia

namespace Lexer

/-- The next token, by the trivia in front of it and the text behind that. -/
theorem next_eq (l : Lexer) : ∃ gap after, l.rest = gap.flatMap Trivia.chars ++ after
    ∧ Trivia.leading l.rest = gap ∧ Trivia.Fills gap after ∧ Trivia.take? after = none
    ∧ l.next = token ⟨l.offset + byteLength (gap.flatMap Trivia.chars), after, l.privateNames⟩
        (gap.any Trivia.endsLine) := by
  obtain ⟨after, hafter⟩ := Trivia.leading_isPrefix l.rest
  refine ⟨_, after, hafter.symm, rfl, Trivia.leading_fills hafter.symm,
    Trivia.take?_of_leading hafter.symm, ?_⟩
  rw [next, skip]
  generalize (Trivia.leading l.rest).flatMap Trivia.chars = cs at hafter
  rw [← hafter, List.take_left, List.drop_left]

/-- What stands behind some trivia is the next token. -/
theorem next_of_fills {l : Lexer} {gap : List Trivia} {after : List Char}
    (hrest : l.rest = gap.flatMap Trivia.chars ++ after) (hfills : Trivia.Fills gap after)
    (hnone : Trivia.take? after = none) :
    l.next = token ⟨l.offset + byteLength (gap.flatMap Trivia.chars), after, l.privateNames⟩
      (gap.any Trivia.endsLine) := by
  have hleading := Trivia.leading_eq hfills hnone
  rw [← hrest] at hleading
  rw [next, skip, hleading, hrest, List.take_left, List.drop_left]

/-- A place is cut into trivia, the text of a token of some kind, and what is left. -/
structure Cut (l : Lexer) (gap : List Trivia) (kind : TokenKind) (text rest : List Char) :
    Prop where
  rest_eq : l.rest = gap.flatMap Trivia.chars ++ (text ++ rest)
  fills : Trivia.Fills gap (text ++ rest)
  take?_eq_none : Trivia.take? (text ++ rest) = none
  text_ne_nil : text ≠ []
  read_kind : (Lexeme.read l.privateNames (text ++ rest)).kind = kind
  read_length : max (Lexeme.read l.privateNames (text ++ rest)).length 1 = text.length

namespace Cut

variable {l : Lexer} {gap : List Trivia} {kind : TokenKind} {text rest : List Char}

/-- **How a place is cut decides what the next token is.** -/
theorem next (h : l.Cut gap kind text rest) :
    l.next = (⟨kind, String.ofList text, ⟨l.offset + byteLength (gap.flatMap Trivia.chars),
        l.offset + byteLength (gap.flatMap Trivia.chars) + byteLength text⟩,
        gap.any Trivia.endsLine⟩,
      ⟨l.offset + byteLength (gap.flatMap Trivia.chars) + byteLength text, rest,
        l.privateNames⟩) := by
  obtain ⟨c, cs, rfl⟩ := List.exists_cons_of_ne_nil h.text_ne_nil
  have hlength := h.read_length
  rw [next_of_fills h.rest_eq h.fills h.take?_eq_none, token]
  simp only [List.cons_append, lexeme, skip] at hlength ⊢
  rw [hlength, ← List.cons_append, List.take_left, List.drop_left, List.cons_append]
  simp only [← List.cons_append, h.read_kind]

theorem kind_ne_eof (h : l.Cut gap kind text rest) : kind ≠ .eof := by
  obtain ⟨c, cs, rfl⟩ := List.exists_cons_of_ne_nil h.text_ne_nil
  rw [← h.read_kind]
  exact Lexeme.read_cons_kind_ne_eof _ c (cs ++ rest)

/-- **A place with a separator further on is cut at the same characters**, whatever stands in front
of its token and behind the separator. -/
theorem separate {m : Lexer} {gap' : List Trivia} {x y z : List Char} {c : Char}
    (h : l.Cut gap kind text (x ++ y)) (hvalid : kind ≠ .invalid) (hc : IsSeparator c)
    (hfar : Lexeme.Absorbs kind c → x ≠ []) (hmode : m.privateNames = l.privateNames)
    (hrest : m.rest = gap'.flatMap Trivia.chars ++ (text ++ (x ++ c :: z)))
    (hfills : Trivia.Fills gap' (text ++ (x ++ c :: z))) : m.Cut gap' kind text (x ++ c :: z) := by
  have hne : text ++ x ≠ [] := List.append_ne_nil_of_left_ne_nil h.text_ne_nil x
  have htake := h.take?_eq_none
  have hkind := h.read_kind
  have hlength := h.read_length
  rw [← List.append_assoc] at htake hkind hlength
  have hread : Lexeme.read m.privateNames (text ++ x ++ c :: z)
      = Lexeme.read l.privateNames (text ++ x ++ y) := by
    rw [hmode]
    refine Lexeme.read_cut hne hc (by rwa [hkind]) ?_ (fun habsorbs => ?_) z
    · rw [List.length_append]
      omega
    · rw [hkind] at habsorbs
      have := List.length_pos_iff.2 (hfar habsorbs)
      rw [List.length_append]
      omega
  refine ⟨hrest, hfills, ?_, h.text_ne_nil, ?_, ?_⟩
  · rw [← List.append_assoc]
    exact Trivia.take?_cut htake hne hc z
  · rw [← List.append_assoc, hread, hkind]
  · rw [← List.append_assoc, hread, hlength]

end Cut

/-- A place can be cut behind its trivia, if something is left there. -/
theorem exists_cut_of_fills {l : Lexer} {gap : List Trivia} {after : List Char}
    (hrest : l.rest = gap.flatMap Trivia.chars ++ after) (hfills : Trivia.Fills gap after)
    (hnone : Trivia.take? after = none) (hne : after ≠ []) :
    ∃ kind text rest, after = text ++ rest ∧ l.Cut gap kind text rest := by
  have hle := Lexeme.read_le l.privateNames after
  have hpos := List.length_pos_iff.2 hne
  generalize hn : max (Lexeme.read l.privateNames after).length 1 = n
  have htext : (after.take n).length = n := by
    rw [List.length_take]
    omega
  have hsplit : after.take n ++ after.drop n = after := List.take_append_drop n after
  refine ⟨_, after.take n, after.drop n, hsplit.symm, ?_, ?_, ?_, ?_, rfl, ?_⟩
  · rwa [hsplit]
  · rwa [hsplit]
  · rwa [hsplit]
  · exact List.length_pos_iff.1 (by omega)
  · rw [hsplit, hn, htext]

/-- **In front of its end, every text can be cut.** -/
theorem exists_cut {l : Lexer} (h : l.next.1.kind ≠ .eof) :
    ∃ gap kind text rest, l.Cut gap kind text rest := by
  obtain ⟨gap, after, hrest, -, hfills, hnone, hnext⟩ := l.next_eq
  have hne : after ≠ [] := by
    rintro rfl
    rw [hnext] at h
    exact absurd rfl h
  obtain ⟨kind, text, rest, -, hcut⟩ := exists_cut_of_fills hrest hfills hnone hne
  exact ⟨gap, kind, text, rest, hcut⟩

/-- Where nothing but trivia is left, the text ends. -/
theorem next_of_trivia {l : Lexer} {gap : List Trivia} (hrest : l.rest = gap.flatMap Trivia.chars)
    (hfills : Trivia.Fills gap []) :
    l.next = (⟨.eof, "", .point (l.offset + byteLength (gap.flatMap Trivia.chars)),
        gap.any Trivia.endsLine⟩,
      ⟨l.offset + byteLength (gap.flatMap Trivia.chars), [], l.privateNames⟩) :=
  next_of_fills (by rw [hrest, List.append_nil]) hfills rfl

/-- At the end of a text, nothing but trivia is left. -/
theorem exists_trivia {l : Lexer} (h : l.next.1.kind = .eof) :
    ∃ gap, l.rest = gap.flatMap Trivia.chars ∧ Trivia.Fills gap [] := by
  obtain ⟨gap, after, hrest, -, hfills, -, hnext⟩ := l.next_eq
  cases after with
  | nil => exact ⟨gap, by rw [hrest, List.append_nil], hfills⟩
  | cons c cs =>
    rw [hnext] at h
    exact absurd h (Lexeme.read_cons_kind_ne_eof _ c cs)

end Lexer

end EcmaScript
