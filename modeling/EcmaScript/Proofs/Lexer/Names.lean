import EcmaScript.Proofs.Lexer.Bounds
import EcmaScript.Proofs.Lexer.Modes
import Mathlib.Data.List.TakeWhile

namespace EcmaScript

/-!
# Names and keywords are read as far as they go

A name is the longest piece of text that is made of letters and escapes. Whether it is a keyword is
decided by the letters of ASCII at its front alone, and there a keyword ends.

* `Lexeme.IsNamePiece`, `Lexeme.IsNameRun` — what names go on with, said by the text alone;
* `Lexeme.Longest` — the longest front of a text that has some property;
* `Lexeme.longest_identifierTail` — names are read as far as they go;
* `Lexer.text_of_keyword` — the text of a keyword is its spelling;
* `Lexer.exists_place_of_mem_tokens` — where a token is read;
* `Lexer.tokens_names` — the tokens that begin with a letter of ASCII.
-/

namespace Lexeme

/-! ### Runs of letters and escapes -/

/-- What a name may go on with: a letter or digit of ASCII, `$` and `_`; a character beyond ASCII
that is not blank; an escape of four hexadecimal digits, or of some in braces. -/
inductive IsNamePiece : List Char → Prop where
  | letter {c : Char} : CharSet.identifierContinue.has c → IsNamePiece [c]
  | foreign {c : Char} : 128 ≤ c.toNat → ¬ CharSet.blank.has c → IsNamePiece [c]
  | escape {digits : List Char} : digits.length = 4 → (∀ d ∈ digits, CharSet.hexDigit.has d) →
    IsNamePiece ('\\' :: 'u' :: digits)
  | braced {digits : List Char} : digits ≠ [] → (∀ d ∈ digits, CharSet.hexDigit.has d) →
    IsNamePiece ('\\' :: 'u' :: '\x7b' :: digits ++ ['\x7d'])

/-- Pieces of a name one behind the other. -/
inductive IsNameRun : List Char → Prop where
  | nil : IsNameRun []
  | cons {piece rest : List Char} : IsNamePiece piece → IsNameRun rest → IsNameRun (piece ++ rest)

/-- The longest of the fronts of a text that have the property. -/
structure Longest (P : List Char → Prop) (run cs : List Char) : Prop where
  isRun : P run
  isFront : run <+: cs
  longest : ∀ front, P front → front <+: cs → front.length ≤ run.length

/-- There is only one. -/
theorem Longest.eq {P : List Char → Prop} {run run' cs : List Char} (h : Longest P run cs)
    (h' : Longest P run' cs) : run = run' := by
  have hlength : run.length = run'.length :=
    Nat.le_antisymm (h'.longest _ h.isRun h.isFront) (h.longest _ h'.isRun h'.isFront)
  exact (List.prefix_of_prefix_length_le h.isFront h'.isFront hlength.le).eq_of_length hlength

theorem isForeignLetter_iff {c : Char} :
    isForeignLetter c = true ↔ 128 ≤ c.toNat ∧ ¬ CharSet.blank.has c := by
  simp [isForeignLetter, isAscii]

/-- All characters of a set that stand at the front of a text. -/
theorem longest_takeWhile (set : CharSet) (cs : List Char) :
    Longest (fun run => ∀ c ∈ run, set.has c) (cs.takeWhile set.has) cs := by
  refine ⟨fun c hc => List.mem_takeWhile_imp hc, List.takeWhile_prefix _, fun front hfront h => ?_⟩
  obtain ⟨rest, rfl⟩ := h
  rw [List.takeWhile_append_of_pos hfront, List.length_append]
  exact Nat.le_add_right _ _

/-! ### Escapes -/

theorem run_append {set : CharSet} {cs : List Char} (h : ∀ c ∈ cs, set.has c)
    {rest : List Char} (hrest : rest.takeWhile set.has = []) :
    run set (cs ++ rest) = cs.length := by
  rw [run, List.takeWhile_append_of_pos h, hrest, List.append_nil]

theorem scanEscape_four {digits : List Char} (hlength : digits.length = 4)
    (h : ∀ d ∈ digits, CharSet.hexDigit.has d) (rest : List Char) :
    scanEscape ('\\' :: 'u' :: digits ++ rest) = .complete 6 := by
  -- No digit is a brace, so that the escape is one of four digits.
  have hbrace : ∀ more, digits ++ rest ≠ '\x7b' :: more := by
    intro more hmore
    obtain ⟨d, ds, rfl⟩ := List.exists_cons_of_length_pos (l := digits) (by omega)
    obtain ⟨rfl, -⟩ := List.cons.inj hmore
    exact absurd (h _ List.mem_cons_self) (by decide)
  have hrun : run .hexDigit ((digits ++ rest).take 4) = 4 := by
    rw [List.take_left' hlength, ← List.append_nil digits, run_append h rfl, hlength]
  show scanEscape ('\\' :: 'u' :: (digits ++ rest)) = _
  unfold scanEscape
  split
  next more heq => exact absurd (List.cons.inj (List.cons.inj heq).2).2 (hbrace more)
  next more _ heq =>
    obtain rfl := (List.cons.inj (List.cons.inj heq).2).2
    dsimp only
    rw [if_pos hrun]
  next hne => exact absurd rfl (hne _)

theorem scanEscape_braced {digits : List Char} (hne : digits ≠ [])
    (h : ∀ d ∈ digits, CharSet.hexDigit.has d) (rest : List Char) :
    scanEscape ('\\' :: 'u' :: '\x7b' :: digits ++ ['\x7d'] ++ rest)
      = .complete (digits.length + 4) := by
  have hrun : run .hexDigit (digits ++ '\x7d' :: rest) = digits.length := run_append h rfl
  have htext : '\\' :: 'u' :: '\x7b' :: digits ++ ['\x7d'] ++ rest
      = '\\' :: 'u' :: '\x7b' :: (digits ++ '\x7d' :: rest) := by simp
  rw [htext, scanEscape]
  rw [hrun, List.drop_left, if_pos (by simp [hne])]

/-- A complete escape is a piece of a name. -/
theorem isNamePiece_of_scanEscape {cs : List Char} {n : Nat} (h : scanEscape cs = .complete n) :
    IsNamePiece (cs.take n) := by
  have hhex (more : List Char) : ∀ d ∈ more.takeWhile CharSet.hexDigit.has, CharSet.hexDigit.has d :=
    fun d hd => List.mem_takeWhile_imp hd
  unfold scanEscape at h
  split at h
  next rest =>
    dsimp only at h
    split at h
    next hclose =>
      injection h with h
      rw [Bool.and_eq_true, decide_eq_true_eq, decide_eq_true_eq] at hclose
      obtain ⟨hrun, hhead⟩ := hclose
      obtain ⟨more, hmore⟩ := List.takeWhile_prefix (l := rest) CharSet.hexDigit.has
      have hdigits := hhex rest
      have hlength : run .hexDigit rest = (rest.takeWhile CharSet.hexDigit.has).length := rfl
      generalize rest.takeWhile CharSet.hexDigit.has = digits at hmore hdigits hlength
      have hne : digits ≠ [] := fun hnil => hrun (by rw [hlength, hnil, List.length_nil])
      rw [hlength, ← hmore, List.drop_left] at hhead
      obtain ⟨after, rfl⟩ : ∃ after, more = '\x7d' :: after := by
        cases more with
        | nil => cases hhead
        | cons c after => exact ⟨after, by rw [Option.some.inj hhead]⟩
      have htake : ('\\' :: 'u' :: '\x7b' :: rest).take n
          = '\\' :: 'u' :: '\x7b' :: digits ++ ['\x7d'] := by
        rw [← h, hlength, ← hmore]
        have htext : '\\' :: 'u' :: '\x7b' :: (digits ++ '\x7d' :: after)
            = ('\\' :: 'u' :: '\x7b' :: digits ++ ['\x7d']) ++ after := by simp
        rw [htext]
        exact List.take_left' (by simp)
      rw [htake]
      exact .braced hne hdigits
    next => cases h
  next rest _ =>
    dsimp only at h
    split at h
    next hfour =>
      injection h with h
      have hlength : ((rest.take 4).takeWhile CharSet.hexDigit.has).length = 4 := hfour
      have hall : (rest.take 4).takeWhile CharSet.hexDigit.has = rest.take 4 :=
        (List.takeWhile_prefix _).eq_of_length_le (by rw [hlength]; exact List.length_take_le _ _)
      rw [hall] at hlength
      rw [← h]
      show IsNamePiece ('\\' :: 'u' :: rest.take 4)
      exact .escape hlength (by rw [← hall]; exact hhex _)
    next => cases h
  next => cases h

/-! ### Names are read as far as they go -/

/-- A piece of a name belongs to the name, whatever follows. -/
theorem identifierTail_piece {piece : List Char} (h : IsNamePiece piece) (rest : List Char) :
    identifierTail (piece ++ rest) = piece.length + identifierTail rest := by
  -- A backslash is no letter, and so the escape behind it counts.
  have hescape {cs more : List Char} {n : Nat} (hscan : scanEscape cs = .complete n)
      (hcs : cs = '\\' :: more) :
      identifierTail cs = n + identifierTail (cs.drop n) := by
    subst hcs
    rw [identifierTail, if_neg (by decide), if_pos rfl]
    split
    next m hm =>
      rw [hscan] at hm
      obtain rfl := EscapeScan.complete.inj hm
      rfl
    next m hm =>
      rw [hscan] at hm
      cases hm
  cases h with
  | @letter c hc =>
    rw [List.singleton_append, identifierTail, if_pos (by rw [hc, Bool.true_or]), Nat.add_comm]
    rfl
  | @foreign c hascii hblank =>
    have hc := isForeignLetter_iff.2 ⟨hascii, hblank⟩
    rw [List.singleton_append, identifierTail, if_pos (by rw [hc, Bool.or_true]), Nat.add_comm]
    rfl
  | @escape digits hlength hdigits =>
    have hpiece : ('\\' :: 'u' :: digits).length = 6 := by simp [hlength]
    rw [hescape (scanEscape_four hlength hdigits rest) rfl, hpiece, List.drop_left' hpiece]
  | @braced digits hne hdigits =>
    have hpiece : ('\\' :: 'u' :: '\x7b' :: digits ++ ['\x7d']).length = digits.length + 4 := by
      simp
    rw [hescape (scanEscape_braced hne hdigits rest) rfl, hpiece, List.drop_left' hpiece]

/-- What is read of a name is made of pieces. -/
theorem isNameRun_identifierTail (cs : List Char) : IsNameRun (cs.take (identifierTail cs)) := by
  fun_induction identifierTail cs with
  | case1 => exact .nil
  | case2 c rest hc ih =>
    have hpiece : IsNamePiece [c] := by
      rcases Bool.or_eq_true_iff.1 hc with hletter | hforeign
      · exact .letter hletter
      · exact .foreign (isForeignLetter_iff.1 hforeign).1 (isForeignLetter_iff.1 hforeign).2
    exact .cons hpiece ih
  | case3 rest n _ hscan ih =>
    rw [List.take_add]
    exact .cons (isNamePiece_of_scanEscape hscan) ih
  | case4 => exact .nil
  | case5 => exact .nil

/-- **Names are read as far as they go.** -/
theorem longest_identifierTail (cs : List Char) :
    Longest IsNameRun (cs.take (identifierTail cs)) cs := by
  refine ⟨isNameRun_identifierTail cs, List.take_prefix _ _, fun front hfront h => ?_⟩
  rw [List.length_take, Nat.min_eq_left (identifierTail_le cs)]
  -- Each piece of the front is one that the name goes on with.
  induction hfront generalizing cs with
  | nil => exact Nat.zero_le _
  | @cons piece rest hpiece _ ih =>
    obtain ⟨after, rfl⟩ := h
    rw [List.append_assoc, identifierTail_piece hpiece, List.length_append]
    exact Nat.add_le_add_left (ih (rest ++ after) (List.prefix_append _ _)) _

/-- Letters of ASCII alone are pieces of a name. -/
theorem IsNameRun.of_letters {cs : List Char}
    (h : ∀ c ∈ cs, CharSet.identifierContinue.has c = true) : IsNameRun cs := by
  induction cs with
  | nil => exact .nil
  | cons c cs ih =>
    exact .cons (.letter (h c List.mem_cons_self)) (ih fun d hd => h d (List.mem_cons_of_mem _ hd))

/-- A name that begins with a letter of ASCII is not empty. -/
theorem Longest.ne_nil_of_start {name rest : List Char} {c : Char}
    (h : Longest IsNameRun name (c :: rest)) (hc : CharSet.identifierContinue.has c = true) :
    name ≠ [] := by
  have hletter : IsNameRun [c] := .of_letters fun d hd => by rwa [List.mem_singleton.1 hd]
  exact List.length_pos_iff.1 (h.longest [c] hletter ⟨rest, rfl⟩)

/-! ### Keywords -/

/-- Only letters of ASCII stand in a keyword. So a whole name spells none, if its letters of ASCII
at the front spell none. -/
theorem Longest.ne_spelling {letters name cs : List Char} (hname : Longest IsNameRun name cs)
    (hletters : Longest (fun run => ∀ c ∈ run, CharSet.identifierContinue.has c) letters cs)
    (h : ∀ k : Keyword, letters ≠ k.spelling.toList) (k : Keyword) : name ≠ k.spelling.toList := by
  intro hk
  have hspelling : k.spelling.toList.all CharSet.identifierContinue.has = true := by
    cases k <;> decide
  have hall : ∀ c ∈ name, CharSet.identifierContinue.has c = true := by
    rw [hk]
    exact List.all_eq_true.1 hspelling
  have hle := hletters.longest name hall hname.isFront
  have hge := hname.longest letters (.of_letters hletters.isRun) hletters.isFront
  have heq : letters = name :=
    (List.prefix_of_prefix_length_le hletters.isFront hname.isFront hge).eq_of_length
      (Nat.le_antisymm hge hle)
  exact h k (heq.trans hk)

end Lexeme

theorem Keyword.spelling_toList_ne_nil (k : Keyword) : k.spelling.toList ≠ [] := by
  cases k <;> decide

theorem Keyword.spelling_injective {k k' : Keyword}
    (h : k.spelling.toList = k'.spelling.toList) : k = k' := by
  have hsome := k.ofSpelling?_spelling
  rw [String.toList_injective h, k'.ofSpelling?_spelling] at hsome
  exact (Option.some.inj hsome).symm

namespace Lexeme

theorem identifierContinue_of_identifierStart {c : Char}
    (h : CharSet.identifierStart.has c = true) : CharSet.identifierContinue.has c = true := by
  simp only [CharSet.identifierContinue, CharSet.identifierStart, CharSet.ofRanges, CharSet.has,
    CharSet.covers, List.any_cons, List.any_nil] at h ⊢
  grind

/-- A word by the characters that decide whether it is a keyword. -/
theorem word_eq (cs : List Char) :
    word cs =
      match Keyword.ofSpelling? (String.ofList (cs.takeWhile CharSet.identifierContinue.has)) with
      | some k => ⟨.keyword k, (cs.takeWhile CharSet.identifierContinue.has).length⟩
      | none => ⟨.identifier, identifierTail cs⟩ := by
  have htake : cs.take (run .identifierContinue cs)
      = cs.takeWhile CharSet.identifierContinue.has := by
    rw [run]
    exact (List.prefix_iff_eq_take.1 (List.takeWhile_prefix _)).symm
  simp only [← htake]
  rfl

/-- A text that begins with a letter of ASCII is read as a word. -/
theorem read_of_identifierStart (privateNames : Bool) {c : Char} (rest : List Char)
    (hascii : isAscii c = true) (hstart : CharSet.identifierStart.has c = true) :
    read privateNames (c :: rest) = word (c :: rest) := by
  rw [read, if_neg (by rw [hascii]; decide), if_pos hstart]

theorem isAscii_of_identifierStart {c : Char} (h : CharSet.identifierStart.has c = true) :
    isAscii c = true := by
  simp only [CharSet.identifierStart, CharSet.ofRanges, CharSet.has, CharSet.covers, List.any_cons,
    List.any_nil, Bool.or_false, Bool.bne_false, Bool.or_eq_true, Bool.and_eq_true,
    decide_eq_true_eq] at h
  have hle (d : Char) (hd : d.toNat < 128) (hc : c ≤ d) : isAscii c = true :=
    decide_eq_true (Nat.lt_of_le_of_lt (Char.le_def.1 hc) hd)
  obtain h | h | h | h := h
  · exact hle 'z' (by decide) h.2
  · exact hle 'Z' (by decide) h.2
  · exact hle '$' (by decide) h.2
  · exact hle '_' (by decide) h.2

/-- A keyword is read exactly where it is all that stands before the first character that is no
letter of ASCII; anything else is read as a name. -/
theorem word_of_spelling {k : Keyword} {cs : List Char}
    (h : cs.takeWhile CharSet.identifierContinue.has = k.spelling.toList) :
    word cs = ⟨.keyword k, k.spelling.toList.length⟩ := by
  rw [word_eq, h, String.ofList_toList, k.ofSpelling?_spelling]

theorem word_of_ne_spelling {cs : List Char}
    (h : ∀ k : Keyword, cs.takeWhile CharSet.identifierContinue.has ≠ k.spelling.toList) :
    word cs = ⟨.identifier, identifierTail cs⟩ := by
  rw [word_eq]
  split
  next k hk =>
    have hspelling := Keyword.spelling_of_ofSpelling? hk
    exact absurd (by rw [hspelling, String.toList_ofList]) (h k)
  next => rfl

end Lexeme

namespace Lexer

/-- A place further on in the same text, and what stands between the two. -/
structure Reaches (l : Lexer) (between : List Char) (m : Lexer) : Prop where
  rest : l.rest = between ++ m.rest
  offset : m.offset = l.offset + byteLength between
  privateNames : m.privateNames = l.privateNames

theorem Reaches.trans {l m n : Lexer} {cs ds : List Char} (h : l.Reaches cs m)
    (h' : m.Reaches ds n) : l.Reaches (cs ++ ds) n where
  rest := by rw [h.rest, h'.rest, List.append_assoc]
  offset := by rw [h'.offset, h.offset, byteLength_append, Nat.add_assoc]
  privateNames := h'.privateNames.trans h.privateNames

theorem reaches_skip (l : Lexer) (n : Nat) : l.Reaches (l.rest.take n) (l.skip n) :=
  ⟨(List.take_append_drop n l.rest).symm, rfl, rfl⟩

theorem reaches_token (l : Lexer) (newline : Bool) : ∃ cs, l.Reaches cs (l.token newline).2 := by
  unfold token
  split
  next => exact ⟨[], rfl, rfl, rfl⟩
  next => exact ⟨_, l.reaches_skip _⟩

/-- Every token is the one that stands at some place of the text. -/
theorem exists_place_of_mem_tokens (l : Lexer) {t : Token} (ht : t ∈ l.tokens) :
    ∃ before m newline, l.Reaches before m ∧ t = (m.token newline).1 := by
  have hskip := l.reaches_skip ((Trivia.leading l.rest).flatMap Trivia.chars).length
  rw [tokens_eq] at ht
  split at ht
  next =>
    obtain rfl := List.mem_singleton.1 ht
    exact ⟨_, _, _, hskip, rfl⟩
  next hmore =>
    rcases List.mem_cons.1 ht with rfl | ht
    · exact ⟨_, _, _, hskip, rfl⟩
    · have := next_rest_length_lt hmore
      obtain ⟨before, m, newline, hm, heq⟩ := exists_place_of_mem_tokens l.next.2 ht
      obtain ⟨cs, hcs⟩ := reaches_token (l.skip ((Trivia.leading l.rest).flatMap Trivia.chars).length)
        ((Trivia.leading l.rest).any Trivia.endsLine)
      exact ⟨_, m, newline, (hskip.trans hcs).trans hm, heq⟩
termination_by l.rest.length

/-- A text is cut at an offset in one way only. -/
theorem eq_of_byteLength_eq {before before' after after' : List Char}
    (h : before ++ after = before' ++ after') (hlength : byteLength before = byteLength before') :
    before = before' ∧ after = after' := by
  induction before generalizing before' with
  | nil =>
    cases before' with
    | nil => exact ⟨rfl, h⟩
    | cons c before' =>
      have hpos := c.utf8Size_pos
      rw [byteLength_nil, byteLength_cons] at hlength
      omega
  | cons c before ih =>
    cases before' with
    | nil =>
      have hpos := c.utf8Size_pos
      rw [byteLength_nil, byteLength_cons] at hlength
      omega
    | cons c' before' =>
      obtain ⟨rfl, hrest⟩ := List.cons.inj h
      rw [byteLength_cons, byteLength_cons] at hlength
      obtain ⟨rfl, hafter⟩ := ih hrest (Nat.add_left_cancel hlength)
      exact ⟨rfl, hafter⟩

end Lexer

/-- The token has this text, at the place that begins at an offset. -/
structure Token.Covers (t : Token) (start : Nat) (cs : List Char) : Prop where
  text : t.text = String.ofList cs
  span : t.span = ⟨start, start + Lexer.byteLength cs⟩

namespace Lexer

open Lexeme

/-- The token at a place whose text begins with a letter of ASCII is a word. -/
theorem token_of_identifierStart (l : Lexer) (newline : Bool) {c : Char} {rest : List Char}
    (hrest : l.rest = c :: rest) (hstart : CharSet.identifierStart.has c = true)
    {kind : TokenKind} {run : List Char} (hrun : run <+: c :: rest) (hne : run ≠ [])
    (hword : word (c :: rest) = ⟨kind, run.length⟩) :
    (l.token newline).1.kind = kind ∧ (l.token newline).1.Covers l.offset run := by
  have hpos := List.length_pos_iff.2 hne
  have hlexeme : l.lexeme = ⟨kind, run.length⟩ := by
    rw [lexeme, hrest, read_of_identifierStart _ _ (isAscii_of_identifierStart hstart) hstart, hword]
    exact congrArg _ (Nat.max_eq_left hpos)
  have htake : l.rest.take run.length = run := by
    rw [hrest]
    exact (List.prefix_iff_eq_take.1 hrun).symm
  unfold token
  split
  next hnil =>
    rw [hrest] at hnil
    cases hnil
  next =>
    dsimp only
    rw [hlexeme, skip, htake]
    exact ⟨rfl, rfl, rfl⟩

/-- **Names and keywords are read as far as they go.** Where a token begins with a letter of ASCII,
take the longest name from there, and the longest run of ASCII letters at its front. Unless these
letters spell a keyword and the name goes on behind them, the token covers the whole name; it is a
keyword if and only if the name is spelled like it, and an identifier if there is no such keyword.
Where the letters spell a keyword, the token is this keyword and ends there, also if an escape or a
letter beyond ASCII follows. -/
theorem tokens_names {source : String} {privateNames : Bool} {t : Token} {before after : List Char}
    {c : Char} (ht : t ∈ (ofString source privateNames).tokens)
    (hsource : source.toList = before ++ after) (hplace : t.span.start = byteLength before)
    (hhead : after.head? = some c) (hstart : CharSet.identifierStart.has c = true) :
    ∃ letters name, Longest (fun run => ∀ d ∈ run, CharSet.identifierContinue.has d) letters after
      ∧ Longest IsNameRun name after
      ∧ ((∀ k : Keyword, letters = k.spelling.toList → letters = name) →
          t.Covers (byteLength before) name
          ∧ (∀ k : Keyword, t.kind = .keyword k ↔ name = k.spelling.toList)
          ∧ (t.kind = .identifier ↔ ∀ k : Keyword, name ≠ k.spelling.toList))
      ∧ ∀ k : Keyword, letters = k.spelling.toList →
          t.kind = .keyword k ∧ t.Covers (byteLength before) letters := by
  obtain ⟨rest, rfl⟩ : ∃ rest, after = c :: rest := by
    cases after with
    | nil => cases hhead
    | cons d rest => exact ⟨rest, by rw [Option.some.inj hhead]⟩
  -- The token is read where the text is cut.
  obtain ⟨before', m, newline, hm, rfl⟩ := exists_place_of_mem_tokens _ ht
  have hoffset : m.offset = byteLength before := by
    rw [← hplace]
    unfold token
    split <;> rfl
  have hcut : before = before' ∧ c :: rest = m.rest := by
    refine eq_of_byteLength_eq (hsource.symm.trans hm.rest) ?_
    rw [← hoffset, hm.offset]
    exact Nat.zero_add _
  have htoken {kind : TokenKind} {run : List Char} :=
    @token_of_identifierStart m newline c rest hcut.2.symm hstart kind run
  rw [hoffset] at htoken
  have hletters := longest_takeWhile CharSet.identifierContinue (c :: rest)
  have hname := longest_identifierTail (c :: rest)
  have hkeyword : ∀ k : Keyword, (c :: rest).takeWhile CharSet.identifierContinue.has
      = k.spelling.toList → (m.token newline).1.kind = .keyword k
        ∧ (m.token newline).1.Covers (byteLength before)
          ((c :: rest).takeWhile CharSet.identifierContinue.has) := by
    intro k hk
    refine htoken hletters.isFront ?_ (by rw [word_of_spelling hk, hk])
    rw [hk]
    exact k.spelling_toList_ne_nil
  refine ⟨_, _, hletters, hname, fun hcondition => ?_, hkeyword⟩
  by_cases hspells : ∃ k : Keyword,
      (c :: rest).takeWhile CharSet.identifierContinue.has = k.spelling.toList
  · obtain ⟨k, hk⟩ := hspells
    obtain ⟨hkind, hcovers⟩ := hkeyword k hk
    have heq := hcondition k hk
    rw [heq] at hcovers hk
    refine ⟨hcovers, fun k' => ?_, ?_⟩
    · rw [hkind, hk]
      exact ⟨fun h => by rw [TokenKind.keyword.inj h], fun h => by rw [Keyword.spelling_injective h]⟩
    · rw [hkind]
      exact ⟨fun h => (by cases h), fun h => absurd hk (h k)⟩
  · have hnone : ∀ k : Keyword, (c :: rest).takeWhile CharSet.identifierContinue.has
        ≠ k.spelling.toList := fun k hk => hspells ⟨k, hk⟩
    have hname' := hname.ne_spelling hletters hnone
    have hlength : ((c :: rest).take (identifierTail (c :: rest))).length
        = identifierTail (c :: rest) :=
      List.length_take_of_le (identifierTail_le _)
    obtain ⟨hkind, hcovers⟩ := htoken hname.isFront
      (hname.ne_nil_of_start (identifierContinue_of_identifierStart hstart))
      (by rw [word_of_ne_spelling hnone, hlength])
    refine ⟨hcovers, fun k => ?_, ?_⟩
    · rw [hkind]
      exact ⟨fun h => (by cases h), fun h => absurd h (hname' k)⟩
    · rw [hkind]
      exact ⟨fun _ => hname', fun _ => rfl⟩

/-- A name with a keyword and a letter beyond ASCII in it is read in one piece. -/
theorem tokens_names_accent : ∃ t ∈ (ofString "if classyé" false).tokens,
    t.Covers 3 "classyé".toList ∧ t.kind = .identifier := by
  have htokens : (⟨.identifier, "classyé", ⟨3, 11⟩, false⟩ : Token)
      ∈ (ofString "if classyé" false).tokens := by
    decide +kernel
  have hsource : "if classyé".toList = "if ".toList ++ "classyé".toList := by decide
  have hhead : "classyé".toList.head? = some 'c' := by decide
  obtain ⟨letters, name, hletters, hname, hword, -⟩ :=
    tokens_names htokens hsource (by decide) hhead (by decide)
  have hl : letters = "classy".toList := by
    rw [hletters.eq (longest_takeWhile CharSet.identifierContinue _)]
    decide +kernel
  have hn : name = "classyé".toList := by
    rw [hname.eq (longest_identifierTail _)]
    decide +kernel
  subst hl hn
  obtain ⟨hcovers, -, hidentifier⟩ := hword fun k hk => absurd hk (by cases k <;> decide)
  exact ⟨_, htokens, hcovers, hidentifier.2 fun k => by cases k <;> decide⟩

end Lexer

end EcmaScript
