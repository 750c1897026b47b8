import EcmaScript.Grammar.Script
import EcmaScript.Proofs.Relation.Frame
import Mathlib.Tactic.Common

namespace EcmaScript

/-!
# Tokens in the two modes of the lexer

A sigil begins a private name in one mode of the lexer, and nothing in the other. Where no token is
invalid, both modes cut a text into the same tokens.

* `Lexeme.privateName_of_read` — what a private name looks like;
* `Lexeme.read_of_valid` — what is valid without private names reads the same with them;
* `Lexer.forall_mem_tokens` — what holds of every token that is read holds of all the tokens;
* `Lexer.tokens_of_valid` — a text of valid tokens has the same ones in both modes;
* `Lexer.getElem_tokens_eof` — the end of the text is the last token, and no other;
* `Context.Spells.ne_empty` — a private name that can be decoded is not empty.
-/

/-! ### Lexemes -/

namespace Lexeme

theorem word_kind (cs : List Char) :
    (word cs).kind = .identifier ∨ ∃ k, (word cs).kind = .keyword k := by
  unfold word
  dsimp only
  split <;> simp

theorem escapedIdentifier_kind (cs : List Char) :
    (escapedIdentifier cs).kind = .identifier ∨ (escapedIdentifier cs).kind = .invalid := by
  unfold escapedIdentifier
  split <;> simp

theorem decimalNumber_kind (cs : List Char) :
    (decimalNumber cs).kind = .number ∨ (decimalNumber cs).kind = .invalid := by
  unfold decimalNumber
  dsimp only
  split <;> simp

theorem number_kind (cs : List Char) :
    (number cs).kind = .number ∨ (number cs).kind = .invalid := by
  unfold number
  split
  case h_7 => exact decimalNumber_kind _
  all_goals simp [radixNumber]

theorem stringTail_kind (quote : Char) (read : Nat) (cs : List Char) :
    (stringTail quote read cs).kind = .string ∨ (stringTail quote read cs).kind = .invalid := by
  fun_induction stringTail quote read cs <;> simp_all

theorem punctuator_kind (cs : List Char) :
    (∃ p, (punctuator cs).kind = .punctuator p) ∨ (punctuator cs).kind = .invalid := by
  unfold punctuator
  split <;> simp

/-- A lexeme other than a private name or a string is told by its kind. -/
theorem kind_ne_of_read (cs : List Char) {kind : TokenKind}
    (h : kind = .privateName ∨ kind = .string) :
    (word cs).kind ≠ kind ∧ (escapedIdentifier cs).kind ≠ kind ∧ (number cs).kind ≠ kind
      ∧ (punctuator cs).kind ≠ kind := by
  have hword := word_kind cs
  have hescaped := escapedIdentifier_kind cs
  have hnumber := number_kind cs
  have hpunctuator := punctuator_kind cs
  refine ⟨?_, ?_, ?_, ?_⟩
  · rintro rfl
    rcases h with h | h <;> simp [h] at hword
  · rintro rfl
    rcases h with h | h <;> simp [h] at hescaped
  · rintro rfl
    rcases h with h | h <;> simp [h] at hnumber
  · rintro rfl
    rcases h with h | h <;> simp [h] at hpunctuator

/-- No punctuator begins with a sigil. -/
theorem punctuator_sigil (rest : List Char) : punctuator ('#' :: rest) = ⟨.invalid, 1⟩ := by
  have hnone : Punctuator.longest? ('#' :: rest) = none := by
    refine List.find?_eq_none.2 fun p _ hp => ?_
    cases p <;> simp [Punctuator.spelling] at hp
  rw [punctuator, hnone]

/-- **A private name begins with a sigil**, and is read only where private names are on. -/
theorem privateName_of_read {privateNames : Bool} {cs : List Char}
    (h : (read privateNames cs).kind = .privateName) :
    privateNames = true ∧ ∃ rest, cs = '#' :: rest ∧ read privateNames cs = privateName rest := by
  cases cs with
  | nil => cases h
  | cons c rest =>
    obtain ⟨hword, hescaped, hnumber, hpunctuator⟩ :=
      kind_ne_of_read (c :: rest) (.inl rfl)
    simp only [read] at h ⊢
    split at h
    · cases h
    rw [if_neg ‹_›]
    split at h
    · exact absurd h hword
    rw [if_neg ‹_›]
    split at h
    · exact absurd h hescaped
    rw [if_neg ‹_›]
    split at h
    · exact absurd h hnumber
    rw [if_neg ‹_›]
    split at h
    · have hstring := stringTail_kind c 1 rest
      rw [string] at h
      simp [h] at hstring
    rw [if_neg ‹_›]
    split at h
    next hsigil =>
      simp only [Bool.and_eq_true, decide_eq_true_eq] at hsigil
      obtain ⟨rfl, hon⟩ := hsigil
      exact ⟨hon, rest, rfl, by rw [if_pos (by simp [hon])]⟩
    next => exact absurd h hpunctuator

/-- A string begins with a quote. -/
theorem string_of_read {privateNames : Bool} {cs : List Char}
    (h : (read privateNames cs).kind = .string) :
    ∃ quote rest, cs = quote :: rest ∧ (quote = '"' ∨ quote = '\'')
      ∧ read privateNames cs = string quote rest := by
  cases cs with
  | nil => cases h
  | cons c rest =>
    obtain ⟨hword, hescaped, hnumber, hpunctuator⟩ :=
      kind_ne_of_read (c :: rest) (.inr rfl)
    simp only [read] at h ⊢
    split at h
    · cases h
    rw [if_neg ‹_›]
    split at h
    · exact absurd h hword
    rw [if_neg ‹_›]
    split at h
    · exact absurd h hescaped
    rw [if_neg ‹_›]
    split at h
    · exact absurd h hnumber
    rw [if_neg ‹_›]
    split at h
    next hquote => exact ⟨c, rest, rfl, by simpa using hquote, by rw [if_pos hquote]⟩
    split at h
    · cases h
    · exact absurd h hpunctuator

/-- **What is valid reads the same in both modes.** Only a sigil reads differently, and without
private names it is invalid. -/
theorem read_of_valid {cs : List Char} (h : (read false cs).kind ≠ .invalid) :
    read true cs = read false cs := by
  cases cs with
  | nil => rfl
  | cons c rest =>
    by_cases hsigil : c = '#'
    · subst hsigil
      refine absurd ?_ h
      have hread : read false ('#' :: rest) = punctuator ('#' :: rest) := rfl
      rw [hread, punctuator_sigil]
    · simp [read, hsigil]

/-- A text that goes on behind the sigil has a name there, which cannot begin with a backslash that
begins no Unicode escape. -/
theorem privateTail_cons {cs : List Char} (h : cs.take (privateTail cs) ≠ []) :
    ∃ c rest, cs.take (privateTail cs) = c :: rest ∧ (c = '\\' → ∃ more, rest = 'u' :: more) := by
  cases cs with
  | nil => exact absurd rfl h
  | cons c rest =>
    by_cases hc : c = '\\'
    · subst hc
      simp only [privateTail, if_true] at h ⊢
      split at h
      next n hscan =>
        -- A complete escape has a `u` behind the backslash, and more than two characters.
        have hu : ∃ more, rest = 'u' :: more ∧ 2 ≤ n := by
          unfold scanEscape at hscan
          split at hscan
          next more heq =>
            obtain rfl := (List.cons.inj heq).2
            refine ⟨_, rfl, ?_⟩
            dsimp only at hscan
            split at hscan
            · injection hscan with hscan
              omega
            · cases hscan
          next more _ heq =>
            obtain rfl := (List.cons.inj heq).2
            refine ⟨_, rfl, ?_⟩
            dsimp only at hscan
            split at hscan
            · injection hscan with hscan
              omega
            · cases hscan
          next => cases hscan
        obtain ⟨more, rfl, hn⟩ := hu
        obtain ⟨k, hk⟩ := Nat.exists_eq_add_of_le hn
        refine ⟨'\\', 'u' :: (more.take (k + identifierTail (('\\' :: 'u' :: more).drop n))), ?_,
          fun _ => ⟨_, rfl⟩⟩
        rw [hk, show 2 + k + identifierTail (('\\' :: 'u' :: more).drop (2 + k))
          = k + identifierTail (('\\' :: 'u' :: more).drop (2 + k)) + 1 + 1 by omega,
          List.take_succ_cons, List.take_succ_cons]
      next => exact absurd rfl h
    · by_cases hstart : CharSet.identifierStart.has c || isForeignLetter c
      · have htail : privateTail (c :: rest) = identifierTail rest + 1 := by
          simp [privateTail, hc, hstart]
        rw [htail]
        exact ⟨c, _, List.take_succ_cons, fun heq => absurd heq hc⟩
      · have htail : privateTail (c :: rest) = 0 := by simp [privateTail, hc, hstart]
        rw [htail] at h
        exact absurd rfl h

end Lexeme

/-! ### Tokens -/

namespace Lexer

/-- The list of tokens is the next one, and the tokens behind it unless the text ends. -/
theorem tokens_eq (l : Lexer) :
    l.tokens = if l.next.1.kind = .eof then [l.next.1] else l.next.1 :: l.next.2.tokens := by
  rw [tokens]
  split
  next t after h =>
    rw [h]
    simp

/-- At the end of the text the next token is that end, and the lexer stays there. -/
theorem next_atEnd (offset : Nat) (privateNames : Bool) :
    next ⟨offset, [], privateNames⟩ = (.endOfText offset, ⟨offset, [], privateNames⟩) := by
  rw [next, Trivia.leading]
  rfl

/-- At the end of the text there is only that end. -/
theorem tokens_atEnd (offset : Nat) (privateNames : Bool) :
    tokens ⟨offset, [], privateNames⟩ = [.endOfText offset] := by
  rw [tokens_eq, next_atEnd]
  rfl

/-- The mode of a lexer stays. -/
theorem next_privateNames (l : Lexer) : l.next.2.privateNames = l.privateNames := by
  unfold next token
  dsimp only
  split <;> rfl

/-- **What holds of every token that is read holds of all the tokens.** -/
theorem forall_mem_tokens {P : Token → Prop} (l : Lexer)
    (h : ∀ (m : Lexer) (newline : Bool), m.privateNames = l.privateNames → P (m.token newline).1) :
    ∀ t ∈ l.tokens, P t := by
  intro t ht
  have hnext : P l.next.1 := h _ _ rfl
  rw [tokens_eq] at ht
  split at ht
  · rwa [List.mem_singleton.1 ht]
  · rename_i hmore
    rcases List.mem_cons.1 ht with rfl | ht
    · exact hnext
    · have := next_rest_length_lt hmore
      exact forall_mem_tokens l.next.2 (fun m newline hm => h m newline (by
        rw [hm, next_privateNames])) t ht
termination_by l.rest.length

/-- The end of the text is the last token, and no other one is. -/
theorem getElem_tokens_eof (l : Lexer) (i : Nat) (hi : i < l.tokens.length) :
    (l.tokens[i]).kind = .eof ↔ i + 1 = l.tokens.length := by
  by_cases hend : l.next.1.kind = .eof
  · have htokens : l.tokens = [l.next.1] := by rw [tokens_eq, if_pos hend]
    have hlength : l.tokens.length = 1 := by rw [htokens]; rfl
    obtain rfl : i = 0 := by omega
    simp [htokens, hend]
  · have htokens : l.tokens = l.next.1 :: l.next.2.tokens := by rw [tokens_eq, if_neg hend]
    have hlength : l.tokens.length = l.next.2.tokens.length + 1 := by rw [htokens]; rfl
    have hsome : l.next.2.tokens ≠ [] := by
      rw [tokens_eq]
      split <;> simp
    have hpos := List.length_pos_iff.2 hsome
    have := next_rest_length_lt hend
    cases i with
    | zero =>
      simp only [htokens, List.getElem_cons_zero, List.length_cons]
      exact ⟨fun h => absurd h hend, fun h => by omega⟩
    | succ i =>
      simp only [htokens, List.getElem_cons_succ, List.length_cons, Nat.add_right_cancel_iff]
      exact getElem_tokens_eof l.next.2 i (by omega)
termination_by l.rest.length

/-- Both modes read a valid token as the same one, and go on at the same place. -/
theorem next_of_valid {l : Lexer} (hmode : l.privateNames = false) (h : l.next.1.kind ≠ .invalid) :
    ({ l with privateNames := true } : Lexer).next
      = (l.next.1, { l.next.2 with privateNames := true }) := by
  obtain ⟨offset, rest, mode⟩ := l
  obtain rfl : mode = false := hmode
  unfold next token at h ⊢
  simp only [skip] at h ⊢
  split at h
  next => simp
  next c cs hrest =>
    have hread := Lexeme.read_of_valid (by simpa [lexeme] using h)
    simp [lexeme, hread]

/-- **A text of valid tokens has the same ones in both modes.** -/
theorem tokens_of_valid (l : Lexer) (hmode : l.privateNames = false)
    (h : ∀ t ∈ l.tokens, t.kind ≠ .invalid) :
    ({ l with privateNames := true } : Lexer).tokens = l.tokens := by
  have hfirst : l.next.1 ∈ l.tokens := by
    rw [tokens_eq]
    split <;> simp
  have hnext := next_of_valid hmode (h _ hfirst)
  rw [tokens_eq, hnext, tokens_eq l]
  by_cases hend : l.next.1.kind = .eof
  · rw [if_pos hend, if_pos hend]
  · rw [if_neg hend, if_neg hend]
    have := next_rest_length_lt hend
    rw [tokens_of_valid l.next.2 (by rw [next_privateNames, hmode]) fun t ht => h t ?_]
    rw [tokens_eq, if_neg hend]
    exact List.mem_cons_of_mem _ ht
termination_by l.rest.length

/-- Where private names are off, no token is one. -/
theorem kind_ne_privateName_of_mem_tokens {l : Lexer} (hmode : l.privateNames = false) :
    ∀ t ∈ l.tokens, t.kind ≠ .privateName := by
  refine forall_mem_tokens l fun m newline hm => ?_
  unfold token
  split
  · simp [Token.endOfText]
  · intro h
    obtain ⟨hon, -⟩ := Lexeme.privateName_of_read h
    rw [hm, hmode] at hon
    cases hon

/-- A private name with more than its sigil goes on behind it, and not with a backslash that begins
no Unicode escape. -/
theorem text_of_privateName (l : Lexer) :
    ∀ t ∈ l.tokens, t.kind = .privateName → 1 < t.span.length →
      ∃ c rest, t.text.toList.drop 1 = c :: rest ∧ (c = '\\' → ∃ more, rest = 'u' :: more) := by
  refine forall_mem_tokens l fun m newline _ => ?_
  unfold token
  split
  · exact fun h => by cases h
  · intro h hlength
    obtain ⟨-, after, hrest, hread⟩ := Lexeme.privateName_of_read h
    have hfound : m.lexeme.length = Lexeme.privateTail after + 1 := by
      rw [lexeme, hread]
      simp [Lexeme.privateName]
    have htake : m.rest.take m.lexeme.length = '#' :: after.take (Lexeme.privateTail after) := by
      rw [hfound, hrest, List.take_succ_cons]
    have hsome : after.take (Lexeme.privateTail after) ≠ [] := by
      intro hnil
      simp only [skip, Span.length, htake, hnil, byteLength_cons, byteLength_nil] at hlength
      have : '#'.utf8Size = 1 := rfl
      omega
    obtain ⟨c, rest, htail, hc⟩ := Lexeme.privateTail_cons hsome
    refine ⟨c, rest, ?_, hc⟩
    show (String.ofList (m.rest.take m.lexeme.length)).toList.drop 1 = c :: rest
    rw [htake, String.toList_ofList, List.drop_one, List.tail_cons, htail]

end Lexer

/-! ### Decoded names -/

namespace Escape

/-- A Unicode escape stands for one character. -/
theorem read?_unicode {more out after : List Char} (h : read? ('u' :: more) = some (out, after)) :
    out ≠ [] := by
  have one {found : Option (Char × List Char)}
      (h : found.map (fun p => ([p.1], p.2)) = some (out, after)) : out ≠ [] := by
    obtain ⟨⟨c, rest⟩, -, heq⟩ := Option.map_eq_some_iff.1 h
    obtain ⟨rfl, -⟩ := Prod.mk.inj heq
    exact List.cons_ne_nil _ _
  by_cases hbrace : ∃ rest, more = '\x7b' :: rest
  · obtain ⟨rest, rfl⟩ := hbrace
    rw [read?] at h
    exact one h
  · rw [read?] at h
    · exact one h
    · exact fun rest hmore => hbrace ⟨rest, hmore⟩

/-- A name that does not begin with an escape, or begins with a Unicode escape, is not empty. -/
theorem decodeName?_ne_empty {c : Char} {rest : List Char} {name : String}
    (hc : c = '\\' → ∃ more, rest = 'u' :: more)
    (h : decodeName? (String.ofList (c :: rest)) = some name) : name ≠ "" := by
  rw [decodeName?] at h
  split at h
  · rw [decodeString?, String.toList_ofList] at h
    obtain ⟨cs, hcs, rfl⟩ := Option.map_eq_some_iff.1 h
    have hne : cs ≠ [] := by
      rw [decode?] at hcs
      split at hcs
      next heq =>
        obtain ⟨more, rfl⟩ := hc heq
        split at hcs
        next => cases hcs
        next out after hread =>
          obtain ⟨ds, -, rfl⟩ := Option.map_eq_some_iff.1 hcs
          exact List.append_ne_nil_of_left_ne_nil (read?_unicode hread) _
      next =>
        obtain ⟨ds, -, rfl⟩ := Option.map_eq_some_iff.1 hcs
        exact List.cons_ne_nil _ _
    intro hempty
    exact hne (by simpa using congrArg String.toList hempty)
  · obtain rfl := Option.some.inj h
    intro hempty
    simpa using congrArg String.toList hempty

end Escape

namespace Context

/-- A token of a source text is one that the lexer read, or the end of the text. -/
theorem token_ofSource (source : String) (privateNames : Bool) (options : Options) (i : Nat) :
    (ofSource source privateNames options).token i ∈ (Lexer.ofString source privateNames).tokens
      ∨ ((ofSource source privateNames options).token i).kind = .eof := by
  have htoken : (ofSource source privateNames options).token i
      = (Lexer.ofString source privateNames).tokens.getD i (.endOfText source.utf8ByteSize) := by
    simp [token, ofSource]
  rw [htoken]
  by_cases hi : i < (Lexer.ofString source privateNames).tokens.length
  · left
    rw [List.getD_eq_getElem?_getD, List.getElem?_eq_getElem hi]
    exact List.getElem_mem hi
  · right
    rw [List.getD_eq_getElem?_getD, List.getElem?_eq_none (Nat.le_of_not_lt hi)]
    rfl

/-- A private name that tokens of a source text spell is not empty. -/
theorem Spells.ne_empty {source : String} {privateNames : Bool} {options : Options} {name : String}
    {span : Span} (h : (ofSource source privateNames options).Spells (name, span)) : name ≠ "" := by
  obtain ⟨i, hkind, hlength, -, hname⟩ := h
  obtain hmem | hend := token_ofSource source privateNames options i
  · obtain ⟨c, rest, htext, hc⟩ := Lexer.text_of_privateName _ _ hmem hkind hlength
    rw [htext] at hname
    exact Escape.decodeName?_ne_empty hc hname
  · rw [hkind] at hend
    cases hend

end Context

end EcmaScript
