import EcmaScript.Proofs.Lexer.Names

namespace EcmaScript

/-!
# Lexemes end at a separator

Where a lexeme ends inside of some text, a separator behind this text changes nothing, whatever
follows it. There is one exception: the byte order mark separates tokens, but is not blank, and so a
name that it follows at once goes on with it.

* `IsSeparator` — the characters that are trivia by themselves;
* `Lexeme.Absorbs` — the exception, a kind of lexeme with a character that belongs to it although it
  is a separator;
* `Lexeme.identifierTail_cut`, `Lexeme.number_cut`, `Lexeme.stringTail_cut`, … — one lemma for each
  class of lexemes;
* `Lexeme.read_cut` — all of them together.
-/

/-! ### Separators -/

/-- The character stands between tokens, and is a piece of trivia by itself. -/
def IsSeparator (c : Char) : Prop :=
  CharSet.whitespace.has c = true ∨ CharSet.lineTerminator.has c = true

instance (c : Char) : Decidable (IsSeparator c) := inferInstanceAs (Decidable (_ ∨ _))

theorem CharSet.has_ofRanges {ranges : List (Char × Char)} {c : Char} :
    (ofRanges ranges).has c = true ↔ ∃ r ∈ ranges, r.1.toNat ≤ c.toNat ∧ c.toNat ≤ r.2.toNat := by
  simp [has, covers, ofRanges, Char.le_def, UInt32.le_iff_toNat_le]

/-- The character is no letter of ASCII and no digit, and stands in no escape. -/
structure EndsName (c : Char) : Prop where
  identifierContinue : CharSet.identifierContinue.has c = false
  hexDigit : CharSet.hexDigit.has c = false
  ne_backslash : c ≠ '\\'
  ne_escape : c ∉ ['u', '\x7b', '\x7d']

namespace IsSeparator

variable {c : Char}

/-- The separators of ASCII. -/
def ascii : List Char := ['\t', '\n', '\x0b', '\x0c', '\r', ' ']

/-- Beyond ASCII, only the byte order mark is a separator without being blank. -/
theorem mem_ascii_or (h : IsSeparator c) :
    c ∈ ascii ∨ 128 ≤ c.toNat ∧ (CharSet.blank.has c = true ∨ c = '\ufeff') := by
  obtain h | h := h
  · have heq {d : Char} : c = d ↔ c.toNat = d.toNat := Char.toNat_inj.symm
    rw [CharSet.whitespace, CharSet.has_ofRanges] at h
    simp only [ascii, List.mem_cons, List.not_mem_nil, or_false, heq, CharSet.blank,
      CharSet.has_ofRanges, exists_eq_or_imp, exists_eq_left, Char.reduceToNat] at h ⊢
    omega
  · rw [CharSet.lineTerminator, CharSet.has_ofList] at h
    simp only [List.mem_cons, List.not_mem_nil, or_false] at h
    rcases h with rfl | rfl | rfl | rfl <;> decide

theorem ne (h : IsSeparator c) {d : Char} (hd : ¬ IsSeparator d) : c ≠ d := by
  rintro rfl
  exact hd h

/-- A set of other characters of ASCII has no separator in it. -/
theorem has_eq_false (h : IsSeparator c) {ranges : List (Char × Char)}
    (hascii : ∀ r ∈ ranges, r.2.toNat < 128)
    (hother : ascii.any (CharSet.ofRanges ranges).has = false) :
    (CharSet.ofRanges ranges).has c = false := by
  obtain hmem | ⟨hbeyond, -⟩ := h.mem_ascii_or
  · exact Bool.not_eq_true _ ▸ List.any_eq_false.1 hother c hmem
  · rw [← Bool.not_eq_true, CharSet.has_ofRanges]
    rintro ⟨r, hr, -, hle⟩
    have := hascii r hr
    omega

theorem identifierContinue (h : IsSeparator c) : CharSet.identifierContinue.has c = false :=
  h.has_eq_false (by decide) (by decide)

theorem hexDigit (h : IsSeparator c) : CharSet.hexDigit.has c = false :=
  h.has_eq_false (by decide) (by decide)

theorem decimalDigit (h : IsSeparator c) : CharSet.decimalDigit.has c = false :=
  h.has_eq_false (by decide) (by decide)

theorem octalDigit (h : IsSeparator c) : CharSet.octalDigit.has c = false :=
  h.has_eq_false (by decide) (by decide)

theorem binaryDigit (h : IsSeparator c) : CharSet.binaryDigit.has c = false :=
  h.has_eq_false (by decide) (by decide)

/-- The one separator that names go on with. -/
theorem isForeignLetter_iff (h : IsSeparator c) : Lexeme.isForeignLetter c = true ↔ c = '\ufeff' := by
  refine ⟨fun hforeign => ?_, fun heq => by rw [heq]; decide⟩
  rw [Lexeme.isForeignLetter_iff] at hforeign
  obtain hmem | ⟨-, hblank | heq⟩ := h.mem_ascii_or
  · have hlow : ascii.all (·.toNat < 128) = true := rfl
    have := of_decide_eq_true (List.all_eq_true.1 hlow c hmem)
    omega
  · exact absurd hblank hforeign.2
  · exact heq

/-- No name goes on with a separator, but for the byte order mark. -/
theorem endsName (h : IsSeparator c) : EndsName c where
  identifierContinue := h.identifierContinue
  hexDigit := h.hexDigit
  ne_backslash := h.ne (by decide)
  ne_escape := by simp [h.ne (d := 'u') (by decide), h.ne (d := '\x7b') (by decide),
    h.ne (d := '\x7d') (by decide)]

/-- No punctuator goes on with a separator. -/
theorem notMem_tail (h : IsSeparator c) (p : Punctuator) : c ∉ p.spelling.toList.tail := by
  have hother : p.spelling.toList.tail.any (fun d => decide (IsSeparator d)) = false := by
    cases p <;> decide
  exact fun hmem => List.any_eq_false.1 hother c hmem (decide_eq_true h)

end IsSeparator

/-! ### Punctuators -/

namespace Punctuator

/-- A text that goes on with a character that stands in no tail of a punctuator begins with the same
punctuators. -/
theorem isPrefixOf_append {d : Char} {cs : List Char} (hcs : cs ≠ [])
    (rest : List Char) {p : Punctuator} (hd : d ∉ p.spelling.toList.tail) :
    p.spelling.toList.isPrefixOf (cs ++ d :: rest) = p.spelling.toList.isPrefixOf cs := by
  rw [Bool.eq_iff_iff, List.isPrefixOf_iff_prefix, List.isPrefixOf_iff_prefix]
  refine ⟨fun h => ?_, fun h => h.trans (List.prefix_append _ _)⟩
  have hmem {more : List Char} (hmore : cs ++ [d] ++ more = p.spelling.toList) :
      d ∈ p.spelling.toList.tail := by
    rw [← hmore, List.append_assoc, List.tail_append_of_ne_nil hcs]
    exact List.mem_append_right _ (List.mem_append_left _ (List.mem_singleton.2 rfl))
  obtain hprefix | ⟨more, hmore⟩ := List.prefix_or_prefix_of_prefix h
    (show cs ++ [d] <+: cs ++ d :: rest from ⟨rest, by simp⟩)
  · obtain heq | hprefix := List.prefix_concat_iff.1 hprefix
    · exact absurd (hmem (by rw [heq, List.append_nil])) hd
    · exact hprefix
  · exact absurd (hmem hmore) hd

/-- The longest punctuator is still the longest one in the text that it is left with. -/
theorem longest?_of_append {x y : List Char} {p : Punctuator} (h : longest? (x ++ y) = some p)
    (hle : p.spelling.toList.length ≤ x.length) : longest? x = some p := by
  have hfront : p.spelling.toList <+: x :=
    List.prefix_of_prefix_length_le (spelling_isPrefixOf_of_longest? h) (List.prefix_append _ _) hle
  rw [longest?, List.find?_eq_some_iff_append] at h ⊢
  obtain ⟨-, longer, shorter, hall, hlonger⟩ := h
  refine ⟨List.isPrefixOf_iff_prefix.2 hfront, longer, shorter, hall, fun q hq => ?_⟩
  have hnot := hlonger q hq
  simp only [Bool.not_eq_true', ← Bool.not_eq_true, List.isPrefixOf_iff_prefix] at hnot ⊢
  exact fun hbegins => hnot (hbegins.trans (List.prefix_append _ _))

theorem longest?_cut {x y : List Char} {p : Punctuator} {c : Char} (h : longest? (x ++ y) = some p)
    (hle : p.spelling.toList.length ≤ x.length) (hc : IsSeparator c) (z : List Char) :
    longest? (x ++ c :: z) = some p := by
  have hx : x ≠ [] := List.length_pos_iff.1 (Nat.lt_of_lt_of_le p.spelling_length_pos hle)
  have hprefix (q : Punctuator) := isPrefixOf_append hx z (hc.notMem_tail q)
  rw [← longest?_of_append h hle]
  simp only [longest?, hprefix]

end Punctuator

namespace Lexeme

/-- A name, private or not, takes in the character that follows it. -/
def Absorbs (kind : TokenKind) (c : Char) : Prop :=
  (kind = .identifier ∨ kind = .privateName) ∧ isForeignLetter c = true

section

variable {c : Char} {x y : List Char}

theorem run_cut {set : CharSet} (hc : set.has c = false) (hle : run set (x ++ y) ≤ x.length)
    (z : List Char) : run set (x ++ c :: z) = run set (x ++ y) := by
  unfold run at hle ⊢
  induction x with
  | nil =>
    rw [List.nil_append, List.takeWhile_cons, hc]
    exact (Nat.le_zero.1 hle).symm
  | cons d x ih =>
    rw [List.cons_append, List.takeWhile_cons] at hle ⊢
    rw [List.cons_append, List.takeWhile_cons]
    split
    next hd =>
      rw [if_pos hd] at hle
      rw [List.length_cons, List.length_cons, ih (Nat.le_of_succ_le_succ hle)]
    next => rfl

/-- Two characters other than a separator stand in front of the first separator. -/
theorem exists_front {d e : Char} (hc : IsSeparator c) (hd : ¬ IsSeparator d) (he : ¬ IsSeparator e)
    {z rest : List Char} (h : x ++ c :: z = d :: e :: rest) : ∃ after, x = d :: e :: after := by
  rcases x with _ | ⟨d', _ | ⟨e', x⟩⟩
  · exact absurd (List.cons.inj h).1 (hc.ne hd)
  · exact absurd (List.cons.inj (List.cons.inj h).2).1 (hc.ne he)
  · obtain ⟨hfirst, hrest⟩ := List.cons.inj h
    exact ⟨x, by rw [hfirst, (List.cons.inj hrest).1]⟩

/-! ### Names -/

/-- A character that ends names is all of the piece of a name that it stands in. -/
theorem IsNamePiece.eq_of_mem {piece : List Char} (h : IsNamePiece piece) (hc : EndsName c)
    (hmem : c ∈ piece) : piece = [c] ∧ isForeignLetter c = true := by
  have hhex {digits : List Char} (hdigits : ∀ d ∈ digits, CharSet.hexDigit.has d) : c ∉ digits := by
    intro hmem
    have hdigit := hdigits c hmem
    rw [hc.hexDigit] at hdigit
    cases hdigit
  have hback := hc.ne_backslash
  obtain ⟨hu, hopen, hclose⟩ : c ≠ 'u' ∧ c ≠ '\x7b' ∧ c ≠ '\x7d' := by simpa using hc.ne_escape
  cases h with
  | letter hd =>
    obtain rfl := List.mem_singleton.1 hmem
    rw [hc.identifierContinue] at hd
    cases hd
  | foreign hbeyond hblank =>
    obtain rfl := List.mem_singleton.1 hmem
    exact ⟨rfl, Lexeme.isForeignLetter_iff.2 ⟨hbeyond, hblank⟩⟩
  | escape _ hdigits =>
    have := hhex hdigits
    simp_all
  | braced _ hdigits =>
    have := hhex hdigits
    simp_all

/-- A character that ends names stands behind a run of pieces in every longer one. -/
theorem IsNameRun.of_append_cons {z : List Char} (hc : EndsName c) (h : IsNameRun (x ++ c :: z)) :
    isForeignLetter c = true ∧ IsNameRun x := by
  generalize hcs : x ++ c :: z = cs at h
  induction h generalizing x with
  | nil => exact absurd hcs (List.append_ne_nil_of_right_ne_nil _ (List.cons_ne_nil c z))
  | @cons piece rest hpiece _ ih =>
    obtain ⟨x', rfl, hrest⟩ | ⟨more, rfl, hmore⟩ := List.append_eq_append_iff.1 hcs.symm
    · obtain ⟨hforeign, hx'⟩ := ih hrest.symm
      exact ⟨hforeign, .cons hpiece hx'⟩
    · cases more with
      | nil =>
        obtain ⟨hforeign, -⟩ := @ih [] hmore
        exact ⟨hforeign, by simpa using IsNameRun.cons hpiece .nil⟩
      | cons d more =>
        obtain ⟨rfl, -⟩ := List.cons.inj hmore
        obtain ⟨heq, hforeign⟩ := hpiece.eq_of_mem hc (by simp)
        rw [List.append_eq_singleton_iff] at heq
        obtain ⟨rfl, -⟩ | ⟨-, hnil⟩ := heq
        · exact ⟨hforeign, .nil⟩
        · cases hnil

/-- An escape begins with a backslash. -/
theorem exists_cons_of_scanEscape {cs : List Char} {n : Nat} (h : scanEscape cs = .complete n) :
    ∃ rest, cs = '\\' :: rest := by
  unfold scanEscape at h
  split at h
  · exact ⟨_, rfl⟩
  · exact ⟨_, rfl⟩
  · cases h

theorem le_length_of_scanEscape {cs : List Char} {n : Nat} (h : scanEscape cs = .complete n) :
    n ≤ cs.length := by
  obtain ⟨rest, rfl⟩ := exists_cons_of_scanEscape h
  have hle := scanEscape_le (List.cons_ne_nil '\\' rest)
  rwa [h] at hle

/-- A complete escape is one whatever follows. -/
theorem scanEscape_take {cs : List Char} {n : Nat} (h : scanEscape cs = .complete n)
    (rest : List Char) : scanEscape (cs.take n ++ rest) = .complete n := by
  have hlength : (cs.take n).length = n := List.length_take_of_le (le_length_of_scanEscape h)
  have hpiece := isNamePiece_of_scanEscape h
  obtain ⟨after, hfront⟩ : ∃ after, cs.take n = '\\' :: after := by
    obtain ⟨more, rfl⟩ := exists_cons_of_scanEscape h
    obtain ⟨k, rfl⟩ := Nat.exists_eq_add_one.2 (length_pos_of_scanEscape h)
    exact ⟨_, List.take_succ_cons⟩
  generalize cs.take n = piece at hlength hpiece hfront
  cases hpiece with
  | letter hd =>
    obtain rfl := (List.cons.inj hfront).1
    exact absurd hd (by decide)
  | foreign hd _ =>
    obtain rfl := (List.cons.inj hfront).1
    exact absurd hd (by decide)
  | escape hfour hdigits =>
    obtain rfl : 6 = n := by simpa [hfour] using hlength
    exact scanEscape_four hfour hdigits rest
  | braced hne hdigits =>
    rw [← hlength, scanEscape_braced hne hdigits]
    simp

/-- A complete escape stands in front of the first character that ends names. -/
theorem scanEscape_cut_iff (hc : EndsName c) {n : Nat} {z : List Char} :
    scanEscape (x ++ c :: z) = .complete n ↔ scanEscape (x ++ y) = .complete n ∧ n ≤ x.length := by
  have move {w w' : List Char} (h : scanEscape (x ++ w) = .complete n) (hle : n ≤ x.length) :
      scanEscape (x ++ w') = .complete n := by
    have htake := scanEscape_take h (x.drop n ++ w')
    rwa [List.take_append_of_le_length hle, ← List.append_assoc, List.take_append_drop] at htake
  refine ⟨fun h => ?_, fun h => move h.1 h.2⟩
  suffices hle : n ≤ x.length from ⟨move h hle, hle⟩
  by_contra hlt
  have hmem : c ∈ (x ++ c :: z).take n := by
    obtain ⟨k, rfl⟩ := Nat.exists_eq_add_of_lt (Nat.lt_of_not_le hlt)
    rw [Nat.add_assoc, List.take_length_add_append, List.take_succ_cons]
    simp
  obtain ⟨heq, -⟩ := (isNamePiece_of_scanEscape h).eq_of_mem hc hmem
  obtain ⟨more, hcons⟩ := exists_cons_of_scanEscape h
  obtain ⟨k, rfl⟩ := Nat.exists_eq_add_one.2 (length_pos_of_scanEscape h)
  rw [hcons, List.take_succ_cons] at heq
  exact hc.ne_backslash (List.cons.inj heq).1.symm

/-- A name that ends in front of such a character ends there whatever follows, unless it could go on
with the character. -/
theorem identifierTail_cut (hc : EndsName c) (hle : identifierTail (x ++ y) ≤ x.length)
    (hfar : isForeignLetter c = true → identifierTail (x ++ y) < x.length) (z : List Char) :
    identifierTail (x ++ c :: z) = identifierTail (x ++ y) := by
  have hbefore := longest_identifierTail (x ++ y)
  have hafter := longest_identifierTail (x ++ c :: z)
  have hlength (cs : List Char) : (cs.take (identifierTail cs)).length = identifierTail cs :=
    List.length_take_of_le (identifierTail_le cs)
  -- What a name is in one of the texts, and inside of what they share, is one in the other.
  have shared {w w' run : List Char} (hrun : run <+: x ++ w) (hshort : run.length ≤ x.length) :
      run <+: x ++ w' :=
    (List.prefix_of_prefix_length_le hrun (List.prefix_append _ _) hshort).trans
      (List.prefix_append _ _)
  refine Nat.le_antisymm ?_ ?_
  · by_cases hshort : identifierTail (x ++ c :: z) ≤ x.length
    · have hlongest := hbefore.longest _ hafter.isRun
        (shared hafter.isFront (by rwa [hlength]))
      rwa [hlength, hlength] at hlongest
    · -- The name would go on with the separator, and so it would end where the shared text ends.
      obtain ⟨k, hk⟩ := Nat.exists_eq_add_of_lt (Nat.lt_of_not_le hshort)
      have hrun := hafter.isRun
      rw [hk, Nat.add_assoc, List.take_length_add_append, List.take_succ_cons] at hrun
      obtain ⟨hforeign, hx⟩ := hrun.of_append_cons hc
      have hlongest := hbefore.longest x hx (List.prefix_append _ _)
      rw [hlength] at hlongest
      exact absurd (hfar hforeign) (Nat.not_lt.2 hlongest)
  · have hlongest := hafter.longest _ hbefore.isRun (shared hbefore.isFront (by rwa [hlength]))
    rwa [hlength, hlength] at hlongest

/-- The letters of ASCII at the front belong to the name. -/
theorem run_le_identifierTail (cs : List Char) : run .identifierContinue cs ≤ identifierTail cs := by
  have hletters := longest_takeWhile .identifierContinue cs
  have hlongest := (longest_identifierTail cs).longest _ (.of_letters hletters.isRun)
    hletters.isFront
  rwa [List.length_take_of_le (identifierTail_le cs)] at hlongest

theorem word_cut (hc : EndsName c) (hle : (word (x ++ y)).length ≤ x.length)
    (hfar : Absorbs (word (x ++ y)).kind c → (word (x ++ y)).length < x.length) (z : List Char) :
    word (x ++ c :: z) = word (x ++ y) := by
  have hletters : run .identifierContinue (x ++ y) ≤ x.length := by
    rw [word_eq] at hle
    split at hle
    next => exact hle
    next => exact (run_le_identifierTail _).trans hle
  have hrun := run_cut hc.identifierContinue hletters z
  have htake (w : List Char) : (x ++ w).take (run .identifierContinue (x ++ y))
      = x.take (run .identifierContinue (x ++ y)) := List.take_append_of_le_length hletters
  cases hword : Keyword.ofSpelling? (String.ofList (x.take (run .identifierContinue (x ++ y)))) with
  | some k => simp only [word, hrun, htake, hword]
  | none =>
    have hname : word (x ++ y) = ⟨.identifier, identifierTail (x ++ y)⟩ := by
      simp only [word, htake, hword]
    rw [hname] at hle hfar
    have htail := identifierTail_cut hc hle (fun hforeign => hfar ⟨.inl rfl, hforeign⟩) z
    simp only [word, hrun, htake, hword, htail]

/-- An escape, and what the name goes on with behind it. -/
theorem escape_cut (hc : EndsName c) {n : Nat} (hscan : scanEscape (x ++ y) = .complete n)
    (hle : n + identifierTail ((x ++ y).drop n) ≤ x.length)
    (hfar : isForeignLetter c = true → n + identifierTail ((x ++ y).drop n) < x.length)
    (z : List Char) :
    scanEscape (x ++ c :: z) = .complete n
      ∧ identifierTail ((x ++ c :: z).drop n) = identifierTail ((x ++ y).drop n) := by
  have hn : n ≤ x.length := by omega
  have hdrop (w : List Char) : (x ++ w).drop n = x.drop n ++ w := List.drop_append_of_le_length hn
  rw [hdrop] at hle hfar
  refine ⟨(scanEscape_cut_iff hc).2 ⟨hscan, hn⟩, ?_⟩
  rw [hdrop, hdrop]
  refine identifierTail_cut hc ?_ (fun hforeign => ?_) z
  · rw [List.length_drop]
    omega
  · have := hfar hforeign
    rw [List.length_drop]
    omega

theorem escapedIdentifier_cut (hc : EndsName c)
    (hvalid : (escapedIdentifier (x ++ y)).kind ≠ .invalid)
    (hle : (escapedIdentifier (x ++ y)).length ≤ x.length)
    (hfar : Absorbs (escapedIdentifier (x ++ y)).kind c →
      (escapedIdentifier (x ++ y)).length < x.length) (z : List Char) :
    escapedIdentifier (x ++ c :: z) = escapedIdentifier (x ++ y) := by
  unfold escapedIdentifier at hvalid hle hfar ⊢
  cases hscan : scanEscape (x ++ y) with
  | complete n =>
    rw [hscan] at hle hfar
    obtain ⟨hscan', htail⟩ := escape_cut hc hscan hle (fun hforeign => hfar ⟨.inl rfl, hforeign⟩) z
    simp only [hscan', htail]
  | broken n =>
    rw [hscan] at hvalid
    exact absurd rfl hvalid

theorem privateTail_cut (hc : IsSeparator c) (hle : privateTail (x ++ y) ≤ x.length)
    (hfar : isForeignLetter c = true → privateTail (x ++ y) < x.length) (z : List Char) :
    privateTail (x ++ c :: z) = privateTail (x ++ y) := by
  cases x with
  | nil =>
    -- No name follows the sigil, and none begins with the separator.
    have hforeign : isForeignLetter c = false := by
      rw [← Bool.not_eq_true]
      exact fun hforeign => absurd (hfar hforeign) (Nat.not_lt_zero _)
    have hstart : CharSet.identifierStart.has c = false := by
      rw [← Bool.not_eq_true]
      exact fun hstart => absurd (identifierContinue_of_identifierStart hstart)
        (by rw [hc.identifierContinue]; decide)
    rw [Nat.le_zero.1 hle, List.nil_append, privateTail, if_neg (hc.ne (by decide)),
      if_neg (by rw [hstart, hforeign]; decide)]
  | cons d x =>
    rw [List.cons_append, privateTail] at hle hfar ⊢
    rw [List.cons_append, privateTail]
    split
    next hback =>
      rw [if_pos hback] at hle hfar
      simp only [← List.cons_append] at hle hfar ⊢
      cases hscan : scanEscape (d :: x ++ y) with
      | complete n =>
        rw [hscan] at hle hfar
        obtain ⟨hscan', htail⟩ := escape_cut hc.endsName hscan hle hfar z
        simp only [hscan', htail]
      | broken n =>
        cases hscan' : scanEscape (d :: x ++ c :: z) with
        | complete m =>
          obtain ⟨hcomplete, -⟩ := (scanEscape_cut_iff hc.endsName (y := y)).1 hscan'
          cases hscan.symm.trans hcomplete
        | broken m => rfl
    next hback =>
      rw [if_neg hback] at hle hfar
      split
      next hstart =>
        rw [if_pos hstart] at hle hfar
        rw [identifierTail_cut hc.endsName (Nat.le_of_succ_le_succ hle)
          (fun hforeign => Nat.lt_of_succ_lt_succ (hfar hforeign))]
      next => rfl

/-! ### Numbers -/

theorem exponentTail?_cut (hc : IsSeparator c) {n : Nat} (h : exponentTail? (x ++ y) = some n)
    (hle : n ≤ x.length) (z : List Char) : exponentTail? (x ++ c :: z) = some n := by
  have hletter : (decide (c = 'e') || decide (c = 'E')) = false := by
    simp [hc.ne (d := 'e') (by decide), hc.ne (d := 'E') (by decide)]
  have hsign : (decide (c = '+') || decide (c = '-')) = false := by
    simp [hc.ne (d := '+') (by decide), hc.ne (d := '-') (by decide)]
  have hnone : run .decimalDigit (c :: z) = 0 := by
    rw [run, List.takeWhile_cons, hc.decimalDigit]
    rfl
  rcases x with _ | ⟨d, _ | ⟨s, x⟩⟩
  · rw [Nat.le_zero.1 hle, List.nil_append, exponentTail?.eq_def]
    dsimp only
    rw [hletter]
    rfl
  · rw [List.singleton_append, exponentTail?.eq_def] at h ⊢
    dsimp only at h ⊢
    split at h
    next hd =>
      rw [if_pos hd, hsign, hnone]
      -- Digits behind the letter would make it longer than what it ends in.
      split at h
      next => cases h
      next =>
        have hone : n ≤ 1 := hle
        split at h
        · have := Option.some.inj h
          omega
        · have := Option.some.inj h
          rw [if_neg (by decide)]
          exact congrArg some (by omega)
    next hd => rwa [if_neg hd]
  · rw [List.cons_append, List.cons_append, exponentTail?] at h ⊢
    split at h
    next hd =>
      rw [if_pos hd]
      split at h
      next hs =>
        obtain rfl := Option.some.inj h
        rw [if_pos hs, run_cut hc.decimalDigit (Nat.le_of_succ_le_succ (Nat.le_of_succ_le_succ hle))]
      next hs =>
        obtain rfl := Option.some.inj h
        rw [if_neg hs, ← List.cons_append, run_cut hc.decimalDigit (Nat.le_of_succ_le_succ hle)]
        rfl
    next hd => rwa [if_neg hd]

theorem fractionTail_cons {d : Char} (hpoint : d ≠ '.') (rest : List Char) :
    fractionTail (d :: rest) = 0 := by
  rw [fractionTail]
  exact fun after heq => hpoint (List.cons.inj heq).1

theorem fractionTail_cut (hc : IsSeparator c) (hle : fractionTail (x ++ y) ≤ x.length)
    (z : List Char) : fractionTail (x ++ c :: z) = fractionTail (x ++ y) := by
  cases x with
  | nil => rw [Nat.le_zero.1 hle, List.nil_append, fractionTail_cons (hc.ne (by decide))]
  | cons d x =>
    by_cases hpoint : d = '.'
    · subst hpoint
      rw [List.cons_append, fractionTail] at hle ⊢
      rw [List.cons_append, fractionTail, run_cut hc.decimalDigit (Nat.le_of_succ_le_succ hle)]
    · rw [List.cons_append, List.cons_append, fractionTail_cons hpoint, fractionTail_cons hpoint]

theorem decimalNumber_cut (hc : IsSeparator c) (hvalid : (decimalNumber (x ++ y)).kind ≠ .invalid)
    (hle : (decimalNumber (x ++ y)).length ≤ x.length) (z : List Char) :
    decimalNumber (x ++ c :: z) = decimalNumber (x ++ y) := by
  rw [decimalNumber_eq (x ++ y) rfl] at hvalid hle ⊢
  split at hle
  next n hn =>
    dsimp only at hle
    have hwhole : run .decimalDigit (x ++ y) ≤ x.length := by omega
    have hdrop (w : List Char) : (x ++ w).drop (run .decimalDigit (x ++ y))
        = x.drop (run .decimalDigit (x ++ y)) ++ w := List.drop_append_of_le_length hwhole
    rw [decimalNumber_eq _ (run_cut hc.decimalDigit hwhole z)]
    rw [hdrop] at hn hle ⊢
    generalize run .decimalDigit (x ++ y) = whole at hn hle hwhole hdrop ⊢
    have hlength : (x.drop whole).length = x.length - whole := List.length_drop
    have hfraction : fractionTail (x.drop whole ++ y) ≤ (x.drop whole).length := by omega
    rw [hdrop, fractionTail_cut hc hfraction]
    rw [List.drop_append_of_le_length hfraction] at hn ⊢
    rw [exponentTail?_cut hc hn (by rw [List.length_drop]; omega)]
  next hnone =>
    rw [hnone] at hvalid
    exact absurd rfl hvalid

theorem radixNumber_cut {digit : CharSet} (hdigit : digit.has c = false)
    (hle : (radixNumber digit (x ++ y)).length ≤ x.length + 2) (z : List Char) :
    radixNumber digit (x ++ c :: z) = radixNumber digit (x ++ y) := by
  rw [radixNumber, radixNumber, run_cut hdigit (Nat.le_of_add_le_add_right hle)]

/-- The digits of the bases that are named by a letter behind a zero. -/
def radixDigit? : Char → Option CharSet
  | 'b' | 'B' => some .binaryDigit
  | 'o' | 'O' => some .octalDigit
  | 'x' | 'X' => some .hexDigit
  | _ => none

theorem number_of_radixDigit? {mark : Char} {digit : CharSet} (h : radixDigit? mark = some digit)
    (rest : List Char) : number ('0' :: mark :: rest) = radixNumber digit rest := by
  unfold radixDigit? at h
  split at h
  case h_7 => cases h
  all_goals
    obtain rfl := Option.some.inj h
    rfl

theorem number_of_decimal {cs : List Char}
    (h : ∀ mark rest, cs = '0' :: mark :: rest → radixDigit? mark = none) :
    number cs = decimalNumber cs := by
  have other {mark : Char} (hmark : radixDigit? mark ≠ none) (rest : List Char) :
      cs = '0' :: mark :: rest → False := fun heq => hmark (h mark rest heq)
  rw [number]
  all_goals exact other (by decide)

theorem radixDigit?_of_isSeparator (hc : IsSeparator c) : radixDigit? c = none := by
  unfold radixDigit?
  split
  case h_7 => rfl
  all_goals exact absurd hc (by decide)

theorem radixDigit?_has {mark : Char} {digit : CharSet} (h : radixDigit? mark = some digit)
    (hc : IsSeparator c) : digit.has c = false := by
  unfold radixDigit? at h
  split at h
  case h_7 => cases h
  all_goals obtain rfl := Option.some.inj h
  case h_1 | h_2 => exact hc.binaryDigit
  case h_3 | h_4 => exact hc.octalDigit
  case h_5 | h_6 => exact hc.hexDigit

theorem number_cut (hc : IsSeparator c) (hvalid : (number (x ++ y)).kind ≠ .invalid)
    (hle : (number (x ++ y)).length ≤ x.length) (z : List Char) :
    number (x ++ c :: z) = number (x ++ y) := by
  by_cases hradix : ∃ mark digit rest, x ++ y = '0' :: mark :: rest ∧ radixDigit? mark = some digit
  · obtain ⟨mark, digit, rest, heq, hdigit⟩ := hradix
    rw [heq, number_of_radixDigit? hdigit] at hle
    -- The two characters that name the base are part of the number.
    obtain ⟨x', rfl, hrest⟩ : ∃ x', x = '0' :: mark :: x' ∧ rest = x' ++ y := by
      rcases x with _ | ⟨d, _ | ⟨e, x'⟩⟩
      · exact absurd hle (Nat.not_succ_le_zero _)
      · exact absurd hle (by simp [radixNumber])
      · obtain ⟨hd, htail⟩ := List.cons.inj heq
        obtain ⟨he, hx'⟩ := List.cons.inj htail
        exact ⟨x', by rw [hd, he], hx'.symm⟩
    rw [hrest] at hle
    rw [heq, hrest, List.cons_append, List.cons_append, number_of_radixDigit? hdigit,
      number_of_radixDigit? hdigit]
    exact radixNumber_cut (radixDigit?_has hdigit hc) hle z
  · have hdecimal : ∀ mark rest, x ++ y = '0' :: mark :: rest → radixDigit? mark = none := by
      intro mark rest heq
      by_contra hsome
      obtain ⟨digit, hdigit⟩ := Option.ne_none_iff_exists'.1 hsome
      exact hradix ⟨mark, digit, rest, heq, hdigit⟩
    have hdecimal' : ∀ mark rest, x ++ c :: z = '0' :: mark :: rest → radixDigit? mark = none := by
      intro mark rest heq
      by_cases hmark : IsSeparator mark
      · exact radixDigit?_of_isSeparator hmark
      · obtain ⟨after, rfl⟩ := exists_front hc (by decide) hmark heq
        exact hdecimal mark (after ++ y) rfl
    rw [number_of_decimal hdecimal] at hvalid hle ⊢
    rw [number_of_decimal hdecimal', decimalNumber_cut hc hvalid hle]

/-! ### Strings -/

/-- A character of a string that is no backslash. -/
theorem stringTail_cons {quote c : Char} (hc : c ≠ '\\') (read : Nat) (rest : List Char) :
    stringTail quote read (c :: rest) =
      if c = '\n' then ⟨.invalid, read + 1⟩
      else if c = quote then ⟨.string, read + 1⟩
      else stringTail quote (read + 1) rest := by
  rw [stringTail]
  · exact fun h _ => hc h
  · exact fun _ _ h _ => hc h

/-- A string has at least its closing quote in front of it. -/
theorem lt_length_stringTail (quote : Char) (read : Nat) (cs : List Char)
    (h : (stringTail quote read cs).kind ≠ .invalid) :
    read < (stringTail quote read cs).length := by
  fun_induction stringTail quote read cs with
  | case1 => exact absurd rfl h
  | case2 => exact absurd rfl h
  | case3 read _ rest ih =>
    have := ih h
    omega
  | case4 => exact absurd rfl h
  | case5 => exact Nat.lt_succ_self _
  | case6 read _ rest _ _ _ _ ih =>
    have := ih h
    omega

/-- A string ends at its closing quote, whatever follows. -/
theorem stringTail_cut {quote : Char} {read : Nat}
    (hvalid : (stringTail quote read (x ++ y)).kind ≠ .invalid)
    (hle : (stringTail quote read (x ++ y)).length ≤ read + x.length) (rest : List Char) :
    stringTail quote read (x ++ rest) = stringTail quote read (x ++ y) := by
  have plain {c : Char} {rest : List Char} (hlast : c = '\\' → rest = [] → False)
      (hmore : ∀ d after, c = '\\' → rest = d :: after → False) : c ≠ '\\' := by
    intro hc
    cases rest with
    | nil => exact hlast hc rfl
    | cons d after => exact hmore d after hc rfl
  fun_induction stringTail quote read x with
  | case1 read => exact absurd (lt_length_stringTail _ _ _ hvalid) (Nat.not_lt.2 hle)
  | case2 read =>
    have hlt := lt_length_stringTail _ _ _ hvalid
    cases y with
    | nil => exact absurd rfl hvalid
    | cons d y =>
      rw [List.singleton_append, stringTail] at hvalid hle
      have := lt_length_stringTail _ _ _ hvalid
      simp only [List.length_cons, List.length_nil] at hle
      omega
  | case3 read d x ih =>
    rw [List.cons_append, List.cons_append, stringTail] at hvalid hle ⊢
    rw [List.cons_append, List.cons_append, stringTail]
    refine ih hvalid ?_
    simp only [List.length_cons] at hle
    omega
  | case4 read x hlast hmore =>
    rw [List.cons_append, stringTail_cons (by decide), if_pos rfl] at hvalid
    exact absurd rfl hvalid
  | case5 read x hlast hmore hline =>
    rw [List.cons_append, List.cons_append, stringTail_cons (plain hlast hmore), if_neg hline,
      if_pos rfl, stringTail_cons (plain hlast hmore), if_neg hline, if_pos rfl]
  | case6 read d x hlast hmore hline hquote ih =>
    rw [List.cons_append, stringTail_cons (plain hlast hmore), if_neg hline, if_neg hquote]
      at hvalid hle ⊢
    rw [List.cons_append, stringTail_cons (plain hlast hmore), if_neg hline, if_neg hquote]
    refine ih hvalid ?_
    simp only [List.length_cons] at hle
    omega

/-! ### The lexeme at the front of a text -/

theorem punctuator_cut (hc : IsSeparator c) (hvalid : (punctuator (x ++ y)).kind ≠ .invalid)
    (hle : (punctuator (x ++ y)).length ≤ x.length) (z : List Char) :
    punctuator (x ++ c :: z) = punctuator (x ++ y) := by
  unfold punctuator at hvalid hle ⊢
  cases hlongest : Punctuator.longest? (x ++ y) with
  | none =>
    rw [hlongest] at hvalid
    exact absurd rfl hvalid
  | some p =>
    rw [hlongest] at hle
    rw [Punctuator.longest?_cut hlongest (by rwa [String.length_toList]) hc z]

theorem startsNumber_cons {d : Char} (hpoint : d ≠ '.') (rest : List Char) :
    startsNumber (d :: rest) = CharSet.decimalDigit.has d := by
  rw [startsNumber]
  exact fun _ _ h _ => hpoint h

/-- A point is read with the digit that makes it a number. -/
theorem two_le_length_number {cs : List Char} (h : startsNumber ('.' :: cs) = true) :
    2 ≤ (number ('.' :: cs)).length := by
  cases cs with
  | nil => exact absurd h (by decide)
  | cons d cs =>
    have hd : CharSet.decimalDigit.has d = true := h
    have hwhole : run .decimalDigit ('.' :: d :: cs) = 0 := rfl
    have hfraction : fractionTail ('.' :: d :: cs) = run .decimalDigit cs + 2 := by
      rw [fractionTail, run, List.takeWhile_cons, hd]
      rfl
    rw [number_of_decimal fun _ _ heq => absurd (List.cons.inj heq).1 (by decide),
      decimalNumber_eq _ hwhole, List.drop_zero, hfraction]
    split <;> dsimp only <;> omega

theorem startsNumber_cut (hx : x ≠ []) (hc : IsSeparator c)
    (hpoint : x = ['.'] → startsNumber (x ++ y) = false) (z : List Char) :
    startsNumber (x ++ c :: z) = startsNumber (x ++ y) := by
  obtain ⟨d, x, rfl⟩ := List.exists_cons_of_ne_nil hx
  by_cases hd : d = '.'
  · subst hd
    cases x with
    | nil => exact hc.decimalDigit.trans (hpoint rfl).symm
    | cons e x => rfl
  · rw [List.cons_append, List.cons_append, startsNumber_cons hd, startsNumber_cons hd]

/-- **A valid lexeme ends in front of a separator**, whatever follows, unless it is a name that the
separator would belong to. -/
theorem read_cut {privateNames : Bool} (hx : x ≠ []) (hc : IsSeparator c)
    (hvalid : (read privateNames (x ++ y)).kind ≠ .invalid)
    (hle : (read privateNames (x ++ y)).length ≤ x.length)
    (hfar : Absorbs (read privateNames (x ++ y)).kind c →
      (read privateNames (x ++ y)).length < x.length) (z : List Char) :
    read privateNames (x ++ c :: z) = read privateNames (x ++ y) := by
  obtain ⟨d, x, rfl⟩ := List.exists_cons_of_ne_nil hx
  have hpoint : d :: x = ['.'] → startsNumber (d :: x ++ y) = false := by
    intro heq
    obtain ⟨rfl, rfl⟩ := List.cons.inj heq
    by_contra htrue
    rw [Bool.not_eq_false, List.singleton_append] at htrue
    have hread : read privateNames ('.' :: y) = number ('.' :: y) := by
      rw [read, if_neg (by decide), if_neg (by decide), if_neg (by decide), if_pos htrue]
    rw [List.singleton_append, hread] at hle
    exact absurd (two_le_length_number htrue) (Nat.not_le.2 (Nat.lt_succ_of_le hle))
  have hnumber := startsNumber_cut (List.cons_ne_nil d x) hc hpoint z
  rw [List.cons_append] at hvalid hle hfar hnumber ⊢
  -- The first character decides what is read, and it is the same one.
  simp only [read, hnumber, List.cons_append] at hvalid hle hfar ⊢
  split
  next hd =>
    rw [if_pos hd] at hle hfar
    rw [identifierTail_cut hc.endsName (Nat.le_of_succ_le_succ hle)
      (fun hforeign => Nat.lt_of_succ_lt_succ (hfar ⟨.inl rfl, hforeign⟩))]
  rw [if_neg ‹_›] at hvalid hle hfar
  split
  next hd =>
    rw [if_pos hd] at hle hfar
    exact word_cut (x := d :: x) hc.endsName hle hfar z
  rw [if_neg ‹_›] at hvalid hle hfar
  split
  next hd =>
    rw [if_pos hd] at hvalid hle hfar
    exact escapedIdentifier_cut (x := d :: x) hc.endsName hvalid hle hfar z
  rw [if_neg ‹_›] at hvalid hle hfar
  split
  next hd =>
    rw [if_pos hd] at hvalid hle
    exact number_cut (x := d :: x) hc hvalid hle z
  rw [if_neg ‹_›] at hvalid hle hfar
  split
  next hd =>
    rw [if_pos hd] at hvalid hle
    rw [List.length_cons, Nat.add_comm] at hle
    exact stringTail_cut hvalid hle _
  rw [if_neg ‹_›] at hvalid hle hfar
  split
  next hd =>
    rw [if_pos hd] at hle hfar
    rw [privateName, privateName, privateTail_cut hc (Nat.le_of_succ_le_succ hle)
      (fun hforeign => Nat.lt_of_succ_lt_succ (hfar ⟨.inr rfl, hforeign⟩))]
  next hd =>
    rw [if_neg hd] at hvalid hle
    exact punctuator_cut (x := d :: x) hc hvalid hle z

end

end Lexeme

end EcmaScript
