import EcmaScript.Text.Escape
import Mathlib.Data.List.TakeWhile
import Mathlib.Tactic.Common

namespace EcmaScript

/-!
# The grammar of escapes

Which escapes the body of a string may have, what they stand for, and where decoding fails.

* `Escape.IsHex`, `Escape.Numeral` — hexadecimal digits, and what is taken for a numeral;
* `Escape.IsEscape` — an escape, what it stands for, and what follows;
* `Escape.Reads` — whole characters and whole escapes in a row, and what they stand for;
* `Escape.Malformed`, `Escape.Unclosed` — the ends of a backslash that begins no whole escape;
* `Escape.decode?_reads` — what is read of a body stands for what the grammar says;
* `Escape.decodeString?_eq_none_iff` — a body is refused exactly where it is malformed.
-/

theorem CharSet.isSome_digitValue? (d : Char) :
    (digitValue? 16 d).isSome = hexDigit.has d := by
  have hle (a b : Char) : a ≤ b ↔ a.toNat ≤ b.toNat := Char.le_def
  simp only [digitValue?, hexDigit, has, covers, ofRanges, List.any_cons, List.any_nil, hle]
  generalize d.toNat = n
  split_ifs <;> simp_all <;> omega

namespace Escape

/-! ### Hexadecimal numerals -/

/-- One or more hexadecimal digits. -/
def IsHex (digits : List Char) : Prop := digits ≠ [] ∧ ∀ d ∈ digits, CharSet.hexDigit.has d

instance : DecidablePred IsHex := fun digits =>
  decidable_of_iff ((!digits.isEmpty && digits.all CharSet.hexDigit.has) = true) (by simp [IsHex])

/-- The number that hexadecimal digits spell. -/
def hexNumber (digits : List Char) : Nat :=
  digits.foldl (fun n d => n * 16 + (CharSet.digitValue? 16 d).getD 0) 0

example : hexNumber ['1', 'f', '6', '0', 'A'] = 0x1f60a := by decide

/-- What is taken for a numeral, and the number it spells: a plus sign may stand before the
digits. -/
inductive Numeral : List Char → Nat → Prop where
  | unsigned {digits : List Char} : IsHex digits → Numeral digits (hexNumber digits)
  | signed {digits : List Char} : IsHex digits → Numeral ('+' :: digits) (hexNumber digits)

/-- Digits are read one by one, and anything else is refused. -/
theorem mapM_digitValue? (digits : List Char) :
    digits.mapM (CharSet.digitValue? 16) =
      if digits.all CharSet.hexDigit.has then
        some (digits.map fun d => (CharSet.digitValue? 16 d).getD 0)
      else none := by
  induction digits with
  | nil => simp
  | cons d digits ih =>
    have hd := CharSet.isSome_digitValue? d
    rw [List.mapM_cons, ih, List.all_cons, ← hd]
    cases hvalue : CharSet.digitValue? 16 d with
    | none => rfl
    | some v =>
      by_cases hdigits : digits.all CharSet.hexDigit.has
      · simp [hdigits, hvalue]
      · simp [hdigits]

/-- Without a sign in front, digits are read as the number that they spell. -/
theorem value_digits (digits : List Char) :
    (if digits.isEmpty then none
      else (digits.mapM (CharSet.digitValue? 16)).map fun values => values.foldl (· * 16 + ·) 0)
      = if IsHex digits then some (hexNumber digits) else none := by
  -- Without digits there is no number, so that the empty text is a case of its own.
  cases digits with
  | nil => rfl
  | cons d digits =>
    rw [mapM_digitValue?, List.isEmpty_cons, if_neg Bool.false_ne_true]
    by_cases hdigits : (d :: digits).all CharSet.hexDigit.has
    · have hhex : IsHex (d :: digits) := ⟨List.cons_ne_nil _ _, List.all_eq_true.1 hdigits⟩
      rw [if_pos hdigits, if_pos hhex, Option.map_some, List.foldl_map]
      rfl
    · rw [if_neg hdigits, if_neg fun h => hdigits (List.all_eq_true.2 h.2), Option.map_none]

theorem hexValue?_eq_some_iff {cs : List Char} {n : Nat} :
    hexValue? cs = some n ↔ Numeral cs n := by
  constructor
  · intro h
    unfold hexValue? at h
    dsimp only at h
    split at h <;> rw [value_digits, Option.ite_none_right_eq_some] at h
    · obtain ⟨hhex, hnumber⟩ := h
      cases hnumber
      exact .signed hhex
    · obtain ⟨hhex, hnumber⟩ := h
      cases hnumber
      exact .unsigned hhex
  · rintro (hhex | hhex)
    · -- The sign is no digit.
      unfold hexValue?
      dsimp only
      split
      next rest => exact absurd (hhex.2 '+' List.mem_cons_self) (by decide)
      next => rw [value_digits, if_pos hhex]
    · exact (value_digits _).trans (if_pos hhex)

/-! ### Escapes -/

/-- The letters that stand for control characters behind a backslash. -/
def controls : List (Char × Char) :=
  [('b', '\x08'), ('f', '\x0c'), ('n', '\n'), ('r', '\r'), ('t', '\t'), ('v', '\x0b')]

/-- The letters behind a backslash that have a meaning of their own. -/
def letters : List Char := ['b', 'f', 'n', 'r', 't', 'v', 'x', 'u']

/-- As many octal digits as an escape with this first digit may have, so that it does not pass
255. -/
def octalLimit (first : Char) : Nat := if first ≤ '3' then 3 else 2

/-- The number that octal digits spell. -/
def octalNumber (digits : List Char) : Nat :=
  digits.foldl (fun n d => n * 8 + (d.toNat - '0'.toNat)) 0

/-- An escape without its backslash, what it stands for, and the text behind it. -/
inductive IsEscape : List Char → List Char → List Char → Prop where
  | control {letter c : Char} {after : List Char} : (letter, c) ∈ controls →
    IsEscape [letter] [c] after
  /-- As many digits as there are, up to the limit. -/
  | octal {d : Char} {more after : List Char} : (∀ c ∈ d :: more, CharSet.octalDigit.has c) →
    more.length < octalLimit d →
    (more.length + 1 = octalLimit d ∨ ∀ c, after.head? = some c → ¬ CharSet.octalDigit.has c) →
    IsEscape (d :: more) [Char.ofNat (octalNumber (d :: more))] after
  | byte {digits after : List Char} {n : Nat} : Numeral digits n → digits.length = 2 →
    IsEscape ('x' :: digits) [charOrReplacement n] after
  | unit {digits after : List Char} {n : Nat} : Numeral digits n → digits.length = 4 →
    IsEscape ('u' :: digits) [charOrReplacement n] after
  | point {digits after : List Char} {n : Nat} : Numeral digits n → digits.length ≤ 6 →
    IsEscape ('u' :: '\x7b' :: digits ++ ['\x7d']) [charOrReplacement n] after
  /-- The end of a line vanishes. -/
  | lineEnd {c : Char} {after : List Char} : CharSet.lineTerminator.has c →
    (c = '\r' → after.head? ≠ some '\n') → IsEscape [c] [] after
  | lineEndPair {after : List Char} : IsEscape ['\r', '\n'] [] after
  | itself {c : Char} {after : List Char} : c ∉ letters →
    ¬ CharSet.octalDigit.has c → ¬ CharSet.lineTerminator.has c → IsEscape [c] [c] after

theorem octalDigit_of_mem_letters {c : Char} (h : c ∈ letters) : ¬ CharSet.octalDigit.has c := by
  simp only [letters, List.mem_cons, List.not_mem_nil, or_false] at h
  rcases h with rfl | rfl | rfl | rfl | rfl | rfl | rfl | rfl <;> decide

/-- The ends of lines are neither letters nor digits. -/
theorem lineTerminator_plain {c : Char} (h : CharSet.lineTerminator.has c) :
    c ∉ letters ∧ ¬ CharSet.octalDigit.has c := by
  rw [CharSet.lineTerminator, CharSet.has_ofList] at h
  simp only [List.mem_cons, List.not_mem_nil, or_false] at h
  rcases h with rfl | rfl | rfl | rfl <;> exact ⟨by decide, by decide⟩

/-- What is read behind a backslash that no letter follows. -/
theorem read?_cons {c : Char} {rest : List Char} (hletter : c ∉ letters)
    (hpair : c = '\r' → rest.head? ≠ some '\n') :
    read? (c :: rest) =
      if CharSet.octalDigit.has c then
        some ([(readOctal (c :: rest)).1], (readOctal (c :: rest)).2)
      else if CharSet.lineTerminator.has c then some ([], rest)
      else some ([c], rest) := by
  simp only [letters, List.mem_cons, List.not_mem_nil, or_false, not_or] at hletter
  rw [read?]
  all_goals grind

/-- What the decoder reads of an octal escape. -/
theorem readOctal_eq {d : Char} {more after : List Char}
    (hdigits : ∀ c ∈ d :: more, CharSet.octalDigit.has c) (hlimit : more.length < octalLimit d)
    (hend : more.length + 1 = octalLimit d
      ∨ ∀ c, after.head? = some c → ¬ CharSet.octalDigit.has c) :
    readOctal (d :: more ++ after) = (Char.ofNat (octalNumber (d :: more)), after) := by
  have hmost : (if ((d :: more ++ after).head?.any (· ≤ '3')) then 3 else 2) = octalLimit d := by
    simp [octalLimit]
  -- Behind the digits the limit is reached, or something else follows.
  have hbehind (k : Nat) (hk : k = octalLimit d - (d :: more).length) :
      (after.take k).takeWhile CharSet.octalDigit.has = [] := by
    rcases hend with hfull | hother
    · have hzero : k = 0 := by
        rw [hk, List.length_cons]
        omega
      rw [hzero, List.take_zero, List.takeWhile_nil]
    · cases after with
      | nil => rw [List.take_nil, List.takeWhile_nil]
      | cons c after =>
        cases k with
        | zero => rw [List.take_zero, List.takeWhile_nil]
        | succ k => rw [List.take_succ_cons, List.takeWhile_cons, if_neg (hother c rfl)]
  have htake : ((d :: more ++ after).take (octalLimit d)).takeWhile CharSet.octalDigit.has
      = d :: more := by
    rw [List.take_append, List.take_of_length_le hlimit, List.takeWhile_append_of_pos hdigits,
      hbehind _ rfl, List.append_nil]
  unfold readOctal
  dsimp only
  rw [hmost, htake]
  rw [List.drop_left]
  rfl

theorem readHex?_eq {digits : List Char} {n : Nat} (hn : Numeral digits n) (after : List Char) :
    readHex? digits.length (digits ++ after) = some (charOrReplacement n, after) := by
  rw [readHex?, if_pos (by simp), List.take_left, List.drop_left, hexValue?_eq_some_iff.2 hn,
    Option.map_some]

/-- The characters of a numeral. -/
theorem Numeral.forall_mem {digits : List Char} {n : Nat} (hn : Numeral digits n) :
    ∀ d ∈ digits, d = '+' ∨ CharSet.hexDigit.has d := by
  intro d hd
  rcases hn with (hhex | hhex)
  · exact .inr (hhex.2 d hd)
  · rcases List.mem_cons.1 hd with rfl | hd
    · exact .inl rfl
    · exact .inr (hhex.2 d hd)

theorem Numeral.ne_brace {digits : List Char} {n : Nat} (hn : Numeral digits n) :
    ∀ d ∈ digits, d ≠ '\x7b' ∧ d ≠ '\x7d' := by
  intro d hd
  rcases hn.forall_mem d hd with rfl | hhex
  · decide
  · constructor <;> rintro rfl <;> exact absurd hhex (by decide)

theorem readBraced?_eq {digits after : List Char} {n : Nat} (hn : Numeral digits n)
    (hlength : digits.length ≤ 6) :
    readBraced? (digits ++ '\x7d' :: after) = some (charOrReplacement n, after) := by
  have hdigits : (digits ++ '\x7d' :: after).takeWhile (· ≠ '\x7d') = digits := by
    rw [List.takeWhile_append_of_pos fun d hd => decide_eq_true (hn.ne_brace d hd).2,
      List.takeWhile_cons, if_neg (by decide), List.append_nil]
  unfold readBraced?
  dsimp only
  rw [hdigits, if_pos hlength, hexValue?_eq_some_iff.2 hn, Option.map_some,
    List.drop_length_add_append, List.drop_one, List.tail_cons]

/-- An escape is read as such. -/
theorem read?_of_isEscape {text out after : List Char} (h : IsEscape text out after) :
    read? (text ++ after) = some (out, after) := by
  cases h with
  | control h =>
    simp only [controls, List.mem_cons, List.not_mem_nil, or_false, Prod.mk.injEq] at h
    rcases h with ⟨rfl, rfl⟩ | ⟨rfl, rfl⟩ | ⟨rfl, rfl⟩ | ⟨rfl, rfl⟩ | ⟨rfl, rfl⟩ | ⟨rfl, rfl⟩
    all_goals rfl
  | @octal d more _ hdigits hlimit hend =>
    have hd := hdigits d List.mem_cons_self
    have hletter : d ∉ letters := fun hmem => absurd hd (octalDigit_of_mem_letters hmem)
    have hpair : d = '\r' → (more ++ after).head? ≠ some '\n' := by
      rintro rfl
      exact absurd hd (by decide)
    rw [List.cons_append, read?_cons hletter hpair, if_pos hd, ← List.cons_append,
      readOctal_eq hdigits hlimit hend]
  | @byte digits after n hn hlength =>
    have hread := readHex?_eq hn after
    rw [hlength] at hread
    rw [List.cons_append, read?, hread]
    rfl
  | @unit digits after n hn hlength =>
    have hread := readHex?_eq hn after
    rw [hlength] at hread
    rw [List.cons_append, read?, hread]
    · rfl
    · -- No digit is a brace.
      intro rest heq
      obtain ⟨d, ds, rfl⟩ := List.exists_cons_of_length_pos (l := digits) (by omega)
      obtain ⟨rfl, -⟩ := List.cons.inj heq
      exact absurd rfl (hn.ne_brace _ List.mem_cons_self).1
  | @point digits _ n hn hlength =>
    have htext : 'u' :: '\x7b' :: digits ++ ['\x7d'] ++ after
        = 'u' :: '\x7b' :: (digits ++ '\x7d' :: after) := by simp
    rw [htext, read?, readBraced?_eq hn hlength]
    rfl
  | @lineEnd c _ hc hpair =>
    obtain ⟨hletter, hoctal⟩ := lineTerminator_plain hc
    rw [List.singleton_append, read?_cons hletter hpair, if_neg hoctal, if_pos hc]
  | lineEndPair => rfl
  | @itself c _ hletter hoctal hline =>
    have hpair : c = '\r' → after.head? ≠ some '\n' := by
      rintro rfl
      exact absurd rfl hline
    rw [List.singleton_append, read?_cons hletter hpair, if_neg hoctal, if_neg hline]

/-! ### Where decoding fails -/

/-- An escape in braces that the end of the text breaks off. It is read as if it had its closing
brace. -/
inductive Unclosed : List Char → List Char → Prop where
  | intro {digits : List Char} {n : Nat} : Numeral digits n → digits.length ≤ 6 →
    Unclosed ('u' :: '\x7b' :: digits) [charOrReplacement n]

/-- Behind a backslash nothing stands, or an `x` without a numeral of two characters, or a `u`
without one of four, and without one of up to six in braces, the last of which may be missing at the
end of the text. -/
inductive Malformed : List Char → Prop where
  | ends : Malformed []
  | byte {rest : List Char} :
    (∀ digits after n, Numeral digits n → digits.length = 2 → rest ≠ digits ++ after) →
    Malformed ('x' :: rest)
  | unicode {rest : List Char} :
    (∀ digits after n, Numeral digits n → digits.length = 4 → rest ≠ digits ++ after) →
    (∀ digits n, Numeral digits n → digits.length ≤ 6 →
      rest ≠ '\x7b' :: digits ∧ ∀ after, rest ≠ '\x7b' :: digits ++ '\x7d' :: after) →
    Malformed ('u' :: rest)

/-- What the decoder reads of a numeral of some length is one. -/
theorem exists_numeral_of_readHex? {count : Nat} {cs after : List Char} {c : Char}
    (h : readHex? count cs = some (c, after)) :
    ∃ digits n, Numeral digits n ∧ digits.length = count ∧ cs = digits ++ after := by
  unfold readHex? at h
  split at h
  next hcount =>
    obtain ⟨n, hn, heq⟩ := Option.map_eq_some_iff.1 h
    obtain ⟨-, rfl⟩ := Prod.mk.inj heq
    exact ⟨_, n, hexValue?_eq_some_iff.1 hn, List.length_take_of_le hcount,
      (List.take_append_drop count cs).symm⟩
  next => cases h

theorem exists_numeral_of_readBraced? {cs after : List Char} {c : Char}
    (h : readBraced? cs = some (c, after)) :
    ∃ digits n, Numeral digits n ∧ digits.length ≤ 6
      ∧ (cs = digits ∨ cs = digits ++ '\x7d' :: after) := by
  unfold readBraced? at h
  dsimp only at h
  split at h
  next hlength =>
    obtain ⟨n, hn, heq⟩ := Option.map_eq_some_iff.1 h
    obtain ⟨-, rfl⟩ := Prod.mk.inj heq
    refine ⟨_, n, hexValue?_eq_some_iff.1 hn, hlength, ?_⟩
    obtain ⟨more, hmore⟩ := List.takeWhile_prefix (l := cs) (· ≠ '\x7d')
    have hdigits := fun d => List.mem_takeWhile_imp (l := cs) (p := (· ≠ '\x7d')) (x := d)
    generalize htake : cs.takeWhile (· ≠ '\x7d') = digits at *
    subst hmore
    cases more with
    | nil => exact .inl (List.append_nil digits)
    | cons d more =>
      -- What ends the digits is the closing brace.
      have hd : d = '\x7d' := by
        by_contra hne
        rw [List.takeWhile_append_of_pos hdigits, List.takeWhile_cons,
          if_pos (decide_eq_true hne)] at htake
        exact absurd (congrArg List.length htake) (by simp)
      rw [hd, List.drop_length_add_append, List.drop_one, List.tail_cons]
      exact .inr rfl
  next => cases h

theorem read?_of_malformed {cs : List Char} (h : Malformed cs) : read? cs = none := by
  cases h with
  | ends => rfl
  | @byte rest hbyte =>
    rw [read?]
    cases hread : readHex? 2 rest with
    | none => rfl
    | some p =>
      obtain ⟨digits, n, hn, hlength, hrest⟩ := exists_numeral_of_readHex? hread
      exact absurd hrest (hbyte digits p.2 n hn hlength)
  | @unicode rest hunit hpoint =>
    by_cases hbrace : ∃ more, rest = '\x7b' :: more
    · obtain ⟨more, rfl⟩ := hbrace
      rw [read?]
      cases hread : readBraced? more with
      | none => rfl
      | some p =>
        obtain ⟨digits, n, hn, hlength, hmore⟩ := exists_numeral_of_readBraced? hread
        obtain ⟨hopen, hclosed⟩ := hpoint digits n hn hlength
        rcases hmore with rfl | rfl
        · exact absurd rfl hopen
        · exact absurd rfl (hclosed p.2)
    · rw [read?]
      · cases hread : readHex? 4 rest with
        | none => rfl
        | some p =>
          obtain ⟨digits, n, hn, hlength, hrest⟩ := exists_numeral_of_readHex? hread
          exact absurd hrest (hunit digits p.2 n hn hlength)
      · exact fun more hmore => hbrace ⟨more, hmore⟩

theorem read?_of_unclosed {cs out : List Char} (h : Unclosed cs out) :
    read? cs = some (out, []) := by
  obtain @⟨digits, n, hn, hlength⟩ := h
  have hdigits : digits.takeWhile (· ≠ '\x7d') = digits :=
    List.takeWhile_eq_self_iff.2 fun d hd => decide_eq_true (hn.ne_brace d hd).2
  rw [read?]
  unfold readBraced?
  dsimp only
  rw [hdigits, if_pos hlength, hexValue?_eq_some_iff.2 hn, List.drop_of_length_le (Nat.le_succ _)]
  rfl

/-- A letter stands for a control character, or a number follows it. -/
theorem control_or {c : Char} (h : c ∈ letters) :
    (∃ d, (c, d) ∈ controls) ∨ c = 'x' ∨ c = 'u' := by
  simp only [letters, List.mem_cons, List.not_mem_nil, or_false] at h
  rcases h with rfl | rfl | rfl | rfl | rfl | rfl | rfl | rfl <;> simp [controls]

/-- An octal escape takes as many digits as it may. -/
theorem exists_octal {c : Char} (rest : List Char) (hc : CharSet.octalDigit.has c) :
    ∃ more after, rest = more ++ after
      ∧ IsEscape (c :: more) [Char.ofNat (octalNumber (c :: more))] after := by
  have hlimit : 1 ≤ octalLimit c := by
    unfold octalLimit
    split <;> decide
  obtain ⟨k, hk⟩ := Nat.exists_eq_add_of_le' hlimit
  obtain ⟨after, hafter⟩ := (List.takeWhile_prefix (l := rest.take k)
    CharSet.octalDigit.has).trans (List.take_prefix k rest)
  have hdigits : ∀ d ∈ (rest.take k).takeWhile CharSet.octalDigit.has, CharSet.octalDigit.has d :=
    fun d hd => List.mem_takeWhile_imp hd
  have hlength : ((rest.take k).takeWhile CharSet.octalDigit.has).length ≤ k :=
    (List.takeWhile_prefix _).length_le.trans (List.length_take_le _ _)
  generalize hmore : (rest.take k).takeWhile CharSet.octalDigit.has = more at *
  refine ⟨more, after, hafter.symm, .octal (List.forall_mem_cons.2 ⟨hc, hdigits⟩) (by omega) ?_⟩
  by_contra hend
  push Not at hend
  obtain ⟨hmost, d, hhead, hd⟩ := hend
  obtain ⟨after, rfl⟩ := List.head?_eq_some_iff.1 hhead
  -- One more digit would have been taken.
  obtain ⟨j, hj⟩ := Nat.exists_eq_add_of_lt (show more.length < k by omega)
  rw [← hafter, hj, Nat.add_assoc, List.take_length_add_append, List.take_succ_cons,
    List.takeWhile_append_of_pos hdigits, List.takeWhile_cons, if_pos hd] at hmore
  exact absurd (congrArg List.length hmore) (by simp)

/-- What stands behind a backslash is a whole escape, an unclosed one, or malformed. -/
theorem isEscape_or (cs : List Char) :
    (∃ text out after, cs = text ++ after ∧ IsEscape text out after)
      ∨ (∃ out, Unclosed cs out) ∨ Malformed cs := by
  cases cs with
  | nil => exact .inr (.inr .ends)
  | cons c rest =>
  by_cases hletter : c ∈ letters
  · -- Behind `x` and `u` a numeral has to follow; the other letters are whole escapes.
    rcases control_or hletter with ⟨d, hd⟩ | rfl | rfl
    · exact .inl ⟨[c], [d], rest, rfl, .control hd⟩
    · by_cases hbyte : ∃ digits after n,
          Numeral digits n ∧ digits.length = 2 ∧ rest = digits ++ after
      · obtain ⟨digits, after, n, hn, hlength, rfl⟩ := hbyte
        exact .inl ⟨_, _, _, rfl, .byte hn hlength⟩
      · exact .inr (.inr (.byte fun digits after n hn hlength hrest =>
          hbyte ⟨digits, after, n, hn, hlength, hrest⟩))
    · by_cases hunit : ∃ digits after n,
          Numeral digits n ∧ digits.length = 4 ∧ rest = digits ++ after
      · obtain ⟨digits, after, n, hn, hlength, rfl⟩ := hunit
        exact .inl ⟨_, _, _, rfl, .unit hn hlength⟩
      by_cases hpoint : ∃ digits n, Numeral digits n ∧ digits.length ≤ 6
          ∧ (rest = '\x7b' :: digits ∨ ∃ after, rest = '\x7b' :: digits ++ '\x7d' :: after)
      · obtain ⟨digits, n, hn, hlength, rfl | ⟨after, rfl⟩⟩ := hpoint
        · exact .inr (.inl ⟨_, .intro hn hlength⟩)
        · exact .inl ⟨_, _, after, by simp, .point hn hlength⟩
      refine .inr (.inr (.unicode (fun digits after n hn hlength hrest =>
        hunit ⟨digits, after, n, hn, hlength, hrest⟩) fun digits n hn hlength => ⟨?_, ?_⟩))
      · exact fun hrest => hpoint ⟨digits, n, hn, hlength, .inl hrest⟩
      · exact fun after hrest => hpoint ⟨digits, n, hn, hlength, .inr ⟨after, hrest⟩⟩
  · -- Whatever else stands behind the backslash, it can be read.
    refine .inl ?_
    by_cases hoctal : CharSet.octalDigit.has c
    · obtain ⟨more, after, rfl, h⟩ := exists_octal rest hoctal
      exact ⟨_, _, after, rfl, h⟩
    by_cases hline : CharSet.lineTerminator.has c
    · by_cases hpair : c = '\r' ∧ ∃ after, rest = '\n' :: after
      · obtain ⟨rfl, after, rfl⟩ := hpair
        exact ⟨['\r', '\n'], [], after, rfl, .lineEndPair⟩
      · refine ⟨[c], [], rest, rfl, .lineEnd hline fun hc hhead => hpair ⟨hc, ?_⟩⟩
        exact List.head?_eq_some_iff.1 hhead
    · exact ⟨[c], [c], rest, rfl, .itself hletter hoctal hline⟩

/-! ### Bodies -/

/-- Whole characters and whole escapes in a row, what they stand for, and the text behind them. -/
inductive Reads : List Char → List Char → List Char → Prop where
  | nil {after : List Char} : Reads [] [] after
  | plain {c : Char} {text value after : List Char} : c ≠ '\\' → Reads text value after →
    Reads (c :: text) (c :: value) after
  | escape {esc out text value after : List Char} : IsEscape esc out (text ++ after) →
    Reads text value after → Reads ('\\' :: esc ++ text) (out ++ value) after

theorem decode?_escape {rest out after : List Char} (h : read? rest = some (out, after)) :
    decode? ('\\' :: rest) = (decode? after).map (out ++ ·) := by
  rw [decode?, if_pos rfl]
  split
  next hnone => cases h.symm.trans hnone
  next hsome =>
    obtain ⟨rfl, rfl⟩ := Prod.mk.inj (Option.some.inj (h.symm.trans hsome))
    rfl

theorem decode?_plain {c : Char} (hc : c ≠ '\\') (rest : List Char) :
    decode? (c :: rest) = (decode? rest).map (c :: ·) := by
  rw [decode?, if_neg hc]

/-- **What is read of a body is decoded to what it stands for.** -/
theorem decode?_reads {text value after : List Char} (h : Reads text value after) :
    decode? (text ++ after) = (decode? after).map (value ++ ·) := by
  induction h with
  | nil => simp
  | plain hc _ ih =>
    rw [List.cons_append, decode?_plain hc, ih, Option.map_map]
    rfl
  | @escape esc out text value after hescape _ ih =>
    have htext : '\\' :: esc ++ text ++ after = '\\' :: (esc ++ (text ++ after)) := by simp
    rw [htext, decode?_escape (read?_of_isEscape hescape), ih, Option.map_map]
    simp [Function.comp_def]

/-- A body is read to its end, or to an escape that is not whole. -/
theorem exists_reads (cs : List Char) : ∃ text value after, cs = text ++ after
    ∧ Reads text value after ∧ (after = [] ∨ ∃ rest, after = '\\' :: rest
      ∧ ((∃ out, Unclosed rest out) ∨ Malformed rest)) := by
  match cs with
  | [] => exact ⟨[], [], [], rfl, .nil, .inl rfl⟩
  | c :: rest =>
    by_cases hc : c = '\\'
    · subst hc
      rcases isEscape_or rest with ⟨esc, out, more, hrest, hescape⟩ | hbroken
      · have hlength : more.length ≤ rest.length := by
          rw [hrest, List.length_append]
          exact Nat.le_add_left _ _
        obtain ⟨text, value, after, rfl, hreads, hend⟩ := exists_reads more
        exact ⟨_, _, after, by simp [hrest], .escape hescape hreads, hend⟩
      · exact ⟨[], [], _, rfl, .nil, .inr ⟨rest, rfl, hbroken⟩⟩
    · obtain ⟨text, value, after, rfl, hreads, hend⟩ := exists_reads rest
      exact ⟨c :: text, c :: value, after, rfl, .plain hc hreads, hend⟩
termination_by cs.length
decreasing_by
  · exact Nat.lt_succ_of_le hlength
  · exact Nat.lt_succ_self _

/-- **Which bodies are refused.** Reading a body from left to right, one comes to a backslash at the
end, or to an `x` or `u` behind a backslash without a numeral of the right length. A numeral is made
of hexadecimal digits, before which a plus sign may stand; the brace that closes one may be missing
at the end of the body. -/
theorem decodeString?_eq_none_iff (body : String) : decodeString? body = none ↔
    ∃ text value rest, body.toList = text ++ '\\' :: rest
      ∧ Reads text value ('\\' :: rest) ∧ Malformed rest := by
  rw [decodeString?, Option.map_eq_none_iff]
  constructor
  · intro hnone
    obtain ⟨text, value, after, hbody, hreads, hend⟩ := exists_reads body.toList
    rw [hbody, decode?_reads hreads, Option.map_eq_none_iff] at hnone
    rcases hend with rfl | ⟨rest, rfl, ⟨out, hopen⟩ | hmalformed⟩
    · rw [decode?] at hnone
      cases hnone
    · -- At the end of the body the missing brace is no obstacle.
      rw [decode?_escape (read?_of_unclosed hopen), decode?] at hnone
      cases hnone
    · exact ⟨text, value, rest, hbody, hreads, hmalformed⟩
  · -- What stands in front is decoded, and then the backslash stops it.
    rintro ⟨text, value, rest, hbody, hreads, hmalformed⟩
    rw [hbody, decode?_reads hreads, decode?, if_pos rfl]
    split
    next => rfl
    next hsome =>
      rw [read?_of_malformed hmalformed] at hsome
      cases hsome

end Escape

end EcmaScript
