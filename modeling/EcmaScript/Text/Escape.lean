import EcmaScript.CharSet

namespace EcmaScript

/-!
# Escapes

The text that a string body or a name with escapes stands for.

* `Escape.read?` — the characters that one escape stands for, and the text after it;
* `Escape.decode?` — the text that a string body stands for, unless an escape is malformed;
* `Escape.decodeName?` — the same for a name.
-/

namespace Escape

/-- The value of a hexadecimal numeral, before which a plus sign may stand. -/
def hexValue? (cs : List Char) : Option Nat :=
  let digits :=
    match cs with
    | '+' :: rest => rest
    | _ => cs
  if digits.isEmpty then none
  else (digits.mapM (CharSet.digitValue? 16)).map fun values => values.foldl (· * 16 + ·) 0

/-- The character with a number, or the replacement character when no character has it. -/
def charOrReplacement (n : Nat) : Char :=
  if n.isValidChar then Char.ofNat n else '\ufffd'

/-- An octal escape, whose digits the text begins with: at most three digits, and at most two where
three could pass 255. -/
def readOctal (cs : List Char) : Char × List Char :=
  let most := if cs.head?.any (· ≤ '3') then 3 else 2
  let digits := (cs.take most).takeWhile CharSet.octalDigit.has
  let value := digits.foldl (fun v d => v * 8 + (d.toNat - '0'.toNat)) 0
  (Char.ofNat value, cs.drop digits.length)

/-- A numeral of exactly `count` characters at the front of a text. -/
def readHex? (count : Nat) (cs : List Char) : Option (Char × List Char) :=
  if count ≤ cs.length then
    (hexValue? (cs.take count)).map fun n => (charOrReplacement n, cs.drop count)
  else none

/-- A numeral of one to six characters, up to the closing brace or the end of the text. -/
def readBraced? (cs : List Char) : Option (Char × List Char) :=
  let digits := cs.takeWhile (· ≠ '\x7d')
  if digits.length ≤ 6 then
    (hexValue? digits).map fun n => (charOrReplacement n, cs.drop (digits.length + 1))
  else none

/-- What the text after a backslash stands for, and the text after the escape. A character without a
meaning of its own stands for itself, and an escaped line break for nothing. -/
def read? : List Char → Option (List Char × List Char)
  | [] => none
  | 'b' :: rest => some (['\x08'], rest)
  | 'f' :: rest => some (['\x0c'], rest)
  | 'n' :: rest => some (['\n'], rest)
  | 'r' :: rest => some (['\r'], rest)
  | 't' :: rest => some (['\t'], rest)
  | 'v' :: rest => some (['\x0b'], rest)
  | 'x' :: rest => (readHex? 2 rest).map fun (c, after) => ([c], after)
  | 'u' :: '\x7b' :: rest => (readBraced? rest).map fun (c, after) => ([c], after)
  | 'u' :: rest => (readHex? 4 rest).map fun (c, after) => ([c], after)
  | '\r' :: '\n' :: rest => some ([], rest)
  | c :: rest =>
    if CharSet.octalDigit.has c then
      let (d, after) := readOctal (c :: rest)
      some ([d], after)
    else if CharSet.lineTerminator.has c then some ([], rest)
    else some ([c], rest)

theorem readHex?_length_le {count : Nat} {cs after : List Char} {c : Char}
    (h : readHex? count cs = some (c, after)) : after.length ≤ cs.length := by
  unfold readHex? at h
  split at h
  · obtain ⟨n, _, hn⟩ := Option.map_eq_some_iff.1 h
    obtain ⟨_, rfl⟩ := Prod.mk.inj hn
    simp
  · simp at h

theorem readBraced?_length_le {cs after : List Char} {c : Char}
    (h : readBraced? cs = some (c, after)) : after.length ≤ cs.length := by
  unfold readBraced? at h
  dsimp only at h
  split at h
  · obtain ⟨n, _, hn⟩ := Option.map_eq_some_iff.1 h
    obtain ⟨_, rfl⟩ := Prod.mk.inj hn
    simp
  · simp at h

/-- The text after an escape is not longer than the text after its backslash. -/
theorem read?_length_le {cs out after : List Char} (h : read? cs = some (out, after)) :
    after.length ≤ cs.length := by
  unfold read? at h
  split at h
  case h_1 => simp at h
  case h_8 rest =>
    obtain ⟨⟨c, a⟩, hc, hn⟩ := Option.map_eq_some_iff.1 h
    obtain ⟨_, rfl⟩ := Prod.mk.inj hn
    have := readHex?_length_le hc
    simp only [List.length_cons]
    omega
  case h_9 rest =>
    obtain ⟨⟨c, a⟩, hc, hn⟩ := Option.map_eq_some_iff.1 h
    obtain ⟨_, rfl⟩ := Prod.mk.inj hn
    have := readBraced?_length_le hc
    simp only [List.length_cons]
    omega
  case h_10 rest _ =>
    obtain ⟨⟨c, a⟩, hc, hn⟩ := Option.map_eq_some_iff.1 h
    obtain ⟨_, rfl⟩ := Prod.mk.inj hn
    have := readHex?_length_le hc
    simp only [List.length_cons]
    omega
  case h_12 c rest _ _ _ _ _ _ _ _ _ _ =>
    split at h
    · obtain ⟨_, rfl⟩ := Prod.mk.inj (Option.some.inj h)
      simp
    · split at h
      all_goals
        obtain ⟨_, rfl⟩ := Prod.mk.inj (Option.some.inj h)
        simp
  all_goals
    obtain ⟨_, rfl⟩ := Prod.mk.inj (Option.some.inj h)
    simp only [List.length_cons]
    omega

/-- The text that a string body stands for. -/
def decode? (cs : List Char) : Option (List Char) :=
  match cs with
  | [] => some []
  | c :: rest =>
    if c = '\\' then
      match _h : read? rest with
      | none => none
      | some (out, after) => (decode? after).map (out ++ ·)
    else (decode? rest).map (c :: ·)
termination_by cs.length
decreasing_by
  · have := read?_length_le _h
    simp only [List.length_cons]
    omega
  · simp

/-- The text of a string body, decoded. -/
def decodeString? (body : String) : Option String := (decode? body.toList).map String.ofList

/-- The name that a raw identifier spells. -/
def decodeName? (raw : String) : Option String :=
  if raw.toList.contains '\\' then decodeString? raw else some raw

end Escape

end EcmaScript
