import EcmaScript.Proofs.Printing.ClassParts
import EcmaScript.Proofs.Printing.Unspaced

namespace EcmaScript

open EcmaScript.Parser EcmaScript.Grammar
open ClassText (NameWord Value EndsValue optional)
open Word (sign joined StandTogether EndsNames)

/-!
# Printed arrays are read again

A comma in an array stands behind an element, or in place of one, or is one too many at the end.

* `ArrayText.Item` — a hole, or a name, perhaps behind a rest mark;
* `ArrayText.text` — an array with these elements;
* `ArrayText.words` — its words, which end in front of each other (`ArrayText.standTogether_words`);
* `ArrayText.elements_yields` — one element after the other is read, up to the closing bracket;
* `ArrayText.arrayLiteral_text` — an array is read back from what it is printed as, and nothing
  behind it is read.
-/

namespace ArrayText

variable {rules : NameRules}

/-- An element: nothing, or a name, perhaps behind a rest mark. -/
inductive Item (rules : NameRules) where
  | hole
  | name (spread : Bool) (n : NameWord rules)

namespace Item

/-- The element as it is written. -/
def text : Item rules → String
  | hole => ""
  | name false n => n.word.text
  | name true n => "..." ++ n.word.text

/-- The element as a part of the array. -/
def tree : Item rules → Element
  | hole => .hole
  | name false n => .single (.ident default n.name)
  | name true n => .rest (.ident default n.name)

/-- The words of the element. -/
def words : Item rules → List Word
  | hole => []
  | name spread n => optional spread (sign (.punctuator .dotDotDot)) ++ [n.word]

/-- Is the element missing? -/
def isHole : Item rules → Bool
  | hole => true
  | name _ _ => false

/-- Is the element the name `arguments`? -/
def isArguments : Item rules → Bool
  | hole => false
  | name _ n => n.name = "arguments"

end Item

/-- The comma behind the last element: a hole needs one, any other element may have one. -/
def trailing (items : List (Item rules)) (extra : Bool) : String :=
  match items.getLast? with
  | none => ""
  | some .hole => ","
  | some (.name _ _) => if extra then "," else ""

/-- An array with these elements. -/
def text (items : List (Item rules)) (extra : Bool) : String :=
  "[" ++ ",".intercalate (items.map Item.text) ++ trailing items extra ++ "]"

/-! ### Words -/

/-- Does a comma follow the element, given those behind it? -/
def hasComma (extra : Bool) (x : Item rules) (items : List (Item rules)) : Bool :=
  x.isHole || extra || !items.isEmpty

/-- No comma follows the last element only. -/
theorem eq_nil_of_hasComma {extra : Bool} {x : Item rules} {items : List (Item rules)}
    (h : hasComma extra x items = false) : items = [] := by
  rw [hasComma, Bool.or_eq_false_iff] at h
  simpa using h.2

/-- The words of the elements, up to the closing bracket. -/
def listWords (extra : Bool) : List (Item rules) → List Word
  | [] => []
  | x :: items =>
    x.words ++ (optional (hasComma extra x items) (sign (.punctuator .comma))
      ++ listWords extra items)

/-- The words of an array. -/
def words (items : List (Item rules)) (extra : Bool) : List Word :=
  sign (.punctuator .bracketOpen)
    :: (listWords extra items ++ [sign (.punctuator .bracketClose)])

theorem joined_item (x : Item rules) : joined x.words = x.text.toList := by
  cases x with
  | hole => rfl
  | name spread n =>
    cases spread with
    | false => exact List.append_nil _
    | true =>
      rw [Item.text, String.toList_append]
      exact congrArg ("...".toList ++ ·) (List.append_nil _)

theorem joined_optional (b : Bool) :
    joined (optional b (sign (.punctuator .comma))) = (if b then "," else "").toList := by
  cases b <;> rfl

/-- The words of the elements, one behind the other, are what the elements are printed as. -/
theorem joined_listWords (items : List (Item rules)) (extra : Bool) :
    joined (listWords extra items)
      = (",".intercalate (items.map Item.text) ++ trailing items extra).toList := by
  induction items with
  | nil => rfl
  | cons x items ih =>
    rw [listWords, Word.joined_append, Word.joined_append, joined_item, joined_optional, ih]
    cases items with
    | nil =>
      have htrailing : trailing [x] extra = if hasComma extra x [] then "," else "" := by
        cases x with
        | hole => rfl
        | name spread n => cases extra <;> rfl
      rw [htrailing]
      simp [trailing]
    | cons y items =>
      have htrailing : trailing (x :: y :: items) extra = trailing (y :: items) extra := by
        rw [trailing, trailing, List.getLast?_cons_cons]
      have hcomma : hasComma extra x (y :: items) = true := Bool.or_true _
      rw [htrailing, hcomma, if_pos rfl]
      simp only [List.map_cons, String.toList_append, String.toList_intercalate,
        List.intercalate_cons_cons, List.append_assoc]

theorem toList_text (items : List (Item rules)) (extra : Bool) :
    (text items extra).toList = joined (words items extra) := by
  rw [words, Word.joined_cons, Word.joined_append, joined_listWords, text]
  simp only [String.toList_append, List.append_assoc]
  rfl

/-! ### Each word ends in front of the next one -/

/-- The kinds that may name a variable are kinds of names. -/
theorem isNameKind_of_allows {kind : TokenKind} (h : rules.allows kind = true) :
    Lexeme.IsNameKind kind := by
  unfold NameRules.allows at h
  split at h
  · exact .inl rfl
  · exact .inr ⟨_, rfl⟩
  · exact .inr ⟨_, rfl⟩
  · exact .inr ⟨_, rfl⟩
  · cases h

/-- No name goes on with a comma or a closing bracket. -/
theorem endsNames_of_mem {p : Punctuator} (hp : p ∈ [.bracketClose, .comma]) (ws : List Word)
    (after : List Char) : EndsNames (joined (sign (.punctuator p) :: ws) ++ after) := by
  simp only [List.mem_cons, List.not_mem_nil, or_false] at hp
  obtain rfl | rfl := hp
  · exact ⟨']', _, rfl, ⟨by decide, by decide, by decide, by decide⟩, by decide⟩
  · exact ⟨',', _, rfl, ⟨by decide, by decide, by decide, by decide⟩, by decide⟩

/-- An element ends in front of a comma and in front of the closing bracket. -/
theorem Item.standTogether (x : Item rules) {ws : List Word} {after : List Char}
    (hends : EndsNames (joined ws ++ after)) (h : StandTogether ws after) :
    StandTogether (x.words ++ ws) after := by
  cases x with
  | hole => exact h
  | name spread n =>
    have hname : StandTogether (n.word :: ws) after :=
      ⟨n.isToken.standsBefore (isNameKind_of_allows n.allowed) hends, h⟩
    cases spread with
    | false => exact hname
    | true => exact ⟨Word.standsBefore_of_mem (by decide) _, hname⟩

/-- Elements that end in front of the closing bracket begin with what ends an element. -/
theorem standTogether_listWords (items : List (Item rules)) (extra : Bool) {ws : List Word}
    {after : List Char} (hends : EndsNames (joined ws ++ after)) (h : StandTogether ws after) :
    StandTogether (listWords extra items ++ ws) after := by
  induction items with
  | nil => exact h
  | cons x items ih =>
    rw [listWords, List.append_assoc, List.append_assoc]
    cases hcomma : hasComma extra x items with
    | false =>
      -- Nothing stands between the last element and the bracket.
      obtain rfl := eq_nil_of_hasComma hcomma
      exact x.standTogether hends h
    | true =>
      exact x.standTogether (endsNames_of_mem (by decide) _ _)
        ⟨Word.standsBefore_of_mem (by decide) _, ih⟩

theorem standTogether_words (items : List (Item rules)) (extra : Bool) (after : List Char) :
    StandTogether (words items extra) after :=
  ⟨Word.standsBefore_of_mem (by decide) _,
    standTogether_listWords items extra (endsNames_of_mem (by decide) _ _)
      ⟨Word.standsBefore_of_mem (by decide) _, trivial⟩⟩

/-! ### Reading -/

section

variable {c : Context} {x : Spot}

/-- What stands behind an element. -/
abbrev elementStops : List TokenKind := [.punctuator .comma, .punctuator .bracketClose]

theorem ends_of_mem {t : Token} (h : t.kind ∈ elementStops) :
    EndsValue (.whole elementStops) t := by
  simp only [elementStops, List.mem_cons, List.not_mem_nil, or_false] at h
  obtain h | h := h
  all_goals exact .closing (by rw [h]; rfl) (by rw [h]; rfl)

/-- A name, perhaps behind a rest mark, is read up to a comma or the closing bracket. -/
theorem name_yields {α : Type} {Q : α → Prop} {y : Spot} {spread : Bool} {n : NameWord rules}
    (hnames : c.names = rules) (hwords : c.HasWords x.index (Item.name spread n).words)
    (harguments : x.inInitializer = true → (Item.name spread n).isArguments = false)
    (hends : (c.token (x.index + (Item.name spread n).words.length)).kind ∈ elementStops) (k : Nat)
    {f : Element → Parser α}
    (hf : ∀ e : Element, e.bare = (Item.name spread n).tree →
      Yields c (x.step (Item.name spread n).words.length) (f e) Q y) :
    Yields c x (do
      let rest ← accept (.punctuator .dotDotDot)
      let value ← (Rules.within (k + 2)).whole elementStops
      f (if rest then .rest value else .single value)) Q y := by
  obtain ⟨hrest, hname, -⟩ := Context.hasWords_append.1 hwords
  have hlength : (Item.name spread n).words.length
      = (optional spread (sign (.punctuator .dotDotDot))).length + 1 := List.length_append
  rw [hlength, ← Nat.add_assoc] at hends
  rw [hlength] at hf
  refine ClassText.accept_optional spread hrest ?_ ?_
  · intro hmissing
    rw [hmissing] at hname
    exact hname.kind ▸ n.kind_ne_punctuator _
  refine (Value.whole_yields (v := .name n) (x := x.step _) hnames hname harguments
    (ends_of_mem hends) k).bind fun e he => ?_
  rw [Spot.step_step]
  refine hf _ ?_
  cases spread
  · exact congrArg Element.single he
  · exact congrArg Element.rest he

/-- An element that is there begins neither with a comma nor with the closing bracket. -/
theorem kind_ne_stop {spread : Bool} {n : NameWord rules}
    (hwords : c.HasWords x.index (Item.name spread n).words) :
    (c.token x.index).kind ≠ .punctuator .comma
      ∧ (c.token x.index).kind ≠ .punctuator .bracketClose := by
  cases spread with
  | false =>
    rw [hwords.1.kind]
    exact ⟨n.kind_ne_punctuator _, n.kind_ne_punctuator _⟩
  | true =>
    rw [hwords.1.kind]
    exact ⟨by decide, by decide⟩

/-- Behind an element stands its comma, or the closing bracket. -/
theorem kind_behind {i : Nat} {extra : Bool} {item : Item rules} {items : List (Item rules)}
    (hcomma : c.HasWords i (optional (hasComma extra item items) (sign (.punctuator .comma))))
    (hmore : c.HasWords
      (i + (optional (hasComma extra item items) (sign (.punctuator .comma))).length)
      (listWords extra items ++ [sign (.punctuator .bracketClose)])) :
    (c.token i).kind = if hasComma extra item items then .punctuator .comma
      else .punctuator .bracketClose := by
  cases hfollows : hasComma extra item items with
  | true =>
    rw [hfollows] at hcomma
    exact hcomma.1.kind
  | false =>
    -- Only behind the last element there is no comma.
    obtain rfl := eq_nil_of_hasComma hfollows
    rw [hfollows] at hmore
    exact hmore.1.kind

/-- Elements are read up to the closing bracket. -/
theorem elements_yields (items : List (Item rules)) (extra : Bool) (hnames : c.names = rules)
    (hwords : c.HasWords x.index (listWords extra items ++ [sign (.punctuator .bracketClose)]))
    (harguments : x.inInitializer = true → ∀ item ∈ items, item.isArguments = false)
    {fuel : Nat} (hfuel : items.length < fuel) (k : Nat) :
    Yields c x (elements (.within (k + 2)) fuel)
      (fun found => Element.bareList found = items.map Item.tree)
      (x.step (listWords extra items).length) := by
  induction items generalizing x fuel with
  | nil =>
    obtain ⟨fuel, rfl⟩ := Nat.exists_eq_add_of_lt hfuel
    have hkind : (c.token x.index).kind = .punctuator .bracketClose := hwords.1.kind
    rw [elements]
    refine .acceptNot (by rw [hkind]; decide) (.peek ?_)
    rw [if_pos hkind]
    exact .pure rfl
  | cons item items ih =>
    obtain ⟨fuel, rfl⟩ := Nat.exists_eq_add_of_lt hfuel
    rw [listWords, List.append_assoc, List.append_assoc] at hwords
    obtain ⟨hitem, hrest⟩ := Context.hasWords_append.1 hwords
    obtain ⟨hcomma, hmore⟩ := Context.hasWords_append.1 hrest
    have hothers (hin : x.inInitializer = true) : ∀ other ∈ items, other.isArguments = false :=
      fun other hother => harguments hin other (List.mem_cons_of_mem _ hother)
    have hfuel : items.length < (item :: items).length + fuel := by
      rw [List.length_cons]
      omega
    have hlength : (listWords extra (item :: items)).length = item.words.length
        + ((optional (hasComma extra item items) (sign (.punctuator .comma))).length
          + (listWords extra items).length) := by
      rw [listWords, List.length_append, List.length_append]
    rw [elements, hlength]
    cases item with
    | hole =>
      have hread := ih (x := x.step 1) hmore hothers hfuel
      refine .accept hcomma.1.kind ?_
      rw [if_pos rfl, Item.words, List.length_nil, Nat.zero_add, ← Spot.step_step]
      refine hread.bind fun found hfound => .pure ?_
      rw [Element.bareList, hfound]
      rfl
    | name spread n =>
      have hbegins := kind_ne_stop hitem
      have hkind := kind_behind hcomma hmore
      refine .acceptNot hbegins.1 (.peek ?_)
      rw [if_neg hbegins.2, ← Spot.step_step]
      refine name_yields (f := fun element => do
        if (← peek).kind = .punctuator .bracketClose then return [element]
        else
          discard <| require (.punctuator .comma)
          let rest ← elements (.within (k + 2)) ((Item.name spread n :: items).length + fuel)
          return element :: rest) hnames hitem (fun hin => harguments hin _ List.mem_cons_self)
        (by rw [hkind]; split <;> decide) k fun e he => ?_
      refine .peek (x := x.step _) ?_
      rw [Spot.step_index, hkind]
      cases hfollows : hasComma extra (.name spread n) items with
      | true =>
        rw [hfollows] at hkind hmore
        have hread := ih (x := (x.step _).step 1) hmore hothers hfuel
        rw [if_neg (by decide), ← Spot.step_step]
        refine .discard (.require (x := x.step _) hkind (hread.bind fun found hfound => .pure ?_))
        rw [Element.bareList, he, hfound]
        rfl
      | false =>
        -- Nothing stands between the last element and the bracket.
        obtain rfl := eq_nil_of_hasComma hfollows
        rw [if_pos (by decide)]
        refine .pure ?_
        rw [Element.bareList, he]
        rfl

/-- An array is read from its words. -/
theorem arrayLiteral_yields (items : List (Item rules)) (extra : Bool) (hnames : c.names = rules)
    (hwords : c.HasWords x.index (words items extra))
    (harguments : x.inInitializer = true → ∀ item ∈ items, item.isArguments = false) {k : Nat}
    (hroom : items.length < k + 2) :
    Yields c x (arrayLiteral (.within (k + 2)))
      (fun e => e.bare = .arrayLit default (items.map Item.tree))
      (x.step (words items extra).length) := by
  obtain ⟨hopen, htail⟩ := hwords
  obtain ⟨-, hclose, -⟩ := Context.hasWords_append.1 htail
  have hlength : (words items extra).length = 1 + ((listWords extra items).length + 1) := by
    rw [words, List.length_cons, List.length_append, List.length_singleton, Nat.add_comm]
  rw [arrayLiteral, hlength, ← Spot.step_step, ← Spot.step_step]
  refine .spanned (.discard (.require hopen.kind ?_))
  rw [Rules.within_budget]
  refine (elements_yields (x := x.step 1) items extra hnames htail harguments hroom k).bind
    fun found hfound => ?_
  refine .discard (.require (x := (x.step 1).step _) hclose.kind (.pure fun span => ?_))
  rw [Expr.bare, hfound]

end

/-! ### Texts -/

/-- Each element has at least one word, its comma included. -/
theorem length_le_listWords (items : List (Item rules)) (extra : Bool) :
    items.length ≤ (listWords extra items).length := by
  induction items with
  | nil => exact Nat.le_refl 0
  | cons x items ih =>
    have hone : 1 ≤ x.words.length
        + (optional (hasComma extra x items) (sign (.punctuator .comma))).length := by
      cases x with
      | hole => exact Nat.le_refl 1
      | name spread n =>
        rw [Item.words, List.length_append, List.length_singleton]
        omega
    rw [listWords, List.length_cons, List.length_append, List.length_append]
    omega

/-- The place of an array goes from its first token through the last one that is read. -/
theorem span_of_arrayLiteral {g : Rules} {c : Context} {s t : State} {e : Expr}
    (h : arrayLiteral g c s = .ok e t) (hlt : s.position < t.position) :
    e.span = ⟨(c.token s.position).span.start, (c.token (t.position - 1)).span.stop⟩ := by
  simp only [arrayLiteral, spanned_ok_iff, discard_bind, bind_ok_iff, pure_ok_iff] at h
  obtain ⟨_, ⟨_, _, -, found, _, -, _, _, -, rfl, rfl⟩, rfl⟩ := h
  rw [Expr.span, spanSince, if_pos hlt]

/-- **An array is read back from what it is printed as**, with its holes, and nothing behind it is
read. A comma behind an element at the end changes nothing. -/
theorem arrayLiteral_text (items : List (Item rules)) (extra : Bool) (after : String)
    (privateNames : Bool) (options : Options) {n : Nat} {s : State} (hstart : s.position = 0)
    (harguments : s.inInitializer = true → ∀ item ∈ items, item.isArguments = false)
    (hroom : (Context.ofSource (text items extra ++ after) privateNames options).budget ≤ n) :
    let c := Context.ofSource (text items extra ++ after) privateNames options
    ∃ e t, arrayLiteral (.within n) { c with names := rules } s = .ok e t
      ∧ e.bare = .arrayLit default (items.map Item.tree)
      ∧ e.span = ⟨0, (text items extra).utf8ByteSize⟩
      ∧ t.spot = { s.spot with index := t.position }
      ∧ c.token t.position
        = (Lexer.next ⟨(text items extra).utf8ByteSize, after.toList, privateNames⟩).1 := by
  intro c
  have hbegins : c.Begins (words items extra) _ _ :=
    Context.begins_joined (List.cons_ne_nil _ _) (standTogether_words items extra after.toList)
      (toList_text items extra) privateNames options
  have hlength : items.length < (words items extra).length := by
    have hle := length_le_listWords items extra
    rw [words, List.length_cons, List.length_append]
    omega
  have hsize := hbegins.lt_size
  have hbudget : 2 * c.tokens.size + 8 ≤ n := hroom
  obtain ⟨k, rfl⟩ : ∃ k, n = k + 2 := Nat.exists_eq_add_of_le' (by omega)
  have hwords : { c with names := rules : Context }.HasWords s.spot.index (words items extra) := by
    rw [State.spot, hstart]
    exact hbegins.hasWords.withNames rules
  obtain ⟨e, t, hrun, hbare, hspot⟩ :=
    arrayLiteral_yields (k := k) items extra rfl hwords harguments (by omega) rfl
  have hposition : t.position = (words items extra).length := by
    have hindex : t.position = s.position + (words items extra).length := congrArg Spot.index hspot
    rw [hindex, hstart, Nat.zero_add]
  refine ⟨e, t, hrun, hbare, ?_, ?_, ?_⟩
  · rw [span_of_arrayLiteral hrun (by omega), hstart, hposition]
    exact congrArg₂ Span.mk hbegins.start_eq hbegins.stop_eq
  · rw [hspot, Spot.step, hposition, State.spot, hstart, Nat.zero_add]
  · rw [hposition]
    exact hbegins.following_eq

/-- A hole on either side of two names, one of them behind a rest mark. -/
def holesAround : List (Item .script) :=
  [.hole, .name false (.plain "first" (by decide)), .name true (.plain "others" (by decide)), .hole]

/-- In a field initializer, in front of an index. -/
theorem arrayLiteral_text_holesAround :
    let c := Context.ofSource "[,first,...others,,][0]" true ⟨9, true⟩
    text holesAround true = "[,first,...others,,]" ∧ (∀ item ∈ holesAround, item.isArguments = false)
      ∧ c.budget ≤ 50
      ∧ ∃ e t, arrayLiteral (.within 50) { c with names := .script } ⟨0, 0, .outside, true, #[]⟩
          = .ok e t
        ∧ e.bare = .arrayLit default
            [.hole, .single (.ident default "first"), .rest (.ident default "others"), .hole]
        ∧ e.span = ⟨0, 20⟩ ∧ c.token t.position = ⟨.punctuator .bracketOpen, "[", ⟨20, 21⟩, false⟩
    := by
  have htext : text holesAround true ++ "[0]" = "[,first,...others,,][0]" := by decide +kernel
  have harguments : ∀ item ∈ holesAround, item.isArguments = false := by decide
  have hroom : (Context.ofSource "[,first,...others,,][0]" true ⟨9, true⟩).budget ≤ 50 := by
    decide +kernel
  have hread := arrayLiteral_text holesAround true "[0]" true ⟨9, true⟩ (n := 50)
    (s := ⟨0, 0, .outside, true, #[]⟩) rfl fun _ => harguments
  rw [htext] at hread
  obtain ⟨e, t, hrun, hbare, hspan, -, hnext⟩ := hread hroom
  refine ⟨by decide +kernel, harguments, hroom, e, t, hrun, hbare, hspan.trans ?_, hnext.trans ?_⟩
  · decide +kernel
  · decide +kernel

end ArrayText

end EcmaScript
