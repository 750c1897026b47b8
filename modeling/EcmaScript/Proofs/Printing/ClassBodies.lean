import EcmaScript.Proofs.Printing.ClassMembers

namespace EcmaScript

open EcmaScript.Parser EcmaScript.Grammar
open Word (sign)

/-!
# Printed classes are read again

From one member to the next, from the members to the class, and from the class to its text.

* `ClassText.Item.yields` — a member is read up to the next one;
* `ClassText.classItems_yields` — members are read through the closing brace;
* `ClassText.parse_text` — a class is read back from what it is printed as.
-/

namespace ClassText

variable {c : Context} {x : Spot}

/-! ### Members on their lines -/

theorem presents_map {i : Nat} {newline : Bool} {ws : List Word}
    (h : c.Presents i (ws.map (PlacedWord.mk newline))) :
    c.HasWords i ws ∧ ∀ k < ws.length, (c.token (i + k)).newlineBefore = newline := by
  induction ws generalizing i with
  | nil => exact ⟨trivial, nofun⟩
  | cons w ws ih =>
    obtain ⟨hwords, hlines⟩ := ih h.tail
    refine ⟨⟨⟨h.kind, h.text⟩, hwords⟩, fun k hk => ?_⟩
    cases k with
    | zero => exact h.newline
    | succ k =>
      rw [Nat.add_comm k, ← Nat.add_assoc]
      exact hlines k (Nat.lt_of_succ_lt_succ hk)

/-- Only in front of the first word of a line it may be broken. -/
theorem presents_onLine {i : Nat} {newline : Bool} {ws : List Word}
    (h : c.Presents i (onLine newline ws)) :
    c.HasWords i ws ∧ ∀ k, 0 < k → k < ws.length → (c.token (i + k)).newlineBefore = false := by
  cases ws with
  | nil => exact ⟨trivial, nofun⟩
  | cons w ws =>
    obtain ⟨hwords, hlines⟩ := presents_map h.tail
    refine ⟨⟨⟨h.kind, h.text⟩, hwords⟩, fun k hpos hk => ?_⟩
    obtain ⟨k, rfl⟩ := Nat.exists_eq_add_of_lt hpos
    rw [Nat.zero_add, Nat.add_comm k, ← Nat.add_assoc]
    rw [Nat.zero_add] at hk
    exact hlines k (Nat.lt_of_succ_lt_succ hk)

theorem length_onLine (newline : Bool) (ws : List Word) :
    (onLine newline ws).length = ws.length := by
  cases ws with
  | nil => rfl
  | cons w ws => rw [onLine, List.length_cons, List.length_map, List.length_cons]

namespace Item

/-- Every member begins with a word with which members begin. -/
theorem exists_words (item : Item) : ∃ w ws, item.words = w :: ws ∧ beginsMember w.kind = true := by
  have hbegin {kind : TokenKind} (h : mayFollow .kStatic kind = true) :
      beginsMember kind = true := by
    rw [beginsMember, h]
    rfl
  cases item with
  | field f =>
    rw [words, Field.words, List.append_assoc]
    cases f.key with
    | plain key hplain =>
      obtain ⟨w, ws, hcons, hstarts, -⟩ := key.exists_words
      rw [FieldKey.words, hcons]
      exact ⟨w, _, List.cons_append, hbegin (by rw [mayFollow, hstarts]; rfl)⟩
    | privateName w =>
      refine ⟨w.word, _, rfl, ?_⟩
      rw [w.isPrivate]
      rfl
  | method m =>
    obtain ⟨w, ws, hcons, hbegins⟩ := exists_headWords m.static m.modifier m.key
    rw [words, Method.words, hcons]
    exact ⟨w, _, List.cons_append, hbegin hbegins⟩

end Item

/-- The words of members and the closing brace begin with a word of the next kind, on this line or
on a new one. -/
theorem exists_bodyWords (items : List Item) : ∃ w ws, (∀ newline, bodyWords newline items
    = ⟨newline, w⟩ :: ws) ∧ nextKind items = w.kind ∧ followsMember w.kind = true := by
  cases items with
  | nil => exact ⟨_, [], fun _ => rfl, rfl, rfl⟩
  | cons item rest =>
    obtain ⟨w, ws, hcons, hbegin⟩ := item.exists_words
    refine ⟨w, ws.map (PlacedWord.mk false) ++ bodyWords item.endsLine rest, fun newline => ?_, ?_,
      by rw [followsMember, hbegin]; rfl⟩
    · rw [bodyWords, hcons, onLine, List.cons_append]
    · rw [nextKind, bodyWords, hcons, onLine, List.cons_append]

namespace Parameter

/-- Every parameter has a word. -/
theorem length_le_listWords {rules : NameRules} (ps : List (Parameter rules)) :
    ps.length ≤ (listWords ps).length := by
  induction ps with
  | nil => exact Nat.le_refl 0
  | cons p ps ih =>
    obtain ⟨w, ws, hcons, -⟩ := p.exists_words
    cases ps with
    | nil =>
      rw [listWords, hcons]
      simp
    | cons q rest =>
      rw [listWords, hcons]
      simp only [List.length_cons, List.length_append] at ih ⊢
      omega

end Parameter

namespace Item

variable {item : Item} {rest : List Item} {i n : Nat} {names : List String} {newline : Bool}

/-- What follows the words of a field in front of its semicolon ends it. -/
theorem endsAt {f : Field}
    (h : c.Presents i (onLine newline f.words ++ bodyWords f.endsLine rest))
    (hends : (field f).endsBefore (nextKind rest) = true) :
    f.EndsAt (c.token (i + f.key.words.length + (initialWords f.initial).length)) := by
  obtain ⟨hline, hrest⟩ := Context.presents_append.1 h
  rw [length_onLine] at hrest
  obtain ⟨hwords, -⟩ := presents_onLine hline
  rw [Field.words] at hwords
  obtain ⟨-, hend⟩ := Context.hasWords_append.1 hwords
  rw [List.length_append, ← Nat.add_assoc] at hend
  rw [Field.EndsAt]
  split
  -- Without a semicolon, what follows is the first word of the next member or the brace.
  next hbreaks =>
    obtain ⟨w, ws, hcons, hkind, hbegin⟩ := exists_bodyWords rest
    have hnone : optional (!true) (sign (.punctuator .semicolon)) = [] := rfl
    rw [Field.words, hbreaks, hnone, List.append_nil, List.length_append, ← Nat.add_assoc,
      hcons] at hrest
    rw [endsBefore, hbreaks, hkind] at hends
    exact ⟨hrest.newline, hrest.kind ▸ hbegin, hrest.kind ▸ hends⟩
  next hbreaks =>
    rw [Bool.eq_false_iff.2 hbreaks] at hend
    exact hend.1.kind

/-- A member is read up to the next one, or to the closing brace. -/
theorem yields (hc : ReadsFields c)
    (h : c.Presents i (onLine newline item.words ++ bodyWords item.endsLine rest))
    (hends : item.endsBefore (nextKind rest) = true)
    (hfresh : ∀ name ∈ item.privateName?, name ∉ names) (hroom : item.words.length < n + 2) :
    Yields c (spotInside i names) (classElement? (.within (n + 2)))
      (fun m => m.map Member.bare = some item.tree)
      (spotInside (i + item.words.length) (item.privateName?.toList ++ names)) := by
  obtain ⟨hwords, hline⟩ := presents_onLine (Context.presents_append.1 h).1
  cases item with
  | method m =>
    have hlength := Parameter.length_le_listWords m.parameters
    refine m.yields (x := spotInside i names) hc rfl hwords (fun k hpos hk => hline k hpos ?_) ?_
    · rw [words, Method.words, List.length_append]
      omega
    · simp only [words, Method.words, functionWords, List.length_append, List.length_cons] at hroom
      omega
  | field f =>
    have hend := endsAt h hends
    obtain ⟨hkeyWords, -⟩ := Context.hasWords_append.1 hwords
    cases hkey : f.key with
    | plain key hplain =>
      have hnone : (field f).privateName? = none := by
        rw [privateName?, hkey, FieldKey.privateName?]
      rw [hkey, FieldKey.words] at hkeyWords hend
      rw [hnone]
      refine f.plainField_yields hkey hc rfl hkeyWords (fun k hpos hk => hline k hpos ?_) hend n
      rw [words, Field.words, hkey, FieldKey.words, List.length_append, List.length_append]
      omega
    | privateName w =>
      have hsome : (field f).privateName? = some w.name := by
        rw [privateName?, hkey, FieldKey.privateName?]
      rw [hkey, FieldKey.words] at hkeyWords hend
      rw [hsome] at hfresh ⊢
      have hfirst : (c.token i).kind = .privateName := hkeyWords.1.kind.trans w.isPrivate
      have hfields : c.options.supportsFields = true := decide_eq_true hc.edition
      rw [classElement?]
      refine .acceptNot (by rw [spotInside, hfirst]; decide) (.peek (.options ?_))
      rw [if_pos (by rw [spotInside, hfirst, hfields]; rfl)]
      exact (f.privateField_yields hkey hc hkeyWords hend (hfresh _ rfl) n).bind fun m hm =>
        .pure (congrArg some hm)

end Item

/-! ### Bodies -/

theorem privateNames_cons (item : Item) (rest : List Item) :
    privateNames (item :: rest) = item.privateName?.toList ++ privateNames rest := by
  rw [privateNames, List.filterMap_cons]
  cases item.privateName? <;> rfl

/-- The members are read, through the closing brace. -/
theorem classItems_yields (hc : ReadsFields c) {items : List Item} {i n fuel : Nat} {newline : Bool}
    {names : List String} (h : c.Presents i (bodyWords newline items))
    (hends : endsLines items = true) (hnodup : (privateNames items).Nodup)
    (hfresh : ∀ name ∈ privateNames items, name ∉ names)
    (hroom : (bodyWords newline items).length ≤ n + 2) (hfuel : items.length < fuel) :
    ∃ declared, Yields c (spotInside i names) (classItems (.within (n + 2)) fuel)
      (fun members => Member.bareList members = items.map Item.tree)
      (spotInside (i + (bodyWords newline items).length) declared) := by
  obtain ⟨fuel, rfl⟩ := Nat.exists_eq_add_of_lt hfuel
  -- The names that the class has declared so far grow from one member to the next.
  induction items generalizing i newline names fuel with
  | nil => exact ⟨names, .accept h.kind (.pure rfl)⟩
  | cons item rest ih =>
    rw [endsLines, Bool.and_eq_true] at hends
    obtain ⟨hitem, hrest⟩ := hends
    rw [privateNames_cons, List.nodup_append] at hnodup
    obtain ⟨-, hnodup, hdisjoint⟩ := hnodup
    rw [privateNames_cons] at hfresh
    have hlength : (bodyWords newline (item :: rest)).length
        = item.words.length + (bodyWords item.endsLine rest).length := by
      rw [bodyWords, List.length_append, length_onLine]
    obtain ⟨w, ws, hcons, -, -⟩ := exists_bodyWords rest
    have hpos : 0 < (bodyWords item.endsLine rest).length := by
      rw [hcons]
      exact Nat.succ_pos _
    have hnew : ∀ name ∈ item.privateName?, name ∉ names := fun name hname =>
      hfresh name (List.mem_append_left _ (Option.mem_toList.2 hname))
    have hread := item.yields (n := n) hc h hitem hnew (by omega)
    obtain ⟨hline, hpresents⟩ := Context.presents_append.1 h
    have hkind : (c.token i).kind ≠ .punctuator .braceClose := by
      obtain ⟨w, ws, hfirst, hbegin⟩ := item.exists_words
      rw [hfirst] at hline
      rw [hline.kind]
      intro hbrace
      rw [show w.kind = _ from hbrace] at hbegin
      cases hbegin
    rw [length_onLine] at hpresents
    have hfresh' : ∀ name ∈ privateNames rest, name ∉ item.privateName?.toList ++ names := by
      intro name hname hmem
      obtain hmem | hmem := List.mem_append.1 hmem
      · exact hdisjoint name hmem name hname rfl
      · exact hfresh name (List.mem_append_right _ hname) hmem
    obtain ⟨declared, hmembers⟩ := ih hpresents hrest hnodup hfresh' (by omega) fuel (by omega)
    have hfuel : (item :: rest).length + fuel + 1 = rest.length + fuel + 1 + 1 := by
      rw [List.length_cons]
      omega
    refine ⟨declared, ?_⟩
    rw [hlength, ← Nat.add_assoc, hfuel, classItems]
    refine .acceptNot hkind ?_
    rw [if_neg Bool.false_ne_true]
    refine Yields.bind (P := fun m => m.map Member.bare = some item.tree) ?_ fun first hfirst =>
      hmembers.bind fun members hmembers => .pure ?_
    · rw [classItem?]
      refine .options ?_
      rw [if_pos hc.classFields]
      exact hread
    · obtain ⟨m, rfl, hm⟩ := Option.map_eq_some_iff.1 hfirst
      rw [Option.toList_some, List.singleton_append, Member.bareList, hm, hmembers]
      rfl

/-- Every member has a word. -/
theorem length_lt_bodyWords (newline : Bool) (items : List Item) :
    items.length < (bodyWords newline items).length := by
  induction items generalizing newline with
  | nil => exact Nat.one_pos
  | cons item rest ih =>
    obtain ⟨w, ws, hcons, -⟩ := item.exists_words
    have hrest := ih item.endsLine
    rw [bodyWords, List.length_append, length_onLine, hcons]
    simp only [List.length_cons]
    omega

/-- The braces of a class and the members in them are read. -/
theorem classTail_yields (hc : ReadsFields c) {items : List Item} {i n : Nat}
    (h : c.Presents i (⟨false, sign (.punctuator .braceOpen)⟩ :: bodyWords false items))
    (hends : endsLines items = true) (hnodup : (privateNames items).Nodup)
    (hroom : (bodyWords false items).length ≤ n + 2) :
    ∃ declared, Yields c (spotInside i []) (classTail (.within (n + 2)))
      (fun tail => tail.1 = none ∧ Member.bareList tail.2 = items.map Item.tree)
      (spotInside (i + 1 + (bodyWords false items).length) declared) := by
  have hlength := Nat.lt_of_lt_of_le (length_lt_bodyWords false items) hroom
  have hfresh : ∀ name ∈ privateNames items, name ∉ ([] : List String) :=
    fun _ _ => List.not_mem_nil
  obtain ⟨declared, hmembers⟩ := classItems_yields hc h.tail hends hnodup hfresh hroom hlength
  refine ⟨declared, ?_⟩
  rw [classTail]
  refine .acceptNot (by rw [spotInside, h.kind]; decide) ?_
  rw [if_neg Bool.false_ne_true]
  dsimp only
  rw [pure_bind, classBody]
  refine Yields.bind (P := fun members => Member.bareList members = items.map Item.tree) ?_
    fun members hread => .pure ⟨rfl, hread⟩
  rw [Rules.within_budget]
  exact .discard (.require h.kind hmembers)

/-- The name of a class is read. -/
theorem definitionName?_yields {name : String} (hword : (c.token x.index).IsWord (.name name)) :
    Yields c x definitionName? (fun found => found.map Ident.bare = some ⟨default, name⟩)
      (x.step 1) := by
  rintro s rfl
  have hallows : c.names.allows (c.token s.position).kind = true := by
    rw [show (c.token s.position).kind = _ from hword.kind]
    rfl
  have htext : (c.token s.position).text = name := hword.text
  refine ⟨some ⟨(c.token s.position).span, (c.token s.position).text⟩, s.advanced, ?_,
    congrArg (fun text => some (Ident.mk default text)) htext, rfl⟩
  rw [definitionName?, nameRules_bind, bind_apply, acceptIf?_run, if_pos hallows]
  rfl

/-- A class is read as a declaration. -/
theorem classDeclaration_yields (hc : ReadsFields c) {items : List Item} {n : Nat}
    (h : c.Presents 0 (⟨false, sign (.keyword .kClass)⟩ :: classWords items))
    (hends : endsLines items = true) (hnodup : (privateNames items).Nodup)
    (hroom : (bodyWords false items).length ≤ n + 2) :
    Yields c ⟨0, false, .outside⟩ (classDeclaration (.within (n + 2)))
      (fun stmt => stmt.bare = .classDecl default ⟨default, "A"⟩ none (items.map Item.tree))
      ⟨(classWords items).length + 1, false, .outside⟩ := by
  obtain ⟨declared, htail⟩ := classTail_yields (i := 2) hc h.tail.tail hends hnodup hroom
  rw [classDeclaration]
  refine .spanned (.require h.kind ?_)
  refine .inClass (y := spotInside ((classWords items).length + 1) declared) hc.classFields
    declared ?_
  refine (definitionName?_yields ⟨h.tail.kind, h.tail.text⟩).bind fun found hfound => ?_
  obtain ⟨name, rfl, hname⟩ := Option.map_eq_some_iff.1 hfound
  have hstop : spotInside ((classWords items).length + 1) declared
      = spotInside (2 + 1 + (bodyWords false items).length) declared := by
    rw [classWords, List.length_cons, List.length_cons, Nat.add_comm _ (2 + 1)]
  dsimp only
  rw [hstop]
  refine htail.bind fun tail hread => .pure fun span => ?_
  rw [Stmt.bare, hname, hread.1, hread.2]
  rfl

/-- A class in front of the end of the text is read as a script. -/
theorem script_yields (hc : ReadsFields c) {items : List Item} {n : Nat}
    (h : c.Presents 0 (⟨false, sign (.keyword .kClass)⟩ :: classWords items))
    (heof : (c.token ((classWords items).length + 1)).kind = .eof)
    (hends : endsLines items = true) (hnodup : (privateNames items).Nodup)
    (hroom : (bodyWords false items).length ≤ n + 2) :
    Yields c ⟨0, false, .outside⟩ (script (.within (n + 3))) (fun p => p.bare = tree items)
      ⟨(classWords items).length + 2, false, .outside⟩ := by
  have hnames : { c with names := .script } = c := by
    rw [← hc.names]
  have hclass := classDeclaration_yields hc h hends hnodup hroom
  -- Behind the class there are no more statements.
  have hnone : Yields c ⟨(classWords items).length + 1, false, .outside⟩
      (statements (.within (n + 3)) .eof (n + 2)) (· = [])
      ⟨(classWords items).length + 1, false, .outside⟩ := by
    rw [statements]
    refine .peek ?_
    rw [if_pos (by rw [heof]; rfl)]
    exact .pure rfl
  rw [script]
  refine .withNames ?_
  rw [hnames]
  refine Yields.bind (P := fun body => Stmt.bareList body = (tree items).body)
    (y := ⟨(classWords items).length + 1, false, .outside⟩) ?_ fun body hbody => ?_
  · rw [Rules.within_budget, statements]
    refine .peek ?_
    rw [if_neg (by rw [h.kind]; decide)]
    refine Yields.bind (P := fun stmt => [stmt.bare] = (tree items).body)
      (y := ⟨(classWords items).length + 1, false, .outside⟩) ?_ fun first hfirst => ?_
    · show Yields c _ (statement (.within (n + 2))) _ _
      rw [statement]
      refine .look 0 (.look 1 ?_)
      rw [show (c.token (0 + 0)).kind = _ from h.kind]
      exact hclass.mono fun stmt hstmt => by rw [hstmt, tree]
    · refine hnone.bind fun rest hrest => .pure ?_
      rw [hrest, Stmt.bareList, Stmt.bareList]
      exact hfirst
  · refine .discard (.require heof (.report _ (.pure (c := c) ?_)))
    rw [Program.bare, hbody]
    rfl

/-! ### Texts -/

/-- In the tokens of a source every private name with a name covers more than one byte. -/
theorem readsFields_ofSource (source : String) {options : Options} (hedition : 8 ≤ options.edition)
    (hfields : options.classFields = true) : ReadsFields (.ofSource source true options) where
  classFields := hfields
  edition := hedition
  names := rfl
  length_span {i} hlong := by
    have hle := Lexer.length_le_byteLength
      ((Context.ofSource source true options).token i).text.toList
    rw [Lexer.byteLength_toList, String.length_toList] at hle
    rw [Context.token_length]
    omega

/-- A class is read back from what it is printed as, if every line break in place of a semicolon
ends its field and no private name is declared twice. -/
theorem parse_text {items : List Item} {options : Options} (hedition : 8 ≤ options.edition)
    (hfields : options.classFields = true) (hends : endsLines items = true)
    (hnodup : (privateNames items).Nodup) :
    ∃ p, parse (text items) options = .ok p ∧ p.bare = tree items := by
  obtain ⟨hpresents, heof, hsize⟩ :=
    Context.presents_lines (Word.isToken_keyword .kClass) (isToken_classWords items) options
  have hlength : (classWords items).length = (bodyWords false items).length + 2 := rfl
  have hbudget : (Context.ofSource (text items) true options).budget
      = 2 * (bodyWords false items).length + 13 + 3 := by
    rw [Context.budget, text, hsize, hlength]
    omega
  have hscript := script_yields (n := 2 * (bodyWords false items).length + 13)
    (readsFields_ofSource (text items) hedition hfields) hpresents heof hends hnodup (by omega)
  obtain ⟨p, t, hrun, hp, -⟩ :=
    hscript (s := (Context.ofSource (text items) true options).begun) rfl
  refine ⟨p, ?_, hp⟩
  rw [parse_eq_script, hfields, hbudget, hrun]

/-- The number one. -/
def oneWord : NumberWord where
  word := ⟨.number, "1"⟩
  isToken := ⟨by decide +kernel, by decide +kernel, nofun, nofun⟩
  isNumber := rfl
  value := (Number.ofLiteral? "1").get (by decide +kernel)
  spells := (Option.some_get _).symm

/-- A private name. -/
def privateWord : PrivateWord where
  word := ⟨.privateName, "#a"⟩
  isToken := ⟨by decide +kernel, by decide +kernel, nofun, nofun⟩
  isPrivate := rfl
  long := by decide
  name := "a"
  spells := by decide +kernel
  ne_constructor := by decide

/-- A field that ends with its line, one with a private name, and a method, with words for keys that
could be modifiers. -/
def threeMembers : List Item :=
  [ .field
      { key := .plain (.spelled (.keyword .kStatic)) rfl
        initial := some (.number oneWord)
        ne_arguments := by simp [Value.isArguments]
        endsLine := true },
    .field
      { key := .privateName privateWord
        initial := none
        ne_arguments := nofun
        endsLine := false },
    .method
      { static := true
        modifier := .asyncGenerator
        key := .spelled (.keyword .kGet)
        parameters := [⟨true, .plain "b" (by decide), none⟩]
        takes_parameters := rfl
        plain_constructor := nofun } ]

/-- Three members that interact with their neighbours. -/
theorem parse_text_threeMembers :
    text threeMembers = "class A \x7b static = 1\n#a ; static async * get ( ... b ) \x7b \x7d \x7d"
      ∧ 8 ≤ (⟨9, true⟩ : Options).edition ∧ (⟨9, true⟩ : Options).classFields = true
      ∧ endsLines threeMembers = true ∧ (privateNames threeMembers).Nodup
      ∧ ∃ p, parse (text threeMembers) ⟨9, true⟩ = .ok p ∧ p.bare = tree threeMembers := by
  have hedition : 8 ≤ (⟨9, true⟩ : Options).edition := by decide
  have hends : endsLines threeMembers = true := by decide +kernel
  have hnodup : (privateNames threeMembers).Nodup := by decide +kernel
  exact ⟨by decide +kernel, hedition, rfl, hends, hnodup, parse_text hedition rfl hends hnodup⟩

end ClassText

end EcmaScript
