import EcmaScript.Proofs.Printing.ClassHeads

namespace EcmaScript

open EcmaScript.Parser EcmaScript.Grammar
open Word (sign)

/-!
# Printed members are read again

A field is read through its semicolon or up to the line that ends it, and a method through its body.

* `ClassText.Field.EndsAt` — a token that ends a field;
* `ClassText.Field.privateField_yields`, `ClassText.Field.plainField_yields` — fields are read;
* `ClassText.Method.yields` — methods are read.
-/

/-- A key stays in its brackets. -/
theorem Key.isComputed_bare (key : Key) : key.bare.isComputed = key.isComputed := by
  cases key <;> rfl

namespace ClassText

variable {c : Context} {x : Spot}

/-- Classes with fields and private names are read, outside of all functions. -/
structure ReadsFields (c : Context) : Prop where
  classFields : c.options.classFields = true
  edition : 8 ≤ c.options.edition
  names : c.names = .script
  length_span {i : Nat} : 1 < (c.token i).text.length → 1 < (c.token i).span.length

/-- May a member begin with a token of this kind? -/
def beginsMember (kind : TokenKind) : Bool := mayFollow .kStatic kind || kind = .privateName

/-- May a token of this kind stand behind a member? -/
def followsMember (kind : TokenKind) : Bool :=
  beginsMember kind || kind = .punctuator .braceClose

/-- No member goes on from the one before it. -/
theorem followsMember_ne {kind : TokenKind} (h : followsMember kind = true) :
    kind ≠ .punctuator .semicolon ∧ kind ≠ .punctuator .equals
      ∧ kind ≠ .punctuator .parenthesisOpen ∧ kind ≠ arrowKind := by
  refine ⟨?_, ?_, ?_, ?_⟩
  all_goals
    rintro rfl
    cases h

/-- A plain member without parameters is a field. -/
theorem isField_yields {key : Key} {head : MemberHead} (hedition : 8 ≤ c.options.edition)
    (hhead : IsHead false .none .method key head)
    (hopen : (c.token x.index).kind ≠ .punctuator .parenthesisOpen) :
    Yields c x (isField head) (· = true) x := by
  have hfields : c.options.supportsFields = true := decide_eq_true hedition
  have hplain : head.hasModifiers = false := by
    rw [MemberHead.hasModifiers, hhead.static, hhead.async, hhead.generator, hhead.kind]
    rfl
  rw [isField]
  refine .options ?_
  rw [hfields, hhead.kind, hplain, if_pos (by decide)]
  exact .peek (.pure (decide_eq_true hopen))

/-- With parameters it is none. -/
theorem isField_yields_false (head : MemberHead)
    (hopen : (c.token x.index).kind = .punctuator .parenthesisOpen) :
    Yields c x (isField head) (· = false) x := by
  rw [isField]
  refine .options ?_
  split
  next => exact .peek (.pure (by rw [hopen]; rfl))
  next => exact .pure rfl

/-! ### Members with heads -/

/-- With a head no semicolon begins, and no private name. -/
theorem mayFollow_ne {kind : TokenKind} (h : mayFollow .kStatic kind = true) :
    kind ≠ .punctuator .semicolon ∧ kind ≠ .privateName := by
  refine ⟨?_, ?_⟩
  all_goals
    rintro rfl
    cases h

theorem exists_headWords (static : Bool) (m : Modifier) (key : Key) :
    ∃ w ws, headWords static m key = w :: ws ∧ mayFollow .kStatic w.kind = true := by
  cases static with
  | true => exact ⟨_, _, rfl, rfl⟩
  | false =>
    obtain ⟨w, ws, hcons, hfollows, -⟩ := m.exists_words key
    exact ⟨w, ws, hcons, hfollows⟩

/-- A field or a method, after its head. -/
def elementBehind (g : Rules) (start : Nat) (head : MemberHead) : Parser (Option Member) := do
  if ← isField head then
    report (.publicField head.key.staticName?)
    let value ← fieldValue? g
    let span ← since start
    fieldEnd
    return some (.field span head.key head.key.isComputed value)
  else
    let make ← classMethodRest g head
    return some (make (← since start))

/-- A member with a head is read by its head and what stands behind it. -/
theorem HeadAt.classElement?_yields {static : Bool} {m : Modifier} {key : Key}
    (h : HeadAt c x.index static m key) (hc : ReadsFields c) (houtside : x.inInitializer = false)
    (hplain : static = false → key.isConstructor = true → m = .none) {n : Nat} {y : Spot}
    {P : Option Member → Prop}
    (hbehind : ∀ head,
      IsHead static m (if !static && key.isConstructor then .constructor else m.kind) key head →
        Yields c (x.step (headWords static m key).length)
          (elementBehind (.within (n + 2)) x.index head) P y) :
    Yields c x (classElement? (.within (n + 2))) P y := by
  obtain ⟨w, ws, hcons, hbegins⟩ := exists_headWords static m key
  have hfirst : (c.token x.index).kind = w.kind := by
    have hwords := h.hasWords
    rw [hcons] at hwords
    exact hwords.1.kind
  obtain ⟨hsemicolon, hprivate⟩ := mayFollow_ne hbegins
  rw [classElement?]
  refine .acceptNot (hfirst ▸ hsemicolon) (.peek (.options ?_))
  rw [if_neg (by simp [hfirst, hprivate])]
  exact .position ((h.classMemberHead_yields hc.edition hc.names houtside hplain n).bind hbehind)

/-! ### Fields -/

namespace Field

variable {f : Field}

/-- The token ends the field: it is its semicolon, or the first one of the next line, which does not
go on with the field. -/
def EndsAt (f : Field) (t : Token) : Prop :=
  if f.endsLine then
    t.newlineBefore = true ∧ followsMember t.kind = true ∧ f.endsBefore t.kind = true
  else t.kind = .punctuator .semicolon

namespace EndsAt

variable {t : Token}

/-- What ends a field ends its value. -/
theorem endsValue (h : f.EndsAt t) (hvalue : f.initial ≠ none) :
    EndsValue (.statement [.punctuator .semicolon, .punctuator .braceClose]) t := by
  rw [EndsAt] at h
  split at h
  next =>
    obtain ⟨hline, hbegin, hends⟩ := h
    have hfollowing : Operator.following? t.kind = none := by
      simpa [endsBefore, hvalue] using And.right (Bool.and_eq_true_iff.1 hends)
    exact .line hline (followsMember_ne hbegin).2.2.2 hfollowing rfl
  next => exact .closing (by rw [h]; rfl) (by rw [h]; rfl)

/-- It begins neither a value nor parameters. -/
theorem kind_ne (h : f.EndsAt t) :
    t.kind ≠ .punctuator .equals ∧ t.kind ≠ .punctuator .parenthesisOpen := by
  rw [EndsAt] at h
  split at h
  next => exact ⟨(followsMember_ne h.2.1).2.1, (followsMember_ne h.2.1).2.2.1⟩
  next =>
    rw [h]
    exact ⟨nofun, nofun⟩

/-- The end of the field is read. -/
theorem fieldEnd_yields (h : f.EndsAt (c.token x.index)) :
    Yields c x fieldEnd (fun _ => True)
      (x.step (optional (!f.endsLine) (sign (.punctuator .semicolon))).length) := by
  rw [EndsAt] at h
  rw [fieldEnd]
  split at h
  next hends =>
    rw [hends]
    refine .acceptNot (followsMember_ne h.2.1).1 (.peek ?_)
    rw [if_pos (by rw [h.1]; rfl)]
    exact .pure trivial
  next hends =>
    rw [Bool.eq_false_iff.2 hends]
    exact .accept h (.pure trivial)

end EndsAt

/-- The value of a field is read, if it has one. -/
theorem fieldValue?_yields (hnames : c.names = .script)
    (hwords : c.HasWords x.index (initialWords f.initial))
    (hends : f.EndsAt (c.token (x.index + (initialWords f.initial).length))) (n : Nat) :
    Yields c x (fieldValue? (.within (n + 2)))
      (fun value => Expr.bareOption value = f.initial.map Value.tree)
      (x.step (initialWords f.initial).length) := by
  have harguments := f.ne_arguments
  have hvalue := hends.endsValue
  have hequals := hends.kind_ne.1
  rw [fieldValue?]
  cases hinitial : f.initial with
  | none =>
    rw [hinitial] at hequals
    exact .acceptNot hequals (.pure rfl)
  | some v =>
    rw [hinitial] at hwords hvalue harguments
    have hread := v.expr_yields (x := { x.step 1 with inInitializer := true }) hnames hwords.2.1
      (fun _ => harguments v rfl) (hvalue (Option.some_ne_none v)) n
    refine .accept hwords.1.kind ?_
    rw [if_pos rfl]
    have hthen := (Yields.inInitializer (x := x.step 1) hread).bind
      (f := fun r => pure (some r.1)) (Q := fun e => Expr.bareOption e = some v.tree) fun r hr =>
        .pure (by rw [Expr.bareOption, hr])
    rw [Spot.step_inInitializer] at hthen
    exact hthen

end Field

/-- At a token of an outermost class that has declared these names, and in which none waits. -/
def spotInside (i : Nat) (names : List String) : Spot := ⟨i, false, ⟨[⟨names, []⟩]⟩⟩

theorem PrivateWord.privateName_yields {w : PrivateWord} (hc : ReadsFields c)
    (hword : (c.token x.index).IsWord w.word) :
    Yields c x privateName (fun name => name.bare = ⟨default, w.name⟩) (x.step 1) := by
  have hlong : ¬ (c.token x.index).span.length ≤ 1 := by
    refine Nat.not_le.2 (hc.length_span ?_)
    rw [hword.text]
    exact w.long
  rw [privateName]
  refine .require (hword.kind.trans w.isPrivate) ?_
  rw [if_neg hlong, hword.text, w.spells]
  exact .pure rfl

namespace Field

variable {f : Field}

/-- A field with a private name that the class has not declared is read. -/
theorem privateField_yields {w : PrivateWord} (hkey : f.key = .privateName w) (hc : ReadsFields c)
    {i : Nat} {names : List String}
    (hwords : c.HasWords i (w.word :: initialWords f.initial))
    (hends : f.EndsAt (c.token (i + 1 + (initialWords f.initial).length)))
    (hfresh : w.name ∉ names) (n : Nat) :
    Yields c (spotInside i names) (privateField (.within (n + 2))) (fun m => m.bare = f.tree)
      (spotInside (i + f.words.length) (w.name :: names)) := by
  have hlength : f.words.length = 1 + (initialWords f.initial).length
      + (optional (!f.endsLine) (sign (.punctuator .semicolon))).length := by
    rw [words, hkey, FieldKey.words, List.length_append, List.length_append, List.length_singleton]
  -- The name, the value and the semicolon are read one after the other.
  have hstop : spotInside (i + f.words.length) (w.name :: names)
      = ((spotInside (i + 1) (w.name :: names)).step (initialWords f.initial).length).step
          (optional (!f.endsLine) (sign (.punctuator .semicolon))).length := by
    rw [hlength, ← Nat.add_assoc, ← Nat.add_assoc]
    rfl
  rw [hstop, privateField]
  refine .position ((w.privateName_yields hc hwords.1).bind fun name hname => ?_)
  have hname : name.name = w.name := congrArg Ident.name hname
  have hdeclare : (spotInside (i + 1) names).scopes.declare name.name name.span
      = .ok ⟨[⟨w.name :: names, []⟩]⟩ := by
    rw [hname]
    simp [spotInside, ClassScopes.declare, ClassScope.declares, ClassScope.declare, hfresh]
  rw [if_neg (hname ▸ w.ne_constructor)]
  refine .declarePrivate hdeclare ?_
  refine (fieldValue?_yields (x := spotInside (i + 1) (w.name :: names)) hc.names hwords.2 hends
    n).bind fun value hvalue => ?_
  refine .since _ fun span => (hends.fieldEnd_yields (x := (spotInside _ _).step _)).bind
    fun _ _ => .pure ?_
  rw [Member.bare, hvalue, tree, hkey, FieldKey.tree, EcmaScript.Key.bare, Ident.bare, hname]
  rfl

/-- A key in front of an equals sign, a semicolon or the end of its line is a key. -/
theorem headAt {key : Key} {hplain : key.isConstructor = false} (hkey : f.key = .plain key hplain)
    {i : Nat} (hwords : c.HasWords i (key.words ++ initialWords f.initial))
    (hline : ∀ k, 0 < k → k < key.words.length → (c.token (i + k)).newlineBefore = false)
    (hends : f.EndsAt (c.token (i + key.words.length + (initialWords f.initial).length))) :
    HeadAt c i false .none key := by
  obtain ⟨hhead, hinitial⟩ := Context.hasWords_append.1 hwords
  refine ⟨hhead, hline _, fun {word} hword hkeyword => ?_⟩
  show takenBefore word (c.token (i + key.words.length)) = false
  rw [takenBefore]
  cases hvalue : f.initial with
  | some v =>
    rw [hvalue] at hinitial
    rw [hinitial.1.kind]
    rfl
  | none =>
    rw [hvalue] at hends
    rw [EndsAt] at hends
    split at hends
    next =>
      obtain ⟨hnewline, -, hbefore⟩ := hends
      have hnewline : (c.token (i + key.words.length)).newlineBefore = true := hnewline
      simp only [endsBefore, isBareModifier, hvalue, hkey, FieldKey.isKeyword, Bool.and_eq_true,
        Bool.not_eq_true', Option.isNone_none, Bool.true_and, Bool.or_eq_false_iff] at hbefore
      obtain ⟨⟨⟨hget, hset⟩, hstatic⟩, -⟩ := hbefore
      -- Of the words that could be modifiers here, `async` has to stand on their line.
      have hasync : word = .kAsync := by
        cases word <;> simp_all [isMethodWord]
      rw [hnewline, hasync]
      simp
    next =>
      rw [show (c.token (i + key.words.length)).kind = _ from hends]
      rfl

/-- A field with a key that is not private is read. -/
theorem plainField_yields {key : Key} {hplain : key.isConstructor = false}
    (hkey : f.key = .plain key hplain) (hc : ReadsFields c) (houtside : x.inInitializer = false)
    (hwords : c.HasWords x.index (key.words ++ initialWords f.initial))
    (hline : ∀ k, 0 < k → k < key.words.length → (c.token (x.index + k)).newlineBefore = false)
    (hends : f.EndsAt (c.token (x.index + key.words.length + (initialWords f.initial).length)))
    (n : Nat) :
    Yields c x (classElement? (.within (n + 2))) (fun m => m.map Member.bare = some f.tree)
      (x.step f.words.length) := by
  obtain ⟨-, hinitial⟩ := Context.hasWords_append.1 hwords
  have hlength : f.words.length = key.words.length + ((initialWords f.initial).length
      + (optional (!f.endsLine) (sign (.punctuator .semicolon))).length) := by
    rw [words, hkey, FieldKey.words, List.length_append, List.length_append, Nat.add_assoc]
  have hnext : (c.token (x.index + key.words.length)).kind ≠ .punctuator .parenthesisOpen := by
    cases hvalue : f.initial with
    | some v =>
      rw [hvalue] at hinitial
      rw [hinitial.1.kind]
      nofun
    | none =>
      rw [hvalue] at hends
      exact hends.kind_ne.2
  rw [hlength, ← Spot.step_step, ← Spot.step_step]
  refine (headAt hkey hwords hline hends).classElement?_yields hc houtside (fun _ _ => rfl)
    fun head hhead => ?_
  rw [hplain] at hhead
  refine (isField_yields (x := x.step key.words.length) hc.edition hhead hnext).bind ?_
  rintro _ rfl
  rw [if_pos rfl]
  refine .report _ ((fieldValue?_yields (x := x.step key.words.length) hc.names hinitial hends
    n).bind fun value hvalue => ?_)
  refine .since _ fun span => (hends.fieldEnd_yields (x := (x.step _).step _)).bind
    fun _ _ => .pure ?_
  rw [Option.map_some, Member.bare, hvalue, hhead.key, tree, hkey, FieldKey.tree, ← hhead.key,
    EcmaScript.Key.isComputed_bare]

end Field

/-! ### Methods -/

/-- A method is read. -/
theorem Method.yields {m : Method} (hc : ReadsFields c) (houtside : x.inInitializer = false)
    (hwords : c.HasWords x.index m.words)
    (hline : ∀ k, 0 < k → k < (headWords m.static m.modifier m.key).length →
      (c.token (x.index + k)).newlineBefore = false)
    {n : Nat} (hroom : m.parameters.length < n + 2) :
    Yields c x (classElement? (.within (n + 2))) (fun found => found.map Member.bare = some m.tree)
      (x.step m.words.length) := by
  obtain ⟨hhead, hrest⟩ := Context.hasWords_append.1 hwords
  have hopen : (c.token (x.index + (headWords m.static m.modifier m.key).length)).kind
      = .punctuator .parenthesisOpen := hrest.1.kind
  have hheadAt : HeadAt c x.index m.static m.modifier m.key := by
    refine ⟨hhead, hline _, fun _ _ => ?_⟩
    rw [takenBefore, hopen]
    rfl
  rw [words, List.length_append, ← Spot.step_step]
  refine hheadAt.classElement?_yields hc houtside m.plain_constructor fun head hhead => ?_
  refine (isField_yields_false (x := x.step _) head hopen).bind ?_
  rintro _ rfl
  rw [if_neg Bool.false_ne_true]
  refine Yields.bind (P := fun make => ∀ span, (make span).bare = m.tree)
    (y := (x.step _).step (functionWords m.parameters).length) ?_ fun make hmake =>
      .since _ fun span => .pure (congrArg some (hmake span))
  rw [classMethodRest]
  refine .peek ?_
  rw [Spot.step_index, if_pos hopen, hhead.kind, hhead.async, hhead.generator]
  refine (m.methodRest_yields (x := x.step _) hc.names hrest houtside hroom).bind
    fun func hfunc => .pure fun span => ?_
  rw [Member.bare, hfunc, hhead.key, hhead.static]
  rfl

end ClassText

end EcmaScript
