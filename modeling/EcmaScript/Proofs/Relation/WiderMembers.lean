import EcmaScript.Proofs.Relation.Wider

namespace EcmaScript

open EcmaScript.Parser

/-!
# Members under options that allow more

Without fields a member ends with a body or a value, so a parenthesis or a colon stands behind its
head. There `async` is a name in all editions, and no member of a class can be a field.

* `Rules.Widening` — the recursive rules carry over;
* `Rules.Widening.closed` — so do the rules that do not depend on the options;
* `Rules.Widening.memberHead` — a head is the same one if the token behind it ends keys;
* `Rules.Widening.members` — objects and classes carry over.
-/

/-- Both rules carry over, to a budget that is not smaller. -/
structure Rules.Widening (g g' : Rules) : Prop where
  budget : g.budget ≤ g'.budget
  reading : g.Reading
  reading' : g'.Reading
  keeping : g.Keeping
  keeping' : g'.Keeping
  punctuality' : g'.Punctuality
  stmt : CarriesOver g.stmt g'.stmt
  expr (mode : ExprMode) : mode.TakesCalls → CarriesOver (g.expr mode) (g'.expr mode)

/-- A part that reads something does not begin at an arrow. -/
theorem CarriesOver.not_arrowAt {α : Type} {p p' : Parser α} (hp : CarriesOver p p')
    {c c' : Context} (hc : c.Widens c') {s t : State} {a : α} (h : p c s = .ok a t)
    (hlt : s.position < t.position) : ¬ c.ArrowAt s.position := fun harrow => by
  have hstays := (hp hc (.withoutClasses s) h).1 harrow
  omega

namespace Rules.Widening

open EcmaScript.Grammar

variable {g g' : Rules} {c c' : Context} {s s' t u v : State} {α β : Type}

/-- A rule with a budget may have a larger one in the second run. -/
theorem onFuel (h : g.Widening g') : ParserRel.OnFuel @CarriesOver g.budget g'.budget :=
  ParserRel.OnFuel.of_le (fun _ _ _ _ _ _ _ _ => .error _ _) h.budget

theorem lists (h : g.Widening g') : ClosedOnLists @CarriesOver @CarriesOver g g' where
  toClosedOnTokens := CarriesOver.tokens
  outer := CarriesOver.tokens
  reading := h.reading
  modes := .ofTakesCalls
  expr := h.expr
  behind hp := hp
  first _ := .bind
  list hclose hadvances hitem := CarriesOver.tokens.list h.onFuel hclose hadvances hitem

/-! ### Parameters of arrow functions -/

/-- An item of a list ends before a comma or the closing token, so an arrow may follow the list. -/
theorem separated {close : TokenKind} (hclose : close ≠ arrowKind)
    {item item' : Parser (Span → α)} (hadvances : Advances item) (hitem : CarriesOver item item')
    {n m : Nat} (hnm : n ≤ m) :
    Surely (separated (.punctuator .comma) close item n)
      (separated (.punctuator .comma) close item' m) := by
  induction n generalizing m with
  | zero => exact fun _ _ _ _ _ _ _ _ h => by cases h
  | succ n ih =>
    obtain ⟨m, rfl⟩ := Nat.exists_eq_add_of_le' (Nat.lt_of_lt_of_le n.succ_pos hnm)
    have ih := ih (Nat.le_of_succ_le_succ hnm)
    refine (Surely.accept close).bind fun closed => ?_
    cases closed with
    | true => exact .pure _
    | false =>
      intro c c' s s' t xs hc hs h
      obtain ⟨x, u, hx, hrest⟩ := bind_ok_iff.1 h
      have hcarries := (CarriesOver.spanned hadvances hitem) hc hs hx
      have hend : ¬ c.ArrowAt u.position := by
        obtain ⟨more, v, haccept, hrest⟩ := bind_ok_iff.1 hrest
        obtain ⟨hcomma, -, -⟩ | ⟨-, rfl, rfl⟩ := accept_ok_iff.1 haccept
        · exact fun harrow => by cases hcomma.symm.trans harrow
        · rw [if_neg (by decide), discard_bind, require_bind_ok_iff] at hrest
          exact fun harrow => hclose (hrest.1.symm.trans harrow)
      refine (hcarries.2 hend).bind fun u' hu => ?_
      refine (Surely.accept _).bind (fun more => ?_) hc hu hrest
      cases more with
      | true => exact ih.bind fun _ => .pure _
      | false =>
        rw [if_neg (by decide), if_neg (by decide), discard_bind]
        exact (Surely.require close).bind fun _ => .pure _

theorem parameters (h : g.Widening g') : Surely (parameters g) (parameters g') := by
  unfold Grammar.parameters
  rw [discard_bind, discard_bind]
  refine (Surely.require _).bind fun _ => ?_
  exact separated (by decide) (.of_reads (parameter_reads h.reading)) h.lists.parameter h.budget

/-- The parameters of an arrow function are read again with the same result. -/
theorem arrowParameters_surely (h : g.Widening g') (async : Bool) :
    Surely (arrowParameters g async) (arrowParameters g' async) := by
  rw [arrowParameters_eq, arrowParameters_eq]
  have before : Surely (beforeArrow g) (beforeArrow g') := by
    refine (Surely.look 0).bind fun first => (Surely.look 1).bind fun second => ?_
    refine Surely.nameRules.bind fun rules => ?_
    split
    · exact Surely.identifier.bind fun _ => .pure _
    · exact h.parameters
  have sign : Surely arrowSign arrowSign := by
    refine (Surely.require _).bind fun arrow => ?_
    split
    · exact .fail _
    · exact .pure _
  exact (before.withNames _).bind fun _ => sign.bind fun _ => .pure _

theorem arrowParameters (h : g.Widening g') (async : Bool) :
    CarriesOver (arrowParameters g async) (arrowParameters g' async) := by
  refine (h.arrowParameters_surely async).carriesOver fun c c' s t ps hc hrun harrow => ?_
  have hc := hc.withNames (·.forAsync async)
  obtain ⟨u, -, -, -, ⟨_, hname, -⟩ | hparams⟩ := arrowParameters_ok hrun
  · have hne := CarriesOver.tokens.identifier.not_arrowAt hc hname (identifier_reads hname).lt
    exact absurd harrow hne
  · have hne := h.lists.parameters.not_arrowAt hc hparams (parameters_reads h.reading hparams).lt
    exact absurd harrow hne

/-! ### Rules that do not depend on the options -/

/-- A member, by what stands behind the point: no private name does. -/
theorem memberAccess (object : Expr) : CarriesOver (memberAccess object) (memberAccess object) := by
  intro c c' s s' hc hs
  have word (t : Token) : Surely (do
      Functor.discard Parser.next
      let name ← Grammar.identifierText t
      Parser.checkArguments t name
      return Expr.member (object.span ∪ t.span) object name) (do
      Functor.discard Parser.next
      let name ← Grammar.identifierText t
      Parser.checkArguments t name
      return Expr.member (object.span ∪ t.span) object name) := by
    rw [discard_bind]
    refine Surely.next.bind fun _ => (Surely.identifierText t).bind fun name => ?_
    exact (Surely.checkArguments t name).bind fun _ => .pure _
  intro e t hrun
  refine ⟨fun harrow => ?_, fun _ => ?_⟩
  · have hname := hc.kind_ne_privateName s.position
    obtain ⟨_, u, hprivate, -⟩ | ⟨_, hplain, -⟩ := memberAccess_ok hrun
    · exact absurd (privateName_ok hprivate).1 hname
    · exact absurd harrow (TokenKind.isPlain_iff.1 hplain).2.2.2
  rw [Grammar.memberAccess, peek_bind] at hrun ⊢
  rw [hs.position, hc.token]
  obtain ⟨p, hp, hrun⟩ := exists_run hrun
  have hlooked := hs.looked 0
  split at hp <;> subst hp
  next hkind => exact absurd hkind (hc.kind_ne_privateName _)
  next hkind =>
    simp only [hkind]
    exact word _ hc hlooked hrun
  next hkind =>
    simp only [hkind]
    exact word _ hc hlooked hrun
  next => exact (fail_ok_iff.1 hrun).elim

theorem closed (h : g.Widening g') :
    Closed @CarriesOver @CarriesOver (fun _ => @CarriesOver) g g' where
  toClosedOnLists := h.lists
  stmt := h.stmt
  inInitializer := .inInitializer
  inClass hp := .inClass (hp ⟨false, false, false⟩)
  weaken hp := hp
  class_bind := .bind
  memberAccess := memberAccess
  elements := CarriesOver.tokens.elements h.onFuel h.expr
  statements := CarriesOver.tokens.statements h.onFuel h.stmt
  arrowParameters := h.arrowParameters

/-! ### Heads of members -/

theorem modifier (word : Keyword) (sameLine : Bool) :
    Surely (modifier word sameLine) (modifier word sameLine) := by
  refine (Surely.look 0).bind fun first => (Surely.look 1).bind fun second => ?_
  split
  · exact .pure _
  · rw [discard_bind]
    exact Surely.next.bind fun _ => .pure _

theorem otherModifiers_surely (async : Bool) :
    Surely (otherModifiers async) (otherModifiers async) := by
  unfold otherModifiers
  split
  · exact (Surely.accept _).bind fun _ => .pure _
  refine (modifier .kGet false).bind fun get => ?_
  split
  · exact .pure _
  refine (modifier .kSet false).bind fun set => ?_
  split
  · exact .pure _
  · exact .pure _

/-- Where the token behind `async` ends keys, the word is no modifier, in whatever edition. -/
theorem asyncModifier_gives {b : Bool} (hc : c.Widens c') (hs : s.Matches s')
    (hrun : asyncModifier c s = .ok b u)
    (hkey : (c.token s.position).kind = .keyword .kAsync → b = false →
      endsKey (c.token (s.position + 1)).kind) :
    GivesToo b u (asyncModifier c' s') := by
  rw [asyncModifier, options_bind, ite_run] at hrun ⊢
  split at hrun
  next hon =>
    rw [if_pos (hc.asyncMembers hon)]
    exact modifier .kAsync true hc hs hrun
  next =>
    obtain ⟨rfl, rfl⟩ := pure_ok_iff.1 hrun
    split
    next =>
      rw [Grammar.modifier, look_bind, look_bind, State.looked_position, hs.position, hc.token,
        hc.token, Nat.add_zero, if_pos]
      · exact .ok ⟨hs.position, hs.inInitializer, hs.idle⟩
      · by_cases hasync : (c.token s.position).kind = .keyword .kAsync
        · simp [hkey hasync rfl]
        · simp [hasync]
    next => exact .ok hs

/-- A word that is no modifier stands where the key stands. -/
theorem otherModifiers_position {m : Bool × Bool × MethodKind}
    (hkind : (c.token s.position).kind = .keyword .kAsync)
    (h : otherModifiers false c s = .ok m t) : t.position = s.position := by
  have no {word : Keyword} {b : Bool} {s t : State} (hne : word ≠ .kAsync)
      (hs : (c.token s.position).kind = .keyword .kAsync)
      (h : Grammar.modifier word false c s = .ok b t) : b = false ∧ t.position = s.position := by
    obtain ⟨hb, ht⟩ | ⟨-, hword, -⟩ := modifier_ok h
    · exact ⟨hb, ht.position⟩
    · rw [hs] at hword
      cases hword
      exact absurd rfl hne
  unfold otherModifiers at h
  rw [if_neg (by decide)] at h
  obtain ⟨get, u, hget, h⟩ := bind_ok_iff.1 h
  obtain ⟨rfl, hu⟩ := no (by decide) hkind hget
  rw [if_neg (by decide)] at h
  obtain ⟨set, v, hset, h⟩ := bind_ok_iff.1 h
  obtain ⟨rfl, hv⟩ := no (by decide) (hu ▸ hkind) hset
  rw [if_neg (by decide)] at h
  obtain ⟨-, rfl⟩ := pure_ok_iff.1 h
  exact hv.trans hu

/-- Where the token behind the key ends keys, the words before the key are the same ones. -/
theorem methodModifiers {m : Bool × Bool × MethodKind} {k : Key} (hc : c.Widens c')
    (hs : s.Matches s') (hrun : methodModifiers c s = .ok m u) (hkey : memberKey g c u = .ok k t)
    (hend : endsKey (c.token t.position).kind) : GivesToo m u (Grammar.methodModifiers c' s') := by
  rw [methodModifiers_eq] at hrun ⊢
  obtain ⟨star, v, hstar, hrun⟩ := bind_ok_iff.1 hrun
  refine (Surely.accept _ hc hs hstar).bind fun v' hv => ?_
  cases star with
  | true => exact Surely.pure _ hc hv hrun
  | false =>
    obtain ⟨async, w, hasync, hrun⟩ := bind_ok_iff.1 hrun
    refine (asyncModifier_gives hc hv hasync fun hkind hfalse => ?_).bind fun w' hw =>
      otherModifiers_surely async hc hw hrun
    subst hfalse
    have hw : w.position = v.position := by
      rw [asyncModifier, options_bind, ite_run] at hasync
      split at hasync
      · obtain ⟨-, hw⟩ | ⟨hb, -⟩ := modifier_ok hasync
        · exact hw.position
        · cases hb
      · obtain ⟨-, rfl⟩ := pure_ok_iff.1 hasync
        rfl
    have hu := otherModifiers_position (hw ▸ hkind) hrun
    rw [hw] at hu
    obtain ⟨_, _, hopen, -⟩ | ⟨_, hdirect, -⟩ := memberKey_ok hkey
    · rw [hu, hkind] at hopen
      cases hopen
    · obtain ⟨-, -, -, rfl⟩ := directKey_ok hdirect
      rw [← hu]
      exact hend

theorem endsKey_not_arrowAt {i : Nat} (h : endsKey (c.token i).kind) : ¬ c.ArrowAt i := by
  intro harrow
  rw [harrow] at h
  cases h

/-- Where the token behind it ends keys, a head is the same one in both editions. -/
theorem memberHead (h : g.Widening g') (hc : c.Widens c') (hs : s.Matches s') {allowStatic : Bool}
    {head : MemberHead} (hrun : memberHead g allowStatic c s = .ok head t)
    (hend : endsKey (c.token t.position).kind) :
    GivesToo head t (Grammar.memberHead g' allowStatic c' s') := by
  obtain ⟨u, v, hstatic, hmodifiers, hkey⟩ := memberHead_ok hrun
  have hstatic : GivesToo head.static u (staticMark allowStatic c' s') := by
    cases allowStatic with
    | true => exact modifier _ _ hc hs hstatic
    | false =>
      obtain ⟨hfalse, rfl⟩ := pure_ok_iff.1 hstatic
      exact hfalse ▸ .ok hs
  rw [memberHead_eq]
  refine hstatic.bind fun u' hu => ?_
  refine (methodModifiers hc hu hmodifiers hkey hend).bind fun v' hv => ?_
  have hkey := (h.closed.memberKey hc hv hkey).2 (endsKey_not_arrowAt hend)
  exact hkey.bind fun t' ht => .ok ht

/-- No modifier is an arrow. -/
theorem methodModifiers_position {m : Bool × Bool × MethodKind} (harrow : c.ArrowAt s.position)
    (h : Grammar.methodModifiers c s = .ok m t) : t.position = s.position := by
  have no {word : Keyword} {b sameLine : Bool} {s t : State} (hs : c.ArrowAt s.position)
      (h : Grammar.modifier word sameLine c s = .ok b t) : b = false ∧ t.position = s.position := by
    obtain ⟨hb, ht⟩ | ⟨-, hword, -⟩ := modifier_ok h
    · exact ⟨hb, ht.position⟩
    · cases hs.symm.trans hword
  rw [methodModifiers_eq, accept_bind, if_neg (by rw [harrow]; decide), if_neg (by decide)] at h
  obtain ⟨async, u, hasync, h⟩ := bind_ok_iff.1 h
  obtain ⟨rfl, hu⟩ : async = false ∧ u.position = s.position := by
    rw [asyncModifier, options_bind, ite_run] at hasync
    split at hasync
    · exact no (s := s.looked 0) harrow hasync
    · obtain ⟨rfl, rfl⟩ := pure_ok_iff.1 hasync
      exact ⟨rfl, rfl⟩
  rw [otherModifiers, if_neg (by decide)] at h
  obtain ⟨get, v, hget, h⟩ := bind_ok_iff.1 h
  obtain ⟨rfl, hv⟩ := no (s := u) (hu ▸ harrow) hget
  rw [if_neg (by decide)] at h
  obtain ⟨set, w, hset, h⟩ := bind_ok_iff.1 h
  obtain ⟨rfl, hw⟩ := no (s := v) (hv ▸ hu ▸ harrow) hset
  obtain ⟨-, rfl⟩ := pure_ok_iff.1 h
  rw [hw, hv, hu]

/-- No member begins with an arrow. -/
theorem memberHead_not_arrowAt (h : g.Widening g') (hc : c.Widens c') {allowStatic : Bool}
    {head : MemberHead} (hrun : Grammar.memberHead g allowStatic c s = .ok head t) :
    ¬ c.ArrowAt s.position := by
  intro harrow
  obtain ⟨u, v, hstatic, hmodifiers, hkey⟩ := memberHead_ok hrun
  have hu : u.position = s.position := by
    obtain hstatic | ⟨-, rfl⟩ := staticMark_ok hstatic
    · obtain ⟨-, hu⟩ | ⟨-, hword, -⟩ := modifier_ok hstatic
      · exact hu.position
      · cases harrow.symm.trans hword
    · rfl
  have hv := methodModifiers_position (s := u) (hu ▸ harrow) hmodifiers
  refine h.closed.memberKey.not_arrowAt hc hkey (memberKey_reads h.reading hkey).lt ?_
  rw [hv, hu]
  exact harrow

/-! ### Members of objects -/

/-- A method goes on with a parenthesis. -/
theorem methodRest_kind {kind : MethodKind} {async generator : Bool} {f : Func}
    (h : Grammar.methodRest g kind async generator c s = .ok f t) :
    (c.token s.position).kind = .punctuator .parenthesisOpen := by
  have h := (methodRest_ok h).1
  simp only [functionRest, withNames_run, spanned_ok_iff, bind_ok_iff] at h
  obtain ⟨_, ⟨_, _, hparams, -⟩, -⟩ := h
  rw [Grammar.parameters, discard_bind, require_bind_ok_iff] at hparams
  exact hparams.1

/-- What stands behind the head of a member ends keys. -/
theorem objectMemberRest_endsKey {head : MemberHead} {make : Span → ObjectMember}
    (h : objectMemberRest g head c s = .ok make t) : endsKey (c.token s.position).kind := by
  have tail {isMethod : Bool} {s : State} (h : objectMemberTail g head isMethod c s = .ok make t) :
      endsKey (c.token s.position).kind := by
    cases isMethod with
    | true =>
      obtain ⟨_, _, hfunc, -⟩ := bind_ok_iff.1 h
      rw [methodRest_kind hfunc]
      rfl
    | false =>
      rw [objectMemberTail, if_neg (by decide), discard_bind, require_bind_ok_iff] at h
      rw [h.1]
      rfl
  rw [objectMemberRest, ite_run] at h
  split at h
  · exact tail h
  · rw [peek_bind] at h
    exact tail (s := s.looked 0) h

theorem objectMemberRest_carriesOver (h : g.Widening g') (head : MemberHead) :
    CarriesOver (objectMemberRest g head) (objectMemberRest g' head) := by
  have hclosed := h.closed
  have tail (isMethod : Bool) :
      CarriesOver (objectMemberTail g head isMethod) (objectMemberTail g' head isMethod) := by
    cases isMethod with
    | true => exact (hclosed.methodRest _ _ _).bind fun _ => .pure _
    | false =>
      refine CarriesOver.bind (hclosed.drop (by decide)) fun _ => ?_
      exact (hclosed.whole (by decide)).bind fun _ => .pure _
  refine ParserRel.ite (Q := @CarriesOver) _ (tail true) ?_
  exact (hclosed.look 0).bind fun _ => tail _

theorem objectMember (h : g.Widening g') :
    CarriesOver (Grammar.objectMember g) (Grammar.objectMember g') := by
  rw [objectMember_named, objectMember_named]
  refine (h.lists.named 0).bind fun first => (h.lists.look 1).bind fun second => ?_
  refine ParserRel.ite (Q := @CarriesOver) _ (h.lists.identifier.bind fun _ => .pure _) ?_
  intro c c' s s' hc hs make t hrun
  obtain ⟨head, u, hhead, hrest⟩ := bind_ok_iff.1 hrun
  refine ⟨fun harrow => absurd harrow (h.memberHead_not_arrowAt hc hhead), fun hend => ?_⟩
  refine (h.memberHead hc hs hhead (objectMemberRest_endsKey hrest)).bind fun u' hu => ?_
  exact (h.objectMemberRest_carriesOver head hc hu hrest).2 hend

/-! ### Members of classes -/

/-- The head of a member of a class, where a parenthesis follows. -/
theorem classMemberHead (h : g.Widening g') (hc : c.Widens c') (hs : s.Matches s')
    {head : MemberHead} (hrun : classMemberHead g c s = .ok head t)
    (hend : endsKey (c.token t.position).kind) :
    GivesToo head t (Grammar.classMemberHead g' c' s') := by
  obtain ⟨first, u, hfirst, hcheck⟩ := bind_ok_iff.1 hrun
  have hu : u = t := by
    obtain ⟨p, hp, hcheck⟩ := exists_run hcheck
    split at hp
    · split at hp
      · exact (pure_ok_iff.1 (hp ▸ hcheck)).2
      · split at hp
        · exact (fail_ok_iff.1 (hp ▸ hcheck)).elim
        · exact (pure_ok_iff.1 (hp ▸ hcheck)).2
    · exact (pure_ok_iff.1 (hp ▸ hcheck)).2
  subst hu
  refine (h.memberHead hc hs hfirst hend).bind fun u' hu => ?_
  refine (show Surely _ _ from ?_) hc hu hcheck
  split
  · split
    · exact .pure _
    · split
      · exact .fail _
      · exact .pure _
  · exact .pure _

/-- A member of a class without fields is a semicolon or a method. -/
theorem classItem?_fieldless (hc : c.Widens c') {m : Option Member}
    (h : Grammar.classItem? g c s = .ok m t) :
    ((c.token s.position).kind = .punctuator .semicolon ∧ m = none ∧ t = s.advanced)
      ∨ ∃ u v w head make, s.SamePlace u ∧ Grammar.classMemberHead g c u = .ok head v
          ∧ v.SamePlace w ∧ classMethodRest g head c w = .ok make t
          ∧ m = some (make (spanSince c s.position t)) := by
  obtain ⟨hfields, h⟩ | ⟨-, ⟨hsemicolon, rfl, rfl⟩ | ⟨method, hmethod, rfl⟩⟩ := classItem?_ok h
  · have hoff : c.options.supportsFields = false := by
      rcases hc.fieldless with hoff | hoff
      · rw [hfields] at hoff
        cases hoff
      · exact hoff
    obtain ⟨hsemicolon, rfl, rfl⟩ | ⟨_, _, -, hprivate, -⟩ | ⟨u, v, w, head, hu, hhead, hw, h⟩ :=
      classElement?_ok h
    · exact .inl ⟨hsemicolon, rfl, rfl⟩
    · exact absurd hprivate (hc.kind_ne_privateName _)
    · obtain ⟨_, _, ⟨hon, -⟩, -⟩ | ⟨make, hmake, rfl⟩ := h
      · rw [hoff] at hon
        cases hon
      · exact .inr ⟨u, v, w, head, make, hu, hhead, hw, hmake, rfl⟩
  · exact .inl ⟨hsemicolon, rfl, rfl⟩
  · simp only [classMethod, spanned_ok_iff, bind_ok_iff] at hmethod
    obtain ⟨make, ⟨head, v, hhead, hmake⟩, rfl⟩ := hmethod
    exact .inr ⟨_, v, v, head, make, (State.SamePlace.refl s).looked 0, hhead, .refl v, hmake, rfl⟩

/-- Behind a head with a parenthesis, no field is read. -/
theorem isField_of_kind (head : MemberHead)
    (hopen : (c.token s.position).kind = .punctuator .parenthesisOpen) :
    ∃ t, isField head c s = .ok false t ∧ s.SamePlace t := by
  rw [isField, options_bind, ite_run]
  split
  · rw [peek_bind, hopen]
    exact ⟨_, rfl, (State.SamePlace.refl s).looked 0⟩
  · exact ⟨s, rfl, .refl s⟩

/-- A semicolon is no member, with fields or without. -/
theorem classItem?_semicolon (h : (c.token s.position).kind = .punctuator .semicolon) :
    Grammar.classItem? g c s = .ok none s.advanced := by
  rw [Grammar.classItem?, options_bind, ite_run, classElement?, accept_bind, accept_bind, if_pos h,
    if_pos h]
  split
  · rfl
  · rfl

/-- A method is read as a member, with fields or without. -/
theorem classItem?_method (head : MemberHead) {make : Span → Member} {i : Nat}
    (hi : i = s'.position) (hsemicolon : (c'.token s'.position).kind ≠ .punctuator .semicolon)
    (hprivate : (c'.token s'.position).kind ≠ .privateName)
    (hopen : ∀ v', v.Matches v' → (c'.token v'.position).kind = .punctuator .parenthesisOpen)
    (hhead : ∀ {u' : State}, s'.SamePlace u' → GivesToo head v (Grammar.classMemberHead g' c' u'))
    (hrest : ∀ {w' : State}, v.Matches w' → GivesToo make t (classMethodRest g' head c' w'))
    {span : Span} (hspan : ∀ t', t.Matches t' → spanSince c' i t' = span) :
    GivesToo (some (make span)) t (Grammar.classItem? g' c' s') := by
  subst hi
  rw [Grammar.classItem?, options_bind, ite_run]
  split
  · rw [classElement?, accept_bind, if_neg hsemicolon, if_neg (by decide), peek_bind, options_bind,
      ite_run, if_neg (by simp [hprivate]), position_bind]
    refine (hhead (((State.SamePlace.refl s').looked 0).looked 0)).bind fun v' hv => ?_
    obtain ⟨w', hfield, hw⟩ := isField_of_kind head (hopen v' hv)
    have hw : v.Matches w' :=
      ⟨hw.position.trans hv.position, hw.inInitializer.trans hv.inInitializer, hw.scopes ▸ hv.idle⟩
    rw [bind_apply, hfield]
    refine (hrest hw).bind fun t' ht => ?_
    rw [since_bind, State.looked_position, State.looked_position, hspan t' ht]
    exact .ok ht
  · rw [accept_bind, if_neg hsemicolon, if_neg (by decide), classMethod, spanned, bind_assoc,
      position_bind, bind_assoc, bind_assoc]
    refine (hhead ((State.SamePlace.refl s').looked 0)).bind fun v' hv => ?_
    refine (hrest hv).bind fun t' ht => ?_
    rw [bind_assoc, since_bind, State.looked_position, hspan t' ht]
    exact .ok ht

theorem classItem? (h : g.Widening g') :
    CarriesOver (Grammar.classItem? g) (Grammar.classItem? g') := by
  intro c c' s s' hc hs m t hrun
  have hkind : (c'.token s'.position).kind = (c.token s.position).kind := by
    rw [hs.position, hc.token]
  by_cases hsemicolon : (c.token s.position).kind = .punctuator .semicolon
  · rw [classItem?_semicolon hsemicolon] at hrun
    injection hrun with hm ht
    subst hm ht
    refine ⟨fun harrow => (by cases hsemicolon.symm.trans harrow), fun _ => ?_⟩
    rw [classItem?_semicolon (hkind.trans hsemicolon)]
    exact .ok hs.advanced
  have hlt := (classItem?_reads h.reading hrun).lt
  obtain ⟨hkind, -⟩ | ⟨u, v, w, head, make, hu, hhead, hw, hmake, rfl⟩ :=
    classItem?_fieldless hc hrun
  · exact absurd hkind hsemicolon
  have hne := h.memberHead_not_arrowAt hc (classMemberHead_ok hhead).choose_spec.1
  refine ⟨fun harrow => absurd (hu.position ▸ harrow) hne, fun hend => ?_⟩
  have hopen := (classMethodRest_ok hmake).1
  rw [hw.position] at hopen
  refine classItem?_method head (v := v) hs.position.symm (hkind ▸ hsemicolon)
    (hkind ▸ hc.kind_ne_privateName _) (fun v' hv => ?_) (fun hu' => ?_) (fun hw' => ?_)
    fun t' ht => spanSince_matches hc ht hlt
  · rw [hv.position, hc.token, hopen]
  · have hidle := hu'.scopes ▸ hs.idle
    refine h.classMemberHead hc ⟨?_, ?_, hidle⟩ hhead (hopen ▸ rfl)
    · rw [hu'.position, hs.position, hu.position]
    · rw [hu'.inInitializer, hs.inInitializer, hu.inInitializer]
  · have hw' := hw'.elsewhere hw.position hw.inInitializer
    exact (h.closed.classMethodRest head hc hw' hmake).2 hend

theorem classItems (h : g.Widening g') :
    CarriesOver (Grammar.classItems g g.budget) (Grammar.classItems g' g'.budget) := by
  refine h.onFuel (fun n (_ : Unit) => Grammar.classItems g n) (fun n _ => Grammar.classItems g' n)
    (fun _ => rfl) (fun _ => rfl) (fun n m ih _ => ?_) ()
  refine (h.lists.accept (by decide)).bind fun _ => ?_
  refine ParserRel.ite (Q := @CarriesOver) _ (.pure _) ?_
  refine h.classItem?.bind fun _ => ?_
  exact (ih ()).bind fun _ => .pure _

theorem members (h : g.Widening g') :
    ClosedOnMembers @CarriesOver @CarriesOver (fun _ => @CarriesOver) g g' where
  toClosed := h.closed
  objectMember := h.objectMember
  classItems _ := h.classItems

end Rules.Widening

end EcmaScript
