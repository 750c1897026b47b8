import EcmaScript.Proofs.Grammar.ReadingParts

namespace EcmaScript.Grammar

open EcmaScript.Parser

/-!
# Modifiers and names of members

`static`, `async`, `get` and `set` may stand before the key of a member or be its key, which the
token behind the word decides. The grammar of heads lists the tokens that may follow a modifier;
`modifier` lists seven that may not.

* `startsKey`, `mayFollow` — the tokens with which a key begins, and those that a modifier may
  stand before;
* `takenBefore` — the tokens before which the word is taken for a modifier;
* `LooksFor` — the two places in a head where a modifier may stand;
* `behindModifier` — what is read behind it;
* `memberHead_modifier` — whether a word is taken, and what becomes of the head.
-/

variable {c : Context} {g : Rules} {s t : State} {word : Keyword}

/-- May a key begin with a token of this kind? -/
def startsKey : TokenKind → Bool
  | .identifier | .keyword _ | .string | .number | .punctuator .bracketOpen => true
  | _ => false

/-- May a token of this kind stand behind the modifier? -/
def mayFollow (word : Keyword) (kind : TokenKind) : Bool :=
  startsKey kind || ((word = .kStatic || word = .kAsync) && kind = .punctuator .asterisk)

/-- Is the word taken for a modifier before this token? -/
def takenBefore (word : Keyword) (behind : Token) : Bool :=
  !endsKey behind.kind && !(word = .kAsync && behind.newlineBefore)

/-- None of the tokens that make a word the key could go on behind a modifier. -/
theorem endsKey_eq_false_of_mayFollow {kind : TokenKind} (h : mayFollow word kind = true) :
    endsKey kind = false := by
  cases kind with
  | punctuator p => cases p <;> simp_all [mayFollow, startsKey, endsKey]
  | _ => simp_all [mayFollow, startsKey, endsKey]

/-! ### Keys -/

/-- A key is refused at a token with which none begins. -/
theorem memberKey_refused (h : startsKey (c.token s.position).kind = false) :
    memberKey g c s =
      .error (.error ((c.token s.position).misplaced .unexpectedToken)) (s.looked 0) := by
  have hbracket : (c.token s.position).kind ≠ .punctuator .bracketOpen := by
    intro hkind
    rw [hkind] at h
    cases h
  have hdirect : directKeyText (c.token s.position)
      = fail ((c.token s.position).misplaced .unexpectedToken) := by
    unfold directKeyText
    split <;> simp_all [startsKey]
  rw [memberKey, accept_bind, if_neg hbracket, if_neg (by decide), directKey, bind_apply,
    spanned_run, peek_bind]
  dsimp only [State.looked_position]
  rw [hdirect]
  simp only [bind_apply, fail_apply, State.looked_looked, Nat.max_self]

/-- A keyword is a key like other words. -/
theorem memberKey_keyword (h : (c.token s.position).kind = .keyword word) :
    memberKey g c s =
      .ok (.direct ⟨(c.token s.position).span, (c.token s.position).text, .keyword word⟩)
        s.advanced := by
  have hspan : spanSince c s.position s.advanced = (c.token s.position).span := by
    simp [spanSince]
  rw [memberKey, accept_bind, if_neg (by simp [h]), if_neg (by decide), directKey, bind_apply,
    spanned_run, peek_bind]
  simp only [State.looked_position, h, directKeyText, bind_apply, next_run, pure_apply,
    State.looked_looked, Nat.max_self, State.looked_advanced, hspan]

/-! ### Words before a key -/

/-- Is the word a modifier of methods in this edition? -/
def isMethodWord (options : Options) : Keyword → Bool
  | .kAsync => options.supportsAsyncMembers
  | .kGet | .kSet => true
  | _ => false

/-- What a modifier of methods makes of the method. -/
def methodFlags : Keyword → Parser (Bool × Bool × MethodKind)
  | .kAsync => return (true, ← accept (.punctuator .asterisk), .method)
  | .kGet => return (false, false, .get)
  | .kSet => return (false, false, .set)
  | _ => return (false, false, .method)

/-- The rest of a head behind a modifier. -/
def behindModifier (g : Rules) (static : Bool) : Keyword → Parser MemberHead
  | .kStatic => memberHeadRest g true
  | word => do
    let modifiers ← methodFlags word
    let key ← memberKey g
    return ⟨static, modifiers.1, modifiers.2.1, modifiers.2.2, key⟩

theorem modifier_of_ne (sameLine : Bool) (h : (c.token s.position).kind ≠ .keyword word) :
    modifier word sameLine c s = .ok false (s.looked 1) := by
  rw [modifier, look_bind, look_bind, ite_run, if_pos (by simp [h])]
  rw [pure_apply, State.looked_looked]
  rfl

/-- A word is a modifier before most tokens, and only `async` has to stand on their line. -/
theorem modifier_of_eq (h : (c.token s.position).kind = .keyword word) (sameLine : Bool)
    (hline : sameLine = decide (word = .kAsync)) :
    modifier word sameLine c s =
      if takenBefore word (c.token (s.position + 1)) then .ok true (s.looked 1).advanced
      else .ok false (s.looked 1) := by
  subst hline
  rw [modifier, look_bind, look_bind, ite_run, discard_bind, next_bind, State.looked_looked]
  by_cases htaken : takenBefore word (c.token (s.position + 1)) = true
  · rw [if_neg (by simpa [h, takenBefore, imp_iff_not_or] using htaken), if_pos htaken]
    rfl
  · rw [if_pos (by simpa [h, takenBefore, imp_iff_not_or] using htaken), if_neg htaken]
    rfl

/-- A word that is no modifier before what stands behind it is passed over. -/
theorem modifier_passed (h : (c.token s.position).kind = .keyword word →
      takenBefore word (c.token (s.position + 1)) = false) (sameLine : Bool)
    (hline : sameLine = decide (word = .kAsync)) :
    modifier word sameLine c s = .ok false (s.looked 1) := by
  by_cases hkind : (c.token s.position).kind = .keyword word
  · rw [modifier_of_eq hkind sameLine hline, h hkind, if_neg (by decide)]
  · exact modifier_of_ne _ hkind

/-- Without a star in front, `async` is looked for first, and then the other words. -/
theorem methodModifiers_run (hstar : (c.token s.position).kind ≠ .punctuator .asterisk) :
    methodModifiers c s = (asyncModifier >>= otherModifiers) c (s.looked 0) := by
  rw [methodModifiers_eq, accept_bind, if_neg hstar, if_neg (by decide)]

theorem asyncModifier_run :
    asyncModifier c s =
      if c.options.supportsAsyncMembers then modifier .kAsync true c s else .ok false s := by
  rw [asyncModifier, options_bind, ite_run]
  rfl

/-- Words other than `async` that are passed over leave a plain method. -/
theorem otherModifiers_plain (h : ∀ word, (word = .kGet ∨ word = .kSet) →
      (c.token s.position).kind = .keyword word →
        takenBefore word (c.token (s.position + 1)) = false) :
    otherModifiers false c s = .ok (false, false, .method) (s.looked 1) := by
  have hget := modifier_passed (h .kGet (.inl rfl)) false rfl
  have hset := modifier_passed (s := s.looked 1) (h .kSet (.inr rfl)) false rfl
  rw [otherModifiers, if_neg (by decide), bind_apply, hget]
  dsimp only
  rw [if_neg (by decide), bind_apply, hset]
  dsimp only
  rw [if_neg (by decide), pure_apply, State.looked_looked, Nat.max_self]

/-- Where `async` is no modifier, only what has been looked at may change. -/
theorem asyncModifier_passed (h : c.options.supportsAsyncMembers = true →
      (c.token s.position).kind = .keyword .kAsync →
        takenBefore .kAsync (c.token (s.position + 1)) = false) :
    ∃ n ≤ 1, asyncModifier c (s.looked 0) = .ok false (s.looked n) := by
  rw [asyncModifier_run]
  by_cases hasync : c.options.supportsAsyncMembers = true
  · refine ⟨1, Nat.le_refl 1, ?_⟩
    rw [if_pos hasync, modifier_passed (s := s.looked 0) (h hasync) true rfl, State.looked_looked,
      Nat.zero_max]
  · exact ⟨0, Nat.zero_le 1, if_neg hasync⟩

/-- Where no modifier of methods stands, the method is plain. -/
theorem methodModifiers_plain (hstar : (c.token s.position).kind ≠ .punctuator .asterisk)
    (h : ∀ word, isMethodWord c.options word = true → (c.token s.position).kind = .keyword word →
      takenBefore word (c.token (s.position + 1)) = false) :
    methodModifiers c s = .ok (false, false, .method) (s.looked 1) := by
  have hothers : ∀ word, (word = .kGet ∨ word = .kSet) →
      (c.token s.position).kind = .keyword word →
        takenBefore word (c.token (s.position + 1)) = false := by
    rintro word (rfl | rfl)
    · exact h _ rfl
    · exact h _ rfl
  obtain ⟨n, hn, hasync⟩ := asyncModifier_passed (h .kAsync)
  rw [methodModifiers_run hstar, bind_apply, hasync]
  dsimp only
  rw [otherModifiers_plain (s := s.looked n) hothers, State.looked_looked, Nat.max_eq_right hn]

/-- A modifier of methods that is taken says what the method is. -/
theorem methodModifiers_taken (hword : isMethodWord c.options word = true)
    (hkind : (c.token s.position).kind = .keyword word)
    (htaken : takenBefore word (c.token (s.position + 1)) = true) :
    methodModifiers c s = methodFlags word c (s.looked 1).advanced := by
  have hnone {other : Keyword} (hne : word ≠ other) :
      (c.token s.position).kind ≠ .keyword other := by
    rw [hkind]
    exact fun h => hne (TokenKind.keyword.inj h)
  have hread (n : Nat) (hn : n ≤ 1) (sameLine : Bool) (hline : sameLine = decide (word = .kAsync)) :
      modifier word sameLine c (s.looked n) = .ok true (s.looked 1).advanced := by
    rw [modifier_of_eq (s := s.looked n) hkind sameLine hline, State.looked_position, if_pos htaken,
      State.looked_looked, Nat.max_eq_right hn]
  have hasync (hne : word ≠ .kAsync) :
      ∃ n ≤ 1, asyncModifier c (s.looked 0) = .ok false (s.looked n) :=
    asyncModifier_passed fun _ h => absurd h (hnone hne)
  rw [methodModifiers_run (by simp [hkind]), bind_apply]
  cases word with
  | kAsync =>
    rw [asyncModifier_run, if_pos (show c.options.supportsAsyncMembers = true from hword),
      hread 0 (by decide) true rfl]
    rfl
  | kGet =>
    obtain ⟨n, hn, hrun⟩ := hasync (by decide)
    rw [hrun]
    dsimp only
    rw [otherModifiers, if_neg (by decide), bind_apply, hread n hn false rfl]
    rfl
  | kSet =>
    obtain ⟨n, hn, hrun⟩ := hasync (by decide)
    have hget : modifier .kGet false c (s.looked n) = _ :=
      modifier_of_ne false (hnone (by decide))
    rw [hrun]
    dsimp only
    rw [otherModifiers, if_neg (by decide), bind_apply, hget]
    dsimp only
    rw [if_neg (by decide), bind_apply, State.looked_looked, Nat.max_eq_right hn,
      hread 1 (Nat.le_refl 1) false rfl]
    rfl
  | _ => cases hword

/-! ### Heads -/

/-- The parts of a head that look for the word as a modifier: the whole head, and what is left
behind `static`. With each goes whether the member is known to be static. -/
inductive LooksFor (c : Context) (g : Rules) : Keyword → Bool → Parser MemberHead → Prop
  | static : LooksFor c g .kStatic false (memberHead g true)
  | first {word : Keyword} (allowStatic : Bool) :
    isMethodWord c.options word = true → LooksFor c g word false (memberHead g allowStatic)
  | second {word : Keyword} :
    isMethodWord c.options word = true → LooksFor c g word true (memberHeadRest g true)

/-- A word that is no modifier is the key of a plain member. -/
theorem memberHeadRest_key (hkind : (c.token s.position).kind = .keyword word)
    (h : isMethodWord c.options word = true →
      takenBefore word (c.token (s.position + 1)) = false) (static : Bool) :
    memberHeadRest g static c s =
      .ok ⟨static, false, false, .method,
          .direct ⟨(c.token s.position).span, (c.token s.position).text, .keyword word⟩⟩
        (s.looked 1).advanced := by
  have hplain := methodModifiers_plain (s := s) (c := c) (by simp [hkind])
    fun other hother heq => by
      rw [hkind] at heq
      cases heq
      exact h hother
  rw [memberHeadRest, bind_apply, hplain]
  dsimp only
  rw [bind_apply, memberKey_keyword (s := s.looked 1) hkind]
  rfl

/-- A modifier of methods that is taken. -/
theorem memberHeadRest_taken (hword : isMethodWord c.options word = true)
    (hkind : (c.token s.position).kind = .keyword word)
    (htaken : takenBefore word (c.token (s.position + 1)) = true) (static : Bool) :
    memberHeadRest g static c s = behindModifier g static word c (s.looked 1).advanced := by
  have hne : word ≠ .kStatic := by
    rintro rfl
    cases hword
  rw [memberHeadRest, bind_apply, methodModifiers_taken hword hkind htaken, ← bind_apply]
  unfold behindModifier
  split
  · exact absurd rfl hne
  · rfl

/-- Behind a modifier, a token that may not follow it is refused. -/
theorem behindModifier_refused (h : mayFollow word (c.token s.position).kind = false)
    (static : Bool) :
    ∃ t, s.SamePlace t ∧ behindModifier g static word c s =
      .error (.error ((c.token s.position).misplaced .unexpectedToken)) t := by
  simp only [mayFollow, Bool.or_eq_false_iff, Bool.and_eq_false_imp] at h
  obtain ⟨hkey, hstar⟩ := h
  have hstart := State.SamePlace.refl s
  -- What the modifier makes of the method reads nothing here, so the key is refused.
  have hflags (hne : word ≠ .kStatic) {m : Bool × Bool × MethodKind} {n : Nat}
      (hrun : methodFlags word c s = .ok m (s.looked n) ∨ methodFlags word c s = .ok m s) :
      ∃ t, s.SamePlace t ∧ behindModifier g static word c s =
        .error (.error ((c.token s.position).misplaced .unexpectedToken)) t := by
    have hunfold : behindModifier g static word = (do
        let modifiers ← methodFlags word
        let key ← memberKey g
        return ⟨static, modifiers.1, modifiers.2.1, modifiers.2.2, key⟩) := by
      unfold behindModifier
      split
      · exact absurd rfl hne
      · rfl
    rw [hunfold, bind_apply]
    obtain hrun | hrun := hrun
    · refine ⟨_, (hstart.looked n).looked 0, ?_⟩
      rw [hrun]
      dsimp only
      rw [bind_apply, memberKey_refused (s := s.looked n) hkey]
      rfl
    · refine ⟨_, hstart.looked 0, ?_⟩
      rw [hrun]
      dsimp only
      rw [bind_apply, memberKey_refused hkey]
  cases word with
  | kStatic =>
    have hstar : (c.token s.position).kind ≠ .punctuator .asterisk := by simpa using hstar
    have hplain := methodModifiers_plain (s := s) (c := c) hstar fun word _ hword => by
      rw [hword] at hkey
      cases hkey
    refine ⟨_, (hstart.looked 1).looked 0, ?_⟩
    rw [behindModifier, memberHeadRest, bind_apply, hplain]
    dsimp only
    rw [bind_apply, memberKey_refused (s := s.looked 1) hkey]
    rfl
  | kAsync =>
    have hstar : (c.token s.position).kind ≠ .punctuator .asterisk := by simpa using hstar
    refine hflags (by decide) (m := (true, false, .method)) (n := 0) (.inl ?_)
    rw [methodFlags, accept_bind, if_neg hstar]
    rfl
  | _ => exact hflags (by decide) (n := 0) (.inr rfl)

/-- A head that looks for a modifier of methods goes on there as the rest of a head does. -/
theorem LooksFor.method_run {static : Bool} {p : Parser MemberHead}
    (hlooks : LooksFor c g word static p) (hne : word ≠ .kStatic)
    (hkind : (c.token s.position).kind = .keyword word) :
    isMethodWord c.options word = true ∧ ∃ u : State, u.position = s.position
      ∧ u.looked 1 = s.looked 1 ∧ p c s = memberHeadRest g static c u := by
  cases hlooks with
  | static => exact absurd rfl hne
  | first allowStatic hword =>
    refine ⟨hword, ?_⟩
    rw [memberHead_eq, bind_apply]
    cases allowStatic with
    | true =>
      have hmark : modifier .kStatic false c s = _ := modifier_of_ne false fun h => by
        rw [hkind] at h
        exact hne (TokenKind.keyword.inj h)
      refine ⟨s.looked 1, rfl, by rw [State.looked_looked, Nat.max_self], ?_⟩
      rw [staticMark, if_pos rfl, hmark]
    | false => exact ⟨s, rfl, rfl, rfl⟩
  | second hword => exact ⟨hword, s, rfl, rfl, rfl⟩

/-- Only the whole head of a member of a class looks for `static`. -/
theorem LooksFor.static_eq {static : Bool} {p : Parser MemberHead}
    (hlooks : LooksFor c g .kStatic static p) : static = false ∧ p = memberHead g true := by
  cases hlooks with
  | static => exact ⟨rfl, rfl⟩
  | first _ hword => cases hword
  | second hword => cases hword

/-- The word is the key where it is not taken for a modifier. -/
theorem LooksFor.key {static : Bool} {p : Parser MemberHead} (hlooks : LooksFor c g word static p)
    (hkind : (c.token s.position).kind = .keyword word)
    (h : takenBefore word (c.token (s.position + 1)) = false) :
    p c s =
      .ok ⟨static, false, false, .method,
          .direct ⟨(c.token s.position).span, (c.token s.position).text, .keyword word⟩⟩
        (s.looked 1).advanced := by
  by_cases hne : word = .kStatic
  · subst hne
    obtain ⟨rfl, rfl⟩ := hlooks.static_eq
    have hmark := modifier_passed (fun _ => h) false rfl
    rw [memberHead_eq, bind_apply, staticMark, if_pos rfl, hmark]
    dsimp only
    rw [memberHeadRest_key (s := s.looked 1) hkind (fun hword => by cases hword),
      State.looked_looked, Nat.max_self]
    rfl
  · obtain ⟨-, u, hu, hlooked, hrun⟩ := hlooks.method_run hne hkind
    rw [hrun, memberHeadRest_key (hu ▸ hkind) (fun _ => hu ▸ h), hu, hlooked]

/-- The head goes on behind the word where it is taken for a modifier. -/
theorem LooksFor.taken {static : Bool} {p : Parser MemberHead}
    (hlooks : LooksFor c g word static p) (hkind : (c.token s.position).kind = .keyword word)
    (h : takenBefore word (c.token (s.position + 1)) = true) :
    p c s = behindModifier g static word c (s.looked 1).advanced := by
  by_cases hne : word = .kStatic
  · subst hne
    obtain ⟨rfl, rfl⟩ := hlooks.static_eq
    rw [memberHead_eq, bind_apply, staticMark, if_pos rfl, modifier_of_eq hkind false rfl, if_pos h]
    rfl
  · obtain ⟨hword, u, hu, hlooked, hrun⟩ := hlooks.method_run hne hkind
    rw [hrun, memberHeadRest_taken hword (hu ▸ hkind) (hu ▸ h), hlooked]

/-- Where the head of a member looks for `static`, `async`, `get` or `set` and the word stands
there, it is the key before one of seven tokens, and for `async` also before a line break. Before
any other token it is a modifier: the head goes on behind it, and is refused at that token unless
the token may follow. -/
theorem memberHead_modifier {static : Bool} {p : Parser MemberHead}
    (hlooks : LooksFor c g word static p) (hkind : (c.token s.position).kind = .keyword word) :
    (takenBefore word (c.token (s.position + 1)) = false →
        p c s =
          .ok ⟨static, false, false, .method,
              .direct ⟨(c.token s.position).span, (c.token s.position).text, .keyword word⟩⟩
            (s.looked 1).advanced)
      ∧ (takenBefore word (c.token (s.position + 1)) = true →
        p c s = behindModifier g static word c (s.looked 1).advanced)
      ∧ (takenBefore word (c.token (s.position + 1)) = true →
        mayFollow word (c.token (s.position + 1)).kind = false →
        ∃ t, t.position = s.position + 1 ∧ p c s =
          .error (.error ((c.token (s.position + 1)).misplaced .unexpectedToken)) t)
      ∧ (mayFollow word (c.token (s.position + 1)).kind = true →
        takenBefore word (c.token (s.position + 1))
          = !(word = .kAsync && (c.token (s.position + 1)).newlineBefore)) := by
  refine ⟨hlooks.key hkind, hlooks.taken hkind, fun htaken hrefused => ?_, fun hfollow => ?_⟩
  · obtain ⟨t, ht, hrun⟩ :=
      behindModifier_refused (g := g) (s := (s.looked 1).advanced) hrefused static
    exact ⟨t, ht.position, (hlooks.taken hkind htaken).trans hrun⟩
  · rw [takenBefore, endsKey_eq_false_of_mayFollow hfollow]
    rfl

/-- `get` is taken for a modifier before a star on the next line, where no key can begin. -/
theorem memberHead_modifier_star :
    let star : Token := ⟨.punctuator .asterisk, "*", ⟨4, 5⟩, true⟩
    let c : Context :=
      ⟨#[⟨.keyword .kGet, "get", ⟨0, 3⟩, false⟩, star], 5, ⟨9, true⟩, .script, .all⟩
    ∃ t, t.position = 1 ∧ memberHead (Rules.within 0) true c .initial =
      .error (.error ⟨.unexpectedToken, ⟨4, 5⟩, some (.punctuator .asterisk)⟩) t := by
  intro star c
  have hlooks : LooksFor c (Rules.within 0) .kGet false (memberHead (Rules.within 0) true) :=
    .first true rfl
  exact (memberHead_modifier (s := .initial) hlooks rfl).2.2.1 rfl rfl

end EcmaScript.Grammar
