import EcmaScript.Proofs.Grammar.Reading
import EcmaScript.Proofs.Relation.Respacing

namespace EcmaScript

open EcmaScript.Parser

/-!
# Trees depend on the tokens only

Every rule of the grammar gives the same on two texts with the same tokens, but for places. The
names of tokens may be spelled differently wherever they are decoded.

* `Rules.Uniform` — both rules give the same on two sequences of tokens;
* `Respacing.Parallel.expression`, `Respacing.Parallel.statement` — every expression and every
  statement is read alike;
* `Rules.within_uniform` — so do the rules of the grammar, whatever their budget is.
-/

/-- Both rules give the same in two runs, and read one token at least. -/
structure Rules.Uniform (g : Rules) (w : Respacing) : Prop where
  stmt (i : Nat) : w.Parallel i (i + 1) g.stmt g.stmt
  expr (i : Nat) (mode : ExprMode) : w.Parallel i (i + 1) (g.expr mode) (g.expr mode)

/-- What a member begins with, in two runs. -/
structure Grammar.MemberHead.Same (w : Respacing) (h h' : Grammar.MemberHead) : Prop where
  static : h'.static = h.static
  async : h'.async = h.async
  generator : h'.generator = h.generator
  kind : h'.kind = h.kind
  key : w.Same h.key h'.key

instance : Respaced Grammar.MemberHead := ⟨Grammar.MemberHead.Same⟩

theorem Grammar.MemberHead.Same.hasModifiers {w : Respacing} {h h' : Grammar.MemberHead}
    (hh : MemberHead.Same w h h') : h'.hasModifiers = h.hasModifiers := by
  rw [MemberHead.hasModifiers, MemberHead.hasModifiers, hh.static, hh.async, hh.generator, hh.kind]

namespace Grammar

/-- What can be assigned to does not depend on places. -/
theorem isAssignable_bare (e : Expr) : isAssignable e.bare = isAssignable e := by
  cases e <;> rfl

/-- Nor does what can be deleted. -/
theorem checkDelete_bare (op : Token) (e : Expr) : checkDelete op e.bare = checkDelete op e := by
  cases e <;> rfl

end Grammar

namespace Respacing.Parallel

open Grammar

variable {w : Respacing} {g : Rules} {α : Type} [Respaced α] {i j : Nat}

theorem misplaced {t t' : Token} (ht : w.Same t t') (cause : SyntaxError.Cause) :
    w.Parallel i j (Parser.fail (t.misplaced cause) : Parser α)
      (Parser.fail (t'.misplaced cause)) :=
  fail (same_misplaced ht cause)

/-! ### Names -/

theorem identifierText {t t' : Token} (ht : w.Same t t') (hne : t.kind ≠ .privateName) :
    w.Parallel i i (identifierText t) (identifierText t') := by
  have herror := same_error ht (.expected "valid escape sequence")
  obtain ⟨n, rfl, rfl⟩ := ht
  unfold Grammar.identifierText
  rw [w.decodeName? hne]
  split
  · exact pure rfl (Nat.le_refl i)
  · exact fail herror

theorem variableName : w.Parallel i (i + 1) variableName variableName := by
  refine next.bind fun t t' ht => nameRules fun rules => ?_
  have hkind : t'.kind = t.kind := by
    obtain ⟨n, rfl, rfl⟩ := ht
    exact w.kind n
  rw [hkind]
  refine ite (fun hallowed => ?_) fun _ => misplaced ht _
  refine (identifierText ht (NameRules.ne_privateName_of_allows hallowed)).bind ?_
  rintro name _ rfl
  exact (checkArguments ht name).bind fun _ _ _ => pure rfl (Nat.le_refl _)

theorem identifier : w.Parallel i (i + 1) identifier identifier := by
  refine spanned fun n _ => variableName.bind ?_
  rintro name _ rfl
  exact pure (fun span span' hspan => ⟨rfl, hspan⟩) (Nat.le_refl _)

/-- The name of a function or a class is taken as it is written, so it has to be spelled alike. -/
theorem definitionName? (h : Introduces w.token i) :
    w.ParallelAt (i + 1) (i + 1) definitionName? definitionName? := by
  have hname := congrArg (Ident.mk default) (w.definition i h).symm
  refine .nameRules fun rules => .acceptIf? (fun n => congrArg rules.allows (w.kind n)) ?_ ?_
  · exact Parallel.at (pure (.some ⟨hname, sameStart_token _⟩) (Nat.le_succ _))
  · exact Parallel.at (pure .none (Nat.le_refl _))

/-- The name of a function stands behind the word `function`, or behind an asterisk after it. -/
theorem functionName {β : Type} [Respaced β] {k : Nat} {name : Parser (Option Ident)}
    {f f' : Bool → Option Ident → Parser β} (hi : (w.token i).kind = .keyword .kFunction)
    (hname : ∀ {j}, Introduces w.token j → w.ParallelAt (j + 1) (j + 1) name name)
    (hf : ∀ generator a a', w.Same a a' → w.Parallel (i + 1) k (f generator a) (f' generator a')) :
    w.ParallelAt (i + 1) k
      (Parser.accept (.punctuator .asterisk) >>= fun generator => name >>= f generator)
      (Parser.accept (.punctuator .asterisk) >>= fun generator => name >>= f' generator) := by
  refine .accept (fun hstar => ?_) ?_
  -- With an asterisk the name is one token later, but still right behind a word that introduces it.
  · refine (hname (j := i + 1) (.inr (.inr ⟨hi, hstar⟩))).bind fun a a' ha => ?_
    exact fun _ _ hc _ _ hs hn => hf true a a' ha hc hs ((Nat.le_succ _).trans hn)
  · exact (hname (.inr (.inl hi))).bind (hf false)

theorem privateName : w.Parallel i (i + 1) privateName privateName := by
  refine .ofAt fun n hn => .require fun hkind => ?_
  have hsigil := w.sigil n hkind
  have hreading := w.reading n
  rw [Token.reading_privateName hkind, Token.reading_privateName ((w.kind n).trans hkind)]
    at hreading
  rw [hreading]
  refine Parallel.at ?_
  by_cases hshort : (w.token n).span.length ≤ 1
  · rw [if_pos hshort, if_pos (hsigil.2 hshort)]
    exact peek.bind fun after after' hafter => misplaced hafter _
  rw [if_neg hshort, if_neg fun h => hshort (hsigil.1 h)]
  split
  · exact pure ⟨rfl, sameStart_token n⟩ (Nat.succ_le_succ hn)
  · exact fail (same_error (same_token n) _)

/-! ### Literals -/

theorem numberValue : w.Parallel i (i + 1) numberValue numberValue := by
  refine .ofAt fun n hn => .require fun hkind => ?_
  rw [w.text (by rw [hkind]; decide) (by rw [hkind]; decide)]
  refine Parallel.at ?_
  split
  · exact pure rfl (Nat.succ_le_succ hn)
  · exact fail (same_error (same_token n) _)

theorem stringValue : w.Parallel i (i + 1) stringValue stringValue := by
  refine .ofAt fun n hn => .require fun hkind => ?_
  rw [w.text (by rw [hkind]; decide) (by rw [hkind]; decide)]
  refine Parallel.at ?_
  split
  · exact pure rfl (Nat.succ_le_succ hn)
  · exact fail (same_error (same_token n) _)

theorem numberLiteral : w.Parallel i (i + 1) numberLiteral numberLiteral := by
  refine spanned fun n _ => numberValue.bind ?_
  rintro value _ rfl
  exact pure (fun span span' hspan => ⟨rfl, hspan⟩) (Nat.le_refl _)

theorem stringLiteral : w.Parallel i (i + 1) stringLiteral stringLiteral := by
  refine spanned fun n _ => stringValue.bind ?_
  rintro value _ rfl
  exact pure (fun span span' hspan => ⟨rfl, hspan⟩) (Nat.le_refl _)

theorem boolLiteral : w.Parallel i (i + 1) boolLiteral boolLiteral := by
  refine spanned fun n _ => next.bind fun t t' ht => ?_
  have hmisplaced := misplaced (α := Span → Expr) (i := n + 1) (j := n + 1) ht
    (.expected "boolean literal")
  obtain ⟨m, rfl, rfl⟩ := ht
  rw [w.kind]
  split
  · exact pure (fun span span' hspan => ⟨rfl, hspan⟩) (Nat.le_refl _)
  · exact pure (fun span span' hspan => ⟨rfl, hspan⟩) (Nat.le_refl _)
  · exact hmisplaced

theorem nullLiteral : w.Parallel i (i + 1) nullLiteral nullLiteral :=
  spanned fun _ _ => drop _ (pure (fun _ _ hspan => ⟨rfl, hspan⟩) (Nat.le_refl _))

theorem whole (hg : g.Uniform w) (stops : List TokenKind) :
    w.Parallel i (i + 1) (g.whole stops) (g.whole stops) :=
  (hg.expr i _).bind fun _ _ ha => pure ha.1 (Nat.le_refl _)

/-- Items with separators. -/
theorem separated {separator close : TokenKind} {item : Parser (Span → α)}
    (hitem : ∀ n, w.Parallel n (n + 1) item item) (fuel : Nat) :
    w.Parallel i i (separated separator close item fuel) (separated separator close item fuel) := by
  induction fuel generalizing i with
  | zero => exact exhausted
  | succ fuel ih =>
    refine (accept close).bind ?_
    rintro closed _ rfl
    refine ite (fun _ => pure .nil (Nat.le_refl i)) fun _ => ?_
    refine (spanned fun n _ => hitem n).bind fun first first' hfirst => ?_
    refine (accept separator).bind ?_
    rintro more _ rfl
    refine ite (fun _ => ?_) fun _ => ?_
    · exact ih.bind fun rest rest' hrest => pure (.cons hfirst hrest) (Nat.le_succ i)
    · exact drop close (pure (.cons hfirst .nil) (by omega))

theorem list {close : TokenKind} {item : Parser (Span → α)}
    (hitem : ∀ n, w.Parallel n (n + 1) item item) :
    w.Parallel i i (g.list close item) (g.list close item) := separated hitem g.budget

theorem elements (hg : g.Uniform w) (fuel : Nat) :
    w.Parallel i i (elements g fuel) (elements g fuel) := by
  induction fuel generalizing i with
  | zero => exact exhausted
  | succ fuel ih =>
    refine (accept _).bind ?_
    rintro hole _ rfl
    refine ite (fun _ => ?_) fun _ => ?_
    · exact ih.bind fun rest rest' hrest => pure (.cons rfl hrest) (Nat.le_refl i)
    refine peek.bind ?_
    rintro _ _ ⟨n, rfl, rfl⟩
    rw [w.kind]
    refine ite (fun _ => pure .nil (Nat.le_refl i)) fun _ => ?_
    refine (accept _).bind ?_
    rintro spread _ rfl
    refine (whole hg _).bind fun value value' hvalue => ?_
    have helement : w.Same (if spread then Element.rest value else .single value)
        (if spread then Element.rest value' else .single value') := by
      split
      · exact congrArg Element.rest hvalue.1
      · exact congrArg Element.single hvalue.1
    refine peek.bind ?_
    rintro _ _ ⟨m, rfl, rfl⟩
    rw [w.kind]
    refine ite (fun _ => pure (.cons helement .nil) (Nat.le_succ i)) fun _ => ?_
    exact drop _ (ih.bind fun rest rest' hrest => pure (.cons helement hrest) (by omega))

theorem arrayLiteral (hg : g.Uniform w) :
    w.Parallel i (i + 1) (arrayLiteral g) (arrayLiteral g) := by
  refine spanned fun n _ => drop _ ?_
  refine (elements hg _).bind fun found found' hfound => drop _ (pure ?_ (by omega))
  intro span span' hspan
  exact ⟨by rw [Expr.bare, Expr.bare, bareList_element hfound], hspan⟩

/-! ### Functions and arrows -/

theorem parameter (hg : g.Uniform w) (n : Nat) :
    w.Parallel n (n + 1) (parameter g) (parameter g) := by
  refine (accept _).bind ?_
  rintro rest _ rfl
  refine identifier.bind fun name name' hname => (accept _).bind ?_
  rintro more _ rfl
  have make {value value' : Option Expr} (hvalue : w.Same value value') :
      w.Same (fun span => Param.mk span rest name value)
        (fun span => Param.mk span rest name' value') := by
    intro span span' _
    show Param.bare _ = Param.bare _
    rw [Param.bare, Param.bare, hname.1, bareOption_expr hvalue]
  refine ite (fun _ => ?_) fun _ => ?_
  · refine ((whole hg _).map fun a a' ha => Option.Rel.some ha).bind fun value value' hvalue => ?_
    exact pure (make hvalue) (by omega)
  · rw [pure_bind]
    exact pure (make .none) (Nat.le_refl _)

theorem parameters (hg : g.Uniform w) : w.Parallel i (i + 1) (parameters g) (parameters g) :=
  drop _ (list (parameter hg))

theorem statements (hg : g.Uniform w) (stop : TokenKind) (fuel : Nat) :
    w.Parallel i i (statements g stop fuel) (statements g stop fuel) := by
  induction fuel generalizing i with
  | zero => exact exhausted
  | succ fuel ih =>
    refine peek.bind ?_
    rintro _ _ ⟨n, rfl, rfl⟩
    rw [w.kind]
    refine ite (fun _ => pure .nil (Nat.le_refl i)) fun _ => ?_
    refine (hg.stmt i).bind fun first first' hfirst => ?_
    exact ih.bind fun rest rest' hrest => pure (.cons hfirst hrest) (Nat.le_succ i)

theorem blockBody (hg : g.Uniform w) : w.Parallel i (i + 1) (blockBody g) (blockBody g) := by
  refine drop _ ((statements hg _ _).bind fun body body' hbody => ?_)
  exact drop _ (pure hbody (by omega))

theorem functionRest (hg : g.Uniform w) (async generator : Bool) :
    w.Parallel i (i + 1) (functionRest g async generator) (functionRest g async generator) := by
  refine withNames _ (spanned fun n _ => ?_)
  refine (parameters hg).bind fun params params' hparams => ?_
  refine (blockBody hg).bind fun body body' hbody => pure (fun span span' hspan => ?_) (by omega)
  refine ⟨?_, hspan⟩
  rw [Func.bare, Func.bare, FuncBody.bare, FuncBody.bare, bareList_param hparams,
    bareList_stmt hbody]

/-- The parameters of a function in two runs are as many, and rest parameters in both or in
neither. -/
theorem same_params {f f' : Func} (h : w.Same f f') :
    List.Forall₂ (fun p p' => Param.rest p = Param.rest p') f.params f'.params := by
  obtain ⟨span, arrow, async, generator, params, body⟩ := f
  obtain ⟨span', arrow', async', generator', params', body'⟩ := f'
  have hbare := h.1
  rw [Func.bare, Func.bare] at hbare
  have hparams : Param.bareList params = Param.bareList params' := by injection hbare
  rw [Param.bareList_eq_map, Param.bareList_eq_map] at hparams
  have hrest (p : Param) : Param.rest p = Param.rest p.bare := by
    cases p
    rfl
  show List.Forall₂ _ params params'
  have hmap : List.Forall₂ (fun p p' => Param.bare p = Param.bare p') params params' := by
    have hmapped : List.Forall₂ Eq (params.map Param.bare) (params'.map Param.bare) := by
      rw [hparams]
      exact List.forall₂_refl _
    rwa [List.forall₂_map_left_iff, List.forall₂_map_right_iff] at hmapped
  exact hmap.imp fun p p' hp => by rw [hrest p, hrest p', hp]

theorem methodRest (hg : g.Uniform w) (kind : MethodKind) (async generator : Bool) :
    w.Parallel i (i + 1) (methodRest g kind async generator)
      (methodRest g kind async generator) := by
  refine (functionRest hg async generator).bind fun func func' hfunc => ?_
  have wrong (what : String) : w.Parallel (α := Func) (i + 1) (i + 1)
      (Parser.fail ⟨.expected what, func.span, none⟩)
      (Parser.fail ⟨.expected what, func'.span, none⟩) :=
    fail ⟨rfl, rfl, hfunc.2⟩
  have right : w.Parallel (i + 1) (i + 1) (Pure.pure func : Parser Func) (Pure.pure func') :=
    pure hfunc (Nat.le_refl _)
  have hparams := same_params hfunc
  dsimp only
  generalize func.params = params at hparams ⊢
  generalize func'.params = params' at hparams ⊢
  cases kind with
  | get =>
    cases hparams with
    | nil => exact right
    | cons _ _ => exact wrong _
  | set =>
    cases hparams with
    | nil => exact wrong _
    | cons hfirst hrest =>
      cases hrest with
      | nil =>
        dsimp only
        rw [hfirst]
        exact ite (fun _ => wrong _) fun _ => right
      | cons _ _ => exact wrong _
  | method => exact right
  | constructor => exact right

theorem functionExpression (hg : g.Uniform w) :
    w.Parallel i (i + 1) (functionExpression g) (functionExpression g) := by
  refine spanned fun n _ => (accept _).bind ?_
  rintro async _ rfl
  refine .ofAt fun m hm => .drop fun hword => ?_
  refine functionName hword definitionName? fun generator name name' hname => ?_
  refine (functionRest hg _ _).bind fun func func' hfunc => pure (fun span span' hspan => ?_)
    (by omega)
  exact ⟨by rw [Expr.bare, Expr.bare, bare_name hname, hfunc.1], hspan⟩

theorem arrowParameters (hg : g.Uniform w) (async : Bool) :
    w.Parallel i (i + 1) (arrowParameters g async) (arrowParameters g async) := by
  rw [arrowParameters_eq]
  refine (withNames _ ?_ : w.Parallel i (i + 1) _ _).bind fun params params' hparams => ?_
  · refine (look 0).bind ?_
    rintro _ _ ⟨n, rfl, rfl⟩
    refine (look 1).bind ?_
    rintro _ _ ⟨m, rfl, rfl⟩
    refine nameRules fun rules => ?_
    rw [w.kind, w.kind]
    refine ite (fun _ => ?_) fun _ => parameters hg
    refine identifier.bind fun name name' hname => pure (.cons ?_ .nil) (Nat.le_refl _)
    show Param.bare _ = Param.bare _
    rw [Param.bare, Param.bare, hname.1]
  · have sign : w.Parallel (i + 1) (i + 1) arrowSign arrowSign := by
      refine .ofAt fun n hn => .require fun _ => Parallel.at ?_
      rw [w.newlineBefore (Nat.zero_lt_of_lt hn)]
      refine ite (fun _ => fail (same_error (same_token n) _)) fun _ => ?_
      exact pure (α := Unit) rfl (hn.trans (Nat.le_succ n))
    exact sign.bind fun _ _ _ => pure hparams (Nat.le_refl _)

theorem arrowBody (hg : g.Uniform w) (stops : List TokenKind) :
    w.Parallel i (i + 1) (arrowBody g stops) (arrowBody g stops) := by
  refine peek.bind ?_
  rintro _ _ ⟨n, rfl, rfl⟩
  rw [w.kind]
  refine ite (fun _ => ?_) fun _ => ?_
  · refine (blockBody hg).bind fun body body' hbody => pure ?_ (Nat.le_refl _)
    show FuncBody.bare _ = FuncBody.bare _
    rw [FuncBody.bare, FuncBody.bare, bareList_stmt hbody]
  · refine (hg.expr _ _).bind fun value value' hvalue => pure ?_ (Nat.le_refl _)
    exact congrArg FuncBody.expr hvalue.1.1

theorem arrowFunction (hg : g.Uniform w) (stops : List TokenKind) :
    w.Parallel i (i + 1) (arrowFunction g stops) (arrowFunction g stops) := by
  have tail (n : Nat) (async : Bool) : w.Parallel (α := Span → Expr) n (n + 1) (do
      let params ← Grammar.arrowParameters g async
      let body ← Parser.withNames (·.forAsync async) (Grammar.arrowBody g stops)
      return fun span => .arrow span (.mk span true async false params body)) (do
      let params ← Grammar.arrowParameters g async
      let body ← Parser.withNames (·.forAsync async) (Grammar.arrowBody g stops)
      return fun span => .arrow span (.mk span true async false params body)) := by
    refine (arrowParameters hg async).bind fun params params' hparams => ?_
    refine (withNames _ (arrowBody hg stops)).bind fun body body' hbody => ?_
    refine pure (fun span span' hspan => ⟨?_, hspan⟩) (by omega)
    rw [Expr.bare, Expr.bare, Func.bare, Func.bare, bareList_param hparams, hbody]
  refine spanned fun n _ => (look 1).bind ?_
  rintro _ _ ⟨m, rfl, rfl⟩
  rw [w.kind]
  refine ite (fun _ => ?_) fun _ => ?_
  · exact tail n false
  · refine (accept _).bind ?_
    rintro async _ rfl
    exact tail n async

theorem grouping (hg : g.Uniform w) (insertion : Bool) :
    w.Parallel i (i + 1) (grouping g insertion) (grouping g insertion) :=
  drop _ ((hg.expr _ _).bind fun _ _ hfound => drop _ (pure hfound (by omega)))

theorem arrowOrGrouping (hg : g.Uniform w) (stops : List TokenKind) (insertion : Bool) :
    w.Parallel i (i + 1) (arrowOrGrouping g stops insertion)
      (arrowOrGrouping g stops insertion) := by
  refine position fun n hn => (arrowParameters hg false).attempt.bind fun found found' hfound => ?_
  cases hfound with
  | ok _ =>
    refine (restore n).bind fun _ _ _ => ?_
    exact (arrowFunction hg stops).bind fun e e' he => pure ⟨he, rfl⟩ (by omega)
  | error he =>
    dsimp only
    rw [he.1]
    refine ite (fun _ => fail he) fun _ => ?_
    exact (restore n).bind fun _ _ _ => (grouping hg insertion).mono (by omega)

/-! ### Members -/

theorem directKey : w.Parallel i (i + 1) directKey directKey := by
  refine spanned fun n _ => .ofAt fun m hm => .peek ?_
  have text : w.ParallelAt m (m + 1) (directKeyText (w.token m)) (directKeyText (w.token' m)) := by
    unfold directKeyText
    rw [w.kind]
    split
    · exact stringValue.at
    · refine (numberValue.bind ?_).at
      rintro value _ rfl
      exact pure rfl (Nat.le_refl _)
    next hkind =>
      refine .next (Parallel.at ?_)
      refine (identifierText (same_token m) (by rw [hkind]; decide)).bind ?_
      rintro name _ rfl
      exact (checkArguments (same_token m) name).bind fun _ _ _ => pure rfl (Nat.le_refl _)
    next hkind =>
      have htext := w.text (i := m) (by rw [hkind]; exact TokenKind.noConfusion)
        (by rw [hkind]; exact TokenKind.noConfusion)
      exact .next (pure htext.symm (Nat.le_refl _)).at
    · exact (misplaced (same_token m) _).at
  refine text.bind ?_
  rintro text _ rfl
  refine pure (fun span span' hspan => ⟨?_, hspan⟩) (by omega)
  rw [DirectKey.bare, DirectKey.bare, w.kind]

theorem memberKey (hg : g.Uniform w) : w.Parallel i (i + 1) (memberKey g) (memberKey g) := by
  refine (accept _).bind ?_
  rintro bracket _ rfl
  refine ite (fun _ => ?_) fun _ => ?_
  · refine (whole hg _).bind fun value value' hvalue => ?_
    exact drop _ (pure (.computed hvalue.1) (by omega))
  · exact directKey.bind fun key key' hkey => pure (.direct hkey) (Nat.le_refl _)

theorem modifier (word : Keyword) (sameLine : Bool) :
    w.Parallel i i (modifier word sameLine) (modifier word sameLine) := by
  refine lookBind 0 fun n _ => lookBind 1 fun m hm => ?_
  rw [w.kind, w.kind, w.newlineBefore (Nat.zero_lt_of_lt hm)]
  refine ite (fun _ => pure rfl (Nat.le_refl i)) fun _ => ?_
  exact next.discard.bind fun _ _ _ => pure rfl (Nat.le_succ i)

theorem methodModifiers : w.Parallel i i methodModifiers methodModifiers := by
  refine (accept _).bind ?_
  rintro star _ rfl
  refine ite (fun _ => pure ⟨rfl, rfl, rfl⟩ (Nat.le_refl i)) fun _ => ?_
  have async : w.Parallel i i (do
      if (← Parser.options).supportsAsyncMembers then Grammar.modifier .kAsync true
      else Pure.pure false) (do
      if (← Parser.options).supportsAsyncMembers then Grammar.modifier .kAsync true
      else Pure.pure false) :=
    options fun _ => ite (fun _ => modifier _ _) fun _ => pure rfl (Nat.le_refl i)
  refine async.bind ?_
  rintro async _ rfl
  refine ite (fun _ => ?_) fun _ => ?_
  · refine (accept _).bind ?_
    rintro generator _ rfl
    exact pure ⟨rfl, rfl, rfl⟩ (Nat.le_refl i)
  refine (modifier _ _).bind ?_
  rintro get _ rfl
  refine ite (fun _ => pure ⟨rfl, rfl, rfl⟩ (Nat.le_refl i)) fun _ => ?_
  refine (modifier _ _).bind ?_
  rintro set _ rfl
  exact ite (fun _ => pure ⟨rfl, rfl, rfl⟩ (Nat.le_refl i)) fun _ =>
    pure ⟨rfl, rfl, rfl⟩ (Nat.le_refl i)

theorem memberHead (hg : g.Uniform w) (allowStatic : Bool) :
    w.Parallel i (i + 1) (memberHead g allowStatic) (memberHead g allowStatic) := by
  have mark : w.Parallel i i (staticMark allowStatic) (staticMark allowStatic) :=
    ite (fun _ => modifier _ _) fun _ => pure rfl (Nat.le_refl i)
  rw [memberHead_eq]
  refine mark.bind ?_
  rintro static _ rfl
  refine methodModifiers.bind ?_
  rintro ⟨async, generator, kind⟩ ⟨_, _, _⟩ ⟨rfl, rfl, rfl⟩
  exact (memberKey hg).bind fun key key' hkey => pure ⟨rfl, rfl, rfl, rfl, hkey⟩ (Nat.le_refl _)

theorem objectMember (hg : g.Uniform w) (n : Nat) :
    w.Parallel n (n + 1) (objectMember g) (objectMember g) := by
  refine (look 0).bind ?_
  rintro _ _ ⟨k, rfl, rfl⟩
  refine (look 1).bind ?_
  rintro _ _ ⟨l, rfl, rfl⟩
  refine nameRules fun rules => ?_
  rw [w.kind, w.kind]
  refine ite (fun _ => ?_) fun _ => ?_
  · refine identifier.bind fun name name' hname => pure (fun span span' _ => ?_) (Nat.le_refl _)
    show ObjectMember.bare _ = ObjectMember.bare _
    rw [ObjectMember.bare, ObjectMember.bare, hname.1]
  · refine (memberHead hg false).bind fun head head' hhead => ?_
    rw [hhead.hasModifiers]
    have rest (isMethod : Bool) : w.Parallel (α := Span → ObjectMember) (n + 1) (n + 1) (do
        if isMethod then
          let func ← Grammar.methodRest g head.kind head.async head.generator
          return fun span => .method span head.key head.kind func
        else
          Functor.discard <| Parser.require (.punctuator .colon)
          let value ← g.whole [.punctuator .comma, .punctuator .braceClose]
          return fun span => .valued span head.key value) (do
        if isMethod then
          let func ← Grammar.methodRest g head'.kind head'.async head'.generator
          return fun span => .method span head'.key head'.kind func
        else
          Functor.discard <| Parser.require (.punctuator .colon)
          let value ← g.whole [.punctuator .comma, .punctuator .braceClose]
          return fun span => .valued span head'.key value) := by
      refine ite (fun _ => ?_) fun _ => ?_
      · rw [hhead.kind, hhead.async, hhead.generator]
        refine (methodRest hg _ _ _).bind fun func func' hfunc => pure (fun span span' _ => ?_)
          (by omega)
        show ObjectMember.bare _ = ObjectMember.bare _
        rw [ObjectMember.bare, ObjectMember.bare, bare_key hhead.key, hfunc.1]
      · refine drop _ ((whole hg _).bind fun value value' hvalue => pure (fun span span' _ => ?_)
          (by omega))
        show ObjectMember.bare _ = ObjectMember.bare _
        rw [ObjectMember.bare, ObjectMember.bare, bare_key hhead.key, hvalue.1]
    refine ite (fun _ => ?_) fun _ => ?_
    · exact rest true
    · refine peek.bind ?_
      rintro _ _ ⟨m, rfl, rfl⟩
      rw [w.kind]
      exact rest _

theorem objectLiteral (hg : g.Uniform w) :
    w.Parallel i (i + 1) (objectLiteral g) (objectLiteral g) := by
  refine spanned fun n _ => drop _ ?_
  refine (list (objectMember hg)).bind fun members members' hmembers => pure ?_ (Nat.le_refl _)
  intro span span' hspan
  exact ⟨by rw [Expr.bare, Expr.bare, bareList_objectMember hmembers], hspan⟩

/-! ### Classes -/

theorem same_constructorKey? {k k' : Key} (h : w.Same k k') :
    w.Same (constructorKey? k) (constructorKey? k') := by
  cases h with
  | @direct k k' h =>
    have hbare : k.bare = k'.bare := h.1
    rw [DirectKey.bare, DirectKey.bare] at hbare
    injection hbare with _ htext hkind
    rw [constructorKey?, constructorKey?, htext, hkind]
    split
    · exact .some h.2
    · exact .none
  | computed _ => exact .none
  | privateName _ => exact .none

theorem classMemberHead (hg : g.Uniform w) :
    w.Parallel i (i + 1) (classMemberHead g) (classMemberHead g) := by
  refine (memberHead hg true).bind fun head head' hhead => ?_
  have hkey := same_constructorKey? hhead.key
  rw [hhead.hasModifiers, hhead.static]
  generalize constructorKey? head.key = place at hkey ⊢
  generalize constructorKey? head'.key = place' at hkey ⊢
  cases hkey with
  | none => exact pure hhead (Nat.le_refl _)
  | some hspan =>
    refine ite (fun _ => pure hhead (Nat.le_refl _)) fun _ => ?_
    refine ite (fun _ => fail ⟨rfl, rfl, hspan⟩) fun _ => ?_
    exact pure ⟨rfl, hhead.async, hhead.generator, rfl, hhead.key⟩ (Nat.le_refl _)

theorem classMethodRest (hg : g.Uniform w) {head head' : MemberHead} (hhead : w.Same head head') :
    w.Parallel i (i + 1) (classMethodRest g head) (classMethodRest g head') := by
  refine peek.bind fun t t' ht => ?_
  have hmisplaced := misplaced (α := Span → Member) (i := i) (j := i + 1) ht .unexpectedToken
  obtain ⟨n, rfl, rfl⟩ := ht
  rw [w.kind]
  refine ite (fun _ => ?_) fun _ => hmisplaced
  rw [hhead.kind, hhead.async, hhead.generator, hhead.static]
  refine (methodRest hg _ _ _).bind fun func func' hfunc => pure (fun span span' _ => ?_)
    (Nat.le_refl _)
  show Member.bare _ = Member.bare _
  rw [Member.bare, Member.bare, bare_key hhead.key, hfunc.1]

theorem classMethod (hg : g.Uniform w) : w.Parallel i (i + 1) (classMethod g) (classMethod g) := by
  refine spanned fun n _ => (classMemberHead hg).bind fun head head' hhead => ?_
  exact (classMethodRest hg hhead).mono (Nat.le_succ _)

theorem fieldValue? (hg : g.Uniform w) : w.Parallel i i (fieldValue? g) (fieldValue? g) := by
  refine (accept _).bind ?_
  rintro equals _ rfl
  refine ite (fun _ => ?_) fun _ => pure .none (Nat.le_refl i)
  refine (inInitializer (hg.expr i _)).bind fun value value' hvalue => ?_
  exact pure (.some hvalue.1) (Nat.le_succ i)

/-- A field ends behind something, so the token there is not the first one. -/
theorem fieldEnd (hi : 0 < i) : w.Parallel i i fieldEnd fieldEnd := by
  refine (accept _).bind ?_
  rintro semicolon _ rfl
  refine ite (fun _ => pure (α := Unit) rfl (Nat.le_refl i)) fun _ => peekBind fun n hn => ?_
  rw [w.kind, w.newlineBefore (hi.trans_le hn)]
  exact ite (fun _ => pure (α := Unit) rfl (Nat.le_refl i)) fun _ => misplaced (same_token n) _

theorem same_field {key key' : Key} {computed : Bool} {value value' : Option Expr}
    {span span' : Span} (hkey : w.Same key key') (hvalue : w.Same value value') :
    w.Same (Member.field span key computed value) (Member.field span' key' computed value') := by
  show Member.bare _ = Member.bare _
  rw [Member.bare, Member.bare, bare_key hkey, bareOption_expr hvalue]

theorem same_isComputed {k k' : Key} (h : w.Same k k') : k'.isComputed = k.isComputed := by
  cases h with
  | direct _ => rfl
  | computed _ => rfl
  | privateName _ => rfl

theorem privateField (hg : g.Uniform w) :
    w.Parallel i (i + 1) (privateField g) (privateField g) := by
  refine position fun n hn => privateName.bind fun name name' hname => ?_
  rw [← same_name hname]
  refine ite (fun _ => fail ⟨rfl, rfl, hname.2⟩) fun _ => ?_
  refine (declarePrivate hname).bind fun _ _ _ => ?_
  refine (fieldValue? hg).bind fun value value' hvalue => ?_
  refine (since (Nat.lt_succ_self n)).bind fun span span' _ => ?_
  refine (fieldEnd n.succ_pos).bind fun _ _ _ => ?_
  exact pure (same_field (.privateName hname) hvalue) (by omega)

theorem isField {head head' : MemberHead} (hhead : w.Same head head') :
    w.Parallel i i (isField head) (isField head') := by
  refine options fun o => ?_
  rw [hhead.kind, hhead.hasModifiers]
  refine ite (fun _ => ?_) fun _ => pure rfl (Nat.le_refl i)
  refine peek.bind ?_
  rintro _ _ ⟨n, rfl, rfl⟩
  rw [w.kind]
  exact pure rfl (Nat.le_refl i)

theorem classElement? (hg : g.Uniform w) : w.Parallel i i (classElement? g) (classElement? g) := by
  refine (accept _).bind ?_
  rintro semicolon _ rfl
  refine ite (fun _ => pure .none (Nat.le_refl i)) fun _ => peek.bind ?_
  rintro _ _ ⟨k, rfl, rfl⟩
  refine options fun o => ?_
  rw [w.kind]
  refine ite (fun _ => ?_) fun _ => ?_
  · exact (privateField hg).bind fun m m' hm => pure (.some hm) (Nat.le_succ i)
  refine position fun n hn => (classMemberHead hg).bind fun head head' hhead => ?_
  refine (isField hhead).bind ?_
  rintro field _ rfl
  refine ite (fun _ => ?_) fun _ => ?_
  · refine (report _ _).bind fun _ _ _ => (fieldValue? hg).bind fun value value' hvalue => ?_
    refine (since (Nat.lt_succ_self n)).bind fun span span' _ => ?_
    rw [same_isComputed hhead.key]
    refine (fieldEnd n.succ_pos).bind fun _ _ _ => ?_
    exact pure (.some (same_field hhead.key hvalue)) (by omega)
  · refine (classMethodRest hg hhead).bind fun make make' hmake => ?_
    refine (since (Nat.lt_succ_of_lt (Nat.lt_succ_self n))).bind fun span span' hspan => ?_
    exact pure (.some (hmake hspan)) (by omega)

theorem classItem? (hg : g.Uniform w) : w.Parallel i i (classItem? g) (classItem? g) := by
  refine options fun o => ite (fun _ => classElement? hg) fun _ => (accept _).bind ?_
  rintro semicolon _ rfl
  refine ite (fun _ => pure .none (Nat.le_refl i)) fun _ => ?_
  exact (classMethod hg).bind fun m m' hm => pure (.some hm) (Nat.le_succ i)

theorem classItems (hg : g.Uniform w) (fuel : Nat) :
    w.Parallel i i (classItems g fuel) (classItems g fuel) := by
  induction fuel generalizing i with
  | zero => exact exhausted
  | succ fuel ih =>
    refine (accept _).bind ?_
    rintro closed _ rfl
    refine ite (fun _ => pure .nil (Nat.le_refl i)) fun _ => ?_
    refine (classItem? hg).bind fun first first' hfirst => ih.bind fun rest rest' hrest => ?_
    cases hfirst with
    | none => exact pure hrest (Nat.le_refl i)
    | some hfirst => exact pure (.cons hfirst hrest) (Nat.le_refl i)

theorem classTail (hg : g.Uniform w) : w.Parallel i (i + 1) (classTail g) (classTail g) := by
  have body (parent parent' : Option Expr) (hparent : w.Same parent parent') :
      w.Parallel (α := Option Expr × List Member) i (i + 1) (do
        let members ← Grammar.classBody g
        return (parent, members)) (do
        let members ← Grammar.classBody g
        return (parent', members)) := by
    have hbody : w.Parallel i (i + 1) (Grammar.classBody g) (Grammar.classBody g) :=
      drop _ (classItems hg _)
    exact hbody.bind fun members members' hmembers => pure ⟨hparent, hmembers⟩ (Nat.le_refl _)
  refine (accept _).bind ?_
  rintro extended _ rfl
  refine ite (fun _ => ?_) fun _ => ?_
  · refine (((whole hg _).map fun a a' ha => Option.Rel.some ha).mono (Nat.le_succ i)).bind ?_
    exact body
  · rw [pure_bind]
    exact body none none .none

theorem classExpression (hg : g.Uniform w) :
    w.Parallel i (i + 1) (classExpression g) (classExpression g) := by
  refine spanned fun n _ => .ofAt fun m hm => .drop fun hword => .inClass ?_
  refine (definitionName? (.inl hword)).bind fun name name' hname => (classTail hg).bind ?_
  rintro ⟨parent, members⟩ ⟨parent', members'⟩ ⟨hparent, hmembers⟩
  refine pure (fun span span' hspan => ⟨?_, hspan⟩) (by omega)
  rw [Expr.bare, Expr.bare, bare_name hname, bareOption_expr hparent, bareList_member hmembers]

/-! ### Expressions -/

theorem callArguments (hg : g.Uniform w) :
    w.Parallel i i (callArguments g) (callArguments g) := by
  refine list fun n => (accept _).bind ?_
  rintro spread _ rfl
  refine (whole hg _).bind fun value value' hvalue => pure (fun span span' _ => ?_) (Nat.le_refl _)
  show Arg.bare _ = Arg.bare _
  rw [Arg.bare, Arg.bare, hvalue.1]

theorem variableUse : w.Parallel i (i + 1) variableUse variableUse := by
  refine spanned fun n _ => variableName.bind ?_
  rintro name _ rfl
  exact pure (fun span span' hspan => ⟨rfl, hspan⟩) (Nat.le_refl _)

theorem superReference : w.Parallel i (i + 1) superReference superReference :=
  spanned fun _ _ => drop _ (pure (fun _ _ hspan => ⟨rfl, hspan⟩) (Nat.le_refl _))

theorem thisReference : w.Parallel i (i + 1) thisReference thisReference :=
  spanned fun _ _ => drop _ (pure (fun _ _ hspan => ⟨rfl, hspan⟩) (Nat.le_refl _))

theorem checkAssignable {e e' : Expr} (he : w.Same e e') :
    w.Parallel i i (checkAssignable e) (checkAssignable e') := by
  unfold Grammar.checkAssignable
  rw [← isAssignable_bare e, ← isAssignable_bare e', ← he.1]
  exact ite (fun _ => pure (α := Unit) rfl (Nat.le_refl i)) fun _ => fail ⟨rfl, rfl, he.2⟩

theorem checkDelete {t t' : Token} (ht : w.Same t t') {e e' : Expr} (he : w.Same e e') :
    w.Parallel i i (checkDelete t e) (checkDelete t' e') := by
  rw [← checkDelete_bare t e, ← checkDelete_bare t' e', ← he.1]
  unfold Grammar.checkDelete
  split
  · exact fail (same_error ht _)
  · exact pure (α := Unit) rfl (Nat.le_refl i)

theorem unary (hg : g.Uniform w) (mode : ExprMode) (leading : Operator) :
    w.Parallel i (i + 1) (unary g mode leading) (unary g mode leading) := by
  rw [unary_eq]
  refine position fun n hn => next.bind fun token token' htoken => ?_
  have rest (op : Operator) :
      w.Parallel (n + 1) (n + 1) (unaryRest g mode n token op)
        (unaryRest g mode (n + w.shift) token' op) := by
    have argument {m : Nat} (hm : n + 1 ≤ m) :
        w.Parallel (n + 1) (n + 1) (unaryArgument g mode token op (w.token m))
          (unaryArgument g mode token' op (w.token' m)) := by
      have hends : endsYield mode.stops (w.token' m) = endsYield mode.stops (w.token m) := by
        rw [endsYield, endsYield, w.kind, w.newlineBefore (Nat.zero_lt_of_lt hm)]
      unfold unaryArgument
      rw [hends]
      refine ite (fun _ => pure ⟨⟨rfl, ?_⟩, rfl⟩ (Nat.le_refl _)) fun _ => ?_
      · obtain ⟨m, rfl, rfl⟩ := htoken
        exact sameStart_token m
      · exact (hg.expr _ _).mono (Nat.le_succ _)
    refine peekBind fun m hm => (argument hm).bind ?_
    rintro ⟨found, inserted⟩ ⟨found', _⟩ ⟨hfound, rfl⟩
    have close : w.Parallel (α := Expr × Bool) (n + 1) (n + 1)
        (do return (.unary (← Parser.since n) op found, inserted))
        (do return (.unary (← Parser.since (n + w.shift)) op found', inserted)) := by
      refine (since (Nat.lt_succ_self n)).bind fun span span' hspan => ?_
      exact pure ⟨⟨by rw [Expr.bare, Expr.bare, hfound.1], hspan⟩, rfl⟩ (Nat.le_refl _)
    exact ite (fun _ => (checkDelete htoken hfound).bind fun _ _ _ => close) fun _ => close
  have operator : w.Parallel (n + 1) (n + 1) (unaryOperator leading) (unaryOperator leading) := by
    refine ite (fun _ => (accept _).bind ?_) fun _ => pure rfl (Nat.le_refl _)
    rintro star _ rfl
    exact pure rfl (Nat.le_refl _)
  refine operator.bind ?_
  rintro op _ rfl
  exact (rest op).mono (by omega)

theorem asyncOperand? (hg : g.Uniform w) (stops : List TokenKind) (k : Nat) {l : Nat} (hl : 0 < l)
    (m : Nat) :
    w.Parallel i i (asyncOperand? g stops (w.token k) (w.token l) (w.token m))
      (asyncOperand? g stops (w.token' k) (w.token' l) (w.token' m)) := by
  unfold Grammar.asyncOperand?
  rw [w.kind, w.kind, w.kind, w.newlineBefore hl]
  refine ite (fun _ => pure .none (Nat.le_refl i)) fun _ => ite (fun _ => ?_) fun _ =>
    ite (fun _ => ?_) fun _ => nameRules fun rules => ite (fun _ => ?_) fun _ =>
      pure .none (Nat.le_refl i)
  · refine position fun n hn => next.discard.bind fun _ _ _ => ?_
    refine (arrowParameters hg true).attempt.bind fun found found' hfound => ?_
    refine (restore n).bind fun _ _ _ => ?_
    cases hfound with
    | ok _ => exact (arrowFunction hg stops).bind fun e e' he => pure (.some he) (by omega)
    | error _ => exact pure .none hn
  · exact (functionExpression hg).bind fun e e' he => pure (.some he) (Nat.le_succ i)
  · exact (arrowFunction hg stops).bind fun e e' he => pure (.some he) (Nat.le_succ i)

theorem atom (hg : g.Uniform w) (mode : ExprMode) (k : Nat) :
    w.Parallel i (i + 1) (atom g mode (w.token k)) (atom g mode (w.token' k)) := by
  have one {p : Parser Expr} (hp : w.Parallel i (i + 1) p p) :
      w.Parallel i (i + 1) (do return (← p, false) : Parser (Expr × Bool))
        (do return (← p, false)) :=
    hp.bind fun e e' he => pure ⟨he, rfl⟩ (Nat.le_refl _)
  unfold Grammar.atom
  rw [w.kind]
  split
  · exact one (arrayLiteral hg)
  · exact one (objectLiteral hg)
  · exact one (classExpression hg)
  · exact one (functionExpression hg)
  · exact (checkSuper (same_token k)).bind fun _ _ _ => one superReference
  · exact one thisReference
  · exact one boolLiteral
  · exact one boolLiteral
  · exact one nullLiteral
  · exact one numberLiteral
  · exact one stringLiteral
  · exact arrowOrGrouping hg _ _
  · exact misplaced (same_token k) _

theorem operand (hr : g.Reading) (hg : g.Uniform w) (mode : ExprMode) :
    w.Parallel i (i + 1) (operand g mode) (operand g mode) := by
  refine lookBind 0 fun k _ => lookBind 1 fun l hl => lookBind 2 fun m _ => ?_
  refine nameRules fun rules => ?_
  rw [w.kind, w.kind]
  split
  · exact unary hg mode _
  intro c c' hc s s' hs hi
  refine (asyncOperand? hg _ k (Nat.zero_lt_of_lt hl) m hc hs hi).bind
    fun {found found' u u'} hrun hfound hu hi' => ?_
  cases hfound with
  | some he =>
    -- What begins with `async` as a modifier has read a token at least.
    have hread : Reads c.token s.position u.position := asyncOperand?_reads hr hrun
    exact .ok ⟨he, rfl⟩ hu (hi.trans_lt hread.lt)
  | none =>
    refine (?_ : w.Parallel i (i + 1) _ _) hc hu hi'
    refine ite (fun _ => ite (fun _ => ?_) fun _ => ?_) fun _ => atom hg mode k
    · exact (arrowFunction hg _).bind fun e e' he => pure ⟨he, rfl⟩ (Nat.le_refl _)
    · exact variableUse.bind fun e e' he => pure ⟨he, rfl⟩ (Nat.le_refl _)

/-! ### Behind an operand -/

theorem memberAccess {object object' : Expr} (ho : w.Same object object') :
    w.Parallel i (i + 1) (memberAccess object) (memberAccess object') := by
  refine peek.bind fun t t' ht => ?_
  have hmisplaced := misplaced (α := Expr) (i := i) (j := i + 1) ht
    (.expected "member access property")
  have word (hne : t.kind ≠ .privateName) : w.Parallel i (i + 1) (do
      Functor.discard Parser.next
      let name ← Grammar.identifierText t
      Parser.checkArguments t name
      return Expr.member (object.span ∪ t.span) object name) (do
      Functor.discard Parser.next
      let name ← Grammar.identifierText t'
      Parser.checkArguments t' name
      return Expr.member (object'.span ∪ t'.span) object' name) := by
    refine next.discard.bind fun _ _ _ => (identifierText ht hne).bind ?_
    rintro name _ rfl
    refine (checkArguments ht name).bind fun _ _ _ => pure ⟨?_, ?_⟩ (Nat.le_refl _)
    · rw [Expr.bare, Expr.bare, ho.1]
    · obtain ⟨n, rfl, rfl⟩ := ht
      exact ho.2.union (sameStart_token n)
  have hkind : t'.kind = t.kind := by
    obtain ⟨n, rfl, rfl⟩ := ht
    exact w.kind n
  rw [hkind]
  split
  · refine privateName.bind fun name name' hname => (usePrivate hname).bind fun _ _ _ => ?_
    exact pure ⟨by rw [Expr.bare, Expr.bare, ho.1, hname.1], ho.2.union hname.2⟩ (Nat.le_refl _)
  next hkind => exact word (by rw [hkind]; decide)
  next hkind => exact word (by rw [hkind]; exact TokenKind.noConfusion)
  · exact hmisplaced

theorem continuation (hg : g.Uniform w) (mode : ExprMode) {start : Nat} (hstart : start < i)
    (op : Operator) {left left' : Expr} (hleft : w.Same left left') :
    w.Parallel i i (continuation g mode start op left)
      (continuation g mode (start + w.shift) op left') := by
  unfold Grammar.continuation
  split
  · refine (callArguments hg).bind fun as as' has => ?_
    refine (since hstart).bind fun span span' hspan => pure ⟨⟨?_, ?_⟩, rfl⟩ (Nat.le_refl i)
    · rw [Expr.bare, Expr.bare, hleft.1, bareList_arg has]
    · exact hleft.2.union hspan
  · refine (whole hg _).bind fun member member' hmember => (require _).bind ?_
    rintro _ _ ⟨n, rfl, rfl⟩
    refine pure ⟨⟨?_, hleft.2.union (sameStart_token n)⟩, rfl⟩ (by omega)
    rw [Expr.bare, Expr.bare, hleft.1, hmember.1]
  · refine (whole hg _).bind fun consequent consequent' hconsequent => drop _ ?_
    refine (hg.expr _ _).bind ?_
    rintro ⟨alternate, inserted⟩ ⟨alternate', _⟩ ⟨halternate, rfl⟩
    refine pure ⟨⟨?_, hleft.2.union halternate.2⟩, rfl⟩ (by omega)
    rw [Expr.bare, Expr.bare, hleft.1, hconsequent.1, halternate.1]
  · exact (memberAccess hleft).bind fun e e' he => pure ⟨he, rfl⟩ (Nat.le_succ i)
  · have right : w.Parallel (α := Expr × Bool) i i (do
        let found ← g.expr { mode with least := op.operandPrecedence }
        return (.binary (left.span ∪ found.1.span) op left found.1, found.2)) (do
        let found ← g.expr { mode with least := op.operandPrecedence }
        return (.binary (left'.span ∪ found.1.span) op left' found.1, found.2)) := by
      refine (hg.expr _ _).bind ?_
      rintro ⟨right, inserted⟩ ⟨right', _⟩ ⟨hright, rfl⟩
      refine pure ⟨⟨?_, hleft.2.union hright.2⟩, rfl⟩ (Nat.le_succ i)
      rw [Expr.bare, Expr.bare, hleft.1, hright.1]
    exact ite (fun _ => (checkAssignable hleft).bind fun _ _ _ => right) fun _ => right

theorem allowsInsertion_eq {n : Nat} (hn : 0 < n) :
    allowsInsertion (w.token' n) = allowsInsertion (w.token n) := by
  rw [allowsInsertion, allowsInsertion, w.kind, w.newlineBefore hn]

theorem climb (hg : g.Uniform w) (mode : ExprMode) (hi : 0 < i) {left left' : Expr}
    (hleft : w.Same left left') (inserted : Bool) (fuel : Nat) :
    w.Parallel i i (climb g mode left inserted fuel) (climb g mode left' inserted fuel) := by
  induction fuel generalizing i left left' inserted with
  | zero => exact exhausted
  | succ fuel ih =>
    refine position fun n hn => nextBind fun m hm => ?_
    have hpos : 0 < m := hi.trans_le (hn.trans hm)
    have stop (b : Bool) : w.Parallel (α := Expr × Bool) (n + 1) i (do
        Parser.restore n
        return (left, b)) (do
        Parser.restore (n + w.shift)
        return (left', b)) :=
      (restore n).bind fun _ _ _ => pure ⟨hleft, rfl⟩ hn
    rw [w.kind, w.newlineBefore hpos]
    refine ite (fun _ => stop _) fun _ => ?_
    split
    next op _ =>
      refine ite (fun _ => stop _) fun _ => ?_
      have hlonger : w.Same (Expr.update (left.span ∪ (w.token m).span) op left)
          (Expr.update (left'.span ∪ (w.token' m).span) op left') :=
        ⟨by rw [Expr.bare, Expr.bare, hleft.1], hleft.2.union (sameStart_token m)⟩
      exact (ih n.succ_pos hlonger _).mono (by omega)
    split
    · refine ite (fun _ => stop _) fun _ => ?_
      refine (continuation hg mode (Nat.lt_succ_self n) _ hleft).bind ?_
      rintro ⟨longer, inside⟩ ⟨longer', _⟩ ⟨hlonger, rfl⟩
      exact (ih n.succ_pos hlonger _).mono (by omega)
    · rw [allowsInsertion_eq hpos]
      exact ite (fun _ => stop _) fun _ => misplaced (same_token m) _

/-- **Expressions.** Over rules that give the same in two runs, an expression does. -/
theorem expression (hr : g.Reading) (hg : g.Uniform w) (mode : ExprMode) :
    w.Parallel i (i + 1) (expression g mode) (expression g mode) := by
  refine (operand hr hg mode).bind ?_
  rintro ⟨first, inserted⟩ ⟨first', _⟩ ⟨hfirst, rfl⟩
  exact climb hg mode i.succ_pos hfirst inserted _

/-! ### Statements -/

theorem expressionEnd (hg : g.Uniform w) :
    w.Parallel i (i + 1) (expressionEnd g) (expressionEnd g) := by
  refine (hg.expr _ _).bind ?_
  rintro ⟨value, inserted⟩ ⟨value', _⟩ ⟨hvalue, rfl⟩
  refine ite (fun _ => pure hvalue (Nat.le_refl _)) fun _ => ?_
  exact drop _ (pure hvalue (by omega))

theorem emptyStatement : w.Parallel i (i + 1) emptyStatement emptyStatement :=
  spanned fun _ _ => drop _ (pure (fun _ _ _ => rfl) (Nat.le_refl _))

theorem block (hg : g.Uniform w) : w.Parallel i (i + 1) (block g) (block g) := by
  refine spanned fun n _ => (blockBody hg).bind fun body body' hbody =>
    pure (fun span span' _ => ?_) (Nat.le_refl _)
  show Stmt.bare _ = Stmt.bare _
  rw [Stmt.bare, Stmt.bare, bareList_stmt hbody]

theorem expressionStatement (hg : g.Uniform w) :
    w.Parallel i (i + 1) (expressionStatement g) (expressionStatement g) := by
  refine spanned fun n _ => (expressionEnd hg).bind fun value value' hvalue =>
    pure (fun span span' _ => ?_) (Nat.le_refl _)
  show Stmt.bare _ = Stmt.bare _
  rw [Stmt.bare, Stmt.bare, hvalue.1]

theorem condition (hg : g.Uniform w) : w.Parallel i (i + 1) (condition g) (condition g) :=
  drop _ ((whole hg _).bind fun _ _ hvalue => drop _ (pure hvalue (by omega)))

theorem ifStatement (hg : g.Uniform w) : w.Parallel i (i + 1) (ifStatement g) (ifStatement g) := by
  refine spanned fun n _ => drop _ ((condition hg).bind fun test test' htest => ?_)
  refine (hg.stmt _).bind fun consequent consequent' hconsequent => (accept _).bind ?_
  rintro more _ rfl
  have make {other other' : Option Stmt} (hother : w.Same other other') :
      w.Same (fun span => Stmt.ifElse span test consequent other)
        (fun span => Stmt.ifElse span test' consequent' other') := by
    intro span span' _
    show Stmt.bare _ = Stmt.bare _
    rw [Stmt.bare, Stmt.bare, htest.1, hconsequent, bareOption_stmt hother]
  refine ite (fun _ => ?_) fun _ => ?_
  · refine ((hg.stmt _).map fun a a' ha => Option.Rel.some ha).bind fun other other' hother => ?_
    exact pure (make hother) (by omega)
  · rw [pure_bind]
    exact pure (make .none) (by omega)

theorem returnStatement (hg : g.Uniform w) :
    w.Parallel i (i + 1) (returnStatement g) (returnStatement g) := by
  have make {value value' : Option Expr} (hvalue : w.Same value value') :
      w.Same (fun span => Stmt.returnStmt span value)
        (fun span => Stmt.returnStmt span value') := by
    intro span span' _
    show Stmt.bare _ = Stmt.bare _
    rw [Stmt.bare, Stmt.bare, bareOption_expr hvalue]
  refine spanned fun n _ => drop _ (peekBind fun m hm => ?_)
  rw [allowsInsertion_eq (Nat.zero_lt_of_lt hm)]
  refine ite (fun _ => pure (make .none) (Nat.le_refl _)) fun _ => (accept _).bind ?_
  rintro semicolon _ rfl
  refine ite (fun _ => pure (make .none) (Nat.le_refl _)) fun _ => ?_
  exact (expressionEnd hg).bind fun value value' hvalue => pure (make (.some hvalue)) (by omega)

theorem throwStatement (hg : g.Uniform w) :
    w.Parallel i (i + 1) (throwStatement g) (throwStatement g) := by
  refine spanned fun n _ => (require _).bind fun start start' hstart => peekBind fun m hm => ?_
  rw [w.newlineBefore (Nat.zero_lt_of_lt hm)]
  refine ite (fun _ => fail (same_error hstart _)) fun _ => ?_
  refine (expressionEnd hg).bind fun value value' hvalue => pure (fun span span' _ => ?_) (by omega)
  show Stmt.bare _ = Stmt.bare _
  rw [Stmt.bare, Stmt.bare, hvalue.1]

theorem whileStatement (hg : g.Uniform w) :
    w.Parallel i (i + 1) (whileStatement g) (whileStatement g) := by
  refine spanned fun n _ => drop _ ((condition hg).bind fun test test' htest => ?_)
  refine (hg.stmt _).bind fun body body' hbody => pure (fun span span' _ => ?_) (by omega)
  show Stmt.bare _ = Stmt.bare _
  rw [Stmt.bare, Stmt.bare, htest.1, hbody]

/-! ### Declarations -/

theorem declarationKind : w.Parallel i (i + 1) declarationKind declarationKind := by
  refine next.bind ?_
  rintro _ _ ⟨n, rfl, rfl⟩
  rw [w.kind]
  split
  · exact pure rfl (Nat.le_refl _)
  · exact pure rfl (Nat.le_refl _)
  · exact pure rfl (Nat.le_refl _)
  · exact misplaced (same_token n) _

theorem declarator (hg : g.Uniform w) : w.Parallel i (i + 1) (declarator g) (declarator g) := by
  refine identifier.bind fun name name' hname => (accept _).bind ?_
  rintro equals _ rfl
  have make {value value' : Option Expr} (hvalue : w.Same value value') :
      w.Same (Declarator.mk name value) (Declarator.mk name' value') := by
    show Declarator.bare _ = Declarator.bare _
    rw [Declarator.bare, Declarator.bare, hname.1, bareOption_expr hvalue]
  refine ite (fun _ => ?_) fun _ => pure ⟨make .none, rfl⟩ (Nat.le_refl _)
  refine (hg.expr _ _).bind ?_
  rintro ⟨value, inserted⟩ ⟨value', _⟩ ⟨hvalue, rfl⟩
  exact pure ⟨make (.some hvalue), rfl⟩ (by omega)

theorem declarators (hg : g.Uniform w) (fuel : Nat) :
    w.Parallel i i (declarators g fuel) (declarators g fuel) := by
  induction fuel generalizing i with
  | zero => exact exhausted
  | succ fuel ih =>
    refine (declarator hg).bind ?_
    rintro ⟨first, inserted⟩ ⟨first', _⟩ ⟨hfirst, rfl⟩
    refine (accept _).bind ?_
    rintro semicolon _ rfl
    have one : w.Parallel (i + 1) i (Pure.pure [first] : Parser (List Declarator))
        (Pure.pure [first']) := pure (.cons hfirst .nil) (Nat.le_succ i)
    refine ite (fun _ => one) fun _ => ite (fun _ => one) fun _ => peekBind fun n hn => ?_
    have hends : endsDeclaration (w.token' n) = endsDeclaration (w.token n) := by
      rw [endsDeclaration, endsDeclaration, w.kind, w.newlineBefore (Nat.zero_lt_of_lt hn)]
    rw [hends]
    refine ite (fun _ => one) fun _ => drop _ ?_
    exact ih.bind fun rest rest' hrest => pure (.cons hfirst hrest) (by omega)

theorem variableDeclaration (hg : g.Uniform w) :
    w.Parallel i (i + 1) (variableDeclaration g) (variableDeclaration g) := by
  refine spanned fun n _ => declarationKind.bind ?_
  rintro kind _ rfl
  refine (declarators hg _).bind fun found found' hfound => pure (fun span span' _ => ?_)
    (Nat.le_refl _)
  show Stmt.bare _ = Stmt.bare _
  rw [Stmt.bare, Stmt.bare, bareList_declarator hfound]

theorem functionDeclaration (hg : g.Uniform w) :
    w.Parallel i (i + 1) (functionDeclaration g) (functionDeclaration g) := by
  refine spanned fun n _ => (accept _).bind ?_
  rintro async _ rfl
  refine .ofAt fun m hm => .require fun hword => ?_
  refine functionName hword (fun h => .withNames _ (definitionName? h))
    fun generator name name' hname => ?_
  cases hname with
  | none => exact fail (same_error (same_token m) _)
  | some hname =>
    refine (functionRest hg _ _).bind fun func func' hfunc =>
      pure (fun span span' _ => ?_) (by omega)
    show Stmt.bare _ = Stmt.bare _
    rw [Stmt.bare, Stmt.bare, hname.1, hfunc.1]

theorem classDeclaration (hg : g.Uniform w) :
    w.Parallel i (i + 1) (classDeclaration g) (classDeclaration g) := by
  refine spanned fun n _ => .ofAt fun m hm => .require fun hword => .inClass ?_
  refine (definitionName? (.inl hword)).bind fun name name' hname => ?_
  cases hname with
  | none => exact fail (same_error (same_token m) _)
  | some hname =>
    refine (classTail hg).bind ?_
    rintro ⟨parent, members⟩ ⟨parent', members'⟩ ⟨hparent, hmembers⟩
    refine pure (fun span span' _ => ?_) (by omega)
    show Stmt.bare _ = Stmt.bare _
    rw [Stmt.bare, Stmt.bare, hname.1, bareOption_expr hparent, bareList_member hmembers]

/-- **Statements.** Over rules that give the same in two runs, a statement does. -/
theorem statement (hg : g.Uniform w) : w.Parallel i (i + 1) (statement g) (statement g) := by
  refine lookBind 0 fun k _ => lookBind 1 fun l hl => ?_
  rw [w.kind, w.kind, w.newlineBefore (Nat.zero_lt_of_lt hl)]
  split
  · exact block hg
  · exact classDeclaration hg
  · exact variableDeclaration hg
  · exact variableDeclaration hg
  · refine nameRules fun _ => ?_
    exact ite (fun _ => variableDeclaration hg) fun _ => expressionStatement hg
  · exact ite (fun _ => functionDeclaration hg) fun _ => expressionStatement hg
  · exact functionDeclaration hg
  · exact ifStatement hg
  · exact returnStatement hg
  · exact throwStatement hg
  · exact whileStatement hg
  · exact emptyStatement
  · exact expressionStatement hg

/-- Scripts with the same tokens are read alike. -/
theorem script (hg : g.Uniform w) : w.Parallel 0 0 (script g) (script g) := by
  refine withNames _ ((statements hg _ _).bind fun body body' hbody => drop _ ?_)
  refine (report _ _).bind fun _ _ _ => ?_
  intro c c' _ s s' hs _
  rw [read_bind, read_bind]
  refine .ok ?_ hs (Nat.zero_le _)
  show Program.bare _ = Program.bare _
  rw [Program.bare, Program.bare, bareList_stmt hbody]

end Respacing.Parallel

/-- **Every budget.** Whatever the budget is, the rules of the grammar give the same on two
sequences of tokens that differ in their places, and in the spelling of names that are decoded. -/
theorem Rules.within_uniform (w : Respacing) (n : Nat) : (Rules.within n).Uniform w := by
  induction n with
  | zero => exact ⟨fun _ => .exhausted, fun _ _ => .exhausted⟩
  | succ n ih =>
    exact ⟨fun _ => Respacing.Parallel.statement ih,
      fun _ mode => Respacing.Parallel.expression (within_reading n) ih mode⟩

end EcmaScript
