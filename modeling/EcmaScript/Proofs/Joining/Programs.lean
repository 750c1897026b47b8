import EcmaScript.Proofs.Joining.Statements
import EcmaScript.Proofs.Lexer.Joined
import EcmaScript.Proofs.Relation.Conservative
import EcmaScript.Proofs.Relation.Replayed

namespace EcmaScript

open EcmaScript.Parser

/-!
# Programs stand behind each other

Two accepted texts with a semicolon between them, on a line of its own, are an accepted text. It has
the statements of both, and in between one more where the semicolon is not that of the last
statement of the first text.

* `Context.Joins` — the tokens of two texts with a semicolon between them;
* `Context.Joins.goesOn`, `Context.Joins.respacing` — how they are compared with those of the two;
* `State.TopLevel` — outside of all classes;
* `Grammar.statements_joined` — the statements of both texts;
* `parse_joined` — the tree of the text that is made of both.
-/

/-! ### The tokens of both texts -/

namespace Context

/-- The third context has the tokens of the first one before token `n`, then a semicolon on a line
of its own, and behind it the tokens of the second one, `k` bytes further on. -/
structure Joins (n k : Nat) (c₁ c₂ c : Context) : Prop where
  before {i : Nat} : i < n → c.token i = c₁.token i
  semicolon : (c.token n).kind = .punctuator .semicolon
  newlineBefore : (c.token n).newlineBefore = true
  behind (i : Nat) :
    (c.token (i + (n + 1))).onNewLine = ((c₂.token i).moved k).onNewLine
  behind_newlineBefore {i : Nat} : 0 < i →
    (c.token (i + (n + 1))).newlineBefore = (c₂.token i).newlineBefore
  options₁ : c.options = c₁.options
  options₂ : c.options = c₂.options
  names₁ : c.names = c₁.names
  names₂ : c.names = c₂.names
  checks₁ : c.checks = c₁.checks
  checks₂ : c.checks = c₂.checks

namespace Joins

variable {n k : Nat} {c₁ c₂ c : Context}

theorem behind_kind (h : Joins n k c₁ c₂ c) (i : Nat) :
    (c.token (i + (n + 1))).kind = (c₂.token i).kind :=
  (congrArg Token.kind (h.behind i) :)

theorem behind_text (h : Joins n k c₁ c₂ c) (i : Nat) :
    (c.token (i + (n + 1))).text = (c₂.token i).text :=
  (congrArg Token.text (h.behind i) :)

theorem behind_span (h : Joins n k c₁ c₂ c) (i : Nat) : (c.token (i + (n + 1))).span
    = ⟨(c₂.token i).span.start + k, (c₂.token i).span.stop + k⟩ :=
  (congrArg Token.span (h.behind i) :)

/-- The first text ends outside of all brackets, and goes on with the semicolon. -/
theorem goesOn (h : Joins n k c₁ c₂ c) (hfirst : c₁.Accepts n)
    (helse : (c₂.token 0).kind ≠ .keyword .kElse) : c₁.GoesOn n c where
  token := h.before
  eof := hfirst.kind_eq_eof n (Nat.le_refl n)
  semicolon := h.semicolon
  newlineBefore := h.newlineBefore
  ne_else := by
    have hkind := h.behind_kind 0
    rw [Nat.zero_add] at hkind
    rwa [hkind]
  depth_nonneg {i} hi := hfirst.balanced.depth_le.2 i (Nat.zero_le i) hi
  depth_end := hfirst.balanced.depth_le.1
  options := h.options₁
  names := h.names₁
  checks := h.checks₁

theorem behind_reading (h : Joins n k c₁ c₂ c) (i : Nat) :
    (c.token (i + (n + 1))).reading = (c₂.token i).reading := by
  rw [Token.reading, Token.reading, h.behind_kind, h.behind_text]

theorem behind_definition (h : Joins n k c₁ c₂ c) (i : Nat) (_ : Introduces c₂.token i) :
    (c.token (i + 1 + (n + 1))).text = (c₂.token (i + 1)).text :=
  h.behind_text (i + 1)

theorem behind_sigil (h : Joins n k c₁ c₂ c) (i : Nat)
    (_ : (c₂.token i).kind = .privateName) :
    (c.token (i + (n + 1))).span.length ≤ 1 ↔ (c₂.token i).span.length ≤ 1 := by
  rw [h.behind_span, Span.length, Span.length]
  dsimp only
  omega

theorem behind_start_le_iff (h : Joins n k c₁ c₂ c) (i j : Nat) :
    (c.token (i + (n + 1))).span.start ≤ (c.token (j + (n + 1))).span.start ↔
      (c₂.token i).span.start ≤ (c₂.token j).span.start := by
  rw [h.behind_span, h.behind_span]
  exact Nat.add_le_add_iff_right

/-- The second text has the same tokens at other places. -/
def respacing (h : Joins n k c₁ c₂ c) : Respacing where
  token := c₂.token
  token' i := c.token (i + (n + 1))
  shift := n + 1
  kind := h.behind_kind
  reading := h.behind_reading
  definition := h.behind_definition
  newlineBefore := h.behind_newlineBefore
  sigil := h.behind_sigil
  start_le_iff := h.behind_start_le_iff

theorem contexts (h : Joins n k c₁ c₂ c) : h.respacing.Contexts c₂ c :=
  ⟨fun _ => rfl, fun _ => rfl, h.options₂, h.names₂, h.checks₂⟩

end Joins

theorem onNewLine_getD (tokens : List Token) (i : Nat) (t : Token) :
    ((tokens.modifyHead Token.onNewLine).getD i t).onNewLine = (tokens.getD i t).onNewLine := by
  cases tokens <;> cases i <;> rfl

theorem getD_modifyHead {tokens : List Token} {i : Nat} (hi : 0 < i) {f : Token → Token}
    {t : Token} : (tokens.modifyHead f).getD i t = tokens.getD i t := by
  obtain ⟨i, rfl⟩ := Nat.exists_eq_succ_of_ne_zero (Nat.ne_of_gt hi)
  cases tokens <;> rfl

/-- The end of both texts is that of the second one. -/
theorem endOfText_joined (first second : String) :
    Token.endOfText (first ++ "\n;\n" ++ second).utf8ByteSize
      = (Token.endOfText second.utf8ByteSize).moved (first.utf8ByteSize + 3) := by
  have hbetween : "\n;\n".utf8ByteSize = 3 := rfl
  have hsize : (first ++ "\n;\n" ++ second).utf8ByteSize
      = second.utf8ByteSize + (first.utf8ByteSize + 3) := by
    rw [String.utf8ByteSize_append, String.utf8ByteSize_append, hbetween]
    omega
  rw [hsize]
  rfl

/-- Sources with a semicolon between them. -/
theorem joins_ofSource {first : String} {options : Options}
    (hvalid : ∀ t ∈ (Lexer.ofString first options.classFields).tokens, t.kind ≠ .invalid)
    (hopen : (Lexer.ofString first options.classFields).endsInComment = false) (second : String) :
    ∃ n, (Lexer.ofString first options.classFields).tokens.length = n + 1
      ∧ (Lexer.ofString (first ++ "\n;\n" ++ second) options.classFields).tokens.length
        = n + 1 + (Lexer.ofString second options.classFields).tokens.length
      ∧ Joins n (first.utf8ByteSize + 3) (ofSource first options.classFields options)
        (ofSource second options.classFields options)
        (ofSource (first ++ "\n;\n" ++ second) options.classFields options) := by
  obtain ⟨inner, last, hfirst, -, hjoined⟩ := Lexer.tokens_joined hvalid hopen second
  -- Behind the semicolon the tokens are those of the second text, through its end.
  have hbehind (i : Nat) :
      (ofSource (first ++ "\n;\n" ++ second) options.classFields options).token
          (i + (inner.length + 1))
        = (((Lexer.ofString second options.classFields).tokens.map
            (Token.moved (first.utf8ByteSize + 3))).modifyHead Token.onNewLine).getD i
          ((Token.endOfText second.utf8ByteSize).moved (first.utf8ByteSize + 3)) := by
    rw [token_ofSource_eq, hjoined, endOfText_joined, List.getD_append_right _ _ _ _ (by omega),
      show i + (inner.length + 1) - inner.length = i + 1 by omega, List.getD_cons_succ]
  refine ⟨inner.length, by rw [hfirst, List.length_append]; rfl, ?_, ?_⟩
  · rw [hjoined, List.length_append, List.length_cons, List.length_modifyHead, List.length_map]
    omega
  refine ⟨fun {i} hi => ?_, ?_, ?_, fun i => ?_, fun {i} hi => ?_, rfl, rfl, rfl, rfl, rfl, rfl⟩
  · rw [token_ofSource_eq, token_ofSource_eq, hjoined, hfirst, List.getD_append _ _ _ _ hi,
      List.getD_append _ _ _ _ hi, List.getD_eq_getElem _ _ hi, List.getD_eq_getElem _ _ hi]
  · rw [token_ofSource_eq, hjoined, List.getD_append_right _ _ _ _ (Nat.le_refl _), Nat.sub_self]
    rfl
  · rw [token_ofSource_eq, hjoined, List.getD_append_right _ _ _ _ (Nat.le_refl _), Nat.sub_self]
    rfl
  · rw [hbehind, onNewLine_getD, List.getD_map, token_ofSource_eq]
  · rw [hbehind, getD_modifyHead hi, List.getD_map, token_ofSource_eq]
    rfl

/-- An accepted source ends with its last token. -/
theorem Accepts.length_tokens {source : String} {privateNames : Bool} {options : Options} {n : Nat}
    (h : (ofSource source privateNames options).Accepts n) :
    (Lexer.ofString source privateNames).tokens.length = n + 1 := by
  have hpos := tokens_length_pos source privateNames
  have heof (i : Nat) (hi : i < (Lexer.ofString source privateNames).tokens.length) :
      ((ofSource source privateNames options).token i).kind = .eof
        ↔ i + 1 = (Lexer.ofString source privateNames).tokens.length := by
    rw [token_ofSource_eq, List.getD_eq_getElem _ _ hi]
    exact Lexer.getElem_tokens_eof _ i hi
  have hlast := (heof _ (Nat.sub_lt hpos Nat.one_pos)).2 (Nat.sub_add_cancel hpos)
  -- The end stands neither before `n`, in balanced tokens, nor behind it, where all are ends.
  rcases Nat.lt_trichotomy ((Lexer.ofString source privateNames).tokens.length - 1) n with
    hlt | heq | hgt
  · exact absurd hlast (h.balanced.kind_ne _ (Nat.zero_le _) hlt).2
  · omega
  · have := (heof n (by omega)).1 (h.kind_eq_eof n (Nat.le_refl n))
    omega

end Context

/-! ### Runs at the top level -/

/-- A place outside of all classes. -/
structure State.TopLevel (s : State) (i : Nat) : Prop where
  position : s.position = i
  scopes : s.scopes = .outside
  inInitializer : s.inInitializer = false

theorem Context.topLevel_begun (c : Context) : c.begun.TopLevel 0 := ⟨rfl, rfl, rfl⟩

theorem State.SamePlace.topLevel {s t : State} {i : Nat} (h : s.SamePlace t) (hs : s.TopLevel i) :
    t.TopLevel i :=
  ⟨h.position.trans hs.position, h.scopes.trans hs.scopes, h.inInitializer.trans hs.inInitializer⟩

namespace Grammar

variable {c : Context} {s t s' : State} {body : List Stmt} {n m i : Nat}

/-- Statements end outside of all classes where they began there. -/
theorem statements_topLevel {stop : TokenKind} (hs : s.TopLevel i)
    (h : statements (.within n) stop (Rules.within n).budget c s = .ok body t) :
    t.TopLevel t.position := by
  have hkeeps := (Rules.within_keeping n).closedOnRules (Rules.within_reading n)
  have hkept : s.Kept c t := (IsRule.statements stop).related hkeeps (.inl ⟨body, h⟩)
  obtain ⟨uses, -, hscopes⟩ := hkept.scopes
  refine ⟨rfl, ?_, hkept.inInitializer.trans hs.inInitializer⟩
  rw [hscopes, hs.scopes]
  rfl

/-- With a larger budget, and begun anew, statements are read as before. -/
theorem statements_within (hnm : n ≤ m) {stop : TokenKind} (hs : s.TopLevel i) (hs' : s'.TopLevel i)
    (h : statements (.within n) stop (Rules.within n).budget c s = .ok body t) :
    ∃ t', statements (.within m) stop (Rules.within m).budget c s' = .ok body t'
      ∧ t'.TopLevel t.position := by
  have hsteps := (Rules.within_follows hnm).steps (Rules.within_reading n)
  have halike : s.Alike (.beside (.refl .outside) c.checks.undeclaredNames) 0 s' := by
    refine ⟨hs'.position.trans hs.position.symm, ⟨[], [], rfl, ?_, ?_⟩,
      hs'.inInitializer.trans hs.inInitializer.symm⟩
    · rw [hs.scopes]
      rfl
    · rw [hs'.scopes]
      rfl
  have hfollows := hsteps.closed.statements stop (.refl c) halike
  rw [h] at hfollows
  generalize hrun : statements (.within m) stop (Rules.within m).budget c s' = r at hfollows
  cases hfollows with
  | ok _ ht =>
    refine ⟨_, rfl, ht.position, ?_, ?_⟩
    · exact (statements_topLevel hs' hrun).scopes
    · exact (statements_topLevel hs' hrun).inInitializer

/-- No expression begins with `else`. -/
theorem operand_ne_else {g : Rules} {mode : ExprMode} {a : Expr × Bool}
    (h : operand g mode c s = .ok a t) : (c.token s.position).kind ≠ .keyword .kElse := by
  intro helse
  have hatom : operand g mode c s = atom g mode (c.token s.position) c
      (((s.looked 0).looked 1).looked 2) := by
    rw [operand_run, operandFrom, helse, asyncOperand?_of_ne (by rw [helse]; decide)]
    rfl
  rw [hatom, atom, helse] at h
  cases h

/-- No statement does. -/
theorem stmt_ne_else {first : Stmt} (h : (Rules.within n).stmt c s = .ok first t) :
    (c.token s.position).kind ≠ .keyword .kElse := by
  intro helse
  cases n with
  | zero => cases h
  | succ n =>
    have hstatement : (Rules.within (n + 1)).stmt c s
        = expressionStatement (.within n) c ((s.looked 0).looked 1) := by
      show statement (.within n) c s = _
      rw [statement, look_bind, look_bind, Nat.add_zero, helse]
    rw [hstatement, expressionStatement, spanned_ok_iff] at h
    obtain ⟨_, hmake, -⟩ := h
    obtain ⟨_, _, hvalue, -⟩ := bind_ok_iff.1 hmake
    obtain ⟨_, _, hexpr, -⟩ := expressionEnd_ok hvalue
    cases n with
    | zero => cases hexpr
    | succ n =>
      obtain ⟨_, _, hoperand, -⟩ := bind_ok_iff.1 hexpr
      exact operand_ne_else hoperand helse

/-- A script does not begin with `else`. -/
theorem statements_ne_else {stop : TokenKind} {fuel : Nat} (hstop : stop ≠ .keyword .kElse)
    (h : statements (.within n) stop fuel c s = .ok body t) :
    (c.token s.position).kind ≠ .keyword .kElse := by
  cases fuel with
  | zero => cases h
  | succ fuel =>
    obtain ⟨hend | hend, -, -⟩ | ⟨_, _, _, hfirst, -, -⟩ := statements_ok h
    · rwa [hend]
    · rw [hend]
      decide
    · have hne := stmt_ne_else hfirst
      rwa [State.looked_position] at hne

/-- A script is read when its statements can be read up to the end. -/
theorem script_of_statements {g : Rules} (hnames : c.names = .script)
    (h : statements g .eof g.budget c s = .ok body t) (heof : (c.token t.position).kind = .eof) :
    ∃ u, script g c s = .ok ⟨⟨0, c.sourceLength⟩, body⟩ u := by
  have hbody : statements g .eof g.budget { c with names := .script } s = .ok body t := by
    rw [← hnames]
    exact h
  have hrest : ∃ u, (do
      Functor.discard <| require .eof
      report (.statementsRead body.length)
      return ⟨⟨0, (← read).sourceLength⟩, body⟩ : Parser Program)
        { c with names := .script } t = .ok ⟨⟨0, c.sourceLength⟩, body⟩ u := by
    rw [discard_bind]
    exact ⟨_, require_bind_ok_iff.2 ⟨heof, rfl⟩⟩
  obtain ⟨u, hrest⟩ := hrest
  exact ⟨u, bind_ok_iff.2 ⟨body, t, hbody, hrest⟩⟩

/-- The statements of the second text are read behind the semicolon. -/
theorem statements_behind {k fuel : Nat} {c₁ c₂ : Context} (h : Context.Joins n k c₁ c₂ c)
    (hs : s.TopLevel 0) (hs' : s'.TopLevel (n + 1))
    (hrun : statements (.within m) .eof fuel c₂ s = .ok body t) :
    ∃ body' t', statements (.within m) .eof fuel c s' = .ok body' t'
      ∧ Stmt.bareList body' = Stmt.bareList body ∧ t'.position = t.position + (n + 1) := by
  have hstates : h.respacing.States s s' := by
    refine ⟨?_, ?_, hs'.inInitializer.trans hs.inInitializer.symm⟩
    · rw [hs.position, hs'.position]
      exact (Nat.zero_add (n + 1)).symm
    · rw [hs.scopes, hs'.scopes]
      exact .nil
  -- The rules see the same tokens, and no rule asks where they stand.
  have houtcome := Respacing.Parallel.statements (Rules.within_uniform h.respacing m) .eof fuel
    h.contexts hstates (Nat.zero_le _)
  rw [hrun] at houtcome
  generalize statements (.within m) .eof fuel c s' = r at houtcome ⊢
  cases houtcome with
  | ok hbody ht _ => exact ⟨_, _, rfl, (Respacing.bareList_stmt hbody).symm, ht.position⟩

/-- **The statements of both texts.** Those of the first text are read first, and then those of the
second one. The semicolon is a statement where the last one of the first text needs none. -/
theorem statements_joined {k fuel₁ fuel₂ : Nat} {c₁ c₂ : Context} {s₂ t₁ t₂ : State}
    {body₁ body₂ : List Stmt} (h : Context.Joins n k c₁ c₂ c) (hfirst : c₁.Accepts n)
    (hs : s.TopLevel 0) (hs₂ : s₂.TopLevel 0)
    (hrun₁ : statements (.within (m + 1)) .eof fuel₁ c₁ s = .ok body₁ t₁) (ht₁ : t₁.TopLevel n)
    (hrun₂ : statements (.within (m + 1)) .eof fuel₂ c₂ s₂ = .ok body₂ t₂) :
    ∃ body fuel t middle, statements (.within (m + 1)) .eof fuel c s = .ok body t
      ∧ t.position = t₂.position + (n + 1)
      ∧ (middle = [] ∨ ∃ span, middle = [.empty span])
      ∧ Stmt.bareList body
        = Stmt.bareList body₁ ++ Stmt.bareList middle ++ Stmt.bareList body₂ := by
  -- An `else` behind the semicolon would belong to a branch with which the first text ends.
  have helse : (c₂.token 0).kind ≠ .keyword .kElse :=
    hs₂.position ▸ statements_ne_else (by decide) hrun₂
  obtain ⟨body₁', t, hbare₁, hpast, hgoes⟩ := statements_goesOn (Rules.within_standing (m + 1))
    (h.goesOn hfirst helse) (hs.position ▸ Nat.zero_le n) hrun₁ ht₁.position
  have htop {i : Nat} (ht : t.position = i) : t.TopLevel i :=
    ⟨ht, hpast.scopes.trans ht₁.scopes, hpast.inInitializer.trans ht₁.inInitializer⟩
  rcases hpast.position with hposition | hposition
  · -- The semicolon is still to be read.
    have hsemicolon : (c.token t.position).kind = .punctuator .semicolon := by
      rw [hposition]
      exact h.semicolon
    obtain ⟨span, u, hu, hscopes, hinit, hempty⟩ := statements_semicolon (k := m) hsemicolon
    have hbehind : u.TopLevel (n + 1) :=
      ⟨by rw [hu, hposition], hscopes.trans (htop hposition).scopes,
        hinit.trans (htop hposition).inInitializer⟩
    obtain ⟨body₂', v, hrun, hbare₂, hv⟩ := statements_behind h hs₂ hbehind hrun₂
    refine ⟨_, _, v, [.empty span], hgoes (hempty hrun), hv, .inr ⟨span, rfl⟩, ?_⟩
    simp only [Stmt.bareList_eq_map, List.map_append, List.map_cons, List.map_nil]
      at hbare₁ hbare₂ ⊢
    rw [hbare₁, hbare₂, List.append_assoc, List.singleton_append]
  · -- The last statement has taken it along.
    obtain ⟨body₂', v, hrun, hbare₂, hv⟩ := statements_behind h hs₂ (htop hposition) hrun₂
    refine ⟨_, _, v, [], hgoes hrun, hv, .inl rfl, ?_⟩
    simp only [Stmt.bareList_eq_map, List.map_append, List.map_nil] at hbare₁ hbare₂ ⊢
    rw [hbare₁, hbare₂, List.append_nil]

end Grammar

variable {source : String} {options : Options} {p : Program}

/-- An accepted source can be read with any budget that is not smaller, whatever was read before. -/
theorem statements_of_parse (h : parse source options = .ok p) :
    ∃ n, (Context.ofSource source options.classFields options).Accepts n
      ∧ ∀ {m : Nat} {s : State},
        (Context.ofSource source options.classFields options).budget ≤ m → s.TopLevel 0 →
        ∃ t, Grammar.statements (.within m) .eof (Rules.within m).budget
            (.ofSource source options.classFields options) s = .ok p.body t
          ∧ t.TopLevel n := by
  obtain ⟨t, hrun⟩ := runScript_of_parse h
  obtain ⟨n, haccepts, ht⟩ := Context.accepts_of_runScript hrun
  obtain ⟨s, u, hs, hbody, -, hu, -⟩ := runScript_ok hrun
  have hn : u.position = n := by
    have := hu.position
    rw [State.advanced_position] at this
    omega
  refine ⟨n, haccepts, fun hm hbegins => ?_⟩
  have hstart : s.TopLevel 0 := hs.topLevel ⟨rfl, rfl, rfl⟩
  rw [← hn]
  exact Grammar.statements_within hm hstart hbegins hbody

/-- A source whose statements can be read up to its end is accepted. -/
theorem parse_of_statements {body : List Stmt} {fuel : Nat} {t : State}
    (h : Grammar.statements
        (.within (Context.ofSource source options.classFields options).budget) .eof fuel
        (.ofSource source options.classFields options)
        (Context.ofSource source options.classFields options).begun = .ok body t)
    (heof : ((Context.ofSource source options.classFields options).token t.position).kind = .eof) :
    ∃ p, parse source options = .ok p ∧ p.body = body := by
  rw [parse_eq_script]
  have hnames : (Context.ofSource source options.classFields options).names = .script := rfl
  generalize Context.ofSource source options.classFields options = c at h heof hnames ⊢
  have hbalanced := Grammar.statements_balanced (Rules.within_reading _) h
  have hlength := Grammar.length_statements (Rules.within_reading _) h
  -- There are not more statements than tokens.
  have hposition : t.position ≤ c.tokens.size := by
    by_contra hlt
    have hlast := (hbalanced.kind_ne (t.position - 1) (by simp [Context.begun, State.initial])
      (by omega)).2
    have := Context.lt_size hlast
    omega
  have hfuel : body.length < (Rules.within c.budget).budget := by
    rw [Rules.within_budget, Context.budget]
    omega
  have hrun := Grammar.statements_fuel h hfuel
  obtain ⟨u, hscript⟩ := Grammar.script_of_statements hnames hrun heof
  rw [hscript]
  exact ⟨_, rfl, rfl⟩

/-- **Programs stand behind each other.** Where two sources are accepted, and no comment is open at
the end of the first one, the source that has both, with a semicolon on a line of its own between
them, is accepted as well. But for places, its statements are those of the first source, an empty
statement or none, and those of the second source. -/
theorem parse_joined {first second : String} {p₁ p₂ : Program}
    (hfirst : parse first options = .ok p₁) (hsecond : parse second options = .ok p₂)
    (hopen : (Lexer.ofString first options.classFields).endsInComment = false) :
    ∃ p middle, parse (first ++ "\n;\n" ++ second) options = .ok p
      ∧ (middle = [] ∨ ∃ span, middle = [.empty span])
      ∧ Stmt.bareList p.body
        = Stmt.bareList p₁.body ++ Stmt.bareList middle ++ Stmt.bareList p₂.body := by
  obtain ⟨n, haccepts₁, hreads₁⟩ := statements_of_parse hfirst
  obtain ⟨n₂, haccepts₂, hreads₂⟩ := statements_of_parse hsecond
  obtain ⟨n', hlength₁, hlength, hjoins⟩ := Context.joins_ofSource
    haccepts₁.kind_ne_invalid_of_mem hopen second
  obtain rfl : n' = n := by
    have := haccepts₁.length_tokens
    omega
  -- Both texts can be read with the budget of the one that is made of them.
  have hle₁ : (Context.ofSource first options.classFields options).budget
      ≤ (Context.ofSource (first ++ "\n;\n" ++ second) options.classFields options).budget := by
    simp only [Context.budget, Context.ofSource, List.size_toArray]
    omega
  have hle₂ : (Context.ofSource second options.classFields options).budget
      ≤ (Context.ofSource (first ++ "\n;\n" ++ second) options.classFields options).budget := by
    simp only [Context.budget, Context.ofSource, List.size_toArray]
    omega
  have hstart := Context.topLevel_begun
    (.ofSource (first ++ "\n;\n" ++ second) options.classFields options)
  obtain ⟨t₁, hrun₁, ht₁⟩ := hreads₁ hle₁ hstart
  obtain ⟨t₂, hrun₂, ht₂⟩ := hreads₂ hle₂ hstart
  obtain ⟨body, fuel, t, middle, hrun, ht, hmiddle, hbare⟩ :=
    Grammar.statements_joined hjoins haccepts₁ hstart hstart hrun₁ ht₁ hrun₂
  have heof : ((Context.ofSource (first ++ "\n;\n" ++ second) options.classFields options).token
      t.position).kind = .eof := by
    rw [ht, hjoins.behind_kind, ht₂.position]
    exact haccepts₂.kind_eq_eof n₂ (Nat.le_refl n₂)
  obtain ⟨p, hp, rfl⟩ := parse_of_statements hrun heof
  exact ⟨p, middle, hp, hmiddle, hbare⟩

theorem exists_parse_of_isOk (h : (parse source options).isOk = true) :
    ∃ p, parse source options = .ok p := by
  cases hp : parse source options with
  | ok p => exact ⟨p, rfl⟩
  | error e =>
    rw [hp] at h
    cases h

set_option maxRecDepth 100000 in
/-- The semicolon that was inserted behind a branch is now written there, in front of a class. -/
theorem parse_joined_branch :
    ∃ p₁ p₂, parse "if (a) b" ⟨9, true⟩ = .ok p₁
      ∧ parse "class A { #x; y = this.#x }" ⟨9, true⟩ = .ok p₂
      ∧ (Lexer.ofString "if (a) b" true).endsInComment = false
      ∧ ∃ p middle,
        parse ("if (a) b" ++ "\n;\n" ++ "class A { #x; y = this.#x }") ⟨9, true⟩ = .ok p
        ∧ (middle = [] ∨ ∃ span, middle = [.empty span])
        ∧ Stmt.bareList p.body
          = Stmt.bareList p₁.body ++ Stmt.bareList middle ++ Stmt.bareList p₂.body := by
  have hfirst : (parse "if (a) b" ⟨9, true⟩).isOk = true := by decide +kernel
  have hsecond : (parse "class A { #x; y = this.#x }" ⟨9, true⟩).isOk = true := by decide +kernel
  have hopen : (Lexer.ofString "if (a) b" true).endsInComment = false := by decide +kernel
  obtain ⟨p₁, hp₁⟩ := exists_parse_of_isOk hfirst
  obtain ⟨p₂, hp₂⟩ := exists_parse_of_isOk hsecond
  exact ⟨p₁, p₂, hp₁, hp₂, hopen, parse_joined hp₁ hp₂ hopen⟩

end EcmaScript
