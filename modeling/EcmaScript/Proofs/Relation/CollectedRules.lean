import EcmaScript.Proofs.Relation.Collected

namespace EcmaScript

open EcmaScript.Parser

/-!
# Trying with a class around everything

What was tried in vain may have been collected. The text is then read again as something else. What
is read instead collects the same again, and it is refused for the same use where the attempt was.

* `Collected.reread` — a part that is read where something was collected by an attempt;
* `Collected.attempt_bind` — an attempt, and what is read behind it;
* `Grammar.arrowOrGrouping_collected`, `Grammar.expression_async_collected` — where parameters are
  tried;
* `Rules.within_collects`, `Grammar.script_collects` — statements, expressions and whole scripts.
-/

variable {α β : Type} {c : Context} {s s' u d : State} {w : List (String × Span)}

/-! ### Attempts -/

namespace Collected

/-- What was collected before the part is collected by the part again, so it makes no difference. -/
theorem reread {p : Parser α} (hp : Collects p) (hc : c.Scoped) (hs : s.Beneath s')
    (hkept : s.Kept c u) (hd : State.Rewound s u d) (hu : u.scopes = .collecting w) (hw : w ≠ [])
    (htrails : u.Trails (p c s)) : Collected c (p c d) (p c s') := by
  obtain ⟨uses, -, huses⟩ := hkept.scopes
  have hfresh := hp.collected hc hs
  have hsame := hp.follows (.refl c) (hd.alike huses hkept.inInitializer c.checks.undeclaredNames)
  have hleft {t : State} (ht : Ends (p c d) t) : ∃ w', t.scopes = .collecting w' ∧ w' ≠ [] := by
    obtain ⟨w', hscopes, hfront⟩ := (hp.keeps ht).collecting (hd.scopes.trans hu)
    exact ⟨w', hscopes, fun hnil => hw (List.prefix_nil.1 (hnil ▸ hfront))⟩
  cases hrun : p c d with
  | ok a t =>
    obtain ⟨v, hv, hagrees⟩ := hp.follows.settles huses hkept.inInitializer hd htrails hrun
    obtain ⟨w', ht, hne⟩ := hleft (.inl ⟨a, hrun⟩)
    rw [hv] at hfresh
    generalize p c s' = r' at hfresh
    cases hfresh with
    | ok _ hbeneath =>
      have hnothing := (ht.symm.trans hagrees.scopes).trans hbeneath.scopes
      exact absurd (ClassScopes.collecting_inj.1 hnothing) hne
    | refused hv' hne' hrefuses => exact .refused (hagrees.scopes.trans hv') hne' hrefuses
  | error reason t =>
    cases reason with
    | exhausted => exact .exhausted t _
    | error e =>
      obtain ⟨w', ht, hne⟩ := hleft (.inr ⟨e, hrun⟩)
      rw [hrun] at hsame
      generalize p c s = r at hsame hfresh
      generalize p c s' = r' at hfresh
      cases hsame with
      | error _ _ =>
        cases hfresh with
        | error _ _ =>
          refine .failed ht hne fun e' he' => .inl ?_
          injection he' with he'
          exact he'.symm
        | failed _ _ hfails => exact .failed ht hne hfails

/-- Both runs go on with what the attempt came to. Where something was collected in the attempt, the
second run has to be followed through what it reads instead. -/
theorem attempt_bind {p : Parser α} {f : Except SyntaxError α → Parser β}
    (hc : c.Scoped) (hp : Collected c (p c s) (p c s')) (hf : ∀ found, Collects (f found))
    (hrefused : ∀ a u w e' u', p c s = .ok a u → u.scopes = .collecting w → w ≠ [] →
      p c s' = .error (.error e') u' → c.Refuses w (.error e') →
      Collected c (f (.ok a) c u) (f (.error e') c u'))
    (hfailed : ∀ e u w e' u', p c s = .error (.error e) u → u.scopes = .collecting w → w ≠ [] →
      p c s' = .error (.error e') u' → e' = e ∨ e'.Hides →
      Collected c (f (.error e) c u) (f (.error e') c u')) :
    Collected c ((attempt p >>= f) c s) ((attempt p >>= f) c s') := by
  rw [Parser.attempt_bind, Parser.attempt_bind]
  generalize p c s = r at hp hrefused hfailed
  generalize p c s' = r' at hp hrefused hfailed
  cases hp with
  | ok a hu => exact (hf _).collected hc hu
  | error e hu => exact (hf _).collected hc hu
  | @refused _ _ _ _ reason hu hw hrefuses =>
    cases reason with
    | exhausted => exact .of_refuses (fun _ h => (hf _).keeps h) hu hw hrefuses _
    | error e' => exact hrefused _ _ _ _ _ rfl hu hw rfl hrefuses
  | @failed _ _ _ _ reason hu hw hfails =>
    cases reason with
    | exhausted => exact .of_refuses (fun _ h => (hf _).keeps h) hu hw (.inl rfl) _
    | error e' => exact hfailed _ _ _ _ _ rfl hu hw rfl (hfails e' rfl)
  | exhausted t r' => exact .exhausted t _

end Collected

namespace Grammar

variable {n : Nat} {mode : ExprMode}

/-! ### Parentheses -/

/-- **Where a parenthesis opens** an expression, parameters are tried first. -/
theorem arrowOrGrouping_collected (h : (Rules.within n).Collecting) {stops : List TokenKind}
    (hstops : (ExprMode.assignment stops).TakesCalls) (insertion : Bool) (hc : c.Scoped)
    (hs : s.Beneath s') (hopen : (c.token s.position).kind = .punctuator .parenthesisOpen) :
    Collected c (arrowOrGrouping (.within n) stops insertion c s)
      (arrowOrGrouping (.within n) stops insertion c s') := by
  have hread := h.reading
  have harrow : Collects (do return (← arrowFunction (.within n) stops, false)
      : Parser (Expr × Bool)) := (hread.closed.arrowFunction hstops).bind fun _ => .pure _
  have hgroup : Collects (grouping (.within n) insertion) := hread.closed.grouping insertion
  have hparams := hread.arrowParameters false
  have hopen' : (c.token s'.position).kind = .punctuator .parenthesisOpen := hs.position ▸ hopen
  rw [arrowOrGrouping, position_bind, position_bind, hs.position]
  refine .attempt_bind hc (hparams.collected hc hs) (fun found => ?_) ?_ ?_
  · cases found with
    | ok _ => exact (Collects.restore _).bind fun _ => harrow
    | error e =>
      dsimp only
      split
      · exact .fail e
      · exact (Collects.restore _).bind fun _ => hgroup
  · intro a u w e' u' _ hu hw hrun' hrefuses
    -- With the class an arrow function is read. Without it, an expression that cannot be read.
    have hback := (hparams.keeps (.inr ⟨e', hrun'⟩)).agrees hs.outside
    have hne := hrefuses.hides.cause_ne
    obtain ⟨f, t, hfails, hrefuses⟩ := hrefuses.like
      ((arrowParameters_grouping n insertion hopen' hback).errors e' u' hrun' hrefuses.hides)
    dsimp only
    rw [if_neg hne, restore_bind, restore_bind, ← hs.position, hfails]
    refine .of_refuses ?_ ?_ hw hrefuses t
    · exact fun _ h => harrow.keeps h
    · exact hu
  · intro e u w e' u' hrun hu hw hrun' hlike
    have hback := (hparams.keeps (.inr ⟨e', hrun'⟩)).agrees hs.outside
    dsimp only
    by_cases hline : e.cause = .lineTerminatorAfterArrowParameters
    · rw [if_pos hline, fail_apply]
      obtain rfl | hhides := hlike
      · rw [if_pos hline, fail_apply]
        exact .failed hu hw fun e'' he'' => .inl (by injection he'' with he''; exact he''.symm)
      · obtain ⟨f, t, hfails, hhides'⟩ := ((arrowParameters_grouping n insertion hopen' hback).errors
          e' u' hrun' hhides).hides hhides
        rw [if_neg hhides.cause_ne, restore_bind, ← hs.position, hfails]
        exact .failed hu hw fun e'' he'' => .inr (hhides' e'' he'')
    · -- The expression is read in both runs, and collects what the attempt has collected.
      have hline' : e'.cause ≠ .lineTerminatorAfterArrowParameters := by
        obtain rfl | hhides := hlike
        · exact hline
        · exact hhides.cause_ne
      rw [if_neg hline, if_neg hline', restore_bind, restore_bind]
      refine .reread hgroup hc ?_ (hparams.keeps (.inr ⟨e, hrun⟩)) (State.rewound_restore s u) hu hw
        ((arrowParameters_grouping n insertion hopen ⟨rfl, rfl, rfl⟩).scopes u (.inr ⟨e, hrun⟩))
      rw [← hs.position]
      exact hs.agrees hback

/-! ### The word `async` -/

/-- The word `async` as a name, and how the expression goes on behind it. -/
def asyncCall (g : Rules) (mode : ExprMode) : Parser (Expr × Bool) := do
  let name ← variableUse
  climb g mode name false g.budget

/-- Where the parameters cannot be read, the word is a name. -/
theorem asyncRest_error (g : Rules) (mode : ExprMode) (start : Nat) (e : SyntaxError) :
    (asyncRest g mode start (.error e) >>= fun first => climb g mode first.1 first.2 g.budget)
      = restore start >>= fun _ => asyncCall g mode := by
  simp only [asyncRest, asyncCall, bind_assoc, pure_bind]

/-- The word can be read as a name. -/
theorem variableUse_async (hfirst : (c.token s.position).kind = .keyword .kAsync)
    (htext : (c.token s.position).text = "async") :
    ∃ e, variableUse c s = .ok e s.advanced := by
  have hname : variableName c s = .ok "async" s.advanced := by
    refine variableName_ok_iff.2 ⟨?_, ?_, fun h => absurd h.2 (by decide), rfl⟩
    · rw [hfirst]
      rfl
    · rw [htext]
      decide
  rw [variableUse, spanned_run, bind_apply, hname]
  exact ⟨_, rfl⟩

/-- **Tried parameters and the call of a function** with the name of `async`. -/
theorem arrowParameters_asyncCall (n : Nat) (hmode : mode.TakesCalls) (hc : c.Scoped)
    (hfirst : (c.token s.position).kind = .keyword .kAsync)
    (hopen : (c.token (s.position + 1)).kind = .punctuator .parenthesisOpen)
    (hline : (c.token (s.position + 1)).newlineBefore = false) (hs : s.Agrees s') :
    Includes c (arrowParameters (.within n) true c s.advanced)
      (asyncCall (.within n) mode c s') := by
  have hkeeps := (Rules.within_keeping n).steps (Rules.within_reading n)
  have hfirst' : (c.token s'.position).kind = .keyword .kAsync := hs.position ▸ hfirst
  obtain ⟨name, hname⟩ := variableUse_async hfirst' (hc.async hfirst')
  rw [asyncCall, bind_apply, hname]
  dsimp only
  generalize (Rules.within n).budget = steps
  cases steps with
  | zero => exact .of_exhausted _ _
  | succ steps =>
    have hkind : (c.token s'.advanced.position).kind = .punctuator .parenthesisOpen := by
      rw [State.advanced_position, hs.position]
      exact hopen
    rw [climb_call hmode _ _ steps hkind]
    have hargs := arrowParameters_arguments n (s := s.advanced) hopen
      (fun i hi => hc.calm s.position i hi hfirst hopen hline) hs.advanced
    rw [continuation, bind_assoc]
    refine hargs.append fun as => ((Keeps.since _).keptBind fun _ => .pure _).keptBind fun _ => ?_
    exact hkeeps.climb (m := steps) trivial (Keeps.onFuel steps) _ _

/-- An expression that begins with `async` and a parenthesis. -/
theorem expression_async {g : Rules} (hfirst : (c.token s.position).kind = .keyword .kAsync)
    (hopen : (c.token (s.position + 1)).kind = .punctuator .parenthesisOpen)
    (hline : (c.token (s.position + 1)).newlineBefore = false) :
    expression g mode c s = (attempt (arrowParameters g true) >>= fun found =>
        asyncRest g mode s.position found >>= fun first =>
          climb g mode first.1 first.2 g.budget) c
      (((s.looked 0).looked 1).looked 2).advanced := by
  rw [expression, bind_apply, operand_async hfirst hopen hline, ← bind_apply, bind_assoc]

/-- **Behind `async`** parameters are tried as well. -/
theorem expression_async_collected (h : (Rules.within n).Collecting) (hmode : mode.TakesCalls)
    (hc : c.Scoped) (hs : s.Beneath s')
    (hfirst : (c.token s.position).kind = .keyword .kAsync)
    (hopen : (c.token (s.position + 1)).kind = .punctuator .parenthesisOpen)
    (hline : (c.token (s.position + 1)).newlineBefore = false) :
    Collected c (expression (.within n) mode c s) (expression (.within n) mode c s') := by
  have hread := h.reading
  have hclimb (first : Expr × Bool) :
      Collects (climb (.within n) mode first.1 first.2 (Rules.within n).budget) :=
    hread.climb (m := (Rules.within n).budget) hmode hread.fuel _ _
  have hparams := hread.arrowParameters true
  have hcall : Collects (asyncCall (.within n) mode) :=
    hread.tokens.variableUse.bind fun name => hclimb (name, false)
  let x := ((s.looked 0).looked 1).looked 2
  let x' := ((s'.looked 0).looked 1).looked 2
  have hx : x.Beneath x' := ((hs.looked 0).looked 1).looked 2
  have hfirst' : (c.token s'.position).kind = .keyword .kAsync := hs.position ▸ hfirst
  have hopen' : (c.token (s'.position + 1)).kind = .punctuator .parenthesisOpen :=
    hs.position ▸ hopen
  have hline' : (c.token (s'.position + 1)).newlineBefore = false := hs.position ▸ hline
  rw [expression_async hfirst hopen hline, expression_async hfirst' hopen' hline', hs.position]
  have hrestores (e : SyntaxError) {u' : State}
      (hrun' : arrowParameters (.within n) true c x'.advanced = .error (.error e) u') :
      x'.Agrees { u' with position := s.position } := by
    have hback := (hparams.keeps (.inr ⟨e, hrun'⟩)).agrees hs.outside
    exact ⟨hs.position.symm, hback.scopes, hback.inInitializer⟩
  have hfound (found : Except SyntaxError (List Param)) :
      Collects (asyncRest (.within n) mode s.position found >>= fun first =>
        climb (.within n) mode first.1 first.2 (Rules.within n).budget) := by
    cases found with
    | ok _ =>
      refine ((Collects.restore _).bind fun _ => ?_).bind hclimb
      exact (hread.closed.arrowFunction (hread.modes.arrowBody hmode)).bind fun _ => .pure _
    | error e =>
      rw [asyncRest_error]
      exact (Collects.restore _).bind fun _ => hcall
  refine .attempt_bind hc (hparams.collected hc hx.advanced) hfound ?_ ?_
  · intro a u w e' u' _ hu hw hrun' hrefuses
    -- With the class an arrow function is read. Without it, a call that cannot be read.
    have hincludes := arrowParameters_asyncCall (s := x') n hmode hc hfirst' hopen' hline'
      (hrestores e' hrun')
    obtain ⟨f, t, hfails, hrefuses⟩ :=
      hrefuses.like (hincludes.errors e' u' hrun' hrefuses.hides)
    rw [asyncRest_error, restore_bind, hfails]
    exact .of_refuses (fun _ ht => (hfound _).keeps ht) hu hw hrefuses t
  · intro e u w e' u' hrun hu hw hrun' _
    have hkept : x.Kept c u :=
      (Keeps.next (.inl ⟨_, rfl⟩)).trans (hparams.keeps (.inr ⟨e, hrun⟩))
    rw [asyncRest_error, asyncRest_error, restore_bind, restore_bind]
    refine .reread hcall hc (hx.agrees (hrestores e' hrun')) hkept ⟨rfl, rfl, rfl⟩ hu hw ?_
    have hincludes := arrowParameters_asyncCall (s := x) n hmode hc hfirst hopen hline
      ⟨rfl, rfl, rfl⟩
    exact hincludes.scopes u (.inr ⟨e, hrun⟩)

/-- Where a parenthesis opens, that is what the expression begins with. -/
theorem operand_parenthesis {g : Rules}
    (hopen : (c.token s.position).kind = .punctuator .parenthesisOpen) :
    operand g mode c s = arrowOrGrouping g mode.stops mode.insertion c
      (((s.looked 0).looked 1).looked 2) := by
  have hleading : leadingOperator? c.names (.punctuator .parenthesisOpen) = none := rfl
  have hasync : (c.token s.position).kind ≠ .keyword .kAsync := by
    rw [hopen]
    decide
  have hatom : atom g mode (c.token s.position) = arrowOrGrouping g mode.stops mode.insertion := by
    rw [atom, hopen]
  rw [operand_run, operandFrom, hopen, hleading]
  dsimp only
  rw [asyncOperand?_of_ne hasync, pure_bind, hatom]
  rfl

end Grammar

/-! ### The rules -/

namespace Rules

open Grammar

variable {n : Nat}

/-- Expressions collect what is refused elsewhere. -/
theorem Collecting.expression (h : (within n).Collecting) {mode : ExprMode}
    (hmode : mode.TakesCalls) : Collects (expression (within n) mode) := by
  have hread := h.reading
  have hclimb (first : Expr × Bool) :
      Collects (climb (within n) mode first.1 first.2 (within n).budget) :=
    hread.climb (m := (within n).budget) hmode hread.fuel _ _
  refine ⟨((within_keeping n).steps (within_reading n)).expression trivial,
    ((within_follows (Nat.le_refl n)).steps (within_reading n)).expression trivial,
    fun {c s s'} hc hs => ?_⟩
  by_cases hasync : (c.token s.position).kind = .keyword .kAsync
      ∧ (c.token (s.position + 1)).kind = .punctuator .parenthesisOpen
      ∧ (c.token (s.position + 1)).newlineBefore = false
  · obtain ⟨hfirst, hopen, hline⟩ := hasync
    exact expression_async_collected h hmode hc hs hfirst hopen hline
  refine Collected.bind ?_ (fun first _ _ _ ht => (hclimb first).keeps ht) fun first u u' hu =>
    (hclimb first).collected hc hu
  have hlooked := ((hs.looked 0).looked 1).looked 2
  by_cases hopen : (c.token s.position).kind = .punctuator .parenthesisOpen
  · have hopen' : (c.token s'.position).kind = .punctuator .parenthesisOpen := hs.position ▸ hopen
    rw [operand_parenthesis hopen, operand_parenthesis hopen']
    exact arrowOrGrouping_collected h (hread.modes.arrowBody hmode) mode.insertion hc hlooked hopen
  · -- Nothing is tried where the expression begins.
    rw [operand_named, named_bind, named_bind, look_bind, named_bind, named_bind, look_bind]
    simp only [State.looked_position, Nat.add_zero, hs.position]
    refine (hread.operandNamed hmode ?_ ?_).collected hc hlooked
    · exact fun hfirst hline hsecond => absurd ⟨hfirst, hsecond, hline⟩ hasync
    · exact fun hfirst => absurd hfirst hopen

end Rules

end EcmaScript
