import EcmaScript.Proofs.Parser.Yields
import EcmaScript.Proofs.Printing.ClassText
import EcmaScript.Proofs.Printing.Climbing

namespace EcmaScript

open EcmaScript.Parser EcmaScript.Grammar
open Word (sign)

/-!
# Parts of printed members are read again

Names, values and functions of members, each read from the words it is printed as.

* `ClassText.EndsValue` — the tokens behind which a value does not go on: what closes it, or what
  stands on the next line and is no operator;
* `ClassText.Value.expr_yields` — a value is read up to such a token;
* `ClassText.Parameter.separated_yields` — parameters are read through the closing parenthesis;
* `ClassText.Method.methodRest_yields` — a method is read from its parameters on.
-/

variable {c : Context} {x : Spot} {mode : ExprMode} {rules : NameRules}

namespace ClassText

/-- A word that may be missing is read where it stands. -/
theorem accept_optional {α : Type} {Q : α → Prop} {y : Spot} {w : Word} (b : Bool)
    (hwords : c.HasWords x.index (optional b w))
    (hmissing : b = false → (c.token x.index).kind ≠ w.kind) {f : Bool → Parser α}
    (h : Yields c (x.step (optional b w).length) (f b) Q y) :
    Yields c x (accept w.kind >>= f) Q y := by
  cases b with
  | true => exact .accept hwords.1.kind h
  | false => exact .acceptNot (hmissing rfl) h

/-! ### Names -/

namespace NameWord

variable {n : NameWord rules}

theorem kind_ne_punctuator (n : NameWord rules) (p : Punctuator) :
    n.word.kind ≠ .punctuator p := by
  intro hkind
  have hallowed := n.allowed
  rw [hkind] at hallowed
  cases hallowed

theorem variableName_yields (hnames : c.names = rules) (hword : (c.token x.index).IsWord n.word)
    (harguments : x.inInitializer = true → n.name ≠ "arguments") :
    Yields c x variableName (· = n.name) (x.step 1) := by
  rw [variableName]
  refine .next (.nameRules ?_)
  have hallowed := n.allowed
  have hspells := n.spells
  rw [← hword.kind, ← hnames] at hallowed
  rw [← hword.text] at hspells
  rw [if_pos hallowed, identifierText_eq hspells, pure_bind]
  exact .checkArguments (x := x.step 1) _ harguments (.pure rfl)

theorem identifier_yields (hnames : c.names = rules) (hword : (c.token x.index).IsWord n.word)
    (harguments : x.inInitializer = true → n.name ≠ "arguments") :
    Yields c x identifier (fun i => i.bare = ⟨default, n.name⟩) (x.step 1) := by
  refine .spanned ((variableName_yields hnames hword harguments).bind fun name hname => .pure ?_)
  intro span
  rw [hname]
  rfl

theorem variableUse_yields (hnames : c.names = rules) (hword : (c.token x.index).IsWord n.word)
    (harguments : x.inInitializer = true → n.name ≠ "arguments") :
    Yields c x variableUse (fun e => e.bare = .ident default n.name) (x.step 1) := by
  refine .spanned ((variableName_yields hnames hword harguments).bind fun name hname => .pure ?_)
  intro span
  rw [hname, Expr.bare]

end NameWord

/-! ### Values -/

theorem NumberWord.numberValue_yields {n : NumberWord} (hword : (c.token x.index).IsWord n.word) :
    Yields c x numberValue (· = n.value) (x.step 1) := by
  rw [numberValue]
  refine .require (hword.kind.trans n.isNumber) ?_
  rw [hword.text, n.spells]
  exact .pure rfl

/-- The tokens behind which nothing in a class goes on with a value. -/
def closesValue : TokenKind → Bool
  | .punctuator .semicolon | .punctuator .comma | .punctuator .parenthesisClose
  | .punctuator .bracketClose | .punctuator .braceClose => true
  | _ => false

/-- The token ends a value: it is a stop, or stands on the next line and is no operator. -/
inductive EndsValue (mode : ExprMode) (t : Token) : Prop where
  | closing : closesValue t.kind = true → mode.stops.contains t.kind = true → EndsValue mode t
  | line : t.newlineBefore = true → t.kind ≠ arrowKind → Operator.following? t.kind = none →
    mode.insertion = true → EndsValue mode t

namespace EndsValue

variable {t : Token}

theorem kind_ne_arrow (h : EndsValue mode t) : t.kind ≠ arrowKind := by
  cases h with
  | closing hclose _ =>
    intro heq
    rw [heq] at hclose
    cases hclose
  | line _ harrow _ _ => exact harrow

/-- No name may stand behind what closes a value, and no parameters begin there. -/
theorem kind_ne_of_closesValue (h : closesValue t.kind = true) (names : NameRules) :
    t.kind ≠ .punctuator .parenthesisOpen ∧ t.kind ≠ .keyword .kFunction
      ∧ names.allows t.kind = false := by
  unfold closesValue at h
  split at h
  -- Every kind that is not listed.
  case h_6 => cases h
  all_goals
    rename_i hkind
    rw [hkind]
    exact ⟨nofun, nofun, rfl⟩

/-- Before such a token `async` is a name. -/
theorem asyncOperand?_yields (h : EndsValue mode t) (g : Rules) (stops : List TokenKind)
    (first third : Token) {α : Type} {f : Option Expr → Parser α} {Q : α → Prop} {y : Spot}
    (hf : Yields c x (f none) Q y) :
    Yields c x (asyncOperand? g stops first t third >>= f) Q y := by
  rw [asyncOperand?]
  cases h with
  | line hnewline _ _ _ =>
    rw [if_pos (by simp [hnewline]), pure_bind]
    exact hf
  | closing hclose _ =>
    obtain ⟨hopen, hfunction, hallows⟩ := kind_ne_of_closesValue hclose c.names
    rw [if_neg hopen, if_neg hfunction]
    split
    next => exact hf
    next =>
      rw [bind_assoc]
      refine .nameRules ?_
      rw [hallows]
      exact hf

/-- Climbing stops at once. -/
theorem climb_yields (h : EndsValue mode (c.token x.index)) (g : Rules) (left : Expr)
    (inserted : Bool) (n : Nat) :
    Yields c x (climb g mode left inserted (n + 1)) (fun r => r.1 = left) x := by
  rw [climb]
  refine .position (.next ?_)
  split
  next => exact .restore _ (.pure rfl)
  next hstop =>
    cases h with
    | closing _ hcontains => exact absurd hcontains hstop
    | line hnewline _ hfollowing hinsertion =>
      have hupdate : (Operator.update? (c.token x.index).kind).filter
          (fun _ => !(c.token x.index).newlineBefore) = none := by
        rw [hnewline]
        simp
      have hinsert : (mode.insertion && allowsInsertion (c.token x.index)) = true := by
        rw [hinsertion, allowsInsertion, hnewline]
        rfl
      rw [hupdate, hfollowing]
      dsimp only
      rw [if_pos hinsert]
      exact .restore _ (.pure rfl)

end EndsValue

theorem NumberWord.numberLiteral_yields {n : NumberWord} (hword : (c.token x.index).IsWord n.word) :
    Yields c x numberLiteral (fun e => e.bare = .numberLit default n.value) (x.step 1) := by
  refine .spanned ((n.numberValue_yields hword).bind fun value hvalue => .pure ?_)
  intro span
  rw [hvalue, Expr.bare]

theorem Value.operandFrom_yields {v : Value rules} (hnames : c.names = rules)
    (hword : (c.token x.index).IsWord v.word)
    (harguments : x.inInitializer = true → v.isArguments = false) {second : Token}
    (hends : EndsValue mode second) (g : Rules) (third : Token) :
    Yields c x (operandFrom g mode c.names (c.token x.index) second third)
      (fun r => r.1.bare = v.tree) (x.step 1) := by
  cases v with
  | name n =>
    have hallowed : c.names.allows (c.token x.index).kind = true := by
      rw [hword.kind, hnames]
      exact n.allowed
    have hname : x.inInitializer = true → n.name ≠ "arguments" :=
      fun hin => of_decide_eq_false (harguments hin)
    rw [operandFrom, leadingOperator?_of_allows hallowed]
    refine hends.asyncOperand?_yields g _ _ _ ?_
    dsimp only
    rw [if_pos hallowed, if_neg hends.kind_ne_arrow]
    exact (n.variableUse_yields hnames hword hname).bind fun e he => .pure he
  | number n =>
    have hkind : (c.token x.index).kind = .number := hword.kind.trans n.isNumber
    rw [operandFrom, hkind]
    refine hends.asyncOperand?_yields g _ _ _ ?_
    dsimp only
    rw [if_neg (show ¬ c.names.allows .number = true from Bool.false_ne_true), atom, hkind]
    exact (n.numberLiteral_yields hword).bind fun e he => .pure he

/-- What a value begins with is all of it. -/
theorem Value.operand_yields {v : Value rules} (hnames : c.names = rules)
    (hword : (c.token x.index).IsWord v.word)
    (harguments : x.inInitializer = true → v.isArguments = false)
    (hends : EndsValue mode (c.token (x.index + 1))) (g : Rules) :
    Yields c x (operand g mode) (fun r => r.1.bare = v.tree) (x.step 1) := by
  rintro s rfl
  rw [operand_run]
  exact v.operandFrom_yields hnames hword harguments hends g _
    (s := ((s.looked 0).looked 1).looked 2) rfl

/-- A value is read up to a token that ends it. -/
theorem Value.expr_yields {v : Value rules} (hnames : c.names = rules)
    (hword : (c.token x.index).IsWord v.word)
    (harguments : x.inInitializer = true → v.isArguments = false)
    (hends : EndsValue mode (c.token (x.index + 1))) (n : Nat) :
    Yields c x ((Rules.within (n + 2)).expr mode) (fun r => r.1.bare = v.tree) (x.step 1) := by
  show Yields c x (expression (.within (n + 1)) mode) _ _
  refine (v.operand_yields hnames hword harguments hends _).bind fun r hr => ?_
  exact (EndsValue.climb_yields hends _ r.1 r.2 n).mono fun r' hr' => hr' ▸ hr

theorem Value.whole_yields {v : Value rules} (hnames : c.names = rules)
    (hword : (c.token x.index).IsWord v.word)
    (harguments : x.inInitializer = true → v.isArguments = false) {stops : List TokenKind}
    (hends : EndsValue (.whole stops) (c.token (x.index + 1))) (n : Nat) :
    Yields c x ((Rules.within (n + 2)).whole stops) (fun e => e.bare = v.tree) (x.step 1) :=
  (v.expr_yields hnames hword harguments hends n).bind fun _ hr => .pure hr

/-! ### Parameters -/

/-- A value behind an equals sign is read, where there is one. -/
theorem initial_yields {α : Type} {Q : α → Prop} {y : Spot} {initial : Option (Value rules)}
    (hnames : c.names = rules) (hwords : c.HasWords x.index (initialWords initial))
    (houtside : x.inInitializer = false) {stops : List TokenKind}
    (hends : EndsValue (.whole stops) (c.token (x.index + (initialWords initial).length)))
    (hequals : (c.token (x.index + (initialWords initial).length)).kind ≠ .punctuator .equals)
    (n : Nat) {f : Option Expr → Parser α}
    (hf : ∀ e, Expr.bareOption e = initial.map Value.tree →
      Yields c (x.step (initialWords initial).length) (f e) Q y) :
    Yields c x
      (do if ← accept (.punctuator .equals) then
            let value ← some <$> (Rules.within (n + 2)).whole stops
            f value
          else
            let value ← pure none
            f value) Q y := by
  cases initial with
  | none => exact .acceptNot hequals (hf none rfl)
  | some v =>
    have hread : Yields c (x.step 1) ((Rules.within (n + 2)).whole stops)
        (fun e => e.bare = v.tree) (x.step 2) :=
      v.whole_yields (x := x.step 1) hnames hwords.2.1 (Spot.outside houtside) hends n
    refine .accept hwords.1.kind ?_
    rw [if_pos rfl]
    refine Yields.bind (P := fun e => Expr.bareOption e = some v.tree) (.map (hread.mono ?_)) hf
    intro e he
    rw [Expr.bareOption, he]

namespace Parameter

/-- A parameter does not begin with what ends the list. -/
theorem exists_words (p : Parameter rules) : ∃ w ws, p.words = w :: ws
    ∧ w.kind ≠ .punctuator .parenthesisClose := by
  obtain ⟨rest, n, initial⟩ := p
  cases rest with
  | true => exact ⟨_, _, rfl, by decide⟩
  | false => exact ⟨_, _, rfl, n.kind_ne_punctuator _⟩

/-- What ends a parameter ends its default value. -/
theorem ends_of_mem {t : Token} (h : t.kind ∈ argumentStops) :
    EndsValue (.whole argumentStops) t ∧ t.kind ≠ .punctuator .equals := by
  simp only [argumentStops, List.mem_cons, List.not_mem_nil, or_false] at h
  obtain h | h := h
  all_goals exact ⟨.closing (by rw [h]; rfl) (by rw [h]; rfl), by rw [h]; decide⟩

/-- A parameter is read up to a comma or the closing parenthesis. -/
theorem yields (p : Parameter rules) (hnames : c.names = rules)
    (hwords : c.HasWords x.index p.words) (houtside : x.inInitializer = false)
    (hends : (c.token (x.index + p.words.length)).kind ∈ argumentStops) (n : Nat) :
    Yields c x (spanned (parameter (.within (n + 2)))) (fun q => q.bare = p.tree)
      (x.step p.words.length) := by
  obtain ⟨hrest, hname, hinitial⟩ := Context.hasWords_append.1 hwords
  have hlength : p.words.length = (optional p.rest (sign (.punctuator .dotDotDot))).length
      + (1 + (initialWords p.initial).length) := by
    rw [words, List.length_append, List.length_cons, Nat.add_comm 1]
  rw [hlength] at hends ⊢
  rw [← Nat.add_assoc, ← Nat.add_assoc] at hends
  obtain ⟨hvalue, hequals⟩ := ends_of_mem hends
  rw [← Spot.step_step, parameter]
  refine .spanned (accept_optional p.rest hrest ?_ ?_)
  · intro hmissing
    rw [hmissing] at hname
    exact hname.kind ▸ p.name.kind_ne_punctuator _
  refine (p.name.identifier_yields (x := x.step _) hnames hname (Spot.outside houtside)).bind
    fun i hi => ?_
  rw [← Spot.step_step]
  refine initial_yields (x := (x.step _).step 1) hnames hinitial houtside hvalue hequals n
    fun e he => .pure fun span => ?_
  rw [Param.bare, hi, he]
  rfl

/-- Parameters are read through the closing parenthesis. -/
theorem separated_yields (ps : List (Parameter rules)) (hnames : c.names = rules)
    (hwords : c.HasWords x.index (listWords ps ++ [sign (.punctuator .parenthesisClose)]))
    (houtside : x.inInitializer = false) {fuel : Nat} (hfuel : ps.length < fuel) (n : Nat) :
    Yields c x
      (separated (.punctuator .comma) (.punctuator .parenthesisClose)
        (parameter (.within (n + 2))) fuel)
      (fun found => Param.bareList found = ps.map tree) (x.step ((listWords ps).length + 1)) := by
  induction ps generalizing x fuel with
  | nil =>
    obtain ⟨fuel, rfl⟩ := Nat.exists_eq_add_of_lt hfuel
    rw [separated]
    exact .accept hwords.1.kind (.pure rfl)
  | cons p ps ih =>
    obtain ⟨fuel, rfl⟩ := Nat.exists_eq_add_of_lt hfuel
    obtain ⟨w, ws, hcons, hfirst⟩ := p.exists_words
    have hbegins (hp : c.HasWords x.index p.words) :
        (c.token x.index).kind ≠ .punctuator .parenthesisClose := by
      rw [hcons] at hp
      rw [hp.1.kind]
      exact hfirst
    rw [separated]
    -- Behind the last parameter stands the parenthesis, behind each other one a comma.
    cases ps with
    | nil =>
      obtain ⟨hp, hclose⟩ := Context.hasWords_append.1 hwords
      have hkind : (c.token (x.index + p.words.length)).kind = .punctuator .parenthesisClose :=
        hclose.1.kind
      refine .acceptNot (hbegins hp) ?_
      refine (p.yields hnames hp houtside (by rw [hkind]; decide) n).bind fun first hread => ?_
      refine .acceptNot (x := x.step p.words.length) (by rw [Spot.step_index, hkind]; decide) ?_
      refine .discard (.require hkind (.pure ?_))
      rw [Param.bareList, hread]
      rfl
    | cons q rest =>
      rw [listWords, List.append_assoc] at hwords
      obtain ⟨hp, hcomma⟩ := Context.hasWords_append.1 hwords
      have hkind : (c.token (x.index + p.words.length)).kind = .punctuator .comma := hcomma.1.kind
      refine .acceptNot (hbegins hp) ?_
      refine (p.yields hnames hp houtside (by rw [hkind]; decide) n).bind fun first hread => ?_
      refine .accept (x := x.step p.words.length) hkind ?_
      have hlength : (listWords (p :: q :: rest)).length + 1
          = p.words.length + (1 + ((listWords (q :: rest)).length + 1)) := by
        rw [listWords, List.length_append, List.length_cons]
        omega
      rw [if_pos rfl, hlength, ← Spot.step_step, ← Spot.step_step]
      refine (ih (x := (x.step p.words.length).step 1) hcomma.2 houtside ?_).bind
        fun found hfound => .pure ?_
      · simp only [List.length_cons]
        omega
      · rw [Param.bareList, hread, hfound]
        rfl

end Parameter

/-! ### Functions -/

theorem emptyBody_yields (hwords : c.HasWords x.index
      [sign (.punctuator .braceOpen), sign (.punctuator .braceClose)]) (n : Nat) :
    Yields c x (blockBody (.within (n + 1))) (· = []) (x.step 2) := by
  obtain ⟨hopen, hclose, -⟩ := hwords
  rw [blockBody]
  refine .discard (.require hopen.kind ?_)
  refine Yields.bind (P := (· = [])) (y := x.step 1) ?_ fun body hbody => ?_
  · rw [Rules.within_budget, statements]
    refine .peek ?_
    have hstop : (c.token (x.step 1).index).kind = .punctuator .braceClose := hclose.kind
    rw [if_pos (by rw [hstop]; rfl)]
    exact .pure rfl
  · exact .discard (.require (x := x.step 1) hclose.kind (.pure hbody))

namespace Method

variable (m : Method)

/-- The parameters and the body are read with the words that may be names in the method. -/
theorem functionRest_yields (hnames : c.names = .script)
    (hwords : c.HasWords x.index (functionWords m.parameters)) (houtside : x.inInitializer = false)
    {n : Nat} (hroom : m.parameters.length < n + 2) :
    Yields c x (functionRest (.within (n + 2)) m.modifier.isAsync m.modifier.isGenerator)
      (fun func => func.bare = m.function) (x.step (functionWords m.parameters).length) := by
  obtain ⟨hopen, hrest⟩ := hwords.withNames m.modifier.names
  have hlength : (functionWords m.parameters).length
      = 1 + (((Parameter.listWords m.parameters).length + 1) + 2) := by
    simp only [functionWords, List.length_cons, List.length_append, List.length_nil]
    omega
  rw [← List.singleton_append, ← List.append_assoc] at hrest
  obtain ⟨hparameters, hbody⟩ := Context.hasWords_append.1 hrest
  rw [hlength, ← Spot.step_step, ← Spot.step_step, functionRest]
  refine .withNames (.spanned ?_)
  rw [hnames]
  refine Yields.bind (P := fun ps => Param.bareList ps = m.parameters.map Parameter.tree)
    (y := (x.step 1).step ((Parameter.listWords m.parameters).length + 1)) ?_ fun ps hps => ?_
  · rw [parameters]
    refine .discard (.require hopen.kind ?_)
    exact Parameter.separated_yields (x := x.step 1) m.parameters rfl hparameters houtside hroom n
  · rw [List.length_append, List.length_singleton] at hbody
    refine (emptyBody_yields (x := (x.step 1).step _) hbody (n + 1)).bind fun body hbody => ?_
    refine .pure fun span => ?_
    rw [Func.bare, hps, hbody, FuncBody.bare, Stmt.bareList]
    rfl

/-- The parameters that were read have the rest marks of the printed ones. -/
theorem rests_of_bare {func : Func} (h : func.bare = m.function) :
    func.params.map Param.rest = m.parameters.map Parameter.rest := by
  obtain ⟨span, arrow, async, generator, params, body⟩ := func
  rw [Func.bare, function, Func.mk.injEq] at h
  have hparams := congrArg (List.map Param.rest) h.2.2.2.2.1
  rw [Param.bareList_eq_map, List.map_map, List.map_map] at hparams
  calc params.map Param.rest
    _ = params.map (Param.rest ∘ Param.bare) :=
      List.map_congr_left fun p _ => by
        cases p
        rfl
    _ = m.parameters.map (Param.rest ∘ Parameter.tree) := hparams
    _ = m.parameters.map Parameter.rest := rfl

/-- Getters and setters have their modifier. -/
theorem modifier_of_kind : (m.kind = .get → m.modifier = .get)
    ∧ (m.kind = .set → m.modifier = .set) := by
  rw [kind]
  split
  · exact ⟨nofun, nofun⟩
  · cases m.modifier <;> exact ⟨by simp [Modifier.kind], by simp [Modifier.kind]⟩

/-- The parameters are those that a method of this kind may have. -/
theorem methodRest_yields (hnames : c.names = .script)
    (hwords : c.HasWords x.index (functionWords m.parameters)) (houtside : x.inInitializer = false)
    {n : Nat} (hroom : m.parameters.length < n + 2) :
    Yields c x (methodRest (.within (n + 2)) m.kind m.modifier.isAsync m.modifier.isGenerator)
      (fun func => func.bare = m.function) (x.step (functionWords m.parameters).length) := by
  refine (m.functionRest_yields hnames hwords houtside hroom).bind fun func hfunc => ?_
  have htakes := m.takes_parameters
  rw [← m.rests_of_bare hfunc] at htakes
  obtain ⟨hget, hset⟩ := m.modifier_of_kind
  -- Two of the cases are errors, which the rest marks of the parameters exclude.
  split
  next => exact .pure hfunc
  next hkind hsome =>
    rw [hget hkind, Modifier.takes, List.isEmpty_iff, List.map_eq_nil_iff] at htakes
    exact absurd htakes hsome
  next p hkind hone =>
    rw [hset hkind, Modifier.takes, hone] at htakes
    have hrest : p.rest = false := by simpa using htakes
    rw [hrest]
    exact .pure hfunc
  next hkind hother =>
    rw [hset hkind, Modifier.takes, decide_eq_true_eq, List.map_eq_singleton_iff] at htakes
    obtain ⟨p, hone, -⟩ := htakes
    exact absurd hone (hother p)
  next => exact .pure hfunc

end Method

end ClassText

end EcmaScript
