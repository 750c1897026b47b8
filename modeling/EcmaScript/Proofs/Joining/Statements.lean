import EcmaScript.Proofs.Joining.Standing

namespace EcmaScript

open EcmaScript.Parser

/-!
# Statements stand when the text goes on

A statement that comes to the end of the first text has a semicolon inserted there, or needs none.
In the second text it takes the semicolon along, or leaves it to the next statement.

* `StandsUpTo.expressionEnd`, `StandsUpTo.declarators`, … — what may end with an inserted semicolon;
* `StandsUpTo.statement` — each sort of statement stands;
* `Rules.within_standing` — so do the rules of the grammar, whatever their budget is;
* `Grammar.statements_goesOn` — the statements of the first text are those with which the second one
  begins.
-/

variable {n : Nat} {c c' : Context} {s t u : State} {α β : Type}

namespace State.Past

theorem refl (hs : s.position = n) : s.Past n s := ⟨.inl hs, rfl, rfl⟩

/-- The semicolon has been read. -/
theorem advanced (hs : s.position = n) : s.Past n s.advanced :=
  ⟨.inr (congrArg (· + 1) hs), rfl, rfl⟩

end State.Past

namespace StandsUpTo

open Grammar

variable {g : Rules}

/-! ### Semicolons that are inserted -/

theorem expressionEnd (hg : g.Standing) : StandsUpTo (SamePart Eq) (expressionEnd g) := by
  refine (hg.expr (.statement [.punctuator .semicolon]) (by decide)).bind
    (fun found => ofStands ?_) ?_
  · exact .ite (fun _ => .pure _) fun _ => (Stands.drop (by decide)).bind fun _ => .pure _
  rintro n c c' ⟨e, b⟩ ⟨e', b'⟩ t t' a u hc hn ⟨hvalue, rfl⟩ hrun
  obtain rfl : e' = e := hvalue
  dsimp only at hrun ⊢
  cases b with
  | false =>
    -- There is no semicolon at the end of the first text.
    rw [if_neg Bool.false_ne_true] at hrun
    obtain ⟨hkind, -⟩ := require_bind_ok_iff.1 (discard_bind _ _ ▸ hrun)
    rw [hn, hc.eof] at hkind
    cases hkind
  | true =>
    obtain ⟨rfl, rfl⟩ := pure_ok_iff.1 hrun
    refine ⟨hn, ?_⟩
    cases b' with
    | true => exact ⟨e', t', rfl, rfl, .refl hn⟩
    | false =>
      refine ⟨e', t'.advanced, ?_, rfl, .advanced hn⟩
      rw [if_neg Bool.false_ne_true, discard_bind, require_bind_ok_iff, hn]
      exact ⟨hc.semicolon, rfl⟩

theorem declarator (hg : g.Standing) : StandsUpTo SameValue (declarator g) := by
  have name : Stands identifier := .ofBeforeEnd .identifier (.of_reads identifier_reads)
  refine after name fun name => after (.accept (by decide)) fun equals =>
    ite (fun _ => ?_) fun _ => ?_
  · have heof : .eof ∉
        (ExprMode.assignment [.punctuator .semicolon, .punctuator .comma]).stops := by
      decide
    exact mapValue (hg.expr _ heof) fun e => Declarator.mk name (some e)
  · exact ofStands (.pure _)

end StandsUpTo

/-- What stands behind the first name of a declaration. -/
def Grammar.declaratorsFrom (g : Rules) (fuel : Nat) (found : Declarator × Bool) :
    Parser (List Declarator) := do
  if ← accept (.punctuator .semicolon) then return [found.1]
  else if found.2 then return [found.1]
  else if Grammar.endsDeclaration (← peek) then return [found.1]
  else
    discard <| require (.punctuator .comma)
    let rest ← Grammar.declarators g fuel
    return found.1 :: rest

namespace StandsUpTo

open Grammar

variable {g : Rules}

/-- At the end of the first text there is no other name, and the semicolon belongs to the
declaration. -/
theorem declaratorsFrom_atEnd (hc : c.GoesOn n c') (hs : s.position = n) {fuel : Nat}
    {found found' : Declarator × Bool} {ds : List Declarator} (hvalue : found'.1 = found.1)
    (hrun : declaratorsFrom g fuel found c s = .ok ds t) : t.position = n
      ∧ ∃ ds' t', declaratorsFrom g fuel found' c' s = .ok ds' t' ∧ SamePart Eq n ds t ds' t' := by
  subst hs
  have hends : ds = [found.1] ∧ s.SamePlace t := by
    rw [declaratorsFrom, accept_bind, if_neg (by rw [hc.eof]; decide)] at hrun
    simp only [Bool.false_eq_true, if_false, peek_bind, ite_run] at hrun
    rw [if_pos (by simp [endsDeclaration, hc.eof] : endsDeclaration _ = true)] at hrun
    have hplace := (State.SamePlace.refl s).looked 0
    split at hrun
    · obtain ⟨rfl, rfl⟩ := pure_ok_iff.1 hrun
      exact ⟨rfl, hplace⟩
    · obtain ⟨rfl, rfl⟩ := pure_ok_iff.1 hrun
      exact ⟨rfl, hplace.looked 0⟩
  obtain ⟨rfl, ht⟩ := hends
  refine ⟨ht.position, [found'.1], s.advanced, ?_, by rw [hvalue], ?_⟩
  · rw [declaratorsFrom, accept_bind, if_pos hc.semicolon]
    rfl
  · exact ⟨.inr rfl, ht.scopes.symm, ht.inInitializer.symm⟩

theorem declaratorsFrom {fuel : Nat} (hrest : StandsUpTo (SamePart Eq) (declarators g fuel))
    (found : Declarator × Bool) : StandsUpTo (SamePart Eq) (declaratorsFrom g fuel found) := by
  intro n c c' s hc hs
  rcases Nat.lt_or_eq_of_le hs with hlt | heq
  · have one : StandsUpTo (SamePart Eq) (Pure.pure [found.1] : Parser _) := ofStands (.pure _)
    rw [Grammar.declaratorsFrom, accept_bind, accept_bind, hc.token hlt]
    split
    · exact one hc (s := s.advanced) (Nat.succ_le_of_lt hlt)
    simp only [Bool.false_eq_true, if_false, ite_run, peek_bind]
    split
    · exact one hc (s := s.looked 0) hs
    rw [State.looked_position, hc.token hlt]
    split
    · exact one hc (s := (s.looked 0).looked 0) hs
    have others : StandsUpTo (SamePart Eq) (do
        Functor.discard <| Parser.require (.punctuator .comma)
        let rest ← Grammar.declarators g fuel
        return found.1 :: rest) :=
      after (.drop (by decide)) fun _ => mapPart hrest fun _ _ => congrArg (found.1 :: ·)
    exact others hc (s := (s.looked 0).looked 0) hs
  · intro ds t hrun
    obtain ⟨ht, hrun'⟩ := declaratorsFrom_atEnd hc heq rfl hrun
    exact ⟨Nat.le_of_eq ht, .inr ⟨ht, hrun'⟩⟩

theorem declarators (hg : g.Standing) (fuel : Nat) :
    StandsUpTo (SamePart Eq) (declarators g fuel) := by
  induction fuel with
  | zero => exact fun _ _ _ _ _ _ _ _ hrun => by cases hrun
  | succ fuel ih =>
    refine (declarator hg).bind (fun found => declaratorsFrom ih found) ?_
    rintro n c c' a a' t t' ds u hc hn ⟨hvalue, rfl⟩ hrun
    exact declaratorsFrom_atEnd hc hn hvalue hrun

/-! ### Sorts of statements -/

/-- A statement gets its place, which does not matter where the runs differ. -/
theorem statementOf {p : Parser (Span → Stmt)}
    (hreads : ∀ {c : Context} {s t : State} {a : Stmt},
      Parser.spanned p c s = .ok a t → Reads c.token s.position t.position)
    (hp : StandsUpTo (SamePart fun make make' => ∀ i j, (make' j).bare = (make i).bare) p) :
    StandsUpTo SameStmt (Parser.spanned p) :=
  spanned (Advances.of_spanned hreads).moves hp
    fun _ _ _ _ _ _ _ _ _ _ _ ⟨hmake, hpast⟩ => ⟨hmake _ _, hpast⟩

theorem variableDeclaration (hg : g.Standing) :
    StandsUpTo SameStmt (variableDeclaration g) := by
  refine statementOf (variableDeclaration_reads hg.enclosed.reading) ?_
  refine after (.ofBeforeEnd .declarationKind (.of_reads declarationKind_reads)) fun kind => ?_
  exact mapPart (declarators hg _) fun ds ds' h i j => by rw [h, Stmt.bare, Stmt.bare]

/-- A statement that ends with an expression. -/
theorem valueOf (hg : g.Standing) {make : Span → Expr → Stmt}
    (hmake : ∀ i j e, (make i e).bare = (make j e).bare) :
    StandsUpTo (SamePart fun f f' => ∀ i j : Span, (f' j).bare = Stmt.bare (f i)) (do
      let value ← Grammar.expressionEnd g
      return fun span => make span value) :=
  mapPart (expressionEnd hg) fun _ _ h i j => h ▸ hmake j i _

theorem expressionStatement (hg : g.Standing) : StandsUpTo SameStmt (expressionStatement g) := by
  refine statementOf (expressionStatement_reads hg.enclosed.reading) ?_
  exact valueOf hg fun _ _ _ => by rw [Stmt.bare, Stmt.bare]

theorem condition (hg : g.Enclosed) : Stands (condition g) :=
  .ofBeforeEnd (.condition hg) (.of_reads (condition_reads hg.reading))

theorem ifStatement (hg : g.Standing) : StandsUpTo SameStmt (ifStatement g) := by
  refine statementOf (ifStatement_reads hg.enclosed.reading) ?_
  refine after (.drop (by decide)) fun _ => after (condition hg.enclosed) fun test => ?_
  have alternate : StandsUpTo (SamePart fun a a' => Stmt.bareOption a' = Stmt.bareOption a)
      (some <$> g.stmt) := by
    rw [map_eq_bind]
    exact mapPart hg.stmt fun a a' h => congrArg some h
  refine hg.stmt.bind (fun consequent => after (.accept (by decide)) fun more =>
    ite (fun _ => ?_) fun _ => ?_) ?_
  · exact mapPart alternate fun a a' h i j => by rw [Stmt.bare, Stmt.bare, h]
  · exact ofStands ((Stands.pure _).bind fun _ => .pure _)
  -- Behind the end of the first text there is no other branch.
  rintro n c c' a a' t t' make u hc hn ⟨hbare, hpast⟩ hrun
  have helse : (c'.token t'.position).kind ≠ .keyword .kElse := by
    rcases hpast.position with hposition | hposition <;> rw [hposition]
    · rw [hc.semicolon]
      decide
    · exact hc.ne_else
  rw [accept_bind, if_neg (by rw [hn, hc.eof]; decide), if_neg Bool.false_ne_true,
    pure_bind] at hrun
  obtain ⟨rfl, rfl⟩ := pure_ok_iff.1 hrun
  refine ⟨hn, fun span => .ifElse span test a' none, t'.looked 0, ?_, fun i j => ?_, ?_⟩
  · rw [accept_bind, if_neg helse]
    rfl
  · rw [Stmt.bare, Stmt.bare, hbare]
  · exact ⟨hpast.position, hpast.scopes, hpast.inInitializer⟩

theorem returnStatement (hg : g.Standing) : StandsUpTo SameStmt (returnStatement g) := by
  refine statementOf (returnStatement_reads hg.enclosed.reading) ?_
  refine after (.drop (by decide)) fun _ => ?_
  have nothing : Stands (Pure.pure fun span => Stmt.returnStmt span none : Parser _) := .pure _
  intro n c c' s hc hs
  rw [peek_bind, peek_bind]
  rcases Nat.lt_or_eq_of_le hs with hlt | rfl
  · rw [hc.token hlt, ite_run, ite_run]
    split
    · exact ofStands nothing hc (s := s.looked 0) hs
    rw [accept_bind, accept_bind, State.looked_position, hc.token hlt]
    split
    · exact ofStands nothing hc (s := (s.looked 0).advanced) (Nat.succ_le_of_lt hlt)
    · have returned : StandsUpTo (SamePart fun f f' => ∀ i j : Span, (f' j).bare = Stmt.bare (f i))
          (do
            let value ← Grammar.expressionEnd g
            return fun span => Stmt.returnStmt span (some value)) :=
        valueOf hg fun _ _ _ => by rw [Stmt.bare, Stmt.bare]
      exact returned hc (s := (s.looked 0).looked 0) hs
  · -- Nothing is returned: in the second text because the semicolon is on the next line.
    have hallows : allowsInsertion (c.token s.position) = true := by
      simp [allowsInsertion, hc.eof]
    have hallows' : allowsInsertion (c'.token s.position) = true := by
      simp [allowsInsertion, hc.newlineBefore]
    rw [if_pos hallows, if_pos hallows']
    exact ofStands nothing hc (s := s.looked 0) hs

theorem throwStatement (hg : g.Standing) : StandsUpTo SameStmt (throwStatement g) := by
  refine statementOf (throwStatement_reads hg.enclosed.reading) ?_
  refine after (.require (by decide)) fun start => ?_
  intro n c c' s hc hs make t hrun
  rw [peek_bind] at hrun ⊢
  -- What is thrown stands before the end.
  have hlt : s.position < n := by
    refine Nat.lt_of_le_of_ne hs fun hn => ?_
    rw [ite_run] at hrun
    split at hrun
    · exact (fail_ok_iff.1 hrun).elim
    · obtain ⟨_, u, hvalue, -⟩ := bind_ok_iff.1 hrun
      exact (expressionEnd_reads hg.enclosed.reading hvalue).kind_ne_eof (hn ▸ hc.eof)
  rw [hc.token hlt]
  refine ite (fun _ => ofStands (.fail _)) (fun _ => ?_) hc (s := s.looked 0) hs hrun
  exact valueOf hg fun _ _ _ => by rw [Stmt.bare, Stmt.bare]

theorem whileStatement (hg : g.Standing) : StandsUpTo SameStmt (whileStatement g) := by
  refine statementOf (whileStatement_reads hg.enclosed.reading) ?_
  refine after (.drop (by decide)) fun _ => after (condition hg.enclosed) fun test => ?_
  exact mapPart hg.stmt fun b b' h i j => by rw [Stmt.bare, Stmt.bare, h]

theorem functionDeclaration (hg : g.Enclosed) : Stands (functionDeclaration g) := by
  refine .spannedOf (functionDeclaration_reads hg.reading) ?_
  refine (Stands.accept (by decide)).bind fun async =>
    (Stands.require (by decide)).bind fun start => ?_
  refine (Stands.accept (by decide)).bind fun generator => ?_
  refine (Stands.withNames _ .definitionName?).bind fun name => ?_
  cases name with
  | none => exact .fail _
  | some name => exact (Stands.functionRest hg _ _).bind fun _ => .pure _

theorem classDeclaration (hg : g.Standing) : Stands (classDeclaration g) := by
  refine .spannedOf (classDeclaration_reads hg.enclosed.reading) ?_
  refine (Stands.require (by decide)).bind fun start => .inClass ?_
  refine Stands.definitionName?.bind fun name => ?_
  cases name with
  | none => exact .fail _
  | some name => exact (Stands.classTail hg).bind fun _ => .pure _

/-- What depends on the first two tokens, if the end and the semicolon mean the same there. -/
theorem firstTwo {f : Token → Token → Parser α} {rel : EndRel α}
    (hadvances : Advances (look 0 >>= fun first => look 1 >>= fun second => f first second))
    (hf : ∀ first second, StandsUpTo rel (f first second))
    (hend : ∀ first t t' : Token, t.kind = .eof → t'.kind = .punctuator .semicolon →
      f first t' = f first t) :
    StandsUpTo rel (look 0 >>= fun first => look 1 >>= fun second => f first second) := by
  refine before hadvances fun n c c' s hc hs => ?_
  rw [look_bind, look_bind, look_bind, look_bind, Nat.add_zero, hc.token hs,
    hc.second (i := (s.looked 0).position) hs (hend _)]
  exact hf _ _ hc (s := (s.looked 0).looked 1) (Nat.le_of_lt hs)

theorem statement (hg : g.Standing) : StandsUpTo SameStmt (statement g) := by
  refine firstTwo (.of_reads (statement_reads hg.enclosed.reading)) (fun first second => ?_)
    fun first t t' ht ht' => ?_
  · split
    · exact ofStands (.ofBeforeEnd (.block hg.enclosed)
        (.of_reads (block_reads hg.enclosed.reading)))
    · exact ofStands (classDeclaration hg)
    · exact variableDeclaration hg
    · exact variableDeclaration hg
    · refine after (.ofAnywhere .nameRules) fun rules => ?_
      exact ite (fun _ => variableDeclaration hg) fun _ => expressionStatement hg
    · refine ite (fun _ => ofStands (functionDeclaration hg.enclosed)) fun _ => ?_
      exact expressionStatement hg
    · exact ofStands (functionDeclaration hg.enclosed)
    · exact ifStatement hg
    · exact returnStatement hg
    · exact throwStatement hg
    · exact whileStatement hg
    · exact ofStands (.ofBeforeEnd .emptyStatement (.of_reads emptyStatement_reads))
    · exact expressionStatement hg
  · rw [ht, ht']
    rfl

end StandsUpTo

/-- **Every budget.** Whatever the budget is, what the rules of the grammar read stands when the
text goes on. -/
theorem Rules.within_standing (n : Nat) : (Rules.within n).Standing := by
  induction n with
  | zero =>
    exact ⟨within_enclosed 0, fun _ _ _ _ _ _ _ _ hrun => (by cases hrun),
      fun _ _ _ _ _ _ _ _ _ _ hrun => (by cases hrun)⟩
  | succ n ih => exact ⟨within_enclosed (n + 1), .statement ih, fun _ heof => .expression ih heof⟩

/-! ### A whole text -/

namespace Grammar

variable {g : Rules} {stop : TokenKind} {fuel : Nat} {first : Stmt} {rest body : List Stmt}

/-- One statement, and then others. -/
theorem statements_cons (hstop : (c.token s.position).kind ≠ stop)
    (heof : (c.token s.position).kind ≠ .eof) (hfirst : g.stmt c (s.looked 0) = .ok first t)
    (hrest : statements g stop fuel c t = .ok rest u) :
    statements g stop (fuel + 1) c s = .ok (first :: rest) u := by
  rw [statements, peek_bind, if_neg (by simp [hstop, heof])]
  exact bind_ok_iff.2 ⟨first, t, hfirst, bind_ok_iff.2 ⟨rest, u, hrest, rfl⟩⟩

/-- Each statement reads a token. -/
theorem length_statements (hg : g.Reading) (hrun : statements g stop fuel c s = .ok body t) :
    s.position + body.length ≤ t.position := by
  induction fuel generalizing s body with
  | zero => cases hrun
  | succ fuel ih =>
    obtain ⟨-, rfl, ht⟩ | ⟨first, u, rest, hfirst, hrest, rfl⟩ := statements_ok hrun
    · exact Nat.le_of_eq ht.position.symm
    · have hlt := (hg.stmt hfirst).lt
      have := ih hrest
      rw [State.looked_position] at hlt
      rw [List.length_cons]
      omega

/-- At the end of the text there are no statements. -/
theorem statements_atEnd (hg : g.Reading) (heof : (c.token s.position).kind = .eof)
    (hrun : statements g stop fuel c s = .ok body t) : body = [] ∧ s.SamePlace t := by
  cases fuel with
  | zero => cases hrun
  | succ fuel =>
    obtain ⟨-, rfl, hsame⟩ | ⟨_, _, _, hfirst, -, -⟩ := statements_ok hrun
    · exact ⟨rfl, hsame⟩
    · exact absurd heof (hg.stmt hfirst).kind_ne_eof

/-- As many steps as there are statements suffice, and one for the end. -/
theorem statements_fuel (hrun : statements g stop fuel c s = .ok body t) {fuel' : Nat}
    (hfuel : body.length < fuel') : statements g stop fuel' c s = .ok body t := by
  induction fuel generalizing s body fuel' with
  | zero => cases hrun
  | succ fuel ih =>
    obtain ⟨k, rfl⟩ := Nat.exists_eq_succ_of_ne_zero (Nat.ne_zero_of_lt hfuel)
    rw [statements, peek_bind, ite_run] at hrun ⊢
    split at hrun
    next hend =>
      rw [if_pos hend]
      exact hrun
    next hend =>
      rw [if_neg hend]
      obtain ⟨first, u, hfirst, hrest⟩ := bind_ok_iff.1 hrun
      obtain ⟨rest, v, hmore, hpure⟩ := bind_ok_iff.1 hrest
      obtain ⟨rfl, rfl⟩ := pure_ok_iff.1 hpure
      refine bind_ok_iff.2 ⟨first, u, hfirst, bind_ok_iff.2 ⟨rest, v, ih hmore ?_, rfl⟩⟩
      exact Nat.lt_of_succ_lt_succ hfuel

/-- The second text begins with the statements of the first one, and goes on behind them. -/
theorem statements_goesOn (hg : g.Standing) (hc : c.GoesOn n c') (hs : s.position ≤ n)
    (hrun : statements g .eof fuel c s = .ok body t) (ht : t.position = n) :
    ∃ body' t', Stmt.bareList body' = Stmt.bareList body ∧ t.Past n t'
      ∧ ∀ {k : Nat} {rest : List Stmt} {u : State}, statements g .eof k c' t' = .ok rest u →
        statements g .eof (body.length + k) c' s = .ok (body' ++ rest) u := by
  induction fuel generalizing s body with
  | zero => cases hrun
  | succ fuel ih =>
    obtain ⟨-, rfl, hsame⟩ | ⟨first, u, rest, hfirst, hrest, rfl⟩ := statements_ok hrun
    · refine ⟨[], s, rfl, ⟨.inl (hsame.position.symm.trans ht), hsame.scopes.symm,
        hsame.inInitializer.symm⟩, fun {k rest u} hrest => ?_⟩
      rw [List.length_nil, Nat.zero_add]
      exact hrest
    have hne := (hg.enclosed.reading.stmt hfirst).kind_ne_eof
    have hlt : s.position < n := Nat.lt_of_le_of_ne hs fun heq => hne (heq ▸ hc.eof)
    have hne' : (c'.token s.position).kind ≠ .eof := by
      rw [hc.token hlt]
      exact hne
    have hlength {k : Nat} : (first :: rest).length + k = (rest.length + k) + 1 := by
      rw [List.length_cons]
      omega
    obtain ⟨hu, hfirst' | ⟨hn, first', v, hfirst', hbare, hpast⟩⟩ :=
      hg.stmt hc (s := s.looked 0) hs hfirst
    · obtain ⟨rest', t', hbare, hpast, hgoes⟩ := ih hu hrest
      refine ⟨first :: rest', t', by rw [Stmt.bareList, Stmt.bareList, hbare], hpast,
        fun {k more w} hmore => ?_⟩
      rw [hlength]
      exact statements_cons hne' hne' hfirst' (hgoes hmore)
    · -- The first text is at its end, so there are no other statements.
      obtain ⟨rfl, hsame⟩ := statements_atEnd hg.enclosed.reading (hn ▸ hc.eof) hrest
      refine ⟨[first'], v, by simp only [Stmt.bareList, hbare], ?_,
        fun {k more w} hmore => ?_⟩
      · exact ⟨hpast.position, hpast.scopes.trans hsame.scopes.symm,
          hpast.inInitializer.trans hsame.inInitializer.symm⟩
      · rw [hlength]
        exact statements_cons hne' hne' hfirst' (by simpa using hmore)

/-- A semicolon by itself is a statement. -/
theorem statements_semicolon {k : Nat}
    (hkind : (c.token s.position).kind = .punctuator .semicolon) :
    ∃ span t, t.position = s.position + 1 ∧ t.scopes = s.scopes
      ∧ t.inInitializer = s.inInitializer
      ∧ ∀ {fuel : Nat} {rest : List Stmt} {u : State},
        statements (.within (k + 1)) .eof fuel c t = .ok rest u →
        statements (.within (k + 1)) .eof (fuel + 1) c s = .ok (.empty span :: rest) u := by
  have hne : (c.token s.position).kind ≠ .eof := by
    rw [hkind]
    decide
  have hempty : emptyStatement c (((s.looked 0).looked 0).looked 1) =
      .ok (.empty (spanSince c s.position (((s.looked 0).looked 0).looked 1).advanced))
        (((s.looked 0).looked 0).looked 1).advanced := by
    refine spanned_ok_iff.2 ⟨fun span => .empty span, ?_, rfl⟩
    rw [discard_bind, require_bind_ok_iff]
    exact ⟨hkind, rfl⟩
  have hstmt : (Rules.within (k + 1)).stmt c (s.looked 0) =
      emptyStatement c (((s.looked 0).looked 0).looked 1) := by
    show statement (.within k) c (s.looked 0) = _
    rw [statement, look_bind, look_bind, State.looked_position, Nat.add_zero, hkind]
  exact ⟨_, (((s.looked 0).looked 0).looked 1).advanced, rfl, rfl, rfl,
    statements_cons hne hne (hstmt.trans hempty)⟩

end Grammar

end EcmaScript
