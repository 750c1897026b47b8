import EcmaScript.Proofs.Grammar.Reading

namespace EcmaScript

open EcmaScript.Parser

/-!
# Progress

A rule that succeeds has read a token, and none behind the end of the text. So a loop goes on only
behind a token that it has read, and takes no more rounds than there are tokens left.

* `Context.Ahead` — one place is ahead of another, and the text does not end between them;
* `Progresses` — a parser that is further ahead whenever it succeeds;
* `Consumes`, `IsLoop` — rounds that go on only behind a token, and the loop of such rounds;
* `IsLoop.eq_of_lt` — more rounds than there are tokens left change nothing;
* `Grammar.statements_isLoop`, `Grammar.climb_isLoop`, … — the loops of the grammar.
-/

variable {α β ι : Type} {c : Context} {s t u : State} {i j k : Nat}

/-- The second place is ahead of the first one, but not behind the end of the text. -/
structure Context.Ahead (c : Context) (i j : Nat) : Prop where
  lt : i < j
  le_end : ∀ k, i ≤ k → (c.token k).kind = .eof → j ≤ k

namespace Context.Ahead

theorem of_balanced (hlt : i < j) (h : Balanced c.token i j) : c.Ahead i j := by
  refine ⟨hlt, fun k hk heof => ?_⟩
  by_contra hle
  exact (h.kind_ne k hk (Nat.lt_of_not_le hle)).2 heof

theorem of_reads (h : Reads c.token i j) : c.Ahead i j := of_balanced h.lt h.balanced

theorem trans (h : c.Ahead i j) (h' : c.Ahead j k) : c.Ahead i k :=
  ⟨Nat.lt_trans h.lt h'.lt, fun m hm heof => h'.le_end m (h.le_end m hm heof) heof⟩

/-- One token that is not the end of the text. -/
theorem single (h : (c.token i).kind ≠ .eof) : c.Ahead i (i + 1) := by
  refine ⟨Nat.lt_succ_self i, fun k hk heof => ?_⟩
  rcases Nat.lt_or_eq_of_le hk with hlt | rfl
  · exact hlt
  · exact absurd heof h

/-- Only from a place among the tokens is there a place ahead. -/
theorem lt_size (h : c.Ahead i j) : i < c.tokens.size ∧ j ≤ c.tokens.size := by
  have hend (k : Nat) (hk : c.tokens.size ≤ k) : (c.token k).kind = .eof := by
    rw [Context.token, Array.getD_eq_getD_getElem?, Array.getElem?_eq_none hk]
    rfl
  have hlt := h.lt
  by_cases hi : i < c.tokens.size
  · exact ⟨hi, h.le_end _ (Nat.le_of_lt hi) (hend _ (Nat.le_refl _))⟩
  · have := h.le_end i (Nat.le_refl i) (hend i (Nat.le_of_not_lt hi))
    omega

end Context.Ahead

/-- The parser is further ahead whenever it succeeds. -/
def Progresses (p : Parser α) : Prop :=
  ∀ ⦃c : Context⦄ ⦃s t : State⦄ ⦃a : α⦄, p c s = .ok a t → c.Ahead s.position t.position

theorem Progresses.of_reads {p : Parser α} (h : ∀ {c : Context} {s t : State} {a : α},
    p c s = .ok a t → Reads c.token s.position t.position) : Progresses p :=
  fun _ _ _ _ hrun => .of_reads (h hrun)

/-! ### Loops -/

/-- Of what comes behind it, a round of a loop needs only how that goes on further ahead. -/
def Consumes (round : (ι → Parser α) → ι → Parser α) : Prop :=
  ∀ ⦃rest rest' : ι → Parser α⦄ ⦃c : Context⦄ ⦃s : State⦄,
    (∀ x u, c.Ahead s.position u.position → rest x c u = rest' x c u) →
      ∀ x, round rest x c s = round rest' x c s

/-- The loop of such rounds, by their number. -/
structure IsLoop (round : (ι → Parser α) → ι → Parser α) (loop : Nat → ι → Parser α) : Prop where
  zero (x : ι) : loop 0 x = exhausted
  succ (n : Nat) (x : ι) : loop (n + 1) x = round (loop n) x
  consumes : Consumes round

/-- **A loop takes no more rounds than there are tokens left**, and one to come to its end. -/
theorem IsLoop.eq_of_lt {round : (ι → Parser α) → ι → Parser α} {loop : Nat → ι → Parser α}
    (h : IsLoop round loop) {n m : Nat} (hn : c.tokens.size - s.position < n) (hm : n ≤ m)
    (x : ι) : loop n x c s = loop m x c s := by
  -- By induction on the rounds: behind each one, fewer tokens are left.
  induction n generalizing m s x with
  | zero => omega
  | succ n ih =>
    obtain ⟨m, rfl⟩ := Nat.exists_eq_add_of_le' (Nat.lt_of_lt_of_le n.succ_pos hm)
    rw [h.succ, h.succ]
    refine h.consumes (fun y u hu => ?_) x
    have hsize := hu.lt_size
    have hlt := hu.lt
    exact ih (by omega) (by omega) y

/-- Two sequences with a common first part are alike if they are behind it. -/
theorem bind_congr_ok {p : Parser α} {f f' : α → Parser β}
    (h : ∀ a u, p c s = .ok a u → f a c u = f' a c u) : (p >>= f) c s = (p >>= f') c s := by
  rw [bind_apply, bind_apply]
  cases hp : p c s with
  | ok a u => exact h a u hp
  | error e u => rfl

/-- Two sequences with a common end are alike if their first parts are. -/
theorem bind_congr_left {p p' : Parser α} (f : α → Parser β) (h : p c s = p' c s) :
    (p >>= f) c s = (p' >>= f) c s := by
  rw [bind_apply, bind_apply, h]

namespace Grammar

variable {g : Rules}

/-! ### Rounds -/

/-- One more statement, if there is one. -/
def statementsRound (g : Rules) (stop : TokenKind) (rest : Unit → Parser (List Stmt)) (_ : Unit) :
    Parser (List Stmt) := do
  let t ← peek
  if t.kind = stop || t.kind = .eof then return []
  else
    let first ← g.stmt
    let rest ← rest ()
    return first :: rest

theorem statements_isLoop (hg : g.Reading) (stop : TokenKind) :
    IsLoop (statementsRound g stop) fun n _ => statements g stop n where
  zero _ := rfl
  succ _ _ := rfl
  consumes rest rest' c s hrest _ := by
    refine bind_congr_ok fun t u hlook => ?_
    obtain ⟨-, rfl⟩ := look_ok_iff.1 hlook
    rw [ite_run, ite_run]
    split
    · rfl
    · refine bind_congr_ok fun first u hfirst => bind_congr_left _ (hrest () u ?_)
      have hread := hg.stmt hfirst
      exact .of_reads hread

/-- One more member of a class, or its end. -/
def classItemsRound (g : Rules) (rest : Unit → Parser (List Member)) (_ : Unit) :
    Parser (List Member) := do
  if ← accept (.punctuator .braceClose) then return []
  else
    let first ← classItem? g
    let rest ← rest ()
    return first.toList ++ rest

theorem classItems_isLoop (hg : g.Reading) :
    IsLoop (classItemsRound g) fun n _ => classItems g n where
  zero _ := rfl
  succ _ _ := rfl
  consumes rest rest' c s hrest _ := by
    refine bind_congr_ok fun closed u hclosed => ?_
    rw [ite_run, ite_run]
    split
    · rfl
    next hopen =>
      obtain ⟨-, rfl, -⟩ | ⟨-, -, rfl⟩ := accept_ok_iff.1 hclosed
      · exact absurd rfl hopen
      · refine bind_congr_ok fun first v hfirst => bind_congr_left _ (hrest () v ?_)
        have hread := classItem?_reads hg hfirst
        exact .of_reads hread

/-- One more item and the separator behind it, or the end of the list. -/
def separatedRound (separator close : TokenKind) (item : Parser (Span → α))
    (rest : Unit → Parser (List α)) (_ : Unit) : Parser (List α) := do
  if ← accept close then return []
  let first ← spanned item
  if ← accept separator then
    let rest ← rest ()
    return first :: rest
  else
    discard <| require close
    return [first]

theorem separated_isLoop {separator close : TokenKind} (hseparator : separator ≠ .eof)
    {item : Parser (Span → α)} (hitem : Progresses item) :
    IsLoop (separatedRound separator close item) fun n _ => separated separator close item n where
  zero _ := rfl
  succ _ _ := rfl
  consumes rest rest' c s hrest _ := by
    refine bind_congr_ok fun closed u hclosed => ?_
    rw [ite_run, ite_run]
    split
    · rfl
    next hopen =>
      obtain ⟨-, rfl, -⟩ | ⟨-, -, rfl⟩ := accept_ok_iff.1 hclosed
      · exact absurd rfl hopen
      refine bind_congr_ok fun first v hfirst => bind_congr_ok fun more w hmore => ?_
      obtain ⟨_, hfirst, -⟩ := spanned_ok_iff.1 hfirst
      rw [ite_run, ite_run]
      split
      next hmore' =>
        obtain ⟨hkind, -, rfl⟩ | ⟨-, rfl, -⟩ := accept_ok_iff.1 hmore
        -- The end of the text is no separator, so the next round begins before the end, too.
        · refine bind_congr_left _ (hrest () _ ?_)
          exact (hitem hfirst).trans (.single (hkind ▸ hseparator))
        · cases hmore'
      · rfl

/-- One more element and the comma behind it, or one more hole, or the end of the array. -/
def elementsRound (g : Rules) (rest : Unit → Parser (List Element)) (_ : Unit) :
    Parser (List Element) := do
  if ← accept (.punctuator .comma) then
    let rest ← rest ()
    return .hole :: rest
  else if (← peek).kind = .punctuator .bracketClose then return []
  else
    let spread ← accept (.punctuator .dotDotDot)
    let value ← g.whole [.punctuator .comma, .punctuator .bracketClose]
    let element := if spread then Element.rest value else .single value
    if (← peek).kind = .punctuator .bracketClose then return [element]
    else
      discard <| require (.punctuator .comma)
      let rest ← rest ()
      return element :: rest

theorem elements_isLoop (hg : g.Reading) : IsLoop (elementsRound g) fun n _ => elements g n where
  zero _ := rfl
  succ _ _ := rfl
  consumes rest rest' c s hrest _ := by
    refine bind_congr_ok fun hole u hhole => ?_
    obtain ⟨hkind, rfl, rfl⟩ | ⟨-, rfl, rfl⟩ := accept_ok_iff.1 hhole
    · exact bind_congr_left _ (hrest () _ (.single (hkind ▸ nofun)))
    refine bind_congr_ok fun t u hlook => ?_
    obtain ⟨-, rfl⟩ := look_ok_iff.1 hlook
    rw [ite_run, ite_run]
    split
    · rfl
    refine bind_congr_ok fun spread u hspread => bind_congr_ok fun value v hvalue => ?_
    have hvalue := (whole_reads hg hvalue).prepend (accept_balanced hspread rfl)
    refine bind_congr_ok fun t w hlook => ?_
    obtain ⟨-, rfl⟩ := look_ok_iff.1 hlook
    rw [ite_run, ite_run]
    split
    · rfl
    rw [discard_bind, discard_bind]
    refine bind_congr_ok fun comma w hcomma => bind_congr_left _ (hrest () w ?_)
    exact .of_reads (hvalue.append (require_reads hcomma rfl).balanced)

/-- One more declarator and the comma behind it, or one and the end of the declaration. -/
def declaratorsRound (g : Rules) (rest : Unit → Parser (List Declarator)) (_ : Unit) :
    Parser (List Declarator) := do
  let (first, inserted) ← declarator g
  if ← accept (.punctuator .semicolon) then return [first]
  else if inserted then return [first]
  else if endsDeclaration (← peek) then return [first]
  else
    discard <| require (.punctuator .comma)
    let rest ← rest ()
    return first :: rest

theorem declarators_isLoop (hg : g.Reading) :
    IsLoop (declaratorsRound g) fun n _ => declarators g n where
  zero _ := rfl
  succ _ _ := rfl
  consumes rest rest' c s hrest _ := by
    refine bind_congr_ok fun ⟨first, inserted⟩ u hfirst => ?_
    refine bind_congr_ok fun semicolon v hsemicolon => ?_
    have hfirst := declarator_reads hg hfirst
    obtain ⟨-, rfl, -⟩ | ⟨-, rfl, rfl⟩ := accept_ok_iff.1 hsemicolon
    · rfl
    rw [if_neg Bool.false_ne_true, if_neg Bool.false_ne_true, ite_run, ite_run]
    split
    · rfl
    refine bind_congr_ok fun t w hlook => ?_
    obtain ⟨-, rfl⟩ := look_ok_iff.1 hlook
    rw [ite_run, ite_run]
    split
    · rfl
    rw [discard_bind, discard_bind]
    refine bind_congr_ok fun comma w hcomma => bind_congr_left _ (hrest () w ?_)
    exact .of_reads (hfirst.append (require_reads hcomma rfl).balanced)

/-- One more operator with what it adds to the expression, or the end of the expression. -/
def climbRound (g : Rules) (mode : ExprMode) (rest : Expr × Bool → Parser (Expr × Bool))
    (found : Expr × Bool) : Parser (Expr × Bool) := do
  let (left, inserted) := found
  let start ← position
  let t ← next
  if mode.stops.contains t.kind then
    restore start
    return (left, inserted)
  else
    match (Operator.update? t.kind).filter fun _ => !t.newlineBefore with
    | some op =>
      if op.precedence < mode.least then
        restore start
        return (left, inserted)
      else rest (.update (left.span ∪ t.span) op left, inserted)
    | none =>
      match Operator.following? t.kind with
      | some op =>
        if op.precedence < mode.least then
          restore start
          return (left, inserted)
        else
          let (longer, insertedInside) ← continuation g mode start op left
          rest (longer, inserted || insertedInside)
      | none =>
        if mode.insertion && allowsInsertion t then
          restore start
          return (left, true)
        else fail (t.misplaced .unexpectedToken)

theorem climb_isLoop (hg : g.Reading) (mode : ExprMode) :
    IsLoop (climbRound g mode) fun n found => climb g mode found.1 found.2 n where
  zero _ := rfl
  succ _ _ := rfl
  consumes rest rest' c s hrest found := by
    obtain ⟨left, inserted⟩ := found
    rw [climbRound, climbRound, position_bind, position_bind, next_bind, next_bind, ite_run,
      ite_run]
    split
    · rfl
    cases hupdate : (Operator.update? (c.token s.position).kind).filter
        fun _ => !(c.token s.position).newlineBefore with
    | some op =>
      dsimp only
      rw [ite_run, ite_run]
      split
      · rfl
      · refine hrest _ _ (.of_reads (.single ?_))
        exact update?_isPlain (Option.filter_eq_some_iff.1 hupdate).1
    | none =>
      cases hfollowing : Operator.following? (c.token s.position).kind with
      | none => rfl
      | some op =>
        dsimp only
        rw [ite_run, ite_run]
        split
        · rfl
        · refine bind_congr_ok fun longer u hlonger => hrest _ u (.of_reads ?_)
          exact continuation_reads hg hfollowing hlonger

end Grammar

end EcmaScript
