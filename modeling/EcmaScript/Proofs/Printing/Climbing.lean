import EcmaScript.Proofs.Printing.Printer

namespace EcmaScript

open EcmaScript.Parser EcmaScript.Grammar

/-!
# Climbing over words

How each form of expression is read from the words it is printed as, once its parts are. The rules
for the parts may be any.

* `Context.Shows` — the tokens from an index on are these words;
* `Context.EndsAt` — a token ends an expression whose operators bind tightly enough;
* `Rules.Rereads` — an expression is read from the tokens between two indices;
* `Grammar.Reaches` — reading comes to the point where an expression is complete and may go on;
* `Grammar.Reaches.following`, `Grammar.Reaches.update`, `Grammar.Reaches.ends` — how it goes on;
* `Grammar.operand_name`, `Grammar.operand_prefix`, `Grammar.operand_parenthesised` — what it begins
  with.
-/

variable {g : Rules} {mode : ExprMode} {c : Context} {s t : State} {i j l : Nat} {e f : Expr}

/-! ### Tokens -/

namespace Context

/-- The tokens from an index on are these words, on one line. -/
def Shows (c : Context) : Nat → List Word → Prop
  | _, [] => True
  | i, w :: ws => (c.token i).shape = w.shape ∧ c.Shows (i + 1) ws

theorem shows_append {ws vs : List Word} :
    c.Shows i (ws ++ vs) ↔ c.Shows i ws ∧ c.Shows (i + ws.length) vs := by
  induction ws generalizing i with
  | nil => simp [Shows]
  | cons w ws ih =>
    rw [List.cons_append, Shows, Shows, ih, and_assoc, List.length_cons,
      Nat.add_right_comm, Nat.add_assoc]

theorem shows_of_getD {ws : List Word} {rest : TokenKind × String × Bool}
    (h : ∀ k, (c.token (i + k)).shape = (ws.map Word.shape).getD k rest) : c.Shows i ws := by
  induction ws generalizing i with
  | nil => trivial
  | cons w ws ih =>
    refine ⟨h 0, ih fun k => ?_⟩
    rw [Nat.add_assoc, Nat.add_comm 1 k, h (k + 1)]
    rfl

/-- Words behind each other, with the token between them. -/
theorem Shows.split {ws vs : List Word} (h : c.Shows i (ws ++ vs)) :
    ∃ j, j = i + ws.length ∧ c.Shows i ws ∧ c.Shows j vs :=
  ⟨_, rfl, shows_append.1 h⟩

theorem Shows.kind {w : Word} {ws : List Word} (h : c.Shows i (w :: ws)) :
    (c.token i).kind = w.kind := congrArg Prod.fst h.1

theorem Shows.text {w : Word} {ws : List Word} (h : c.Shows i (w :: ws)) :
    (c.token i).text = w.text := congrArg (fun shape => shape.2.1) h.1

theorem Shows.tail {w : Word} {ws : List Word} (h : c.Shows i (w :: ws)) : c.Shows (i + 1) ws := h.2

/-- Words that are tokens stand inside of the text. -/
theorem Shows.le_size {ws : List Word} (h : c.Shows i ws) (hne : ws ≠ [])
    (hws : ∀ w ∈ ws, w.kind ≠ .eof) : i + ws.length ≤ c.tokens.size := by
  induction ws generalizing i with
  | nil => exact absurd rfl hne
  | cons w ws ih =>
    have hlt : i < c.tokens.size := by
      apply lt_size
      rw [h.kind]
      exact hws w List.mem_cons_self
    cases ws with
    | nil => exact hlt
    | cons v ws =>
      have hle := ih h.tail (List.cons_ne_nil v ws) fun w hw => hws w (List.mem_cons_of_mem _ hw)
      simp only [List.length_cons] at hle ⊢
      omega

/-- A text without arrows and line breaks. -/
structure Plain (c : Context) : Prop where
  kind_ne_arrow (i : Nat) : (c.token i).kind ≠ arrowKind
  newlineBefore (i : Nat) : (c.token i).newlineBefore = false

/-- The token ends an expression: it is a stop, or an operator that binds too loosely. -/
def EndsAt (c : Context) (stops : List TokenKind) (least i : Nat) : Prop :=
  (c.token i).kind ∈ stops ∨ ∃ op, (Operator.update? (c.token i).kind = some op
    ∨ Operator.following? (c.token i).kind = some op) ∧ op.precedence < least

theorem EndsAt.mono {stops : List TokenKind} {least least' : Nat} (h : c.EndsAt stops least i)
    (hle : least ≤ least') : c.EndsAt stops least' i := by
  obtain h | ⟨op, hop, hlt⟩ := h
  · exact .inl h
  · exact .inr ⟨op, hop, hlt.trans_le hle⟩

end Context

/-- At a token, outside of all initializers. -/
structure State.Stands (s : State) (i : Nat) : Prop where
  position : s.position = i
  inInitializer : s.inInitializer = false

namespace State.Stands

theorem looked (h : s.Stands i) (n : Nat) : (s.looked n).Stands i := ⟨h.position, h.inInitializer⟩

theorem advanced (h : s.Stands i) : s.advanced.Stands (i + 1) :=
  ⟨congrArg (· + 1) h.position, h.inInitializer⟩

end State.Stands

/-- The rules read the expression, locations aside, from the tokens from `i` up to `j`. -/
def Rules.Rereads (g : Rules) (mode : ExprMode) (c : Context) (i : Nat) (e : Expr) (j : Nat) :
    Prop :=
  ∀ ⦃s : State⦄, s.Stands i →
    ∃ e' t, g.expr mode c s = .ok (e', false) t ∧ e'.bare = e.bare ∧ t.Stands j

theorem Rules.Rereads.whole {stops : List TokenKind} (h : g.Rereads (.whole stops) c i e j)
    (hs : s.Stands i) : ∃ e' t, g.whole stops c s = .ok e' t ∧ e'.bare = e.bare ∧ t.Stands j := by
  obtain ⟨e', t, hrun, he, ht⟩ := h hs
  refine ⟨e', t, ?_, he, ht⟩
  rw [Rules.whole, bind_apply, hrun]
  rfl

namespace Grammar

/-! ### Climbing on -/

/-- An operand, and a number of steps behind it. -/
def climbing (g : Rules) (mode : ExprMode) (n : Nat) : Parser (Expr × Bool) := do
  let (first, inserted) ← operand g mode
  climb g mode first inserted n

/-- An expression is read, and may go on, at token `j`. -/
def Reaches (g : Rules) (mode : ExprMode) (c : Context) (s : State) (e : Expr) (j : Nat) : Prop :=
  ∃ e' t k, e'.bare = e.bare ∧ t.Stands j ∧ s.position + k < j
    ∧ ∀ n, climbing g mode (n + k) c s = climb g mode e' false n c t

/-- An operator read at a token adds to an expression on its left, up to token `l`. -/
def Continues (g : Rules) (mode : ExprMode) (c : Context) (i : Nat) (op : Operator) (e f : Expr)
    (l : Nat) : Prop :=
  ∀ ⦃e' : Expr⦄ ⦃u : State⦄ (start : Nat), e'.bare = e.bare → u.Stands i →
    ∃ f' v, continuation g mode start op e' c u = .ok (f', false) v ∧ f'.bare = f.bare ∧ v.Stands l

theorem climb_ends {left : Expr} {inserted : Bool} (n : Nat) (hc : c.Plain)
    (h : c.EndsAt mode.stops mode.least s.position) :
    climb g mode left inserted (n + 1) c s
      = .ok (left, inserted) { s.advanced with position := s.position } := by
  rw [climb, position_bind, next_bind, ite_run]
  split
  next => rfl
  next hstop =>
    obtain h | ⟨op, hop, hlt⟩ := h
    · exact absurd (List.contains_iff_mem.2 h) hstop
    · rw [hc.newlineBefore]
      obtain hop | hop := hop
      · rw [hop]
        show (if op.precedence < mode.least then _ else _ : Parser (Expr × Bool)) c _ = _
        rw [if_pos hlt]
        rfl
      · rw [update?_of_following? hop, hop]
        show (if op.precedence < mode.least then _ else _ : Parser (Expr × Bool)) c _ = _
        rw [if_pos hlt]
        rfl

theorem climb_update {left : Expr} {inserted : Bool} (n : Nat) (hc : c.Plain) {op : Operator}
    (hkind : Operator.update? (c.token s.position).kind = some op)
    (hstop : (c.token s.position).kind ∉ mode.stops) (hleast : mode.least ≤ op.precedence) :
    climb g mode left inserted (n + 1) c s
      = climb g mode (.update (left.span ∪ (c.token s.position).span) op left) inserted n c
          s.advanced := by
  rw [climb, position_bind, next_bind, ite_run, if_neg (by simpa using hstop), hc.newlineBefore,
    hkind]
  show (if op.precedence < mode.least then _ else _ : Parser (Expr × Bool)) c _ = _
  rw [if_neg (Nat.not_lt.2 hleast)]

namespace Reaches

theorem of_operand {e' : Expr} (h : operand g mode c s = .ok (e', false) t) (he : e'.bare = e.bare)
    (ht : t.Stands j) (hlt : s.position < j) : Reaches g mode c s e j := by
  refine ⟨e', t, 0, he, ht, hlt, fun n => ?_⟩
  rw [climbing, bind_apply, h]
  rfl

/-- An update goes on behind the expression. -/
theorem update (h : Reaches g mode c s e j) (hc : c.Plain) {op : Operator}
    (hkind : Operator.update? (c.token j).kind = some op) (hstop : (c.token j).kind ∉ mode.stops)
    (hleast : mode.least ≤ op.precedence) (span : Span) :
    Reaches g mode c s (.update span op e) (j + 1) := by
  obtain ⟨e', t, k, he, ht, hk, hrun⟩ := h
  obtain rfl := ht.position
  refine ⟨.update (e'.span ∪ (c.token t.position).span) op e', t.advanced, k + 1, ?_, ht.advanced,
    Nat.succ_lt_succ hk, fun n => ?_⟩
  · rw [Expr.bare, Expr.bare, he]
  · rw [← Nat.add_assoc, Nat.add_right_comm, hrun]
    exact climb_update n hc hkind hstop hleast

/-- Another operator goes on behind the expression. -/
theorem following (h : Reaches g mode c s e j) {op : Operator}
    (hkind : Operator.following? (c.token j).kind = some op)
    (hstop : (c.token j).kind ∉ mode.stops) (hleast : mode.least ≤ op.precedence) (hjl : j < l)
    (hcontinues : Continues g mode c (j + 1) op e f l) : Reaches g mode c s f l := by
  obtain ⟨e', t, k, he, ht, hk, hrun⟩ := h
  obtain rfl := ht.position
  obtain ⟨f', v, hcontinuation, hf, hv⟩ := hcontinues t.position he ht.advanced
  refine ⟨f', v, k + 1, hf, hv, by omega, fun n => ?_⟩
  rw [← Nat.add_assoc, Nat.add_right_comm, hrun, climb_following n hkind hstop hleast, bind_apply,
    hcontinuation]
  rfl

/-- The expression ends, within the budget of the rules. -/
theorem ends (h : Reaches g mode c s e j) (hc : c.Plain) (hends : c.EndsAt mode.stops mode.least j)
    (hbudget : j ≤ s.position + g.budget) :
    ∃ e' t, expression g mode c s = .ok (e', false) t ∧ e'.bare = e.bare ∧ t.Stands j := by
  obtain ⟨e', t, k, he, ht, hk, hrun⟩ := h
  obtain rfl := ht.position
  obtain ⟨n, hn⟩ := Nat.exists_eq_add_of_lt (show k < g.budget by omega)
  refine ⟨e', { t.advanced with position := t.position }, ?_, he, rfl, ht.inInitializer⟩
  show climbing g mode g.budget c s = _
  rw [hn, show k + n + 1 = n + 1 + k by omega, hrun]
  exact climb_ends n hc hends

end Reaches

/-! ### What operators add -/

/-- What an identifier spells, if it can be read. -/
theorem identifierText_eq {t : Token} {name : String}
    (h : Escape.decodeName? t.text = some name) : identifierText t = pure name := by
  rw [identifierText, h]

/-- Only its place changes when a name is taken as it is written. -/
theorem identifierText_plain {name : String} (h : Lexeme.isPlainName name = true) {t : Token}
    (ht : t.text = name) : identifierText t = pure name := by
  subst ht
  exact identifierText_eq (Lexeme.decodeName?_of_isPlainName h)

/-- Outside of initializers every name may be used. -/
theorem checkArguments_run (hs : s.inInitializer = false) (t : Token) (name : String) :
    checkArguments t name c s = .ok () s := by
  simp only [checkArguments, read_bind, get_bind, hs, Bool.and_false, Bool.false_and]
  rfl

theorem continues_binary {op : Operator} (hop : op.IsBinary)
    (htarget : op.isAssignment = true → isAssignable e = true) {right : Expr}
    (hright : g.Rereads { mode with least := op.operandPrecedence } c i right l) (span : Span) :
    Continues g mode c i op e (.binary span op e right) l := by
  intro e' u start he hu
  obtain ⟨right', v, hrun, hbare, hv⟩ := hright hu
  refine ⟨.binary (e'.span ∪ right'.span) op e' right', v, ?_,
    by rw [Expr.bare, Expr.bare, he, hbare], hv⟩
  have hassignable : op.isAssignment = true → isAssignable e' = true := by
    rwa [← isAssignable_bare e', he, isAssignable_bare]
  have hcontinuation : continuation g mode start op e' = (do
      if op.isAssignment then checkAssignable e'
      let (right, inserted) ← g.expr { mode with least := op.operandPrecedence }
      return (.binary (e'.span ∪ right.span) op e' right, inserted)) := by
    obtain ⟨-, hop⟩ := hop
    simp only [List.mem_cons, List.not_mem_nil, or_false, not_or] at hop
    unfold continuation
    split
    next => exact absurd rfl hop.1
    next => exact absurd rfl hop.2.1
    next => exact absurd rfl hop.2.2.1
    next => exact absurd rfl hop.2.2.2
    next => rfl
  rw [hcontinuation, ite_run]
  split
  next hassignment =>
    rw [bind_apply, checkAssignable, if_pos (hassignable hassignment), pure_apply]
    dsimp only
    rw [bind_apply, hrun]
    rfl
  next =>
    dsimp only
    rw [bind_apply, hrun]
    rfl

theorem continues_conditional {consequent alternate : Expr}
    (hconsequent : g.Rereads (.whole [.punctuator .colon]) c i consequent j)
    (hcolon : (c.token j).kind = .punctuator .colon)
    (halternate : g.Rereads { mode with least := Operator.conditionalAlternate.precedence } c
      (j + 1) alternate l) (span : Span) :
    Continues g mode c i .conditional e (.conditional span e consequent alternate) l := by
  intro e' u start he hu
  obtain ⟨consequent', v, hrun, hbare, hv⟩ := hconsequent.whole hu
  obtain ⟨alternate', w, hrun', hbare', hw⟩ := halternate hv.advanced
  refine ⟨.conditional (e'.span ∪ alternate'.span) e' consequent' alternate', w, ?_,
    by rw [Expr.bare, Expr.bare, he, hbare, hbare'], hw⟩
  rw [← hv.position] at hcolon
  unfold continuation
  dsimp only
  rw [bind_apply, hrun]
  dsimp only
  rw [discard_bind, bind_apply, require_run, if_pos hcolon]
  dsimp only
  rw [bind_apply, hrun']
  rfl

theorem continues_member {name : String} (hname : Lexeme.isPlainName name = true)
    (hkind : (c.token i).kind = .identifier) (htext : (c.token i).text = name) (span : Span) :
    Continues g mode c i .memberAccess e (.member span e name) (i + 1) := by
  intro e' u start he hu
  have hu' := hu.looked 0
  obtain rfl := hu.position
  refine ⟨.member (e'.span ∪ (c.token u.position).span) e' name, (u.looked 0).advanced, ?_,
    by rw [Expr.bare, Expr.bare, he], hu'.advanced⟩
  have haccess : memberAccess e' c u
      = .ok (.member (e'.span ∪ (c.token u.position).span) e' name) (u.looked 0).advanced := by
    rw [memberAccess, peek_bind, hkind]
    dsimp only
    rw [discard_bind, next_bind, identifierText_plain hname htext, pure_bind, bind_apply,
      checkArguments_run hu'.advanced.inInitializer]
    rfl
  unfold continuation
  dsimp only
  rw [bind_apply, haccess]
  rfl

theorem continues_computedMember {member : Expr}
    (hmember : g.Rereads (.whole [.punctuator .bracketClose]) c i member j)
    (hclose : (c.token j).kind = .punctuator .bracketClose) (span : Span) :
    Continues g mode c i .computedMemberAccess e (.computedMember span e member) (j + 1) := by
  intro e' u start he hu
  obtain ⟨member', v, hrun, hbare, hv⟩ := hmember.whole hu
  refine ⟨.computedMember (e'.span ∪ (c.token v.position).span) e' member', v.advanced, ?_,
    by rw [Expr.bare, Expr.bare, he, hbare], hv.advanced⟩
  rw [← hv.position] at hclose
  unfold continuation
  dsimp only
  rw [bind_apply, hrun]
  dsimp only
  rw [bind_apply, require_run, if_pos hclose]
  rfl

/-! ### Arguments -/

theorem argument_run (h : g.Rereads (.whole argumentStops) c i e j) (hs : s.Stands i)
    (hfirst : (c.token i).kind ≠ .punctuator .dotDotDot) :
    ∃ a t, spanned (argument g) c s = .ok a t ∧ (∀ span, a.bare = (Arg.mk span false e).bare)
      ∧ t.Stands j := by
  obtain ⟨e', t, hrun, he, ht⟩ := h.whole (hs.looked 0)
  refine ⟨.mk (spanSince c s.position t) false e', t, ?_,
    fun span => by rw [Arg.bare, Arg.bare, he], ht⟩
  refine spanned_ok_iff.2 ⟨fun span => .mk span false e', ?_, rfl⟩
  rw [argument, accept_bind, if_neg (by rwa [hs.position]), bind_apply, hrun]
  rfl

/-- The tokens from an index on are arguments, whose values the rules read, and the closing
parenthesis before token `l`. -/
inductive ArgumentsAt (g : Rules) (c : Context) : Nat → List Arg → Nat → Prop where
  | nil {i : Nat} : (c.token i).kind = .punctuator .parenthesisClose → ArgumentsAt g c i [] (i + 1)
  | last {i j : Nat} {e : Expr} (span : Span) :
    (c.token i).kind ∉ [.punctuator .parenthesisClose, .punctuator .dotDotDot] →
    g.Rereads (.whole argumentStops) c i e j → i < j →
    (c.token j).kind = .punctuator .parenthesisClose →
    ArgumentsAt g c i [.mk span false e] (j + 1)
  | cons {i j l : Nat} {e : Expr} {rest : List Arg} (span : Span) :
    (c.token i).kind ∉ [.punctuator .parenthesisClose, .punctuator .dotDotDot] →
    g.Rereads (.whole argumentStops) c i e j → i < j →
    (c.token j).kind = .punctuator .comma → ArgumentsAt g c (j + 1) rest l →
    ArgumentsAt g c i (.mk span false e :: rest) l

/-- The tokens between two indices are read as the arguments of a call, locations aside. -/
def ArgumentsReread (g : Rules) (c : Context) (i : Nat) (arguments : List Arg) (l : Nat) : Prop :=
  ∀ ⦃s : State⦄, s.Stands i → ∃ arguments' t, callArguments g c s = .ok arguments' t
    ∧ Arg.bareList arguments' = Arg.bareList arguments ∧ t.Stands l

theorem ArgumentsAt.lt {arguments : List Arg} (h : ArgumentsAt g c i arguments l) : i < l := by
  induction h with
  | nil _ => exact Nat.lt_succ_self _
  | last _ _ _ hlt _ => exact hlt.trans (Nat.lt_succ_self _)
  | cons _ _ _ hlt _ _ ih => exact (hlt.trans (Nat.lt_succ_self _)).trans ih

/-- A list goes on behind its first item. -/
theorem separated_succ {separator close : TokenKind} {item : Parser (Span → Arg)} {a : Arg}
    (n : Nat) (hfirst : (c.token s.position).kind ≠ close)
    (hitem : spanned item c (s.looked 0) = .ok a t) :
    separated separator close item (n + 1) c s =
      if (c.token t.position).kind = separator then
        (separated separator close item n >>= fun rest => pure (a :: rest)) c t.advanced
      else (require close >>= fun _ => pure [a]) c (t.looked 0) := by
  rw [separated, accept_bind, if_neg hfirst]
  simp only [Bool.false_eq_true, if_false]
  rw [bind_apply, hitem]
  dsimp only
  rw [accept_bind]
  split
  next => rfl
  next =>
    simp only [Bool.false_eq_true, if_false]
    rw [discard_bind]

theorem separated_arguments {arguments : List Arg} (h : ArgumentsAt g c i arguments l) {n : Nat}
    (hn : l ≤ i + n) (hs : s.Stands i) :
    ∃ arguments' t, separated (.punctuator .comma) (.punctuator .parenthesisClose) (argument g) n
        c s = .ok arguments' t
      ∧ Arg.bareList arguments' = Arg.bareList arguments ∧ t.Stands l := by
  induction h generalizing n s with
  | nil hclose =>
    cases n with
    | zero => omega
    | succ n =>
      refine ⟨[], s.advanced, ?_, rfl, hs.advanced⟩
      rw [separated, accept_bind, if_pos (by rwa [hs.position])]
      rfl
  | last span hfirst hread hlt hclose =>
    cases n with
    | zero => omega
    | succ n =>
      simp only [List.mem_cons, List.not_mem_nil, or_false, not_or, ← hs.position] at hfirst
      obtain ⟨a, t, hrun, ha, ht⟩ := argument_run hread (hs.looked 0) (hs.position ▸ hfirst.2)
      have hstands := ht.looked 0
      refine ⟨[a], (t.looked 0).advanced, ?_, ?_, hstands.advanced⟩
      · rw [separated_succ n hfirst.1 hrun, ht.position, hclose, if_neg (by decide), bind_apply,
          require_run, if_pos (by rw [hstands.position, hclose])]
        rfl
      · rw [Arg.bareList, Arg.bareList, ha span]
        rfl
  | @cons i j l e rest span hfirst hread hlt hcomma hrest ih =>
    have hlast := hrest.lt
    cases n with
    | zero => omega
    | succ n =>
      simp only [List.mem_cons, List.not_mem_nil, or_false, not_or, ← hs.position] at hfirst
      obtain ⟨a, t, hrun, ha, ht⟩ := argument_run hread (hs.looked 0) (hs.position ▸ hfirst.2)
      have hn' : l ≤ j + 1 + n := by omega
      obtain ⟨rest', u, hrun', hbare, hu⟩ := ih hn' ht.advanced
      refine ⟨a :: rest', u, ?_, by rw [Arg.bareList, Arg.bareList, ha span, hbare], hu⟩
      rw [separated_succ n hfirst.1 hrun, ht.position, if_pos hcomma, bind_apply, hrun']
      rfl

theorem ArgumentsAt.reread {arguments : List Arg} (h : ArgumentsAt g c i arguments l)
    (hbudget : l ≤ i + g.budget) : ArgumentsReread g c i arguments l :=
  fun _ hs => separated_arguments h hbudget hs

theorem continues_call {arguments : List Arg} (harguments : ArgumentsReread g c i arguments l)
    (span : Span) : Continues g mode c i .call e (.call span e arguments) l := by
  intro e' u start he hu
  obtain ⟨arguments', v, hrun, hbare, hv⟩ := harguments hu
  refine ⟨.call (e'.span ∪ spanSince c start v) e' arguments', v, ?_,
    by rw [Expr.bare, Expr.bare, he, hbare], hv⟩
  unfold continuation
  dsimp only
  rw [bind_apply, hrun]
  dsimp only
  rw [since_bind]
  rfl

/-! ### What an expression begins with -/

/-- A name is read as a variable. -/
theorem operand_name {name : String} (hname : Lexeme.isPlainName name = true) (hc : c.Plain)
    (hs : s.Stands i) (hkind : (c.token i).kind = .identifier) (htext : (c.token i).text = name) :
    ∃ span t, operand g mode c s = .ok (.ident span name, false) t ∧ t.Stands (i + 1) := by
  obtain rfl := hs.position
  have hleading : leadingOperator? c.names (c.token s.position).kind = none := by
    rw [hkind]
    rfl
  have hallows : c.names.allows (c.token s.position).kind = true := by
    rw [hkind]
    rfl
  generalize hu : ((s.looked 0).looked 1).looked 2 = u
  have hstands : u.Stands s.position := hu ▸ ((hs.looked 0).looked 1).looked 2
  have hvariable : variableName c u = .ok name u.advanced := by
    rw [variableName, next_bind, nameRules_bind, hstands.position, if_pos hallows,
      identifierText_plain hname htext, pure_bind, bind_apply,
      checkArguments_run hstands.advanced.inInitializer]
    rfl
  have huse : variableUse c u
      = .ok (.ident (spanSince c u.position u.advanced) name) u.advanced := by
    refine spanned_ok_iff.2 ⟨fun span => .ident span name, ?_, rfl⟩
    rw [bind_apply, hvariable]
    rfl
  refine ⟨spanSince c u.position u.advanced, u.advanced, ?_, hstands.advanced⟩
  rw [operand_run, hu, operandFrom, hleading]
  dsimp only
  rw [asyncOperand?_of_ne (by rw [hkind]; decide), pure_bind]
  dsimp only
  rw [if_pos hallows, if_neg (hc.kind_ne_arrow _), bind_apply, huse]
  rfl

/-- An operator before an operand is read with its operand. -/
theorem operand_prefix {op : Operator} (hop : op.IsPrefix) (hs : s.Stands i)
    (hkind : Operator.leading? (c.token i).kind = some op)
    (hargument : g.Rereads { mode with least := op.operandPrecedence } c (i + 1) e j)
    (he : e.Plain) :
    ∃ span e' t, operand g mode c s = .ok (.unary span op e', false) t ∧ e'.bare = e.bare
      ∧ t.Stands j := by
  obtain ⟨-, hawait, hyield⟩ := hop
  obtain rfl := hs.position
  have hleading : leadingOperator? c.names (c.token s.position).kind = some op := by
    rw [leadingOperator?, hkind, Option.filter_some, if_pos]
    split
    next => exact absurd rfl hawait
    next => exact absurd rfl hyield
    next => rfl
  generalize hu : ((s.looked 0).looked 1).looked 2 = u
  have hstands : u.Stands s.position := hu ▸ ((hs.looked 0).looked 1).looked 2
  obtain ⟨e', t, hrun, hbare, ht⟩ := hargument (hstands.advanced.looked 0)
  have hdelete (token : Token) : checkDelete token e' = pure () := by
    unfold checkDelete
    split
    next => cases he <;> simp [Expr.bare] at hbare
    next => rfl
  refine ⟨spanSince c u.position t, e', t, ?_, hbare, ht⟩
  rw [operand_run, hu, operandFrom, hleading]
  dsimp only
  rw [unary_eq, position_bind, next_bind, unaryOperator, if_neg hyield, pure_bind, unaryRest,
    peek_bind, bind_apply, unaryArgument, if_neg (by simp [hyield]), hrun]
  dsimp only
  rw [hdelete, ite_run]
  split
  next =>
    rw [pure_bind, since_bind]
    rfl
  next =>
    rw [since_bind]
    rfl

/-- What stands in parentheses is read there, once the attempt at an arrow function has failed. -/
theorem operand_parenthesised (hs : s.Stands i)
    (hopen : (c.token i).kind = .punctuator .parenthesisOpen)
    (harrow : ∀ ⦃u : State⦄, u.Stands i →
      ∃ error v, arrowParameters g false c u = .error (.error error) v
        ∧ error.cause ≠ .lineTerminatorAfterArrowParameters ∧ v.inInitializer = false)
    (he : g.Rereads ⟨Operator.comma.precedence, [.punctuator .parenthesisClose], mode.insertion⟩ c
      (i + 1) e j)
    (hclose : (c.token j).kind = .punctuator .parenthesisClose) :
    ∃ e' t, operand g mode c s = .ok (e', false) t ∧ e'.bare = e.bare ∧ t.Stands (j + 1) := by
  obtain rfl := hs.position
  have hleading : leadingOperator? c.names (c.token s.position).kind = none := by
    rw [hopen]
    rfl
  have hallows : ¬ c.names.allows (c.token s.position).kind = true := by
    rw [hopen]
    exact Bool.false_ne_true
  have hatom : atom g mode (c.token s.position) = arrowOrGrouping g mode.stops mode.insertion := by
    rw [atom, hopen]
  generalize hu : ((s.looked 0).looked 1).looked 2 = u
  have hstands : u.Stands s.position := hu ▸ ((hs.looked 0).looked 1).looked 2
  obtain ⟨error, v, hattempt, hcause, hinitializer⟩ := harrow hstands
  have hback : ({ v with position := u.position } : State).Stands s.position :=
    ⟨hstands.position, hinitializer⟩
  obtain ⟨e', t, hrun, hbare, ht⟩ := he hback.advanced
  refine ⟨e', t.advanced, ?_, hbare, ht.advanced⟩
  rw [operand_run, hu, operandFrom, hleading]
  dsimp only
  rw [asyncOperand?_of_ne (by rw [hopen]; decide), pure_bind]
  dsimp only
  rw [if_neg hallows, hatom, arrowOrGrouping, position_bind, attempt_bind, hattempt]
  dsimp only
  rw [if_neg hcause, restore_bind, grouping, discard_bind, bind_apply, require_run, if_pos]
  · dsimp only
    rw [bind_apply, hrun]
    dsimp only
    rw [discard_bind, bind_apply, require_run, if_pos (by rw [ht.position, hclose])]
    rfl
  · rw [hback.position, hopen]

end Grammar

end EcmaScript
