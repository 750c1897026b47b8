import EcmaScript.Proofs.Grammar.Reading
import EcmaScript.Proofs.Relation.Closed

namespace EcmaScript

open EcmaScript.Parser

/-!
# Texts that go on

A text ends outside of all brackets, and another one goes on there with a semicolon. A run that
stays inside of brackets reaches the last bracket before the end, so it does the same in both.

* `Context.GoesOn` — the second text has the tokens of the first one, and goes on behind its end;
* `Place` — where a run begins: anywhere, before the end, or inside of brackets;
* `Untouched` — from there on a parser does the same in both texts, and opens and closes a known
  number of brackets;
* `Untouched.bind`, `Untouched.opening`, `Untouched.spanned`, … — how such parsers are put together;
* `Untouched.variableName`, `Untouched.definitionName?`, … — the parsers that read single tokens.
-/

/-- The first text ends before token `n`, outside of all brackets. The second one has the same
tokens up to there, and then a semicolon on a line of its own, and no `else` behind it. -/
structure Context.GoesOn (n : Nat) (c c' : Context) : Prop where
  token {i : Nat} : i < n → c'.token i = c.token i
  eof : (c.token n).kind = .eof
  semicolon : (c'.token n).kind = .punctuator .semicolon
  newlineBefore : (c'.token n).newlineBefore = true
  ne_else : (c'.token (n + 1)).kind ≠ .keyword .kElse
  depth_nonneg {i : Nat} : i ≤ n → 0 ≤ depth c.token i
  depth_end : depth c.token n = 0
  options : c'.options = c.options
  names : c'.names = c.names
  checks : c'.checks = c.checks

theorem Context.GoesOn.withNames {n : Nat} {c c' : Context} (h : c.GoesOn n c')
    (f : NameRules → NameRules) :
    GoesOn n { c with names := f c.names } { c' with names := f c'.names } :=
  { h with names := congrArg f h.names }

/-- Where a run begins, compared with the end of the first text. -/
inductive Place where
  | anywhere
  | beforeEnd
  /-- Inside of brackets. -/
  | inside

/-- A run that begins at token `i` begins there. -/
def Place.Holds (n : Nat) (token : Nat → Token) (i : Nat) : Place → Prop
  | anywhere => True
  | beforeEnd => i < n
  | inside => 1 ≤ depth token i

/-- Inside of brackets is before the end. -/
theorem Context.GoesOn.lt {n : Nat} {c c' : Context} (hc : c.GoesOn n c') {i : Nat} (hi : i ≤ n)
    (hdepth : 1 ≤ depth c.token i) : i < n := by
  rcases Nat.lt_or_eq_of_le hi with hlt | rfl
  · exact hlt
  · rw [hc.depth_end] at hdepth
    exact absurd hdepth (by decide)

theorem Context.GoesOn.lt_of_place {n : Nat} {c c' : Context} (hc : c.GoesOn n c') {place : Place}
    (hplace : place ≠ .anywhere) {i : Nat} (hi : i ≤ n) (h : place.Holds n c.token i) : i < n := by
  cases place with
  | anywhere => exact absurd rfl hplace
  | beforeEnd => exact h
  | inside => exact hc.lt hi h

/-- Up to the end the tokens are the same, but for the semicolon. -/
theorem Context.GoesOn.token_cases {n : Nat} {c c' : Context} (hc : c.GoesOn n c') {i : Nat}
    (hi : i ≤ n) : c'.token i = c.token i
      ∨ i = n ∧ (c.token i).kind = .eof ∧ (c'.token i).kind = .punctuator .semicolon := by
  rcases Nat.lt_or_eq_of_le hi with hlt | rfl
  · exact .inl (hc.token hlt)
  · exact .inr ⟨rfl, hc.eof, hc.semicolon⟩

/-- What depends on the token after one before the end is the same, if the end of the first text and
the semicolon in the second one mean the same to it. -/
theorem Context.GoesOn.second {n : Nat} {c c' : Context} (hc : c.GoesOn n c') {i : Nat} (hi : i < n)
    {α : Type} {f : Token → α}
    (hend : ∀ t t' : Token, t.kind = .eof → t'.kind = .punctuator .semicolon → f t' = f t) :
    f (c'.token (i + 1)) = f (c.token (i + 1)) := by
  obtain hsame | ⟨-, heof, hsemicolon⟩ := hc.token_cases (Nat.succ_le_of_lt hi)
  · rw [hsame]
  · exact hend _ _ heof hsemicolon

/-- What follows an opening bracket is inside of brackets. -/
theorem Context.GoesOn.inside {n : Nat} {c c' : Context} (hc : c.GoesOn n c') {s : State}
    (hs : s.position ≤ n) (hopen : (c.token s.position).kind.weight = 1) :
    Place.inside.Holds n c.token s.advanced.position := by
  have := hc.depth_nonneg hs
  rw [Place.Holds, State.advanced_position, depth, hopen]
  omega

/-- A run that succeeds ends in the first text, `x` brackets further out or further in than it
began. -/
def Leads (n : Nat) (c : Context) (s : State) (x : Int) {α : Type}
    (r : EStateM.Result Failure State α) : Prop :=
  ∀ ⦃a : α⦄ ⦃t : State⦄, r = .ok a t →
    t.position ≤ n ∧ depth c.token t.position = depth c.token s.position + x

/-- A run that begins `x` brackets further in than another place leads `x` brackets further from
there. -/
theorem Leads.shifted {n : Nat} {c : Context} {s t : State} {x y z : Int} {α : Type}
    {r : EStateM.Result Failure State α} (h : Leads n c t y r)
    (hdepth : depth c.token t.position = depth c.token s.position + x) (hz : x + y = z) :
    Leads n c s z r := by
  intro a u hrun
  obtain ⟨hu, hback⟩ := h hrun
  refine ⟨hu, ?_⟩
  rw [hback, hdepth, Int.add_assoc, hz]

/-- A parser that does the same in both texts wherever it begins there, and opens `x` brackets more
than it closes. -/
def Untouched (place : Place) (x : Int) {α : Type} (p : Parser α) : Prop :=
  ∀ ⦃n : Nat⦄ ⦃c c' : Context⦄ ⦃s : State⦄, c.GoesOn n c' → s.position ≤ n →
    place.Holds n c.token s.position →
    p c' s = p c s ∧ Leads n c s x (p c s)

namespace Untouched

open Grammar

variable {n : Nat} {c c' : Context} {s t : State} {place : Place} {x y : Int} {α β : Type}

/-! ### Where they begin -/

theorem ofAnywhere {p : Parser α} (hp : Untouched .anywhere x p) : Untouched place x p :=
  fun _ _ _ _ hc hs _ => hp hc hs trivial

theorem ofBeforeEnd {p : Parser α} (hp : Untouched .beforeEnd x p) : Untouched .inside x p :=
  fun _ _ _ _ hc hs hdepth => hp hc hs (hc.lt hs hdepth)

/-- What reads balanced tokens leads back to the depth where it began. -/
theorem ofBalanced {p : Parser α}
    (hsame : ∀ ⦃n : Nat⦄ ⦃c c' : Context⦄ ⦃s : State⦄, c.GoesOn n c' → s.position ≤ n →
      place.Holds n c.token s.position → p c' s = p c s)
    (hreads : ∀ {c : Context} {s t : State} {a : α}, p c s = .ok a t →
      Balanced c.token s.position t.position) : Untouched place 0 p := by
  refine fun n c c' s hc hs hplace => ⟨hsame hc hs hplace, fun a t hrun => ?_⟩
  have hbalanced := hreads hrun
  refine ⟨?_, by rw [hbalanced.depth_le.1, Int.add_zero]⟩
  -- The end of the text is not among the tokens that were read.
  by_contra hpast
  exact (hbalanced.kind_ne n hs (Nat.lt_of_not_le hpast)).2 hc.eof

/-! ### Steps -/

theorem pure (a : α) : Untouched place 0 (Pure.pure a : Parser α) := by
  refine fun _ _ _ _ _ hs _ => ⟨rfl, fun b t hrun => ?_⟩
  obtain ⟨-, rfl⟩ := pure_ok_iff.1 hrun
  exact ⟨hs, (Int.add_zero _).symm⟩

theorem fail (e : SyntaxError) : Untouched place x (Parser.fail e : Parser α) :=
  fun _ _ _ _ _ _ _ => ⟨rfl, fun _ _ hrun => (fail_ok_iff.1 hrun).elim⟩

theorem exhausted : Untouched place x (Parser.exhausted : Parser α) :=
  fun _ _ _ _ _ _ _ => ⟨rfl, fun _ _ hrun => by cases hrun⟩

/-- Two parts in a row, the second of which begins where the first one has led to. -/
theorem bind_run {p : Parser α} {f : α → Parser β} (hp : p c' s = p c s)
    (hf : ∀ a t, p c s = .ok a t → f a c' t = f a c t ∧ Leads n c s x (f a c t)) :
    (p >>= f) c' s = (p >>= f) c s ∧ Leads n c s x ((p >>= f) c s) := by
  rw [bind_apply, bind_apply, hp]
  cases hrun : p c s with
  | ok a t => exact hf a t hrun
  | error e t => exact ⟨rfl, fun b u h => by cases h⟩

theorem bind {p : Parser α} {f : α → Parser β} (hp : Untouched .inside 0 p)
    (hf : ∀ a, Untouched .inside x (f a)) : Untouched .inside x (p >>= f) := by
  intro n c c' s hc hs hdepth
  obtain ⟨hsame, hlead⟩ := hp hc hs hdepth
  refine bind_run hsame fun a t hrun => ?_
  obtain ⟨ht, hdepth'⟩ := hlead hrun
  -- The first part closes what it opens, so the second one begins inside as well.
  have hplace : Place.inside.Holds n c.token t.position := by
    rw [Place.Holds, hdepth', Int.add_zero]
    exact hdepth
  obtain ⟨hsame', hlead'⟩ := hf a hc ht hplace
  exact ⟨hsame', hlead'.shifted hdepth' (Int.zero_add x)⟩

/-- What stands behind a part that may end at the end of the text does the same anywhere. -/
theorem andThen {p : Parser α} {f : α → Parser β} (hp : Untouched place x p)
    (hf : ∀ a, Untouched .anywhere 0 (f a)) : Untouched place x (p >>= f) := by
  intro n c c' s hc hs hplace
  obtain ⟨hsame, hlead⟩ := hp hc hs hplace
  refine bind_run hsame fun a t hrun => ?_
  obtain ⟨ht, hdepth⟩ := hlead hrun
  obtain ⟨hsame', hlead'⟩ := hf a hc ht trivial
  exact ⟨hsame', hlead'.shifted hdepth (Int.add_zero x)⟩

theorem map (f : α → β) {p : Parser α} (hp : Untouched place x p) :
    Untouched place x (f <$> p) := by
  rw [map_eq_bind]
  exact hp.andThen fun _ => pure _

theorem ite {b : Prop} [Decidable b] {p q : Parser α} (hp : b → Untouched place x p)
    (hq : ¬ b → Untouched place x q) : Untouched place x (if b then p else q) := by
  by_cases h : b
  · rw [if_pos h]
    exact hp h
  · rw [if_neg h]
    exact hq h

/-- What is not asked of the tokens does the same anywhere. -/
theorem blind {p : Parser α} (hsame : ∀ ⦃c c' : Context⦄ ⦃s : State⦄, c'.options = c.options →
      c'.names = c.names → c'.checks = c.checks → p c' s = p c s)
    (hstays : ∀ ⦃c : Context⦄ ⦃s t : State⦄ ⦃a : α⦄, p c s = .ok a t → t.position = s.position) :
    Untouched .anywhere 0 p := by
  refine fun n c c' s hc hs _ => ⟨hsame hc.options hc.names hc.checks, fun a t hrun => ?_⟩
  rw [hstays hrun]
  exact ⟨hs, (Int.add_zero _).symm⟩

theorem nameRules : Untouched .anywhere 0 Parser.nameRules := by
  refine blind (fun c c' s _ hnames _ => ?_) fun c s t a hrun => ?_
  · rw [nameRules_run, nameRules_run, hnames]
  · rw [nameRules_run] at hrun
    cases hrun
    rfl

theorem options : Untouched .anywhere 0 Parser.options := by
  refine blind (fun c c' s hoptions _ _ => ?_) fun c s t a hrun => ?_
  · show EStateM.Result.ok c'.options s = .ok c.options s
    rw [hoptions]
  · have hrun : EStateM.Result.ok c.options s = EStateM.Result.ok a t := hrun
    cases hrun
    rfl

theorem report (entry : TraceEntry) : Untouched .anywhere 0 (Parser.report entry) := by
  refine blind (fun _ _ _ _ _ _ => rfl) fun c s t a hrun => ?_
  rw [report_run] at hrun
  cases hrun
  rfl

theorem identifierText (t : Token) : Untouched .anywhere 0 (identifierText t) := by
  unfold Grammar.identifierText
  split
  · exact pure _
  · exact fail _

theorem checkArguments (t : Token) (name : String) :
    Untouched .anywhere 0 (Parser.checkArguments t name) := by
  refine blind (fun c c' s _ _ hchecks => ?_) fun c s u a hrun => ?_
  · simp only [Parser.checkArguments, read_bind, get_bind, ite_run, hchecks]
    rfl
  · rw [checkArguments_state hrun]

theorem checkSuper (t : Token) : Untouched .anywhere 0 (Parser.checkSuper t) := by
  refine blind (fun c c' s _ _ hchecks => ?_) fun c s u a hrun => ?_
  · simp only [Parser.checkSuper, read_bind, get_bind, ite_run, hchecks]
    rfl
  · rw [checkSuper_state hrun]

theorem declarePrivate (name : Ident) : Untouched .anywhere 0 (Parser.declarePrivate name) := by
  refine blind (fun c c' s _ _ _ => ?_) fun c s u a hrun => ?_
  · rw [declarePrivate_run, declarePrivate_run]
  · obtain ⟨_, -, rfl⟩ := declarePrivate_ok hrun
    rfl

theorem usePrivate (name : Ident) : Untouched .anywhere 0 (Parser.usePrivate name) := by
  refine blind (fun c c' s _ _ hchecks => ?_) fun c s u a hrun => ?_
  · rw [usePrivate_run, usePrivate_run, hchecks]
  · obtain ⟨_, -, rfl⟩ | ⟨_, -, -, rfl⟩ := usePrivate_ok hrun
    · rfl
    · rfl

theorem checkAssignable (e : Expr) : Untouched .anywhere 0 (checkAssignable e) :=
  ite (fun _ => pure _) fun _ => fail _

theorem checkDelete (op : Token) (e : Expr) : Untouched .anywhere 0 (checkDelete op e) := by
  unfold Grammar.checkDelete
  split
  · exact fail _
  · exact pure _

/-! ### Tokens -/

/-- The next token is looked at, and stays. -/
theorem peekBind {f : Token → Parser β} (hplace : place ≠ .anywhere)
    (hf : ∀ t, Untouched place x (f t)) : Untouched place x (Parser.peek >>= f) := by
  intro n c c' s hc hs hbegins
  rw [peek_bind, peek_bind, hc.token (hc.lt_of_place hplace hs hbegins)]
  exact hf _ hc (s := s.looked 0) hs hbegins

/-- A token before the end, which may be a bracket. -/
theorem require {kind : TokenKind} (hk : kind.weight = x) :
    Untouched .beforeEnd x (Parser.require kind) := by
  intro n c c' s hc _ hlt
  refine ⟨by rw [require_run, require_run, hc.token hlt], fun a t hrun => ?_⟩
  obtain ⟨hkind, -, rfl⟩ := require_ok_iff.1 hrun
  exact ⟨Nat.succ_le_of_lt hlt, by rw [State.advanced_position, depth, hkind, hk]⟩

theorem drop {kind : TokenKind} (hk : kind.weight = x) :
    Untouched .beforeEnd x (discard (Parser.require kind)) := by
  rw [discard_eq_bind]
  exact (require hk).andThen fun _ => pure _

/-- What follows a token that is no bracket, and is dropped. -/
theorem dropBind {kind : TokenKind} (hk : kind.weight = 0) {f : PUnit → Parser β}
    (hf : Untouched .inside x (f ⟨⟩)) :
    Untouched .inside x (discard (Parser.require kind) >>= f) := by
  rw [discard_bind]
  exact (ofBeforeEnd (require hk)).bind fun _ => hf

/-- Neither the end of the text nor the semicolon behind it is accepted. -/
theorem acceptIf? {cond : Token → Bool}
    (hcond : ∀ t : Token, cond t → t.kind.isPlain ∧ t.kind ≠ .punctuator .semicolon) :
    Untouched .anywhere 0 (Parser.acceptIf? cond) := by
  refine ofBalanced (fun n c c' s hc hs _ => ?_) fun {c s t a} hrun => ?_
  · rw [acceptIf?_run, acceptIf?_run]
    rcases Nat.lt_or_eq_of_le hs with hlt | heq
    · rw [hc.token hlt]
    · rw [heq, if_neg fun h => (hcond _ h).2 hc.semicolon, if_neg fun h => ?_]
      exact (TokenKind.isPlain_iff.1 (hcond _ h).1).2.1 hc.eof
  · rw [acceptIf?_run] at hrun
    split at hrun
    next h =>
      cases hrun
      exact .single (hcond _ h).1
    next =>
      cases hrun
      exact .nil _

theorem accept {kind : TokenKind} (hk : kind.isPlain) (hne : kind ≠ .punctuator .semicolon) :
    Untouched .anywhere 0 (Parser.accept kind) := by
  refine (acceptIf? fun t ht => ?_).andThen fun _ => pure _
  rw [of_decide_eq_true ht]
  exact ⟨hk, hne⟩

/-- A semicolon before the end. -/
theorem acceptSemicolon : Untouched .beforeEnd 0 (Parser.accept (.punctuator .semicolon)) := by
  refine ofBalanced (fun n c c' s hc _ hlt => ?_) fun hrun => accept_balanced hrun rfl
  rw [accept_run, accept_run, hc.token hlt]

/-- What follows an opening bracket before the end is inside of brackets. -/
theorem opening {kind : TokenKind} (hk : kind.weight = 1) {f : PUnit → Parser β}
    (hf : Untouched .inside (-1) (f ⟨⟩)) :
    Untouched .beforeEnd 0 (discard (Parser.require kind) >>= f) := by
  intro n c c' s hc hs hlt
  rw [discard_bind]
  refine bind_run (require hk hc hs hlt).1 fun a t hrun => ?_
  obtain ⟨hkind, -, rfl⟩ := require_ok_iff.1 hrun
  have hdepth : depth c.token s.advanced.position = depth c.token s.position + 1 := by
    rw [State.advanced_position, depth, hkind, hk]
  have hplace := hc.inside hs (hkind ▸ hk)
  obtain ⟨hsame, hlead⟩ := hf hc (s := s.advanced) (Nat.succ_le_of_lt hlt) hplace
  exact ⟨hsame, hlead.shifted hdepth rfl⟩

/-- An opening bracket that may be missing. -/
theorem acceptOpening {kind : TokenKind} (hk : kind.weight = 1) {f : Bool → Parser β}
    (hfound : Untouched .inside (-1) (f true)) (hmissing : Untouched .inside 0 (f false)) :
    Untouched .inside 0 (Parser.accept kind >>= f) := by
  intro n c c' s hc hs hdepth
  have hlt := hc.lt hs hdepth
  rw [accept_bind, accept_bind, hc.token hlt]
  split
  next hkind =>
    have hinside : depth c.token s.advanced.position = depth c.token s.position + 1 := by
      rw [State.advanced_position, depth, hkind, hk]
    have hplace := hc.inside hs (hkind ▸ hk)
    obtain ⟨hsame, hlead⟩ := hfound hc (s := s.advanced) (Nat.succ_le_of_lt hlt) hplace
    exact ⟨hsame, hlead.shifted hinside rfl⟩
  next => exact hmissing hc (s := s.looked 0) hs hdepth

/-- A closing bracket that may be missing. -/
theorem acceptClosing {kind : TokenKind} (hk : kind.weight = -1) {f : Bool → Parser β}
    (hfound : Untouched .anywhere 0 (f true)) (hmissing : Untouched .inside (-1) (f false)) :
    Untouched .inside (-1) (Parser.accept kind >>= f) := by
  intro n c c' s hc hs hdepth
  have hlt := hc.lt hs hdepth
  rw [accept_bind, accept_bind, hc.token hlt]
  split
  next hkind =>
    have houtside : depth c.token s.advanced.position = depth c.token s.position + -1 := by
      rw [State.advanced_position, depth, hkind, hk]
    -- Behind the bracket the text may be at its end.
    obtain ⟨hsame, hlead⟩ := hfound hc (s := s.advanced) (Nat.succ_le_of_lt hlt) trivial
    exact ⟨hsame, hlead.shifted houtside rfl⟩
  next => exact hmissing hc (s := s.looked 0) hs hdepth

/-- A part that ends with its closing bracket. -/
theorem close {kind : TokenKind} (hk : kind.weight = -1) (a : α) :
    Untouched .inside (-1) (discard (Parser.require kind) >>= fun _ => Pure.pure a) := by
  exact (ofBeforeEnd (drop hk)).andThen fun _ => pure _

/-- What has been read up to the end has the same place. -/
theorem spanSince_same (hc : c.GoesOn n c') {i : Nat} (hlt : i < t.position)
    (ht : t.position ≤ n) : spanSince c' i t = spanSince c i t := by
  rw [spanSince, spanSince, if_pos hlt, if_pos hlt, hc.token (Nat.lt_of_lt_of_le hlt ht),
    hc.token (Nat.lt_of_lt_of_le (Nat.sub_one_lt (Nat.ne_zero_of_lt hlt)) ht)]

theorem spanned_same (hc : c.GoesOn n c') {p : Parser (Span → α)} (hmoves : Moves p)
    (hsame : p c' s = p c s) (hlead : Leads n c s x (p c s)) :
    Parser.spanned p c' s = Parser.spanned p c s ∧ Leads n c s x (Parser.spanned p c s) := by
  rw [spanned_run, spanned_run, hsame]
  cases hrun : p c s with
  | error e t => exact ⟨rfl, fun a u h => by cases h⟩
  | ok make t =>
    obtain ⟨ht, hdepth⟩ := hlead hrun
    dsimp only
    refine ⟨by rw [spanSince_same hc (hmoves hrun) ht], fun a u h => ?_⟩
    injection h with _ h
    subst h
    exact ⟨ht, hdepth⟩

theorem spanned {p : Parser (Span → α)} (hmoves : Moves p) (hp : Untouched place x p) :
    Untouched place x (Parser.spanned p) := by
  intro n c c' s hc hs hplace
  obtain ⟨hsame, hlead⟩ := hp hc hs hplace
  exact spanned_same hc hmoves hsame hlead

theorem withNames (f : NameRules → NameRules) {p : Parser α} (hp : Untouched place x p) :
    Untouched place x (Parser.withNames f p) := by
  intro n c c' s hc hs hplace
  exact hp (hc.withNames f) hs hplace

/-! ### Names and literals -/

/-- A parser that reads one token and asks for no other. -/
theorem ofNext {f : Token → Parser β} (hf : ∀ t, Untouched .anywhere 0 (f t))
    (hreads : ∀ {c : Context} {s t : State} {b : β}, (Parser.next >>= f) c s = .ok b t →
      Reads c.token s.position t.position) : Untouched .beforeEnd 0 (Parser.next >>= f) := by
  refine ofBalanced (fun n c c' s hc _ hlt => ?_) fun hrun => (hreads hrun).balanced
  rw [next_bind, next_bind, hc.token hlt]
  exact (hf _ hc (Nat.succ_le_of_lt hlt) trivial).1

theorem variableName : Untouched .beforeEnd 0 variableName := by
  refine ofNext (fun t => nameRules.andThen fun rules => ite (fun _ => ?_) fun _ => fail _)
    variableName_reads
  exact (identifierText t).andThen fun name => (checkArguments t name).andThen fun _ => pure _

/-- A part that reads tokens whenever it succeeds, with its place. -/
theorem spannedOf {p : Parser (Span → α)}
    (hreads : ∀ {c : Context} {s t : State} {a : α},
      Parser.spanned p c s = .ok a t → Reads c.token s.position t.position)
    (hp : Untouched place x p) : Untouched place x (Parser.spanned p) :=
  spanned (Advances.of_spanned hreads).moves hp

theorem identifier : Untouched .beforeEnd 0 identifier :=
  spannedOf identifier_reads (variableName.andThen fun _ => pure _)

theorem variableUse : Untouched .beforeEnd 0 variableUse :=
  spannedOf variableUse_reads (variableName.andThen fun _ => pure _)

theorem definitionName? : Untouched .anywhere 0 definitionName? := by
  refine nameRules.andThen fun rules => (acceptIf? fun t ht => ⟨?_, ?_⟩).andThen fun _ => pure _
  · exact NameRules.isPlain_of_allows ht
  · intro hkind
    rw [hkind] at ht
    cases ht

/-- A sigil without a name is an error at what follows it, so it has to be inside of brackets. -/
theorem privateName : Untouched .inside 0 privateName := by
  have sigil : Untouched .beforeEnd 0 (Parser.require .privateName) := require rfl
  refine (ofBeforeEnd sigil).bind fun t => ite (fun _ => ?_) fun _ => ?_
  · exact peekBind nofun fun _ => fail _
  · split
    · exact pure _
    · exact fail _

theorem numberValue : Untouched .beforeEnd 0 numberValue := by
  refine (require rfl).andThen fun t => ?_
  split
  · exact pure _
  · exact fail _

theorem stringValue : Untouched .beforeEnd 0 stringValue := by
  refine (require rfl).andThen fun t => ?_
  split
  · exact pure _
  · exact fail _

theorem numberLiteral : Untouched .beforeEnd 0 numberLiteral :=
  spannedOf numberLiteral_reads (numberValue.andThen fun _ => pure _)

theorem stringLiteral : Untouched .beforeEnd 0 stringLiteral :=
  spannedOf stringLiteral_reads (stringValue.andThen fun _ => pure _)

theorem boolLiteral : Untouched .beforeEnd 0 boolLiteral := by
  refine spannedOf boolLiteral_reads (ofNext (fun t => ?_) fun hrun => ?_)
  · split
    · exact pure _
    · exact pure _
    · exact fail _
  · exact boolLiteral_reads (spanned_ok_iff.2 ⟨_, hrun, rfl⟩)

/-- A word by itself. -/
theorem word {kind : TokenKind} (hk : kind.weight = 0) (make : Span → α)
    (hreads : ∀ {c : Context} {s t : State} {a : α},
      Parser.spanned (discard (Parser.require kind) >>= fun _ => Pure.pure make) c s = .ok a t →
        Reads c.token s.position t.position) :
    Untouched .beforeEnd 0
      (Parser.spanned (discard (Parser.require kind) >>= fun _ => Pure.pure make)) :=
  spannedOf hreads ((drop hk).andThen fun _ => pure _)

theorem nullLiteral : Untouched .beforeEnd 0 nullLiteral := word rfl _ nullLiteral_reads

theorem superReference : Untouched .beforeEnd 0 superReference := word rfl _ superReference_reads

theorem thisReference : Untouched .beforeEnd 0 thisReference := word rfl _ thisReference_reads

theorem emptyStatement : Untouched .beforeEnd 0 emptyStatement := word rfl _ emptyStatement_reads

theorem declarationKind : Untouched .beforeEnd 0 declarationKind := by
  refine ofNext (fun t => ?_) declarationKind_reads
  split
  · exact pure _
  · exact pure _
  · exact pure _
  · exact fail _

end Untouched

/-! ### A known token in front -/

/-- The same of parsers that begin with a known token, inside of brackets. -/
def UntouchedAt (first : Token) (x : Int) {α : Type} (p : Parser α) : Prop :=
  ∀ ⦃n : Nat⦄ ⦃c c' : Context⦄ ⦃s : State⦄, c.GoesOn n c' → s.position ≤ n →
    1 ≤ depth c.token s.position → c.token s.position = first →
    p c' s = p c s ∧ Leads n c s x (p c s)

namespace UntouchedAt

variable {first : Token} {x : Int} {α β : Type}

theorem ite {b : Prop} [Decidable b] {p q : Parser α} (hp : b → UntouchedAt first x p)
    (hq : ¬ b → UntouchedAt first x q) : UntouchedAt first x (if b then p else q) := by
  by_cases h : b
  · rw [if_pos h]
    exact hp h
  · rw [if_neg h]
    exact hq h

theorem bind {p : Parser α} {f : α → Parser β} (hp : UntouchedAt first 0 p)
    (hf : ∀ a, Untouched .inside x (f a)) : UntouchedAt first x (p >>= f) := by
  intro n c c' s hc hs hdepth hfirst
  obtain ⟨hsame, hlead⟩ := hp hc hs hdepth hfirst
  refine Untouched.bind_run hsame fun a t hrun => ?_
  obtain ⟨ht, hback⟩ := hlead hrun
  have hplace : Place.inside.Holds n c.token t.position := by
    rw [Place.Holds, hback, Int.add_zero]
    exact hdepth
  obtain ⟨hsame', hlead'⟩ := hf a hc ht hplace
  exact ⟨hsame', hlead'.shifted hback (Int.zero_add x)⟩

theorem position {f : Nat → Parser β} (hf : ∀ i, UntouchedAt first x (f i)) :
    UntouchedAt first x (Parser.position >>= f) := by
  intro n c c' s hc hs hdepth hfirst
  rw [position_bind, position_bind]
  exact hf _ hc hs hdepth hfirst

/-- The token is read. -/
theorem next (hweight : 0 ≤ first.kind.weight) {f : Token → Parser β}
    (hf : Untouched .inside (x - first.kind.weight) (f first)) :
    UntouchedAt first x (Parser.next >>= f) := by
  intro n c c' s hc hs hdepth hfirst
  have hlt := hc.lt hs hdepth
  rw [next_bind, next_bind, hc.token hlt, hfirst]
  have hbehind : depth c.token s.advanced.position
      = depth c.token s.position + first.kind.weight := by
    rw [State.advanced_position, depth, hfirst]
  have hplace : Place.inside.Holds n c.token s.advanced.position := by
    rw [Place.Holds, hbehind]
    omega
  obtain ⟨hsame, hlead⟩ := hf hc (Nat.succ_le_of_lt hlt) hplace
  exact ⟨hsame, hlead.shifted hbehind (by omega)⟩

/-- A token that is no bracket is read. -/
theorem nextPlain (hplain : first.kind.isPlain) {f : Token → Parser β}
    (hf : Untouched .inside x (f first)) : UntouchedAt first x (Parser.next >>= f) := by
  have hweight := (TokenKind.isPlain_iff.1 hplain).1
  refine next (Int.le_of_eq hweight.symm) ?_
  rw [hweight, Int.sub_zero]
  exact hf

/-- The token after the next one. Where the next one is the last bracket, it is the end of the first
text and the semicolon in the second one, and both have to mean the same. -/
theorem look {f : Token → Parser β} (hf : ∀ t, UntouchedAt first x (f t))
    (hend : ∀ t t' : Token, t.kind = .eof → t'.kind = .punctuator .semicolon → f t' = f t) :
    UntouchedAt first x (Parser.look 1 >>= f) := by
  intro n c c' s hc hs hdepth hfirst
  rw [look_bind, look_bind, hc.second (hc.lt hs hdepth) hend]
  exact hf _ hc (s := s.looked 1) hs hdepth hfirst

theorem spanned {p : Parser (Span → α)} (hmoves : Moves p) (hp : UntouchedAt first x p) :
    UntouchedAt first x (Parser.spanned p) := by
  intro n c c' s hc hs hdepth hfirst
  obtain ⟨hsame, hlead⟩ := hp hc hs hdepth hfirst
  exact Untouched.spanned_same hc hmoves hsame hlead

end UntouchedAt

theorem Untouched.at {x : Int} {α : Type} {p : Parser α} (hp : Untouched .inside x p)
    (first : Token) : UntouchedAt first x p := fun _ _ _ _ hc hs hdepth _ => hp hc hs hdepth

namespace Untouched

open Grammar

variable {place : Place} {x : Int} {α β : Type}

/-- Inside of brackets the next token may be known before it is read. -/
theorem peekAt {f : Token → Parser β} (hf : ∀ t, UntouchedAt t x (f t)) :
    Untouched .inside x (Parser.peek >>= f) := by
  intro n c c' s hc hs hdepth
  rw [peek_bind, peek_bind, hc.token (hc.lt hs hdepth)]
  exact hf _ hc (s := s.looked 0) hs hdepth rfl

/-- The token after the next one, where the next one does not matter. -/
theorem look {f : Token → Parser β} (hplace : place ≠ .anywhere)
    (hf : ∀ t, Untouched place x (f t))
    (hend : ∀ t t' : Token, t.kind = .eof → t'.kind = .punctuator .semicolon → f t' = f t) :
    Untouched place x (Parser.look 1 >>= f) := by
  intro n c c' s hc hs hbegins
  have hlt := hc.lt_of_place hplace hs hbegins
  rw [look_bind, look_bind, hc.second hlt hend]
  exact hf _ hc (s := s.looked 1) hs hbegins

theorem directKey : Untouched .inside 0 directKey := by
  refine spannedOf directKey_reads (peekAt fun first => UntouchedAt.bind ?_ fun _ => pure _)
  unfold directKeyText
  split
  · exact (ofBeforeEnd stringValue).at _
  · exact ((ofBeforeEnd numberValue).andThen fun _ => pure _).at _
  next hkind =>
    refine .nextPlain (by rw [hkind]; rfl) ?_
    exact ofAnywhere ((identifierText _).andThen fun name =>
      (checkArguments _ name).andThen fun _ => pure _)
  next hkind => exact .nextPlain (by rw [hkind]; rfl) (pure _)
  · exact (fail _).at _

theorem memberAccess (object : Expr) : Untouched .inside 0 (memberAccess object) := by
  have word {t : Token} (hplain : t.kind.isPlain) : UntouchedAt t 0 (do
      Functor.discard Parser.next
      let name ← Grammar.identifierText t
      Parser.checkArguments t name
      return Expr.member (object.span ∪ t.span) object name) := by
    rw [discard_bind]
    refine .nextPlain hplain (ofAnywhere ?_)
    exact (identifierText t).andThen fun name => (checkArguments t name).andThen fun _ => pure _
  refine peekAt fun t => ?_
  split
  · exact (privateName.andThen fun name => (usePrivate name).andThen fun _ => pure _).at _
  next hkind => exact word (by rw [hkind]; rfl)
  next hkind => exact word (by rw [hkind]; rfl)
  · exact (fail _).at _

end Untouched

end EcmaScript
