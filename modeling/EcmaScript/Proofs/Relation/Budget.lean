import EcmaScript.Proofs.ClassScopes.Noting
import EcmaScript.Proofs.Relation.Steps

namespace EcmaScript

open EcmaScript.Parser

/-!
# The budget suffices

Statements and expressions read a token before they contain one another, but for the expression with
which a statement begins. So two steps of the budget for each token that is left are enough.

* `Finishes` — a run that comes to an end, and does not go back;
* `Ample` — every run does so that starts near enough to the end of the text;
* `Rules.Suffices` — this holds of both recursive rules, and of lists;
* `Rules.within_ample` — how near is near enough for a budget;
* `parse_ne_exhausted` — the budget for a whole script suffices.
-/

/-! ### Runs that finish -/

/-- The run ends, well or with a syntax error. Where it ends well, it has not gone back before
position `i`. -/
def Finishes {α : Type} (r : EStateM.Result Failure State α) (i : Nat) : Prop :=
  match r with
  | .ok _ t => i ≤ t.position
  | .error (.error _) _ => True
  | .error .exhausted _ => False

/-- Where at most `k` tokens are left, the end of the text included, every run finishes. -/
def Ample (k : Nat) {α : Type} (p : Parser α) : Prop :=
  1 ≤ k → ∀ ⦃c : Context⦄ ⦃s : State⦄, c.tokens.size < s.position + k →
    Finishes (p c s) s.position

/-- The same, for contexts with certain flags only. -/
def AmpleUnder (k : Nat) (fl : Flags) {α : Type} (p : Parser α) : Prop :=
  1 ≤ k → ∀ ⦃c : Context⦄ ⦃s : State⦄, c.options.flags = fl → c.tokens.size < s.position + k →
    Finishes (p c s) s.position

variable {α β : Type} {c : Context} {s t u : State} {i j k m n : Nat}

/-- A token that is not the end of the text stands inside of it. -/
theorem Context.lt_size (h : (c.token i).kind ≠ .eof) : i < c.tokens.size := by
  by_contra hi
  apply h
  rw [token, Array.getD_eq_getD_getElem?, Array.getElem?_eq_none (Nat.le_of_not_lt hi)]
  rfl

namespace Finishes

theorem mono {r : EStateM.Result Failure State α} (h : Finishes r j) (hij : i ≤ j) :
    Finishes r i := by
  match r, h with
  | .ok _ _, h => exact Nat.le_trans hij h
  | .error (.error _) _, _ => trivial

/-- A sequence finishes when its first part does, and what is behind it then. -/
theorem bind {p : Parser α} {f : α → Parser β} (hp : Finishes (p c s) i)
    (hf : ∀ a u, p c s = .ok a u → i ≤ u.position → Finishes (f a c u) i) :
    Finishes ((p >>= f) c s) i := by
  rw [bind_apply]
  cases hrun : p c s with
  | ok a u =>
    rw [hrun] at hp
    exact hf a u hrun hp
  | error e u =>
    rw [hrun] at hp
    cases e with
    | error e => trivial
    | exhausted => exact hp

theorem spanned {p : Parser (Span → α)} (hp : Finishes (p c s) i) :
    Finishes (Parser.spanned p c s) i := by
  rw [spanned_run]
  match p c s, hp with
  | .ok _ _, hp => exact hp
  | .error (.error _) _, _ => trivial

/-- What is held back finishes wherever it ends. -/
theorem attempt_bind {p : Parser α} {f : Except SyntaxError α → Parser β}
    (hp : Finishes (p c s) j) (hf : ∀ found u, Finishes (f found c u) i) :
    Finishes ((attempt p >>= f) c s) i := by
  rw [Parser.attempt_bind]
  cases hrun : p c s with
  | ok a u => exact hf _ _
  | error e u =>
    rw [hrun] at hp
    cases e with
    | error e => exact hf _ _
    | exhausted => exact hp.elim

theorem accept_bind {kind : TokenKind} {f : Bool → Parser β}
    (htrue : (c.token s.position).kind = kind → Finishes (f true c s.advanced) i)
    (hfalse : (c.token s.position).kind ≠ kind → Finishes (f false c (s.looked 0)) i) :
    Finishes ((accept kind >>= f) c s) i := by
  rw [Parser.accept_bind]
  split
  next h => exact htrue h
  next h => exact hfalse h

theorem require_bind {kind : TokenKind} {f : Token → Parser β}
    (h : (c.token s.position).kind = kind → Finishes (f (c.token s.position) c s.advanced) i) :
    Finishes ((require kind >>= f) c s) i := by
  rw [bind_apply, require_run]
  split
  next hrun =>
    split at hrun
    next hkind =>
      injection hrun with h₁ h₂
      subst h₁ h₂
      exact h hkind
    next => cases hrun
  next hrun =>
    split at hrun
    next => cases hrun
    next =>
      injection hrun with h₁ h₂
      subst h₁
      trivial

end Finishes

/-! ### Plain steps -/

namespace Ample

theorem pure (a : α) : Ample k (Pure.pure a : Parser α) := fun _ _ _ _ => Nat.le_refl _

theorem fail (e : SyntaxError) : Ample k (Parser.fail e : Parser α) := fun _ _ _ _ => trivial

theorem bind {p : Parser α} {f : α → Parser β} (hp : Ample k p) (hf : ∀ a, Ample k (f a)) :
    Ample k (p >>= f) := by
  intro hk c s hs
  refine (hp hk hs).bind fun a u _ hu => ?_
  exact (hf a hk (by omega)).mono hu

theorem look (n : Nat) : Ample k (Parser.look n) := fun _ _ _ _ => Nat.le_refl _

theorem next : Ample k Parser.next := fun _ _ _ _ => Nat.le_succ _

theorem acceptIf? (cond : Token → Bool) : Ample k (Parser.acceptIf? cond) := by
  intro _ c s _
  rw [acceptIf?_run]
  split
  · exact Nat.le_succ _
  · exact Nat.le_refl _

theorem require (kind : TokenKind) : Ample k (Parser.require kind) := by
  refine next.bind fun t => ?_
  split
  · exact pure _
  · exact fail _

theorem privateName : Ample k Grammar.privateName := by
  refine (require _).bind fun t => ?_
  split
  · exact (look 0).bind fun _ => fail _
  · split
    · exact pure _
    · exact fail _

theorem checkArguments (t : Token) (name : String) : Ample k (Parser.checkArguments t name) := by
  intro _ c s _
  simp only [Parser.checkArguments, read_bind, get_bind, ite_run]
  split
  · trivial
  · exact Nat.le_refl _

theorem checkSuper (t : Token) : Ample k (Parser.checkSuper t) := by
  intro _ c s _
  simp only [Parser.checkSuper, read_bind, get_bind, ite_run]
  split
  · trivial
  · exact Nat.le_refl _

theorem usePrivate (name : Ident) : Ample k (Parser.usePrivate name) := by
  intro _ c s _
  rw [usePrivate_run]
  cases s.scopes.use name.name name.span with
  | ok scopes => exact Nat.le_refl _
  | error e =>
    dsimp only
    split
    · trivial
    · exact Nat.le_refl _

theorem declarePrivate (name : Ident) : Ample k (Parser.declarePrivate name) := by
  intro _ c s _
  rw [declarePrivate_run]
  cases s.scopes.declare name.name name.span with
  | ok scopes => exact Nat.le_refl _
  | error e => trivial

theorem declaredName : Ample k Grammar.declaredName := by
  refine privateName.bind fun name => ?_
  split
  · exact fail _
  · exact (declarePrivate name).bind fun _ => pure _

theorem inInitializer {p : Parser α} (hp : Ample k p) : Ample k (Parser.inInitializer p) := by
  intro hk c s hs
  have h := hp hk (s := { s with inInitializer := true }) hs
  rw [inInitializer_run]
  cases hrun : p c { s with inInitializer := true } with
  | ok a u =>
    rw [hrun] at h
    exact h
  | error e u =>
    rw [hrun] at h
    cases e with
    | error e => trivial
    | exhausted => exact h

theorem inClass {p : Parser α} (hp : ∀ fl, AmpleUnder k fl p) : Ample k (Parser.inClass p) := by
  intro hk c s hs
  rw [inClass_run]
  split
  · have h := hp _ hk (s := s.entered) rfl hs
    cases hrun : p c s.entered with
    | ok a u =>
      rw [hrun] at h
      dsimp only
      rw [endClass_run]
      cases exitCount c u with
      | ok count => exact h
      | error e => trivial
    | error e u =>
      rw [hrun] at h
      cases e with
      | error e =>
        dsimp only
        rw [endClass_run]
        trivial
      | exhausted => exact h
  · exact hp _ hk rfl hs

/-- Fewer tokens are enough too. -/
theorem anti {p : Parser α} (hp : Ample k p) (hjk : j ≤ k) : Ample j p :=
  fun hj _ _ hs => hp (Nat.le_trans hj hjk) (by omega)

theorem under {p : Parser α} (hp : Ample k p) (fl : Flags) : AmpleUnder k fl p :=
  fun hk _ _ _ hs => hp hk hs

/-- Behind a part that has read a token, one token less is left. -/
theorem first {p : Parser α} {f : α → Parser β} (hadvances : Advances p) (hp : Ample k p)
    (hf : ∀ a, Ample (k - 1) (f a)) : Ample k (p >>= f) := by
  intro hk c s hs
  refine (hp hk hs).bind fun a u hrun hu => ?_
  obtain ⟨hlt, hkind⟩ := hadvances hrun
  have := Context.lt_size hkind
  exact (hf a (by omega) (by omega)).mono hu

theorem withNames (f : NameRules → NameRules) {p : Parser α} (hp : Ample k p) :
    Ample k (Parser.withNames f p) :=
  fun hk c _ hs => hp hk (c := { c with names := f c.names }) hs

theorem since (i : Nat) : Ample k (Parser.since i) := by
  intro _ c s _
  rw [since_run]
  exact Nat.le_refl _

theorem spanned {p : Parser (Span → α)} (hp : Ample k p) : Ample k (Parser.spanned p) :=
  fun hk _ _ hs => (hp hk hs).spanned

theorem plainSteps (k : Nat) : PlainSteps fun _ p _ => Ample k p where
  pure := .pure
  fail _ := .fail _
  bind := .bind
  position := fun _ _ _ _ => Nat.le_refl _
  spanned _ := .spanned
  look := .look
  next := .next
  acceptIf? := .acceptIf?
  named _ := fun _ _ _ _ => Nat.le_refl _
  flags := fun _ _ _ _ => Nat.le_refl _
  report _ := fun _ _ _ _ => Nat.le_refl _
  withNames _ := withNames _
  checkArguments := .checkArguments
  checkSuper := .checkSuper
  usedName := privateName.bind fun name => (usePrivate name).bind fun _ => pure _

theorem drop (kind : TokenKind) : Ample k (discard (Parser.require kind)) := by
  rw [discard_eq_bind]
  exact (require kind).bind fun _ => pure _

theorem accept (kind : TokenKind) : Ample k (Parser.accept kind) := (plainSteps k).accept kind

/-- A part from behind position `i` on, and what is behind it. -/
theorem run_bind {p : Parser α} {f : α → Parser β} (hp : Ample k p) (hk : 1 ≤ k)
    (hu : c.tokens.size < u.position + k) (hi : i ≤ u.position)
    (hf : ∀ a v, p c u = .ok a v → i ≤ v.position → Finishes (f a c v) i) :
    Finishes ((p >>= f) c u) i :=
  ((hp hk hu).mono hi).bind hf

end Ample

theorem AmpleUnder.bind {fl : Flags} {p : Parser α} {f : α → Parser β} (hp : AmpleUnder k fl p)
    (hf : ∀ a, AmpleUnder k fl (f a)) : AmpleUnder k fl (p >>= f) := by
  intro hk c s hfl hs
  refine (hp hk hfl hs).bind fun a u _ hu => ?_
  exact (hf a hk hfl (by omega)).mono hu

/-! ### Lists

Before a list goes on it has read a token, so that a budget of one step for each token that is left
is enough. -/

namespace Ample

open EcmaScript.Grammar

variable {g : Rules}

theorem separated {close : TokenKind} {item : Parser (Span → α)} (hadvances : Advances item)
    (hitem : Ample k item) (hm : 1 ≤ m) (hk : 1 ≤ k) (hsm : c.tokens.size < s.position + m)
    (hsk : c.tokens.size < s.position + k) :
    Finishes (separated (.punctuator .comma) close item m c s) s.position := by
  induction m generalizing s with
  | zero => omega
  | succ m ih =>
    refine .accept_bind (fun _ => Nat.le_succ _) fun _ => ?_
    refine hitem.spanned.run_bind hk (u := s.looked 0) hsk (Nat.le_refl _) fun first u hrun hu => ?_
    have hu : s.position ≤ u.position := hu
    refine .accept_bind (fun hcomma => ?_) fun _ => ?_
    · -- The separator stands inside of the text, so the budget is not used up.
      have hsize := Context.lt_size (c := c) (i := u.position) (by rw [hcomma]; decide)
      obtain ⟨make, hmake, -⟩ := spanned_ok_iff.1 hrun
      have hlt : s.position < u.position := (hadvances hmake).1
      have hrest := ih (s := u.advanced) (by omega) (by simp; omega) (by simp; omega)
      exact (hrest.mono (Nat.le_trans hu (Nat.le_succ _))).bind fun _ _ _ hv => hv
    · exact (drop close).run_bind hk (u := u.looked 0) (by simp; omega) hu fun _ _ _ hv => hv

theorem whole (hexpr : ∀ mode, Ample k (g.expr mode)) (stops : List TokenKind) :
    Ample k (g.whole stops) :=
  (hexpr _).bind fun _ => .pure _

theorem elements (hexpr : ∀ mode, Ample k (g.expr mode)) (hm : 1 ≤ m) (hk : 1 ≤ k)
    (hsm : c.tokens.size < s.position + m) (hsk : c.tokens.size < s.position + k) :
    Finishes (elements g m c s) s.position := by
  induction m generalizing s with
  | zero => omega
  | succ m ih =>
    have rest {u : State} (hu : s.position ≤ u.position) (e : Element)
        (hcomma : (c.token u.position).kind = .punctuator .comma) :
        Finishes ((do
          let rest ← Grammar.elements g m
          return e :: rest) c u.advanced) s.position := by
      have hsize := Context.lt_size (c := c) (i := u.position) (by rw [hcomma]; decide)
      have hrest := ih (s := u.advanced) (by omega) (by simp; omega) (by simp; omega)
      exact (hrest.mono (Nat.le_trans hu (Nat.le_succ _))).bind fun _ _ _ hv => hv
    refine .accept_bind (fun hcomma => rest (Nat.le_refl _) _ hcomma) fun _ => ?_
    rw [if_neg (by decide), peek_bind, ite_run]
    split
    · exact Nat.le_refl _
    refine (accept _).run_bind hk (u := (s.looked 0).looked 0) hsk (Nat.le_refl _)
      fun spread u _ hu => ?_
    refine (whole hexpr _).run_bind hk (by have : s.position ≤ u.position := hu; omega) hu
      fun value v _ hv => ?_
    have hv : s.position ≤ v.position := hv
    rw [peek_bind, ite_run]
    split
    · exact hv
    · rw [discard_bind]
      exact .require_bind fun hcomma => rest (u := v.looked 0) hv _ hcomma

theorem statements (hg : g.Reading) (hstmt : Ample k g.stmt) (stop : TokenKind) (hm : 1 ≤ m)
    (hk : 1 ≤ k) (hsm : c.tokens.size < s.position + m) (hsk : c.tokens.size < s.position + k) :
    Finishes (statements g stop m c s) s.position := by
  induction m generalizing s with
  | zero => omega
  | succ m ih =>
    rw [Grammar.statements, peek_bind, ite_run]
    split
    · exact Nat.le_refl _
    refine hstmt.run_bind hk (u := s.looked 0) hsk (Nat.le_refl _) fun first u hrun hu => ?_
    have hreads := hg.stmt hrun
    have hlt : s.position < u.position := hreads.lt
    have hsize := Context.lt_size hreads.kind_ne_eof
    have hsize : s.position < c.tokens.size := hsize
    have hrest := ih (s := u) (by omega) (by omega) (by omega)
    exact (hrest.mono hlt.le).bind fun _ _ _ hv => hv

theorem declarators (hg : g.Reading) (hexpr : ∀ mode, Ample k (g.expr mode)) (hm : 1 ≤ m)
    (hk : 1 ≤ k) (hsm : c.tokens.size < s.position + m)
    (hsk : c.tokens.size < s.position + k) : Finishes (declarators g m c s) s.position := by
  have declarator : Ample k (Grammar.declarator g) := by
    have h := @ClosedOnTokens.declarator _ g g (plainSteps k).tokens
    exact h fun mode _ => hexpr mode
  induction m generalizing s with
  | zero => omega
  | succ m ih =>
    refine declarator.run_bind hk hsk (Nat.le_refl _) fun first u hrun hu => ?_
    have hlt : s.position < u.position := (declarator_reads hg hrun).lt
    dsimp only
    refine .accept_bind (fun _ => Nat.le_trans hu (Nat.le_succ _)) fun _ => ?_
    rw [if_neg (by decide), ite_run]
    split
    · exact hu
    rw [peek_bind, ite_run]
    split
    · exact hu
    rw [discard_bind]
    refine .require_bind fun hcomma => ?_
    have hcomma : (c.token u.position).kind = .punctuator .comma := hcomma
    have hsize := Context.lt_size (c := c) (i := u.position) (by rw [hcomma]; decide)
    have hrest := ih (s := ((u.looked 0).looked 0).advanced) (by omega) (by simp; omega)
      (by simp; omega)
    exact (hrest.mono (Nat.le_trans hu (Nat.le_succ _))).bind fun _ _ _ hv => hv

theorem classItems (hg : g.Reading) {fl : Flags} (hitem : AmpleUnder k fl (classItem? g))
    (hfl : c.options.flags = fl) (hm : 1 ≤ m) (hk : 1 ≤ k) (hsm : c.tokens.size < s.position + m)
    (hsk : c.tokens.size < s.position + k) : Finishes (classItems g m c s) s.position := by
  induction m generalizing s with
  | zero => omega
  | succ m ih =>
    refine .accept_bind (fun _ => Nat.le_succ _) fun _ => ?_
    refine (hitem hk hfl (s := s.looked 0) hsk).bind fun first u hrun hu => ?_
    have hreads := classItem?_reads hg hrun
    have hlt : s.position < u.position := hreads.lt
    have hsize : s.position < c.tokens.size := Context.lt_size hreads.kind_ne_eof
    have hrest := ih (s := u) (by omega) (by omega) (by omega)
    exact (hrest.mono hlt.le).bind fun _ _ _ hv => hv

theorem climb {mode : ExprMode}
    (hcontinuation : ∀ start op left, Ample k (continuation g mode start op left)) {left : Expr}
    {inserted : Bool} (hm : 1 ≤ m) (hk : 1 ≤ k) (hsm : c.tokens.size < s.position + m)
    (hsk : c.tokens.size < s.position + k) :
    Finishes (climb g mode left inserted m c s) s.position := by
  induction m generalizing s left inserted with
  | zero => omega
  | succ m ih =>
    have rest {u : State} {left : Expr} {inserted : Bool} (hu : s.position < u.position)
        (hkind : (c.token s.position).kind ≠ .eof) :
        Finishes (Grammar.climb g mode left inserted m c u) u.position := by
      have hsize := Context.lt_size hkind
      exact ih (by omega) (by omega) (by omega)
    rw [Grammar.climb, position_bind, next_bind, ite_run]
    split
    · exact Nat.le_refl _
    cases hupdate : (Operator.update? (c.token s.position).kind).filter
        fun _ => !(c.token s.position).newlineBefore with
    | some op =>
      dsimp only
      rw [ite_run]
      split
      · exact Nat.le_refl _
      · have hplain := update?_isPlain (Option.filter_eq_some_iff.1 hupdate).1
        refine .mono (j := s.position + 1) ?_ (Nat.le_succ _)
        exact rest (u := s.advanced) (Nat.lt_succ_self _) (TokenKind.isPlain_iff.1 hplain).2.1
    | none =>
      cases hop : Operator.following? (c.token s.position).kind with
      | some op =>
        dsimp only
        rw [ite_run]
        split
        · exact Nat.le_refl _
        have hkind : (c.token s.position).kind ≠ .eof := by
          intro heof
          rw [heof] at hop
          cases hop
        refine .mono (j := s.position + 1) ?_ (Nat.le_succ _)
        refine (hcontinuation _ _ _).run_bind hk (u := s.advanced) (by simp; omega)
          (Nat.le_refl _) fun found u _ hu => ?_
        exact (rest (Nat.lt_of_succ_le hu) hkind).mono hu
      | none =>
        dsimp only
        rw [ite_run]
        split
        · exact Nat.le_refl _
        · trivial

end Ample

/-! ### The rules -/

/-- Where at most `k` tokens are left, both rules finish, and there is one step of the budget for
each of these tokens. -/
structure Rules.Suffices (g : Rules) (k : Nat) : Prop where
  budget : k ≤ g.budget
  stmt : Ample k g.stmt
  expr (mode : ExprMode) : Ample k (g.expr mode)

namespace Rules.Suffices

open EcmaScript.Grammar

variable {g : Rules}

/-- Over rules that finish with one token less, rules finish from their first token on. -/
theorem lists (hg : g.Reading) (h : g.Suffices (k - 1)) :
    ClosedOnLists (fun _ p _ => Ample k p) (fun _ p _ => Ample (k - 1) p) g g fun _ => True where
  toClosedOnTokens := (Ample.plainSteps (k - 1)).tokens
  outer := (Ample.plainSteps k).tokens
  reading := hg
  modes := .all
  expr mode _ := h.expr mode
  behind hp := hp.anti (Nat.sub_le k 1)
  first := Ample.first
  list _ hadvances hitem := fun hk _ _ hs =>
    have := h.budget
    Ample.separated hadvances hitem (by omega) hk (by omega) hs

theorem closed (hg : g.Reading) (h : g.Suffices (k - 1)) :
    ClosedOnElements (fun _ p _ => Ample k p) (fun _ p _ => Ample (k - 1) p)
      (fun fl _ p _ => AmpleUnder (k - 1) fl p) g g fun _ => True where
  toClosedOnLists := h.lists hg
  stmt := h.stmt
  inInitializer := .inInitializer
  inClass := .inClass
  weaken hp := hp.under _
  class_bind := .bind
  memberAccess := (Ample.plainSteps (k - 1)).memberAccess
  elements := fun hk _ _ hs =>
    have := h.budget
    Ample.elements h.expr (by omega) hk (by omega) hs
  statements stop := fun hk _ _ hs =>
    have := h.budget
    Ample.statements hg h.stmt stop (by omega) hk (by omega) hs
  arrowParameters async := by
    rw [arrowParameters_eq]
    have sign : Ample k arrowSign := by
      refine (Ample.require _).bind fun arrow => ?_
      split
      · exact .fail _
      · exact .pure _
    have before := Ample.withNames (·.forAsync async) (h.lists hg).beforeArrow
    exact before.bind fun _ => sign.bind fun _ => .pure _
  steps := Ample.plainSteps (k - 1)
  class_spanned _ hp := fun hk _ _ hfl hs => (hp hk hfl hs).spanned
  class_flags hf := fun hk _ _ hfl hs => hf _ hfl hk hfl hs
  declaredName _ _ := Ample.declaredName.under _

theorem members (hg : g.Reading) (h : g.Suffices (k - 1)) :
    ClosedOnMembers (fun _ p _ => Ample k p) (fun _ p _ => Ample (k - 1) p)
      (fun fl _ p _ => AmpleUnder (k - 1) fl p) g g fun _ => True where
  toClosed := (h.closed hg).toClosed
  objectMember := (h.closed hg).objectMember
  classItems fl := fun hk _ _ hfl hs =>
    have := h.budget
    Ample.classItems hg ((h.closed hg).classItem? fl) hfl (by omega) hk (by omega) hs

/-! ### Expressions -/

theorem arrowOrGrouping (hg : g.Reading) (h : g.Suffices (k - 1)) (stops : List TokenKind)
    (insertion : Bool) : Ample k (arrowOrGrouping g stops insertion) := by
  intro hk c s hs
  have hclosed := h.closed hg
  refine .attempt_bind (hclosed.arrowParameters false hk hs) fun found u => ?_
  cases found with
  | ok _ =>
    exact (hclosed.arrowFunction trivial).run_bind hk (u := { u with position := s.position }) hs
      (Nat.le_refl _) fun _ _ _ hv => hv
  | error e =>
    dsimp only
    rw [ite_run]
    split
    · trivial
    · exact hclosed.grouping insertion hk (s := { u with position := s.position }) hs

theorem asyncOperand? (hg : g.Reading) (h : g.Suffices (k - 1)) (stops : List TokenKind)
    (first second third : Token) : Ample k (asyncOperand? g stops first second third) := by
  intro hk c s hs
  have hclosed := h.closed hg
  have some {p : Parser Expr} (hp : Ample k p) {i : Nat} (hi : i = s.position) {u : State}
      (hu : u.position = i) :
      Finishes ((do return Option.some (← p)) c u) s.position := by
    exact hp.run_bind hk (by omega) (by omega) fun _ _ _ hv => hv
  rw [Grammar.asyncOperand?, ite_run]
  split
  · exact Nat.le_refl _
  rw [ite_run]
  split
  · rw [position_bind, discard_bind, next_bind]
    refine .attempt_bind (hclosed.arrowParameters true hk (s := s.advanced) (by simp; omega))
      fun found u => ?_
    rw [restore_bind]
    cases found with
    | ok _ => exact some (hclosed.arrowFunction trivial) rfl rfl
    | error e => exact Nat.le_refl _
  rw [ite_run]
  split
  · exact some hclosed.functionExpression rfl rfl
  rw [nameRules_bind, ite_run]
  split
  · exact some (hclosed.arrowFunction trivial) rfl rfl
  · exact Nat.le_refl _

theorem atom (hg : g.Reading) (h : g.Suffices (k - 1)) (mode : ExprMode) (first : Token) :
    Ample k (atom g mode first) := by
  have hmembers := h.members hg
  have htokens := hmembers.outer
  have one {p : Parser Expr} (hp : Ample k p) :
      Ample k (do return (← p, false) : Parser (Expr × Bool)) := hp.bind fun _ => .pure _
  unfold Grammar.atom
  split
  · exact one hmembers.arrayLiteral
  · exact one hmembers.objectLiteral
  · exact one hmembers.classExpression
  · exact one hmembers.functionExpression
  · exact (Ample.checkSuper first).bind fun _ => one htokens.superReference
  · exact one htokens.thisReference
  · exact one htokens.boolLiteral
  · exact one htokens.boolLiteral
  · exact one htokens.nullLiteral
  · exact one htokens.numberLiteral
  · exact one htokens.stringLiteral
  · exact h.arrowOrGrouping hg _ _
  · exact .fail _

theorem operand (hg : g.Reading) (h : g.Suffices (k - 1)) (mode : ExprMode) :
    Ample k (operand g mode) := by
  intro hk c s hs
  have hclosed := h.closed hg
  rw [Grammar.operand, look_bind, look_bind, look_bind, nameRules_bind]
  cases hleading : leadingOperator? c.names (c.token (s.position + 0)).kind with
  | some op =>
    have hplain := leadingOperator?_isPlain hleading
    have hsize := Context.lt_size (c := c) (i := s.position) (TokenKind.isPlain_iff.1 hplain).2.1
    dsimp only
    rw [unary_spanned]
    refine Finishes.spanned ?_
    rw [next_bind]
    have htail : Ample (k - 1) (unaryOperator op >>= openUnary g mode (c.token s.position)) :=
      hclosed.unaryTail trivial (c.token s.position) (leadingOperator?_precedence hleading)
    exact (htail (by omega) (s := (((s.looked 0).looked 1).looked 2).advanced)
      (by simp; omega)).mono (Nat.le_succ _)
  | none =>
    refine (h.asyncOperand? hg _ _ _ _).run_bind hk (u := ((s.looked 0).looked 1).looked 2) hs
      (Nat.le_refl _) fun found u _ hu => ?_
    have hu : s.position ≤ u.position := hu
    cases found with
    | some e => exact hu
    | none =>
      dsimp only
      rw [ite_run]
      split
      · rw [ite_run]
        split
        · exact (hclosed.arrowFunction trivial).run_bind hk (by omega) hu fun _ _ _ hv => hv
        · exact hclosed.outer.variableUse.run_bind hk (by omega) hu fun _ _ _ hv => hv
      · exact (h.atom hg _ _ hk (by omega)).mono hu

theorem continuation (hg : g.Reading) (h : g.Suffices (k - 1)) {mode : ExprMode} (start : Nat)
    (op : Operator) (left : Expr) : Ample (k - 1) (continuation g mode start op left) :=
  (h.closed hg).continuation trivial (fun _ => .since start) left

/-- Over rules that finish with one token less, expressions finish. -/
theorem expression (hg : g.Reading) (h : g.Suffices (k - 1)) (mode : ExprMode) :
    Ample k (expression g mode) := by
  refine .first (.of_reads (operand_reads hg)) (h.operand hg mode) fun found => ?_
  intro hk c s hs
  have := h.budget
  exact Ample.climb (h.continuation hg) (by omega) hk (by omega) hs

theorem statements (hg : g.Reading) (h : g.Suffices (k - 1))
    (hexpr : ∀ mode, Ample k (g.expr mode)) :
    ClosedOnStatements (fun _ p _ => Ample k p) (fun _ p _ => Ample (k - 1) p)
      (fun fl _ p _ => AmpleUnder (k - 1) fl p) g g fun _ => True where
  toClosedOnMembers := h.members hg
  value mode _ := hexpr mode
  declarators := fun hk _ _ hs =>
    have := h.budget
    Ample.declarators hg h.expr (by omega) hk (by omega) hs

/-- Over rules that finish with one token less, and expressions that finish, statements finish. -/
theorem statement (hg : g.Reading) (h : g.Suffices (k - 1))
    (hexpr : ∀ mode, Ample k (g.expr mode)) : Ample k (statement g) :=
  (h.statements hg hexpr).statement

end Rules.Suffices

/-! ### Whole scripts -/

namespace Rules

/-- Two steps for each token suffice for statements, and one step less does for expressions. -/
theorem within_ample (n : Nat) :
    (∀ k, 2 * k ≤ n + 1 → ∀ mode, Ample k ((within n).expr mode))
      ∧ ∀ k, 2 * k ≤ n → Ample k (within n).stmt := by
  induction n with
  | zero =>
    refine ⟨fun k hk _ hk' => ?_, fun k hk hk' => ?_⟩
    · omega
    · omega
  | succ n ih =>
    obtain ⟨hexpr, hstmt⟩ := ih
    have hg := within_reading n
    have hsuffices {k : Nat} (hk : 2 * k ≤ n + 2) : (within n).Suffices (k - 1) := by
      refine ⟨?_, hstmt _ (by omega), hexpr _ (by omega)⟩
      rw [within_budget]
      omega
    refine ⟨fun k hk mode => ?_, fun k hk => ?_⟩
    · exact (hsuffices hk).expression hg mode
    · exact (hsuffices (by omega)).statement hg (hexpr k hk)

theorem within_suffices {n k : Nat} (h : 2 * k ≤ n) : (within n).Suffices k := by
  refine ⟨?_, (within_ample n).2 k h, (within_ample n).1 k (by omega)⟩
  rw [within_budget]
  omega

end Rules

/-- A script finishes with the budget for its tokens. -/
theorem Grammar.script_finishes (c : Context) (s : State) :
    Finishes (script (.within c.budget) c s) 0 := by
  have hsuffices : (Rules.within c.budget).Suffices (c.tokens.size + 1) :=
    Rules.within_suffices (by rw [Context.budget]; omega)
  have hbudget := hsuffices.budget
  refine .bind (p := statements (.within c.budget) .eof (Rules.within c.budget).budget)
    (c := { c with names := .script }) ?_ fun body u _ _ => ?_
  · refine .mono ?_ (Nat.zero_le s.position)
    exact Ample.statements (Rules.within_reading _) hsuffices.stmt .eof
      (m := (Rules.within c.budget).budget) (k := c.tokens.size + 1) (by omega) (by omega)
      (by dsimp only; omega) (by dsimp only; omega)
  rw [discard_bind]
  exact .require_bind fun _ => Nat.zero_le _

/-- **The budget suffices.** No script uses up the budget for its tokens. -/
theorem runScript_ne_exhausted (c : Context) (t : State) : runScript c ≠ .error .exhausted t := by
  intro h
  have hfinishes := Grammar.script_finishes c c.begun
  rw [runScript_run] at h
  split at h
  next => cases h
  next => cases h
  next hrun =>
    rw [hrun] at hfinishes
    exact hfinishes

/-- Whatever the text is, it has a tree or a syntax error. -/
theorem parse_ne_exhausted (source : String) (options : Options) :
    parse source options ≠ .error .exhausted := by
  rw [parse, parseTraced]
  split
  next => rintro ⟨⟩
  next e s hrun =>
    rintro h
    obtain rfl := Except.error.inj h
    exact runScript_ne_exhausted _ _ hrun

end EcmaScript
