import EcmaScript.Proofs.Parser.Runs

namespace EcmaScript

open EcmaScript.Parser

/-!
# What parsers yield

From which place a parser comes to which other place, and what it gives there, whatever has been
looked at and reported before. A sequence yields what its last part does behind the others.

* `Spot` — a token, the classes around it, and whether it lies in a field initializer;
* `Parser.Yields` — from every state at a spot a parser succeeds, and stops at another spot;
* `Parser.Yields.bind`, `Parser.Yields.accept`, `Parser.Yields.spanned`, … — one rule for each
  parser and each combinator.
-/

/-- What a state says about the place where the next part is read. -/
structure Spot where
  index : Nat
  inInitializer : Bool
  scopes : ClassScopes

namespace Spot

/-- Some tokens further on. -/
def step (x : Spot) (n : Nat) : Spot := { x with index := x.index + n }

@[simp] theorem step_index (x : Spot) (n : Nat) : (x.step n).index = x.index + n := rfl
@[simp] theorem step_inInitializer (x : Spot) (n : Nat) :
    (x.step n).inInitializer = x.inInitializer := rfl
@[simp] theorem step_scopes (x : Spot) (n : Nat) : (x.step n).scopes = x.scopes := rfl

@[simp] theorem step_step (x : Spot) (m n : Nat) : (x.step m).step n = x.step (m + n) := by
  simp only [step, Nat.add_assoc]

/-- What is asked inside of initializers only holds outside of them. -/
theorem outside {x : Spot} (h : x.inInitializer = false) {p : Prop} (hin : x.inInitializer = true) :
    p := absurd (h.symm.trans hin) Bool.false_ne_true

end Spot

/-- Where the next part is read. -/
def State.spot (s : State) : Spot := ⟨s.position, s.inInitializer, s.scopes⟩

namespace Parser

variable {α β : Type} {c : Context} {x y z : Spot} {p : Parser α} {f : α → Parser β}
  {P : α → Prop} {Q : β → Prop}

/-- From every state at a spot the parser gives a value of this sort, and stops at the other. -/
def Yields (c : Context) (x : Spot) (p : Parser α) (P : α → Prop) (y : Spot) : Prop :=
  ∀ ⦃s : State⦄, s.spot = x → ∃ a t, p c s = .ok a t ∧ P a ∧ t.spot = y

namespace Yields

/-! ### Sequences -/

theorem pure {a : α} (h : P a) : Yields c x (pure a) P x := fun s hs => ⟨a, s, rfl, h, hs⟩

theorem bind (hp : Yields c x p P y) (hf : ∀ a, P a → Yields c y (f a) Q z) :
    Yields c x (p >>= f) Q z := by
  intro s hs
  obtain ⟨a, t, hrun, ha, ht⟩ := hp hs
  obtain ⟨b, u, hrun', hb, hu⟩ := hf a ha ht
  refine ⟨b, u, ?_, hb, hu⟩
  rw [bind_apply, hrun]
  exact hrun'

theorem mono (hp : Yields c x p P y) {R : α → Prop} (h : ∀ a, P a → R a) : Yields c x p R y := by
  intro s hs
  obtain ⟨a, t, hrun, ha, ht⟩ := hp hs
  exact ⟨a, t, hrun, h a ha, ht⟩

theorem map {g : α → β} (hp : Yields c x p (fun a => Q (g a)) y) : Yields c x (g <$> p) Q y := by
  rw [map_eq_bind]
  exact hp.bind fun a ha => .pure ha

theorem discard {f : PUnit → Parser β} (h : Yields c x (p >>= fun _ => f ⟨⟩) Q y) :
    Yields c x (discard p >>= f) Q y := by
  rwa [discard_bind]

/-! ### Tokens -/

theorem look (n : Nat) {f : Token → Parser β} (h : Yields c x (f (c.token (x.index + n))) Q y) :
    Yields c x (look n >>= f) Q y := by
  rintro s rfl
  exact h (s := s.looked n) rfl

theorem peek {f : Token → Parser β} (h : Yields c x (f (c.token x.index)) Q y) :
    Yields c x (peek >>= f) Q y := look 0 h

theorem next {f : Token → Parser β} (h : Yields c (x.step 1) (f (c.token x.index)) Q y) :
    Yields c x (next >>= f) Q y := by
  rintro s rfl
  exact h (s := s.advanced) rfl

theorem accept {kind : TokenKind} (hkind : (c.token x.index).kind = kind) {f : Bool → Parser β}
    (h : Yields c (x.step 1) (f true) Q y) : Yields c x (accept kind >>= f) Q y := by
  rintro s rfl
  rw [accept_bind, if_pos (show (c.token s.position).kind = kind from hkind)]
  exact h rfl

theorem acceptNot {kind : TokenKind} (hkind : (c.token x.index).kind ≠ kind) {f : Bool → Parser β}
    (h : Yields c x (f false) Q y) : Yields c x (Parser.accept kind >>= f) Q y := by
  rintro s rfl
  rw [accept_bind, if_neg (show (c.token s.position).kind ≠ kind from hkind)]
  exact h rfl

theorem require {kind : TokenKind} (hkind : (c.token x.index).kind = kind) {f : Token → Parser β}
    (h : Yields c (x.step 1) (f (c.token x.index)) Q y) :
    Yields c x (require kind >>= f) Q y := by
  rintro s rfl
  rw [bind_apply, require_run, if_pos (show (c.token s.position).kind = kind from hkind)]
  exact h rfl

theorem position {f : Nat → Parser β} (h : Yields c x (f x.index) Q y) :
    Yields c x (position >>= f) Q y := by
  rintro s rfl
  exact h rfl

theorem restore (i : Nat) {f : Unit → Parser β} (h : Yields c { x with index := i } (f ()) Q y) :
    Yields c x (restore i >>= f) Q y := by
  rintro s rfl
  rw [restore_bind]
  exact h rfl

/-- Whatever the span is. -/
theorem since (start : Nat) {f : Span → Parser β} (h : ∀ span, Yields c x (f span) Q y) :
    Yields c x (since start >>= f) Q y := by
  intro s hs
  rw [since_bind]
  exact h _ hs

theorem spanned {p : Parser (Span → α)}
    (hp : Yields c x p (fun make => ∀ span, P (make span)) y) : Yields c x (spanned p) P y := by
  intro s hs
  obtain ⟨make, t, hrun, hmake, ht⟩ := hp hs
  exact ⟨make _, t, spanned_ok_iff.2 ⟨make, hrun, rfl⟩, hmake _, ht⟩

/-! ### Names, classes and initializers -/

theorem options {f : Options → Parser β} (h : Yields c x (f c.options) Q y) :
    Yields c x (options >>= f) Q y := h

theorem nameRules {f : NameRules → Parser β} (h : Yields c x (f c.names) Q y) :
    Yields c x (nameRules >>= f) Q y := h

theorem withNames {rules : NameRules → NameRules}
    (h : Yields { c with names := rules c.names } x p P y) :
    Yields c x (withNames rules p) P y := h

theorem report (entry : TraceEntry) {f : Unit → Parser β} (h : Yields c x (f ()) Q y) :
    Yields c x (report entry >>= f) Q y := by
  rintro s rfl
  rw [report_bind]
  exact h rfl

/-- Behind an initializer the mark is what it was before. -/
theorem inInitializer (hp : Yields c { x with inInitializer := true } p P y) :
    Yields c x (inInitializer p) P { y with inInitializer := x.inInitializer } := by
  rintro s rfl
  obtain ⟨a, t, hrun, ha, rfl⟩ := hp (s := { s with inInitializer := true }) rfl
  refine ⟨a, { t with inInitializer := s.inInitializer }, ?_, ha, rfl⟩
  rw [inInitializer_run, hrun]

/-- In an initializer `arguments` is no name. -/
theorem checkArguments (t : Token) {name : String}
    (hname : x.inInitializer = true → name ≠ "arguments") {f : Unit → Parser β}
    (h : Yields c x (f ()) Q y) : Yields c x (checkArguments t name >>= f) Q y := by
  rintro s rfl
  have hcheck : Parser.checkArguments t name c s = .ok () s := by
    rw [Parser.checkArguments, read_bind, get_bind, ite_run, if_neg]
    · rfl
    · intro hrefused
      simp only [Bool.and_eq_true, beq_iff_eq] at hrefused
      exact hname hrefused.1.2 hrefused.2
  rw [bind_apply, hcheck]
  exact h rfl

/-- A name that the innermost class has not declared is declared there. -/
theorem declarePrivate {name : Ident} {scopes : ClassScopes}
    (hdeclare : x.scopes.declare name.name name.span = .ok scopes) {f : Unit → Parser β}
    (h : Yields c { x with scopes := scopes } (f ()) Q y) :
    Yields c x (declarePrivate name >>= f) Q y := by
  rintro s rfl
  rw [bind_apply, declarePrivate_run]
  rw [show s.scopes.declare name.name name.span = .ok scopes from hdeclare]
  exact h (s := { s with scopes := scopes }) rfl

/-- A class around which there is none can be left when no name waits in it. -/
theorem inClass (hfields : c.options.classFields = true) (names : List String)
    (hp : Yields c { x with scopes := x.scopes.enter } p P { y with scopes := ⟨[⟨names, []⟩]⟩ }) :
    Yields c x (inClass p) P { y with scopes := .outside } := by
  rintro s rfl
  obtain ⟨a, t, hrun, ha, ht⟩ := hp (s := s.entered) rfl
  have hscopes : t.scopes = ⟨[⟨names, []⟩]⟩ := congrArg Spot.scopes ht
  -- No name waits in the only class, so none is left over and no error is found.
  have hexit : t.scopes.exit = (.ok 0, .outside) := by
    rw [hscopes]
    rfl
  have hcount : exitCount c t = .ok 0 := by
    rw [exitCount, hexit]
    exact ite_self _
  refine ⟨a, { t with
    scopes := .outside
    trace := (t.trace.push (.propagated 0)).push .endClass }, ?_, ha,
    congrArg (fun z : Spot => { z with scopes := .outside }) ht⟩
  rw [inClass_run, if_pos hfields, hrun]
  dsimp only
  rw [endClass_run, hcount, hexit]

end Yields

end Parser

end EcmaScript
