import EcmaScript.Grammar.Script
import Mathlib.Tactic.Common

namespace EcmaScript

/-!
# Runs of parsers

What each of the parsers in `Parser/Basic` does, as an equation about one run or as the exact
condition for its success. The grammar is taken apart with these and never by unfolding them again.

* `State.looked`, `State.advanced` — the two things that happen to the position;
* `spanSince` — the span that `Parser.since` gives;
* `Parser.look_run`, `Parser.accept_run`, `Parser.require_run`, … — one run of each parser;
* `Parser.look_bind`, `Parser.accept_bind`, … — how a sequence goes on behind each of them;
* `Parser.spanned_ok_iff`, `Parser.map_ok_iff`, … — when the combinators succeed.
-/

namespace State

/-- After a look at the token `n` places on. -/
def looked (s : State) (n : Nat) : State := { s with seen := max s.seen (s.position + n + 1) }

/-- After the next token has been read. -/
def advanced (s : State) : State :=
  { s with position := s.position + 1, seen := max s.seen (s.position + 1) }

@[simp] theorem looked_position (s : State) (n : Nat) : (s.looked n).position = s.position := rfl
@[simp] theorem looked_scopes (s : State) (n : Nat) : (s.looked n).scopes = s.scopes := rfl
@[simp] theorem looked_inInitializer (s : State) (n : Nat) :
    (s.looked n).inInitializer = s.inInitializer := rfl
@[simp] theorem advanced_position (s : State) : s.advanced.position = s.position + 1 := rfl
@[simp] theorem advanced_scopes (s : State) : s.advanced.scopes = s.scopes := rfl
@[simp] theorem advanced_inInitializer (s : State) :
    s.advanced.inInitializer = s.inInitializer := rfl

/-- Of two looks the farther one remains. -/
theorem looked_looked (s : State) (m n : Nat) : (s.looked m).looked n = s.looked (max m n) := by
  simp only [looked]
  congr 1
  omega

/-- A token that has been looked at is read as if it had not been. -/
theorem looked_advanced (s : State) : (s.looked 0).advanced = s.advanced := by
  simp only [looked, advanced, Nat.add_zero, Nat.max_assoc, Nat.max_self]

/-- Inside a class that begins here. -/
def entered (s : State) : State :=
  { s with
    scopes := s.scopes.enter
    trace := s.trace.push (.beginClass s.scopes.enter.depth) }

@[simp] theorem entered_position (s : State) : s.entered.position = s.position := rfl
@[simp] theorem entered_scopes (s : State) : s.entered.scopes = s.scopes.enter := rfl
@[simp] theorem entered_inInitializer (s : State) : s.entered.inInitializer = s.inInitializer := rfl

/-- Two states that differ at most in what has been looked at and reported. -/
structure SamePlace (s t : State) : Prop where
  seen : s.seen ≤ t.seen
  position : t.position = s.position
  scopes : t.scopes = s.scopes
  inInitializer : t.inInitializer = s.inInitializer

theorem SamePlace.refl (s : State) : SamePlace s s := ⟨Nat.le_refl _, rfl, rfl, rfl⟩

theorem SamePlace.looked {s t : State} (h : SamePlace s t) (n : Nat) : SamePlace s (t.looked n) :=
  ⟨Nat.le_trans h.seen (Nat.le_max_left ..), h.position, h.scopes, h.inInitializer⟩

end State

/-- The span from the start of the token at `start` to the end of the last one that was read. -/
def spanSince (ctx : Context) (start : Nat) (s : State) : Span :=
  if start < s.position then
    ⟨(ctx.token start).span.start, (ctx.token (s.position - 1)).span.stop⟩
  else if start < s.seen then .point (ctx.token start).span.start
  else if s.seen = 0 then .point 0
  else .point (ctx.token (s.seen - 1)).span.stop

namespace Parser

variable {α β : Type} {ctx : Context} {s t : State}

/-! ### Plain steps -/

theorem bind_apply (p : Parser α) (f : α → Parser β) (ctx : Context) (s : State) :
    (p >>= f) ctx s =
      match p ctx s with
      | .ok a u => f a ctx u
      | .error e u => .error e u := by
  show EStateM.bind (p ctx) (fun a => f a ctx) s = _
  unfold EStateM.bind
  cases p ctx s <;> rfl

theorem map_eq_bind (f : α → β) (p : Parser α) : f <$> p = p >>= fun a => pure (f a) :=
  map_eq_pure_bind f p

theorem discard_eq_bind (p : Parser α) : discard p = p >>= fun _ => pure PUnit.unit := by
  rw [discard, LawfulFunctor.map_const]
  exact map_eq_pure_bind _ p

theorem pure_ok_iff {a b : α} : (pure a : Parser α) ctx s = .ok b t ↔ a = b ∧ s = t := by
  rw [pure_apply]
  exact ⟨fun h => by injection h with h₁ h₂; exact ⟨h₁, h₂⟩, fun ⟨h₁, h₂⟩ => h₁ ▸ h₂ ▸ rfl⟩

theorem fail_ok_iff {e : SyntaxError} {b : α} : (fail e : Parser α) ctx s = .ok b t ↔ False := by
  rw [fail_apply]
  exact ⟨fun h => (by cases h), False.elim⟩

@[simp] theorem exhausted_apply : (exhausted : Parser α) ctx s = .error .exhausted s := rfl

theorem map_ok_iff {f : α → β} {p : Parser α} {b : β} :
    (f <$> p) ctx s = .ok b t ↔ ∃ a, p ctx s = .ok a t ∧ f a = b := by
  rw [map_eq_bind, bind_ok_iff]
  simp only [pure_ok_iff]
  constructor
  · rintro ⟨a, u, h, rfl, rfl⟩
    exact ⟨a, h, rfl⟩
  · rintro ⟨a, h, rfl⟩
    exact ⟨a, t, h, rfl, rfl⟩

/-- Names the parser of a run, so that a case distinction in it can be split. -/
theorem exists_run {p : Parser α} {r : EStateM.Result Failure State α} (h : p ctx s = r) :
    ∃ q, p = q ∧ q ctx s = r := ⟨p, rfl, h⟩

theorem ite_run (c : Prop) [Decidable c] (p q : Parser α) :
    (if c then p else q) ctx s = if c then p ctx s else q ctx s := by
  split <;> rfl

/-! ### Tokens -/

theorem look_run (n : Nat) : look n ctx s = .ok (ctx.token (s.position + n)) (s.looked n) := rfl

theorem next_run : next ctx s = .ok (ctx.token s.position) s.advanced := rfl

theorem position_run : position ctx s = .ok s.position s := rfl

theorem acceptIf?_run (p : Token → Bool) :
    acceptIf? p ctx s =
      if p (ctx.token s.position) then .ok (some (ctx.token s.position)) s.advanced
      else .ok none (s.looked 0) := by
  by_cases h : p (ctx.token s.position) = true
  · rw [if_pos h]
    exact acceptIf?_of_pos h
  · rw [if_neg h]
    exact acceptIf?_of_neg (by simpa using h)

theorem accept_run (kind : TokenKind) :
    accept kind ctx s =
      if (ctx.token s.position).kind = kind then .ok true s.advanced
      else .ok false (s.looked 0) := by
  show (acceptIf? _ >>= fun a => pure a.isSome : Parser Bool) ctx s = _
  rw [bind_apply, acceptIf?_run]
  by_cases h : (ctx.token s.position).kind = kind
  · simp [h]
  · simp [h]

theorem require_run (kind : TokenKind) :
    require kind ctx s =
      if (ctx.token s.position).kind = kind then .ok (ctx.token s.position) s.advanced
      else .error (.error ((ctx.token s.position).misplaced (.requiredToken kind))) s.advanced := by
  show (next >>= fun t => if t.kind = kind then pure t else _ : Parser Token) ctx s = _
  rw [bind_apply, next_run]
  dsimp only
  rw [ite_run]
  rfl

theorem since_run (start : Nat) : since start ctx s = .ok (spanSince ctx start s) s := by
  show (if start < s.position then _ else _ : Parser Span) ctx s = _
  unfold spanSince
  split
  · rfl
  · split
    · rfl
    · split <;> rfl

theorem nameRules_run : nameRules ctx s = .ok ctx.names s := rfl

theorem withNames_run (f : NameRules → NameRules) (p : Parser α) :
    withNames f p ctx s = p { ctx with names := f ctx.names } s := rfl

theorem report_run (entry : TraceEntry) :
    report entry ctx s = .ok () { s with trace := s.trace.push entry } := rfl

/-! ### Sequences

A parser that cannot fail hands what it gives to the rest of its sequence. -/

theorem look_bind (n : Nat) (f : Token → Parser β) :
    (look n >>= f) ctx s = f (ctx.token (s.position + n)) ctx (s.looked n) := rfl

theorem peek_bind (f : Token → Parser β) :
    (peek >>= f) ctx s = f (ctx.token s.position) ctx (s.looked 0) := rfl

theorem next_bind (f : Token → Parser β) :
    (next >>= f) ctx s = f (ctx.token s.position) ctx s.advanced := rfl

theorem position_bind (f : Nat → Parser β) : (position >>= f) ctx s = f s.position ctx s := rfl

theorem restore_bind (i : Nat) (f : Unit → Parser β) :
    (restore i >>= f) ctx s = f () ctx { s with position := i } := rfl

theorem since_bind (start : Nat) (f : Span → Parser β) :
    (since start >>= f) ctx s = f (spanSince ctx start s) ctx s := by
  rw [bind_apply, since_run]

theorem nameRules_bind (f : NameRules → Parser β) :
    (nameRules >>= f) ctx s = f ctx.names ctx s := rfl

theorem options_bind (f : Options → Parser β) : (options >>= f) ctx s = f ctx.options ctx s := rfl

theorem get_bind (f : State → Parser β) : (get >>= f) ctx s = f s ctx s := rfl

theorem read_bind (f : Context → Parser β) : (read >>= f) ctx s = f ctx ctx s := rfl

theorem report_bind (entry : TraceEntry) (f : Unit → Parser β) :
    (report entry >>= f) ctx s = f () ctx { s with trace := s.trace.push entry } := rfl

theorem modify_bind (m : State → State) (f : PUnit → Parser β) :
    (modify m >>= f) ctx s = f ⟨⟩ ctx (m s) := rfl

theorem attempt_bind (p : Parser α) (f : Except SyntaxError α → Parser β) :
    (attempt p >>= f) ctx s =
      match p ctx s with
      | .ok a u => f (.ok a) ctx u
      | .error (.error e) u => f (.error e) ctx u
      | .error .exhausted u => .error .exhausted u := by
  rw [bind_apply, attempt]
  cases p ctx s with
  | ok a u => rfl
  | error e u => cases e <;> rfl

/-- A part of an initializer is read with the mark set, and the mark goes back behind it. -/
theorem inInitializer_run (p : Parser α) :
    inInitializer p ctx s =
      match p ctx { s with inInitializer := true } with
      | .ok a u => .ok a { u with inInitializer := s.inInitializer }
      | .error (.error e) u => .error (.error e) { u with inInitializer := s.inInitializer }
      | .error .exhausted u => .error .exhausted u := by
  rw [inInitializer, get_bind, modify_bind, attempt_bind]
  cases p ctx { s with inInitializer := true } with
  | ok a u => rfl
  | error e u => cases e <;> rfl

/-- A private name is declared where the innermost class has not declared it. -/
theorem declarePrivate_run (name : Ident) :
    declarePrivate name ctx s =
      match s.scopes.declare name.name name.span with
      | .ok scopes => .ok () { s with scopes := scopes }
      | .error e => .error (.error e) s := by
  rw [declarePrivate, get_bind]
  cases s.scopes.declare name.name name.span <;> rfl

/-- A private name is used; outside of classes this is refused only where names are checked. -/
theorem usePrivate_run (name : Ident) :
    usePrivate name ctx s =
      match s.scopes.use name.name name.span with
      | .ok scopes => .ok () { s with scopes := scopes }
      | .error e => if ctx.checks.undeclaredNames then .error (.error e) s else .ok () s := by
  rw [usePrivate, get_bind]
  cases s.scopes.use name.name name.span with
  | ok scopes => rfl
  | error e =>
    dsimp only
    rw [read_bind, ite_run]
    rfl

/-- What the end of the innermost class gives. -/
def exitCount (ctx : Context) (s : State) : Except SyntaxError Nat :=
  if ctx.checks.undeclaredNames then s.scopes.exit.1 else .ok (s.scopes.exit.1.toOption.getD 0)

theorem exitClass_bind (f : Except SyntaxError Nat → Parser β) :
    (exitClass >>= f) ctx s = f (exitCount ctx s) ctx { s with scopes := s.scopes.exit.2 } := by
  rw [exitClass, bind_assoc, get_bind, exitCount]
  simp only [bind_assoc, modify_bind, read_bind]
  split <;> rfl

theorem endClass_run (result : Except SyntaxError α) :
    endClass result ctx s =
      match result, exitCount ctx s with
      | .ok a, .ok count =>
        .ok a
          { s with
            scopes := s.scopes.exit.2
            trace := (s.trace.push (.propagated count)).push .endClass }
      | .ok _, .error e =>
        .error (.error e) { s with scopes := s.scopes.exit.2, trace := s.trace.push .endClass }
      | .error e, _ =>
        .error (.error e)
          { s with scopes := s.scopes.exit.2, trace := s.trace.push .endClass } := by
  rw [endClass, exitClass_bind]
  cases result with
  | ok a => cases exitCount ctx s <;> rfl
  | error e => cases exitCount ctx s <;> rfl

/-- A class is read inside a scope of its own, which ends also where the class could not be read. -/
theorem inClass_run (p : Parser α) :
    inClass p ctx s =
      if ctx.options.classFields then
        match p ctx s.entered with
        | .ok a u => endClass (.ok a) ctx u
        | .error (.error e) u => endClass (.error e : Except SyntaxError α) ctx u
        | .error .exhausted u => .error .exhausted u
      else p ctx s := by
  have hbegin (q : Parser α) : (beginClass >>= fun _ => q) ctx s = q ctx s.entered := rfl
  rw [inClass, options_bind, ite_run, hbegin, attempt_bind]

theorem accept_bind (kind : TokenKind) (f : Bool → Parser β) :
    (accept kind >>= f) ctx s =
      if (ctx.token s.position).kind = kind then f true ctx s.advanced
      else f false ctx (s.looked 0) := by
  rw [bind_apply, accept_run]
  by_cases h : (ctx.token s.position).kind = kind
  · rw [if_pos h, if_pos h]
  · rw [if_neg h, if_neg h]

theorem discard_bind (p : Parser α) (f : PUnit → Parser β) :
    (discard p >>= f) = (p >>= fun _ => f ⟨⟩) := by
  rw [discard_eq_bind, bind_assoc]
  simp only [pure_bind]

theorem require_bind_ok_iff {kind : TokenKind} {f : Token → Parser β} {b : β} :
    (require kind >>= f) ctx s = .ok b t ↔
      (ctx.token s.position).kind = kind ∧ f (ctx.token s.position) ctx s.advanced = .ok b t := by
  rw [bind_apply, require_run]
  by_cases h : (ctx.token s.position).kind = kind
  · simp [h]
  · simp [h]

/-! ### Success -/

theorem look_ok_iff {n : Nat} {a : Token} :
    look n ctx s = .ok a t ↔ ctx.token (s.position + n) = a ∧ s.looked n = t := by
  rw [look_run]
  exact ⟨fun h => by injection h with h₁ h₂; exact ⟨h₁, h₂⟩, fun ⟨h₁, h₂⟩ => h₁ ▸ h₂ ▸ rfl⟩

theorem next_ok_iff {a : Token} :
    next ctx s = .ok a t ↔ ctx.token s.position = a ∧ s.advanced = t := by
  rw [next_run]
  exact ⟨fun h => by injection h with h₁ h₂; exact ⟨h₁, h₂⟩, fun ⟨h₁, h₂⟩ => h₁ ▸ h₂ ▸ rfl⟩

theorem accept_ok_iff {kind : TokenKind} {b : Bool} :
    accept kind ctx s = .ok b t ↔
      ((ctx.token s.position).kind = kind ∧ b = true ∧ s.advanced = t)
        ∨ ((ctx.token s.position).kind ≠ kind ∧ b = false ∧ s.looked 0 = t) := by
  rw [accept_run]
  by_cases h : (ctx.token s.position).kind = kind
  · simp [h, eq_comm]
  · simp [h, eq_comm]

theorem accept_inInitializer {kind : TokenKind} {b : Bool} (h : accept kind ctx s = .ok b t) :
    t.inInitializer = s.inInitializer := by
  obtain ⟨-, -, rfl⟩ | ⟨-, -, rfl⟩ := accept_ok_iff.1 h
  · rfl
  · rfl

theorem require_ok_iff {kind : TokenKind} {a : Token} :
    require kind ctx s = .ok a t ↔
      (ctx.token s.position).kind = kind ∧ ctx.token s.position = a ∧ s.advanced = t := by
  rw [require_run]
  by_cases h : (ctx.token s.position).kind = kind
  · simp [h]
  · simp [h]

/-- A part with its span ends where the part does. -/
theorem spanned_run (p : Parser (Span → α)) :
    spanned p ctx s =
      match p ctx s with
      | .ok make t => .ok (make (spanSince ctx s.position t)) t
      | .error e t => .error e t := by
  rw [spanned, position_bind, bind_apply]
  cases p ctx s with
  | ok make t => exact since_bind s.position _
  | error e t => rfl

theorem spanned_ok_iff {p : Parser (Span → α)} {a : α} :
    spanned p ctx s = .ok a t ↔
      ∃ make, p ctx s = .ok make t ∧ make (spanSince ctx s.position t) = a := by
  rw [spanned_run]
  cases p ctx s with
  | ok make u => simp +contextual [eq_comm, and_comm]
  | error e u => simp

theorem spanned_error_iff {p : Parser (Span → α)} {e : Failure} :
    spanned p ctx s = .error e t ↔ p ctx s = .error e t := by
  rw [spanned_run]
  cases p ctx s with
  | ok make u => simp
  | error e' u => simp

/-- A class that could be read has been left. -/
theorem inClass_ok {p : Parser α} {a : α} (hfields : ctx.options.classFields = true)
    (h : inClass p ctx s = .ok a t) :
    ∃ u count, p ctx s.entered = .ok a u ∧ exitCount ctx u = .ok count ∧ t.position = u.position
      ∧ t.scopes = u.scopes.exit.2 ∧ t.inInitializer = u.inInitializer := by
  rw [inClass_run, if_pos hfields] at h
  split at h
  next b u hp =>
    rw [endClass_run] at h
    cases hcount : exitCount ctx u with
    | error e =>
      rw [hcount] at h
      cases h
    | ok count =>
      rw [hcount] at h
      injection h with h₁ h₂
      subst h₁ h₂
      exact ⟨u, count, hp, hcount, rfl, rfl, rfl⟩
  next e u hp =>
    rw [endClass_run] at h
    cases h
  next => cases h

end Parser

end EcmaScript
