import EcmaScript.Proofs.Relation.Alternatives

namespace EcmaScript

open EcmaScript.Parser

/-!
# Parts that were tried before

What was tried in vain leaves uses of private names behind. The part that is read instead leaves
them too, so in the end nothing tells that something was tried.

* `Follows.settles` — a run that leaves what was left before it could have begun without that;
* `Grammar.arrowOrGrouping_settled` — so could what begins with a parenthesis;
* `Grammar.asyncArrow_settled`, `Grammar.asyncCall_settled` — and what begins with `async` and one.
-/

variable {α : Type} {c : Context} {s t u d : State}

/-- A state to which a part was rewound stands beside the one before the part, where the uses that
it has noted do not wait. -/
theorem State.Rewound.alike {uses : List (String × Span)} (hd : State.Rewound s u d)
    (hu : u.scopes = s.scopes.noting uses) (hmark : u.inInitializer = s.inInitializer)
    (checked : Bool) :
    d.Alike (.beside (ClassScopes.Peers.noting s.scopes uses).symm checked) 0 s := by
  refine ⟨hd.position.symm, ⟨[], [], rfl, ?_, ?_⟩, hmark.symm.trans hd.inInitializer.symm⟩
  · rw [ClassScopes.noting_nil]
    exact hd.scopes.trans hu
  · rw [ClassScopes.noting_nil]
    rfl

/-- A run that leaves behind what was left before could have begun without that, and ends alike. -/
theorem Follows.settles {p : Parser α} {a : α} {uses : List (String × Span)}
    (hfollows : Follows p p) (hu : u.scopes = s.scopes.noting uses)
    (hmark : u.inInitializer = s.inInitializer) (hd : State.Rewound s u d)
    (htrails : u.Trails (p c s)) (h : p c d = .ok a t) :
    ∃ v, p c s = .ok a v ∧ v.Agrees t := by
  have hsame := hfollows (.refl c) (hd.alike hu hmark c.checks.undeclaredNames)
  rw [h] at hsame
  generalize hrun : p c s = r at hsame htrails
  cases hsame with
  | @ok _ _ v hv =>
    refine ⟨v, rfl, hv.position.symm, ?_, hv.inInitializer.symm⟩
    obtain ⟨inner, noted, hdepth, ht, hv⟩ := hv.scopes
    obtain rfl := List.eq_nil_of_length_eq_zero hdepth
    have hnoted : v.scopes = s.scopes.noting noted := hv
    obtain ⟨more, hmore⟩ := htrails a v rfl
    calc t.scopes
        = (s.scopes.noting uses).noting noted := ht
      _ = s.scopes.noting noted := ClassScopes.noting_absorbs (by rw [← hnoted, hmore, hu])
      _ = v.scopes := hnoted.symm

namespace Grammar

variable {n : Nat} {stops : List TokenKind}

/-! ### Arrow functions -/

/-- The parameters and the body of an arrow function. -/
def arrowTail (g : Rules) (stops : List TokenKind) (async : Bool) : Parser (Span → Expr) := do
  let params ← arrowParameters g async
  let body ← withNames (·.forAsync async) (arrowBody g stops)
  return fun span => .arrow span (.mk span true async false params body)

/-- Parameters that could be read leave the same behind when they are read again. -/
theorem arrowTail_trails {r : State} {async : Bool} {ps : List Param} (hr : s.Agrees r)
    (h : arrowParameters (.within n) async c s = .ok ps u) :
    u.Trails (arrowTail (.within n) stops async c r) := by
  have hsteps := (Rules.within_follows (Nat.le_refl n)).steps (Rules.within_reading n)
  have hkeeping := (Rules.within_keeping n).steps (Rules.within_reading n)
  have hagain := (hsteps.arrowParameters async).agrees (c := c) hr
  rw [h] at hagain
  rw [arrowTail, bind_apply]
  generalize arrowParameters (.within n) async c r = again at hagain
  cases hagain with
  | ok _ hv =>
    have hbody : Keeps State.Kept (arrowBody (.within n) stops) := hkeeping.closed.arrowBody trivial
    refine .bind (.of_keeps (fun _ _ _ hends => ?_) hv.scopes) fun _ => .pure _
    have hkept := hbody hends
    exact ⟨hkept.seen, hkept.inInitializer, hkept.scopes⟩

theorem arrowFunction_trails {ps : List Param}
    (hfirst : (c.token s.position).kind ≠ .keyword .kAsync)
    (h : arrowParameters (.within n) false c s = .ok ps u) :
    u.Trails (arrowFunction (.within n) stops c s) := by
  obtain ⟨r, hr, hrun⟩ := arrowFunction_run (g := .within n) hfirst stops
  rw [hrun]
  intro e t he
  obtain ⟨make, hmake, -⟩ := spanned_ok_iff.1 he
  exact arrowTail_trails hr.agrees h make t hmake

theorem asyncArrow_trails {ps : List Param}
    (hfirst : (c.token s.position).kind = .keyword .kAsync)
    (hsecond : (c.token (s.position + 1)).kind ≠ arrowKind)
    (h : arrowParameters (.within n) true c s.advanced = .ok ps u) :
    u.Trails (arrowFunction (.within n) stops c s) := by
  intro e t he
  rw [arrowFunction, spanned_ok_iff] at he
  obtain ⟨make, hmake, -⟩ := he
  rw [look_bind, if_neg hsecond, accept_bind, State.looked_position, if_pos hfirst] at hmake
  exact arrowTail_trails (s := s.advanced) (r := (s.looked 1).advanced) ⟨rfl, rfl, rfl⟩ h make t
    hmake

/-! ### What is read instead of parameters -/

/-- What begins with a parenthesis could have begun without the attempt at parameters. -/
theorem arrowOrGrouping_settled {insertion : Bool} {a : Expr × Bool}
    (hopen : (c.token s.position).kind = .punctuator .parenthesisOpen)
    (h : arrowOrGrouping (.within n) stops insertion c s = .ok a t) :
    ∃ v, v.Agrees t ∧ ((∃ e, a = (e, false) ∧ arrowFunction (.within n) stops c s = .ok e v)
      ∨ grouping (.within n) insertion c s = .ok a v) := by
  have hsteps := (Rules.within_follows (Nat.le_refl n)).steps (Rules.within_reading n)
  have hkeeping := (Rules.within_keeping n).steps (Rules.within_reading n)
  obtain ⟨ps, u, e, hparams, harrow, rfl⟩ | ⟨e, u, hparams, -, hgroup⟩ := arrowOrGrouping_ok h
  · have hkept := hkeeping.arrowParameters false (.inl ⟨ps, hparams⟩)
    obtain ⟨uses, -, hu⟩ := hkept.scopes
    obtain ⟨v, hv, hagrees⟩ := (hsteps.closed.arrowFunction trivial).settles hu
      hkept.inInitializer (State.rewound_restore s u)
      (arrowFunction_trails (hopen ▸ nofun) hparams) harrow
    exact ⟨v, hagrees, .inl ⟨e, rfl, hv⟩⟩
  · have hkept := hkeeping.arrowParameters false (.inr ⟨e, hparams⟩)
    obtain ⟨uses, -, hu⟩ := hkept.scopes
    obtain ⟨v, hv, hagrees⟩ := (hsteps.closed.grouping insertion).settles hu
      hkept.inInitializer (State.rewound_restore s u)
      ((arrowParameters_grouping n insertion hopen ⟨rfl, rfl, rfl⟩).scopes u (.inr ⟨e, hparams⟩))
      hgroup
    exact ⟨v, hagrees, .inr hv⟩

/-- An async arrow function could have begun without the attempt at its parameters. -/
theorem asyncArrow_settled {ps : List Param} {e : Expr}
    (hfirst : (c.token s.position).kind = .keyword .kAsync)
    (hsecond : (c.token (s.position + 1)).kind = .punctuator .parenthesisOpen)
    (hparams : arrowParameters (.within n) true c s.advanced = .ok ps u)
    (h : arrowFunction (.within n) stops c { u with position := s.position } = .ok e t) :
    ∃ v, arrowFunction (.within n) stops c s = .ok e v ∧ v.Agrees t := by
  have hsteps := (Rules.within_follows (Nat.le_refl n)).steps (Rules.within_reading n)
  have hkeeping := (Rules.within_keeping n).steps (Rules.within_reading n)
  have hkept := hkeeping.arrowParameters true (.inl ⟨ps, hparams⟩)
  obtain ⟨uses, -, hu⟩ := hkept.scopes
  exact (hsteps.closed.arrowFunction trivial).settles hu hkept.inInitializer
    (State.rewound_restore s u) (asyncArrow_trails hfirst (hsecond ▸ nofun) hparams) h

/-- So could the arguments of a function with the name `async`, where they are no parameters. -/
theorem asyncCall_settled {e : SyntaxError} {as : List Arg}
    (hopen : (c.token s.position).kind = .punctuator .parenthesisOpen)
    (hawait : ∀ i, s.position ≤ i → (c.token i).kind ≠ .keyword .kAwait)
    (hparams : arrowParameters (.within n) true c s = .error (.error e) u)
    (hd : State.Rewound s.advanced u d) (h : callArguments (.within n) c d = .ok as t) :
    ∃ v, callArguments (.within n) c s.advanced = .ok as v ∧ v.Agrees t := by
  have hsteps := (Rules.within_follows (Nat.le_refl n)).steps (Rules.within_reading n)
  have hkeeping := (Rules.within_keeping n).steps (Rules.within_reading n)
  have hkept := hkeeping.arrowParameters true (.inr ⟨e, hparams⟩)
  obtain ⟨uses, -, hu⟩ := hkept.scopes
  exact hsteps.closed.callArguments.settles (s := s.advanced) hu hkept.inInitializer hd
    ((arrowParameters_arguments n hopen hawait ⟨rfl, rfl, rfl⟩).scopes u (.inr ⟨e, hparams⟩)) h

end Grammar

end EcmaScript
