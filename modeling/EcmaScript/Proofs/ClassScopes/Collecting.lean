import EcmaScript.Proofs.ClassScopes.Noting

namespace EcmaScript

namespace ClassScopes

/-!
# A class around everything

A class that declares nothing, put around a whole script, collects the uses that the script leaves
unresolved. Apart from this it makes no difference inside of other classes, and none at all where
undeclared names are not checked.

* `ClassScopes.collecting` — the scope of such a class alone;
* `ClassScopes.Linkage.below` — inside of other classes, with it around them or without;
* `ClassScopes.Linkage.collected` — anywhere, without it and unchecked, or with it.
-/

/-- Inside of one class, which has declared nothing, with some names waiting. -/
def collecting (waiting : List (String × Span)) : ClassScopes := ⟨[⟨[], waiting⟩]⟩

theorem bare_collecting (waiting : List (String × Span)) : (collecting waiting).Bare := by
  intro scope hscope
  obtain rfl := List.mem_singleton.1 hscope
  rfl

theorem collecting_noting (waiting uses : List (String × Span)) :
    (collecting waiting).noting uses = collecting (noteUses waiting uses) := rfl

theorem collecting_inj {waiting waiting' : List (String × Span)} :
    collecting waiting = collecting waiting' ↔ waiting = waiting' := by
  simp [collecting]

/-! ### Inside of other classes -/

variable {outer outer' : ClassScopes} {first second : ClassScope} {inner : List ClassScope}

/-- A use inside of a class does not depend on what is around, if nothing is declared there. -/
theorem use_around (first : ClassScope) (inner : List ClassScope) (name : String) (span : Span) :
    ∃ inner', inner'.length = inner.length + 1 ∧ ∀ ⦃outer : ClassScopes⦄, outer.Bare →
      (outer.around (first :: inner)).use name span = .ok (outer.around inner') := by
  have hdeclares {outer : ClassScopes} (h : outer.Bare) :
      (outer.around (first :: inner)).declares name
        = (first :: inner).any fun scope => scope.declares name := by
    rw [declares_around, h.declares, Bool.or_false]
  by_cases hdeclared : (first :: inner).any (fun scope => scope.declares name) = true
  · exact ⟨first :: inner, rfl, fun outer h => if_pos ((hdeclares h).trans hdeclared)⟩
  · refine ⟨first.await name span :: inner, rfl, fun outer h => if_neg fun hout => ?_⟩
    exact hdeclared ((hdeclares h).symm.trans hout)

/-- Neither does a declaration. -/
theorem declare_around (name : String) (span : Span) :
    (outer.around (first :: inner)).declare name span
      = if first.declares name then .error (nameError .duplicatePrivateElement span)
        else .ok (outer.around (first.declare name :: inner)) := rfl

/-- The end of a class inside of another one depends on these two alone. -/
theorem exit_around : (outer.around (first :: second :: inner)).exit
    = (.ok first.unresolved.length, outer.around
        ({ second with waiting := noteUses second.waiting first.unresolved } :: inner)) := by
  show (Except.ok first.unresolved.length, mk (List.foldl _ second first.unresolved :: _)) = _
  rw [ClassScope.foldl_await]
  rfl

/-- What the end of a class around which there are none is, with a class around it that collects. -/
theorem exit_collecting (first : ClassScope) (waiting : List (String × Span)) :
    ((collecting waiting).around [first]).exit
      = (.ok first.unresolved.length, collecting (noteUses waiting first.unresolved)) := by
  show (Except.ok first.unresolved.length, mk [List.foldl _ ⟨[], waiting⟩ first.unresolved]) = _
  rw [ClassScope.foldl_await]
  rfl

namespace Linkage

/-- Inside of the same classes, with nothing declared around these. -/
def below (h : outer.Bare) (h' : outer'.Bare) (checked checked' : Bool) :
    Linkage checked checked' where
  rel depth s s' := 1 ≤ depth ∧ ∃ inner, inner.length = depth ∧ s = outer.around inner
    ∧ s' = outer'.around inner
  least := 1
  least_le := And.left
  enter := by
    rintro depth _ _ ⟨-, inner, rfl, rfl, rfl⟩
    exact ⟨Nat.succ_pos _, .empty :: inner, rfl, rfl, rfl⟩
  use := by
    rintro depth _ _ ⟨hdepth, inner, rfl, rfl, rfl⟩ name span
    obtain ⟨first, inner, rfl⟩ := List.exists_cons_of_length_pos hdepth
    obtain ⟨inner', hlength, huse⟩ := use_around first inner name span
    rw [useUnder, useUnder, huse h, huse h']
    exact .inr ⟨_, _, rfl, rfl, hdepth, inner', hlength, rfl, rfl⟩
  declare := by
    rintro depth _ _ ⟨hdepth, inner, hlength, rfl, rfl⟩ name span
    obtain ⟨first, inner, rfl⟩ := List.exists_cons_of_length_eq_add_one hlength
    rw [declare_around, declare_around]
    by_cases hdeclared : first.declares name = true
    · rw [if_pos hdeclared, if_pos hdeclared]
      exact .inl ⟨_, rfl, rfl⟩
    · rw [if_neg hdeclared, if_neg hdeclared]
      exact .inr ⟨_, _, rfl, rfl, hdepth, first.declare name :: inner, hlength, rfl, rfl⟩
  exit := by
    rintro depth _ _ hleast ⟨-, inner, hlength, rfl, rfl⟩
    obtain ⟨first, inner, rfl⟩ := List.exists_cons_of_length_eq_add_one hlength
    obtain ⟨second, inner, rfl⟩ :=
      List.exists_cons_of_length_pos (hleast.trans_eq (Nat.succ.inj hlength).symm)
    rw [exitUnder, exitUnder, exit_around, exit_around]
    refine ⟨.inr ?_, hleast, { second with waiting := noteUses second.waiting first.unresolved }
      :: inner, Nat.succ.inj hlength, rfl, rfl⟩
    cases checked <;> cases checked' <;> exact ⟨_, _, rfl, rfl⟩

/-- Unchecked, or with a class around everything that collects what is unresolved. -/
def collected (checked : Bool) : Linkage false checked where
  rel depth s s' := ∃ inner waiting, inner.length = depth ∧ s = outside.around inner
    ∧ s' = (collecting waiting).around inner
  least := 0
  least_le _ := Nat.zero_le _
  enter := by
    rintro depth _ _ ⟨inner, waiting, rfl, rfl, rfl⟩
    exact ⟨.empty :: inner, waiting, rfl, rfl, rfl⟩
  use := by
    rintro depth _ _ ⟨inner, waiting, rfl, rfl, rfl⟩ name span
    cases inner with
    | nil =>
      -- Unchecked, the use is dropped; collected, it waits.
      refine .inr ⟨outside, collecting (noteUses waiting [(name, span)]), rfl, ?_, [], _, rfl, rfl,
        rfl⟩
      have huse : (collecting waiting).use name span
          = .ok ⟨[ClassScope.await ⟨[], waiting⟩ name span]⟩ := rfl
      show ((collecting waiting).useUnder checked name span) = _
      rw [useUnder, huse, ClassScope.await_eq]
      rfl
    | cons first inner =>
      obtain ⟨inner', hlength, huse⟩ := use_around first inner name span
      rw [useUnder, useUnder, huse bare_outside, huse (bare_collecting waiting)]
      exact .inr ⟨_, _, rfl, rfl, inner', waiting, hlength, rfl, rfl⟩
  declare := by
    rintro depth _ _ ⟨inner, waiting, hlength, rfl, rfl⟩ name span
    obtain ⟨first, inner, rfl⟩ := List.exists_cons_of_length_eq_add_one hlength
    rw [declare_around, declare_around]
    by_cases hdeclared : first.declares name = true
    · rw [if_pos hdeclared, if_pos hdeclared]
      exact .inl ⟨_, rfl, rfl⟩
    · rw [if_neg hdeclared, if_neg hdeclared]
      exact .inr ⟨_, _, rfl, rfl, first.declare name :: inner, waiting, hlength, rfl, rfl⟩
  exit := by
    rintro depth _ _ - ⟨inner, waiting, hlength, rfl, rfl⟩
    obtain ⟨first, inner, rfl⟩ := List.exists_cons_of_length_eq_add_one hlength
    cases inner with
    | nil =>
      rw [exitUnder, exitUnder, exit_collecting]
      refine ⟨.inr ?_, [], noteUses waiting first.unresolved, Nat.succ.inj hlength, ?_, rfl⟩
      · cases checked <;> exact ⟨_, _, rfl, rfl⟩
      · exact exit_snd first []
    | cons second inner =>
      rw [exitUnder, exitUnder, exit_around, exit_around]
      refine ⟨.inr ?_, { second with waiting := noteUses second.waiting first.unresolved } :: inner,
        waiting, Nat.succ.inj hlength, rfl, rfl⟩
      cases checked <;> exact ⟨_, _, rfl, rfl⟩

end Linkage

end ClassScopes

end EcmaScript
