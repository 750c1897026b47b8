import EcmaScript.Proofs.Lexer.Modes
import EcmaScript.Proofs.PrivateNames.Resolved

namespace EcmaScript

/-!
# Private names of whole scripts

At the end of a script no class is left around, so nothing can wait any more.

* `parse_privateNames` — in the tree every use of a private name is resolved by a class around it,
  and every class declares its private names once.
-/

/-- What a script leaves behind, where undeclared names are reported. -/
theorem Resolves.ofScript {c : Context} {t : State} {p : Program}
    (hchecks : c.checks.undeclaredNames = true) (h : runScript c = .ok p t) :
    ∃ s, State.initial.SamePlace s ∧ t.scopes = .outside ∧ Resolves c s t [.program p] := by
  obtain ⟨s, hs, h⟩ := resolves_compositional.script h
  have h := h hchecks
  obtain ⟨uses, ht⟩ := h.scopes
  refine ⟨s, hs, ?_, h⟩
  rw [ht, hs.scopes]
  rfl

/-- **Private names are in order wherever a tree is given.** Every use of a private name lies in a
class that declares it, or in a class inside of such a class; a class lies around its parent and its
members. No class declares a private name twice, and none is empty or that of a constructor. -/
theorem parse_privateNames {source : String} {options : Options} {p : Program}
    (h : parse source options = .ok p) :
    (∀ classes span object name,
      Inside (.program p) classes (.expr (.privateMember span object name)) →
        ∃ members ∈ classes, name.name ∈ privateNames members)
    ∧ ∀ classes n members, Inside (.program p) classes n → n.members? = some members →
        (privateNames members).Nodup
          ∧ ∀ name ∈ privateNames members, name ≠ "constructor" ∧ name ≠ "" := by
  obtain ⟨t, hrun⟩ := runScript_of_parse h
  obtain ⟨s, -, hscopes, hresolves⟩ := Resolves.ofScript rfl hrun
  constructor
  · intro classes span object name hinside
    have huse : FreeUse (.expr (.privateMember span object name)) name.name :=
      .through (List.mem_cons_of_mem _ List.mem_cons_self) (.here name) fun _ hm => by cases hm
    by_contra hno
    have hfree := hinside.freeUse huse fun members hm hmem => hno ⟨members, hm, hmem⟩
    have hcovers := hresolves.uses _ List.mem_cons_self _ hfree
    rw [hscopes] at hcovers
    exact ClassScopes.not_covers_outside _ hcovers
  · intro classes n members hinside hn
    have hclass := (hresolves.classes _ List.mem_cons_self).inside hinside
    obtain ⟨hnodup, hnames⟩ := hclass.here members hn
    refine ⟨hnodup, fun name hname => ?_⟩
    obtain ⟨hconstructor, _, hspells⟩ := hnames name hname
    exact ⟨hconstructor, hspells.ne_empty⟩

set_option maxRecDepth 100000 in
/-- A script with a private field, a class inside that uses it before it is declared, and a private
field of the same name in another class. -/
theorem parse_privateNames_nested :
    ∃ p, parse "class A { m() { return class { n() { this.#a; } }; } #a; } class B { #a; }" ⟨9, true⟩
        = .ok p
      ∧ (∀ classes span object name,
          Inside (.program p) classes (.expr (.privateMember span object name)) →
            ∃ members ∈ classes, name.name ∈ privateNames members)
      ∧ ∀ classes n members, Inside (.program p) classes n → n.members? = some members →
          (privateNames members).Nodup
            ∧ ∀ name ∈ privateNames members, name ≠ "constructor" ∧ name ≠ "" := by
  have hsome : (parse "class A { m() { return class { n() { this.#a; } }; } #a; } class B { #a; }"
      ⟨9, true⟩).isOk = true := by decide +kernel
  cases hp : parse "class A { m() { return class { n() { this.#a; } }; } #a; } class B { #a; }"
      ⟨9, true⟩ with
  | error e =>
    rw [hp] at hsome
    cases hsome
  | ok p => exact ⟨p, rfl, parse_privateNames hp⟩

end EcmaScript
