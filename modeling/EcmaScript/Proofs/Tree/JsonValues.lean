import EcmaScript.Tree.Json
import Mathlib.Data.Option.Basic
import Mathlib.Data.List.Forall2

namespace EcmaScript

/-!
# Equal JSON values

What can be told from a JSON value, whatever the order in which the members of its objects stand.

* `Json.Same` — two values that are the same to a reader of JSON;
* `Json.Same.field` — what stands under a name of both of two equal objects;
* `Json.Same.node`, `Form.eq_of_same` — equal nodes, and equal forms of a part;
* `Operator.eq_of_same`, `DirectKey.eq_of_same`, … — a name stands for one thing only.
-/

/-! ### Equal JSON values -/

namespace Json

/-- The same value to a reader of JSON. The order in which the members of an object stand does not
count, a number is its text, and a number without a text is `null`. -/
inductive Same : Json → Json → Prop where
  | null : Same .null .null
  | bool (b : Bool) : Same (.bool b) (.bool b)
  | nat (n : Nat) : Same (.nat n) (.nat n)
  | number {x y : Number} : x.numeral? = y.numeral? → Same (.number x) (.number y)
  | nullNumber {x : Number} : x.numeral? = none → Same .null (.number x)
  | numberNull {x : Number} : x.numeral? = none → Same (.number x) .null
  | string (s : String) : Same (.string s) (.string s)
  | array {xs ys : List Json} : List.Forall₂ Same xs ys → Same (.array xs) (.array ys)
  | object {xs ys : List (String × Json)} :
    (∀ name, Option.Rel Same (xs.lookup name) (ys.lookup name)) → Same (.object xs) (.object ys)

mutual

/-- Every value is the same as itself. -/
@[refl] theorem Same.refl : (v : Json) → Same v v
  | .null => .null
  | .bool b => .bool b
  | .nat n => .nat n
  | .number _ => .number rfl
  | .string s => .string s
  | .array items => .array (Same.refl_items items)
  | .object fields => .object (Same.refl_fields fields)

theorem Same.refl_items : (items : List Json) → List.Forall₂ Same items items
  | [] => .nil
  | item :: rest => .cons (Same.refl item) (Same.refl_items rest)

theorem Same.refl_fields : (fields : List (String × Json)) → (name : String) →
    Option.Rel Same (fields.lookup name) (fields.lookup name)
  | [], _ => .none
  | (key, value) :: rest, name => by
    rw [List.lookup_cons]
    cases name == key with
    | true => exact .some (Same.refl value)
    | false => exact Same.refl_fields rest name

end

@[simp] theorem same_bool_iff {a b : Bool} : Same (.bool a) (.bool b) ↔ a = b :=
  ⟨fun h => by cases h; rfl, fun h => h ▸ .bool a⟩

@[simp] theorem same_nat_iff {m n : Nat} : Same (.nat m) (.nat n) ↔ m = n :=
  ⟨fun h => by cases h; rfl, fun h => h ▸ .nat m⟩

@[simp] theorem same_number_iff {x y : Number} :
    Same (.number x) (.number y) ↔ x.numeral? = y.numeral? :=
  ⟨fun h => by cases h; assumption, .number⟩

@[simp] theorem same_string_iff {s t : String} : Same (.string s) (.string t) ↔ s = t :=
  ⟨fun h => by cases h; rfl, fun h => h ▸ .string s⟩

@[simp] theorem same_array_iff {xs ys : List Json} :
    Same (.array xs) (.array ys) ↔ List.Forall₂ Same xs ys :=
  ⟨fun h => by cases h; assumption, .array⟩

@[simp] theorem same_object_iff {xs ys : List (String × Json)} :
    Same (.object xs) (.object ys) ↔
      ∀ name, Option.Rel Same (xs.lookup name) (ys.lookup name) :=
  ⟨fun h => by cases h; assumption, .object⟩

/-- What stands under a name in both of two equal objects is the same. -/
theorem Same.field {xs ys : List (String × Json)} {v w : Json} (h : Same (.object xs) (.object ys))
    (name : String) (hv : xs.lookup name = some v) (hw : ys.lookup name = some w) : Same v w := by
  have hname := same_object_iff.1 h name
  rw [hv, hw] at hname
  cases hname with
  | some h => exact h

/-- Nothing stands under a name of one of two equal objects that is not in the other. -/
theorem Same.field_missing {xs ys : List (String × Json)} {v : Json}
    (h : Same (.object xs) (.object ys)) (name : String) (hv : xs.lookup name = some v)
    (hw : ys.lookup name = none) : False := by
  have hname := same_object_iff.1 h name
  rw [hv, hw] at hname
  cases hname

end Json

open Json

/-- Spans are told from their offsets. -/
theorem Span.eq_of_same {s t : Span} (h : s.toJson.Same t.toJson) : s = t := by
  cases s
  cases t
  simpa [Span.toJson] using h

/-- A node tells its place and its content. -/
theorem Json.Same.node {s t : Span} {v w : Json} (h : (Json.node s v).Same (.node t w)) :
    s = t ∧ v.Same w :=
  ⟨Span.eq_of_same (h.field "loc" rfl rfl), h.field "stx" rfl rfl⟩

/-- A part of one of several sorts tells its sort, its place and its fields. -/
theorem Form.eq_of_same {f g : Form} (h : f.tagged.Same g.tagged) :
    f.tag = g.tag ∧ f.span = g.span ∧ (Json.object f.fields).Same (.object g.fields) := by
  obtain ⟨hspan, hinner⟩ := h.node
  have htag := hinner.field "$t" rfl rfl
  exact ⟨same_string_iff.1 htag, hspan, hinner.field "stx" rfl rfl⟩

/-! ### Names of kinds -/

theorem Operator.ofName?_name (op : Operator) : Operator.ofName? op.name = some op := by
  cases op <;> decide

theorem MethodKind.ofName?_name (k : MethodKind) : MethodKind.ofName? k.name = some k := by
  cases k <;> decide

theorem TokenKind.ofName?_name (k : TokenKind) : TokenKind.ofName? k.name = some k := by
  cases k with
  | keyword k => cases k <;> decide
  | punctuator p => cases p <;> decide
  | textClass c => cases c <;> decide
  | _ => decide

theorem Operator.eq_of_same {a b : Operator} (h : a.toJson.Same b.toJson) : a = b := by
  have hname : a.name = b.name := same_string_iff.1 h
  exact Option.some_injective _ (by rw [← a.ofName?_name, ← b.ofName?_name, hname])

theorem MethodKind.eq_of_same {a b : MethodKind} (h : a.toJson.Same b.toJson) : a = b := by
  have hname : a.name = b.name := same_string_iff.1 h
  exact Option.some_injective _ (by rw [← a.ofName?_name, ← b.ofName?_name, hname])

theorem DeclarationKind.eq_of_same {a b : DeclarationKind} (h : a.toJson.Same b.toJson) :
    a = b := by
  have hname : a.name = b.name := same_string_iff.1 h
  revert hname
  cases a <;> cases b <;> decide

theorem DirectKey.eq_of_same {a b : DirectKey} (h : a.toJson.Same b.toJson) : a = b := by
  obtain ⟨hspan, hfields⟩ := h.node
  have htext : a.text = b.text := same_string_iff.1 (hfields.field "key" rfl rfl)
  have hname : a.kind.name = b.kind.name := same_string_iff.1 (hfields.field "tt" rfl rfl)
  have hkind : a.kind = b.kind :=
    Option.some_injective _ (by rw [← a.kind.ofName?_name, ← b.kind.ofName?_name, hname])
  cases a
  cases b
  simp_all

theorem Ident.eq_of_same {a b : Ident} (h : a.toJson.Same b.toJson) : a = b := by
  obtain ⟨hspan, hfields⟩ := h.node
  have hname : a.name = b.name := same_string_iff.1 (hfields.field "name" rfl rfl)
  cases a
  cases b
  simp_all

/-- A name that may be missing is never written as `null`. -/
theorem Ident.option_eq_of_same {a b : Option Ident}
    (h : (Json.ofOption Ident.toJson a).Same (.ofOption Ident.toJson b)) : a = b := by
  cases a with
  | none =>
    cases b with
    | none => rfl
    | some b => cases h
  | some a =>
    cases b with
    | none => cases h
    | some b => rw [Ident.eq_of_same h]

end EcmaScript
