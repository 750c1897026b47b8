import EcmaScript.Proofs.Number.Numerals
import EcmaScript.Proofs.Tree.JsonValues
import EcmaScript.Proofs.Tree.Nodes

namespace EcmaScript

/-!
# What a written tree tells

A tree can be told from its JSON form. The form keeps the sort and the place of every part, its
flags, names and lists, and the text of every number.

* `Node.json` — the form of a part of any sort;
* `Node.NumberIn`, `Node.Told` — a part that no other part is written like, as far as their numbers
  are of some kind;
* `Node.Below` — what is known of the parts below two parts;
* `Expr.eq_of_same`, `Stmt.eq_of_same`, … — equal forms, one sort of part after the other;
* `Node.told` — all of a tree;
* `Program.toJson_inj` — two trees with one form are equal.
-/

open Json

/-! ### One part of a tree -/

namespace Node

/-- The written form of a part. -/
def json : Node → Json
  | program p => p.toJson
  | stmt s => s.form.tagged
  | expr e => e.form.tagged
  | func f => f.toJson
  | body b => b.toJson
  | param p => p.toJson
  | arg a => a.toJson
  | element e => e.toJson
  | key k => k.toJson
  | member m => m.form.tagged
  | objectMember m => .node m.parts.1 m.parts.2
  | declarator d => d.toJson
  | privateUse name => name.toJson

/-- If the part is a number literal, its value is one of those. -/
def NumberIn (A : Number → Prop) : Node → Prop
  | expr (.numberLit _ x) => A x
  | _ => True

/-- No other part of its sort, with such numbers, is written like this one. -/
def Told (A : Number → Prop) (n : Node) : Prop :=
  ∀ m, n.ctorIdx = m.ctorIdx → Throughout (NumberIn A) m → n.json.Same m.json → n = m

end Node

open Node

theorem Throughout.child {P : Node → Prop} {n m : Node} (h : Throughout P n)
    (hm : m ∈ n.children) : Throughout P m :=
  h.inside (.child .root hm)

/-- The parts below two parts: those of the first can be told from their written forms, and the
numbers of the second are as they should be. -/
structure Node.Below (A : Number → Prop) (n n' : Node) : Prop where
  told : ∀ c ∈ n.children, Told A c
  clear : ∀ c ∈ n'.children, Throughout (NumberIn A) c

namespace Node.Below

variable {A : Number → Prop} {n n' : Node}

theorem expr {e e' : Expr} (h : Below A n n') (hsame : e.form.tagged.Same e'.form.tagged)
    (he : .expr e ∈ n.children) (he' : .expr e' ∈ n'.children) : e = e' :=
  Node.expr.inj (h.told _ he _ rfl (h.clear _ he') hsame)

theorem stmt {s s' : Stmt} (h : Below A n n') (hsame : s.form.tagged.Same s'.form.tagged)
    (hs : .stmt s ∈ n.children) (hs' : .stmt s' ∈ n'.children) : s = s' :=
  Node.stmt.inj (h.told _ hs _ rfl (h.clear _ hs') hsame)

theorem func {f f' : Func} (h : Below A n n') (hsame : f.toJson.Same f'.toJson)
    (hf : .func f ∈ n.children) (hf' : .func f' ∈ n'.children) : f = f' :=
  Node.func.inj (h.told _ hf _ rfl (h.clear _ hf') hsame)

theorem body {b b' : FuncBody} (h : Below A n n') (hsame : b.toJson.Same b'.toJson)
    (hb : .body b ∈ n.children) (hb' : .body b' ∈ n'.children) : b = b' :=
  Node.body.inj (h.told _ hb _ rfl (h.clear _ hb') hsame)

theorem key {k k' : Key} (h : Below A n n') (hsame : k.toJson.Same k'.toJson)
    (hk : .key k ∈ n.children) (hk' : .key k' ∈ n'.children) : k = k' :=
  Node.key.inj (h.told _ hk _ rfl (h.clear _ hk') hsame)

/-- Parts of one sort, written one after the other. -/
theorem list {α : Type} {part : α → Node} {xs ys : List α} (h : Below A n n')
    (hpart : Function.Injective part) (hsort : ∀ x y, (part x).ctorIdx = (part y).ctorIdx)
    (hsame : List.Forall₂ Json.Same (xs.map fun x => (part x).json)
      (ys.map fun y => (part y).json))
    (hxs : ∀ x ∈ xs, part x ∈ n.children) (hys : ∀ y ∈ ys, part y ∈ n'.children) : xs = ys := by
  induction xs generalizing ys with
  | nil =>
    cases ys with
    | nil => rfl
    | cons y ys => cases hsame
  | cons x xs ih =>
    cases ys with
    | nil => cases hsame
    | cons y ys =>
      obtain ⟨hhead, htail⟩ := List.forall₂_cons.1 hsame
      obtain ⟨hx, hxs⟩ := List.forall_mem_cons.1 hxs
      obtain ⟨hy, hys⟩ := List.forall_mem_cons.1 hys
      have heq : part x = part y := h.told _ hx _ (hsort x y) (h.clear _ hy) hhead
      rw [hpart heq, ih htail hxs hys]

/-- An expression that may be missing. It is never written as `null`. -/
theorem option {o o' : Option Expr} (h : Below A n n')
    (hsame : (Expr.optionJson o).Same (Expr.optionJson o'))
    (ho : ∀ e ∈ o, .expr e ∈ n.children) (ho' : ∀ e ∈ o', .expr e ∈ n'.children) : o = o' := by
  cases o with
  | none =>
    cases o' with
    | none => rfl
    | some e' => cases hsame
  | some e =>
    cases o' with
    | none => cases hsame
    | some e' => rw [h.expr hsame (ho e rfl) (ho' e' rfl)]

/-- A statement that may be missing. -/
theorem stmtOption {o o' : Option Stmt} (h : Below A n n')
    (hsame : (Stmt.optionJson o).Same (Stmt.optionJson o'))
    (ho : ∀ s ∈ o, .stmt s ∈ n.children) (ho' : ∀ s ∈ o', .stmt s ∈ n'.children) : o = o' := by
  cases o with
  | none =>
    cases o' with
    | none => rfl
    | some s' => cases hsame
  | some s =>
    cases o' with
    | none => cases hsame
    | some s' => rw [h.stmt hsame (ho s rfl) (ho' s' rfl)]

end Node.Below

/-! ### Lists as they are written -/

theorem Stmt.listJson_eq_map (xs : List Stmt) :
    Stmt.listJson xs = xs.map fun s => (Node.stmt s).json := by
  induction xs with
  | nil => rfl
  | cons s xs ih => rw [Stmt.listJson, ih]; rfl

theorem Param.listJson_eq_map (xs : List Param) :
    Param.listJson xs = xs.map fun p => (Node.param p).json := by
  induction xs with
  | nil => rfl
  | cons p xs ih => rw [Param.listJson, ih]; rfl

theorem Arg.listJson_eq_map (xs : List Arg) :
    Arg.listJson xs = xs.map fun a => (Node.arg a).json := by
  induction xs with
  | nil => rfl
  | cons a xs ih => rw [Arg.listJson, ih]; rfl

theorem Element.listJson_eq_map (xs : List Element) :
    Element.listJson xs = xs.map fun e => (Node.element e).json := by
  induction xs with
  | nil => rfl
  | cons e xs ih => rw [Element.listJson, ih]; rfl

theorem Member.listJson_eq_map (xs : List Member) :
    Member.listJson xs = xs.map fun m => (Node.member m).json := by
  induction xs with
  | nil => rfl
  | cons m xs ih => rw [Member.listJson, ih]; rfl

theorem ObjectMember.listJson_eq_map (xs : List ObjectMember) :
    ObjectMember.listJson xs = xs.map fun m => (Node.objectMember m).json := by
  induction xs with
  | nil => rfl
  | cons m xs ih => rw [ObjectMember.listJson, ih]; rfl

theorem Declarator.listJson_eq_map (xs : List Declarator) :
    Declarator.listJson xs = xs.map fun d => (Node.declarator d).json := by
  induction xs with
  | nil => rfl
  | cons d xs ih => rw [Declarator.listJson, ih]; rfl

/-! ### Lists of parts -/

namespace Node.Below

variable {A : Number → Prop} {n n' : Node}

theorem stmts {xs ys : List Stmt} (h : Below A n n')
    (hsame : (Json.array (Stmt.listJson xs)).Same (.array (Stmt.listJson ys)))
    (hxs : ∀ x ∈ xs, .stmt x ∈ n.children) (hys : ∀ y ∈ ys, .stmt y ∈ n'.children) :
    xs = ys := by
  rw [Stmt.listJson_eq_map, Stmt.listJson_eq_map] at hsame
  exact h.list (fun _ _ => Node.stmt.inj) (fun _ _ => rfl) (same_array_iff.1 hsame) hxs hys

theorem params {xs ys : List Param} (h : Below A n n')
    (hsame : (Json.array (Param.listJson xs)).Same (.array (Param.listJson ys)))
    (hxs : ∀ x ∈ xs, .param x ∈ n.children) (hys : ∀ y ∈ ys, .param y ∈ n'.children) :
    xs = ys := by
  rw [Param.listJson_eq_map, Param.listJson_eq_map] at hsame
  exact h.list (fun _ _ => Node.param.inj) (fun _ _ => rfl) (same_array_iff.1 hsame) hxs hys

theorem args {xs ys : List Arg} (h : Below A n n')
    (hsame : (Json.array (Arg.listJson xs)).Same (.array (Arg.listJson ys)))
    (hxs : ∀ x ∈ xs, .arg x ∈ n.children) (hys : ∀ y ∈ ys, .arg y ∈ n'.children) :
    xs = ys := by
  rw [Arg.listJson_eq_map, Arg.listJson_eq_map] at hsame
  exact h.list (fun _ _ => Node.arg.inj) (fun _ _ => rfl) (same_array_iff.1 hsame) hxs hys

theorem elements {xs ys : List Element} (h : Below A n n')
    (hsame : (Json.array (Element.listJson xs)).Same (.array (Element.listJson ys)))
    (hxs : ∀ x ∈ xs, .element x ∈ n.children) (hys : ∀ y ∈ ys, .element y ∈ n'.children) :
    xs = ys := by
  rw [Element.listJson_eq_map, Element.listJson_eq_map] at hsame
  exact h.list (fun _ _ => Node.element.inj) (fun _ _ => rfl) (same_array_iff.1 hsame) hxs hys

theorem members {xs ys : List Member} (h : Below A n n')
    (hsame : (Json.array (Member.listJson xs)).Same (.array (Member.listJson ys)))
    (hxs : ∀ x ∈ xs, .member x ∈ n.children) (hys : ∀ y ∈ ys, .member y ∈ n'.children) :
    xs = ys := by
  rw [Member.listJson_eq_map, Member.listJson_eq_map] at hsame
  exact h.list (fun _ _ => Node.member.inj) (fun _ _ => rfl) (same_array_iff.1 hsame) hxs hys

theorem objectMembers {xs ys : List ObjectMember} (h : Below A n n')
    (hsame : (Json.array (ObjectMember.listJson xs)).Same (.array (ObjectMember.listJson ys)))
    (hxs : ∀ x ∈ xs, .objectMember x ∈ n.children)
    (hys : ∀ y ∈ ys, .objectMember y ∈ n'.children) : xs = ys := by
  rw [ObjectMember.listJson_eq_map, ObjectMember.listJson_eq_map] at hsame
  exact h.list (fun _ _ => Node.objectMember.inj) (fun _ _ => rfl) (same_array_iff.1 hsame) hxs hys

theorem declarators {xs ys : List Declarator} (h : Below A n n')
    (hsame : (Json.array (Declarator.listJson xs)).Same (.array (Declarator.listJson ys)))
    (hxs : ∀ x ∈ xs, .declarator x ∈ n.children) (hys : ∀ y ∈ ys, .declarator y ∈ n'.children) :
    xs = ys := by
  rw [Declarator.listJson_eq_map, Declarator.listJson_eq_map] at hsame
  exact h.list (fun _ _ => Node.declarator.inj) (fun _ _ => rfl) (same_array_iff.1 hsame) hxs hys

end Node.Below

/-! ### Expressions and statements -/

/-- The sort of an expression is told from its tag. -/
theorem Expr.ctorIdx_eq_of_tag {e e' : Expr} (h : e.form.tag = e'.form.tag) :
    e.ctorIdx = e'.ctorIdx := by
  have hplace : ∀ e : Expr, e.ctorIdx =
      ["ArrowFunc", "Binary", "Call", "Class", "ComputedMember", "Cond", "Func", "Id", "Member",
        "PrivateMember", "Super", "This", "Unary", "UnaryPostfix", "LitArr", "LitBool", "LitNull",
        "LitNum", "LitObj", "LitStr"].idxOf e.form.tag := by
    intro e
    cases e <;> rfl
  rw [hplace e, hplace e', h]

/-- The sort of a statement is told from its tag. -/
theorem Stmt.ctorIdx_eq_of_tag {s s' : Stmt} (h : s.form.tag = s'.form.tag) :
    s.ctorIdx = s'.ctorIdx := by
  have hplace : ∀ s : Stmt, s.ctorIdx =
      ["Block", "Empty", "Expr", "If", "Return", "Throw", "While", "ClassDecl", "FunctionDecl",
        "VarDecl"].idxOf s.form.tag := by
    intro s
    cases s <;> rfl
  rw [hplace s, hplace s', h]

section

variable {A : Number → Prop}

theorem Expr.eq_of_same {e e' : Expr}
    (hA : ∀ x y, A x → A y → x.numeral? = y.numeral? → x = y)
    (hn : NumberIn A (.expr e)) (hn' : NumberIn A (.expr e'))
    (hbelow : Below A (.expr e) (.expr e'))
    (h : e.form.tagged.Same e'.form.tagged) : e = e' := by
  obtain ⟨htag, hspan, hfields⟩ := Form.eq_of_same h
  have hsort := Expr.ctorIdx_eq_of_tag htag
  cases e with
  | arrow span func =>
    cases e' with
    | arrow span' func' =>
      have hspan : span = span' := hspan
      have hfunc : func = func' := hbelow.func (hfields.field "func" rfl rfl)
        (by simp [Node.children, Expr.children]) (by simp [Node.children, Expr.children])
      rw [hspan, hfunc]
    | _ => cases hsort
  | binary span op left right =>
    cases e' with
    | binary span' op' left' right' =>
      have hspan : span = span' := hspan
      have hop : op = op' := Operator.eq_of_same (hfields.field "operator" rfl rfl)
      have hleft : left = left' := hbelow.expr (hfields.field "left" rfl rfl)
        (by simp [Node.children, Expr.children]) (by simp [Node.children, Expr.children])
      have hright : right = right' := hbelow.expr (hfields.field "right" rfl rfl)
        (by simp [Node.children, Expr.children]) (by simp [Node.children, Expr.children])
      rw [hspan, hop, hleft, hright]
    | _ => cases hsort
  | call span callee arguments =>
    cases e' with
    | call span' callee' arguments' =>
      have hspan : span = span' := hspan
      have hcallee : callee = callee' := hbelow.expr (hfields.field "callee" rfl rfl)
        (by simp [Node.children, Expr.children]) (by simp [Node.children, Expr.children])
      have harguments : arguments = arguments' := hbelow.args (hfields.field "arguments" rfl rfl)
        (by simp_all [Node.children, Expr.children]) (by simp_all [Node.children, Expr.children])
      rw [hspan, hcallee, harguments]
    | _ => cases hsort
  | classExpr span name parent members =>
    cases e' with
    | classExpr span' name' parent' members' =>
      have hspan : span = span' := hspan
      have hname : name = name' := Ident.option_eq_of_same (hfields.field "name" rfl rfl)
      have hparent : parent = parent' := hbelow.option (hfields.field "extends" rfl rfl)
        (by simp_all [Node.children, Expr.children]) (by simp_all [Node.children, Expr.children])
      have hmembers : members = members' := hbelow.members (hfields.field "members" rfl rfl)
        (by simp_all [Node.children, Expr.children]) (by simp_all [Node.children, Expr.children])
      rw [hspan, hname, hparent, hmembers]
    | _ => cases hsort
  | computedMember span object member =>
    cases e' with
    | computedMember span' object' member' =>
      have hspan : span = span' := hspan
      have hobject : object = object' := hbelow.expr (hfields.field "object" rfl rfl)
        (by simp [Node.children, Expr.children]) (by simp [Node.children, Expr.children])
      have hmember : member = member' := hbelow.expr (hfields.field "member" rfl rfl)
        (by simp [Node.children, Expr.children]) (by simp [Node.children, Expr.children])
      rw [hspan, hobject, hmember]
    | _ => cases hsort
  | conditional span test consequent alternate =>
    cases e' with
    | conditional span' test' consequent' alternate' =>
      have hspan : span = span' := hspan
      have htest : test = test' := hbelow.expr (hfields.field "test" rfl rfl)
        (by simp [Node.children, Expr.children]) (by simp [Node.children, Expr.children])
      have hconsequent : consequent = consequent' :=
        hbelow.expr (hfields.field "consequent" rfl rfl)
          (by simp [Node.children, Expr.children]) (by simp [Node.children, Expr.children])
      have halternate : alternate = alternate' := hbelow.expr (hfields.field "alternate" rfl rfl)
        (by simp [Node.children, Expr.children]) (by simp [Node.children, Expr.children])
      rw [hspan, htest, hconsequent, halternate]
    | _ => cases hsort
  | functionExpr span name func =>
    cases e' with
    | functionExpr span' name' func' =>
      have hspan : span = span' := hspan
      have hname : name = name' := Ident.option_eq_of_same (hfields.field "name" rfl rfl)
      have hfunc : func = func' := hbelow.func (hfields.field "func" rfl rfl)
        (by simp [Node.children, Expr.children]) (by simp [Node.children, Expr.children])
      rw [hspan, hname, hfunc]
    | _ => cases hsort
  | ident span name =>
    cases e' with
    | ident span' name' =>
      have hspan : span = span' := hspan
      have hname : name = name' := same_string_iff.1 (hfields.field "name" rfl rfl)
      rw [hspan, hname]
    | _ => cases hsort
  | member span object name =>
    cases e' with
    | member span' object' name' =>
      have hspan : span = span' := hspan
      have hobject : object = object' := hbelow.expr (hfields.field "left" rfl rfl)
        (by simp [Node.children, Expr.children]) (by simp [Node.children, Expr.children])
      have hname : name = name' := same_string_iff.1 (hfields.field "right" rfl rfl)
      rw [hspan, hobject, hname]
    | _ => cases hsort
  | privateMember span object name =>
    cases e' with
    | privateMember span' object' name' =>
      have hspan : span = span' := hspan
      have hobject : object = object' := hbelow.expr (hfields.field "left" rfl rfl)
        (by simp [Node.children, Expr.children]) (by simp [Node.children, Expr.children])
      have hname : name = name' := Ident.eq_of_same (hfields.field "right" rfl rfl)
      rw [hspan, hobject, hname]
    | _ => cases hsort
  | superRef span =>
    cases e' with
    | superRef span' =>
      have hspan : span = span' := hspan
      rw [hspan]
    | _ => cases hsort
  | thisRef span =>
    cases e' with
    | thisRef span' =>
      have hspan : span = span' := hspan
      rw [hspan]
    | _ => cases hsort
  | unary span op argument =>
    cases e' with
    | unary span' op' argument' =>
      have hspan : span = span' := hspan
      have hop : op = op' := Operator.eq_of_same (hfields.field "operator" rfl rfl)
      have hargument : argument = argument' := hbelow.expr (hfields.field "argument" rfl rfl)
        (by simp [Node.children, Expr.children]) (by simp [Node.children, Expr.children])
      rw [hspan, hop, hargument]
    | _ => cases hsort
  | update span op argument =>
    cases e' with
    | update span' op' argument' =>
      have hspan : span = span' := hspan
      have hop : op = op' := Operator.eq_of_same (hfields.field "operator" rfl rfl)
      have hargument : argument = argument' := hbelow.expr (hfields.field "argument" rfl rfl)
        (by simp [Node.children, Expr.children]) (by simp [Node.children, Expr.children])
      rw [hspan, hop, hargument]
    | _ => cases hsort
  | arrayLit span elements =>
    cases e' with
    | arrayLit span' elements' =>
      have hspan : span = span' := hspan
      have helements : elements = elements' := hbelow.elements (hfields.field "elements" rfl rfl)
        (by simp_all [Node.children, Expr.children]) (by simp_all [Node.children, Expr.children])
      rw [hspan, helements]
    | _ => cases hsort
  | boolLit span value =>
    cases e' with
    | boolLit span' value' =>
      have hspan : span = span' := hspan
      have hvalue : value = value' := same_bool_iff.1 (hfields.field "value" rfl rfl)
      rw [hspan, hvalue]
    | _ => cases hsort
  | nullLit span =>
    cases e' with
    | nullLit span' =>
      have hspan : span = span' := hspan
      rw [hspan]
    | _ => cases hsort
  | numberLit span value =>
    cases e' with
    | numberLit span' value' =>
      have hspan : span = span' := hspan
      have hvalue : value = value' :=
        hA _ _ hn hn' (same_number_iff.1 (hfields.field "value" rfl rfl))
      rw [hspan, hvalue]
    | _ => cases hsort
  | objectLit span members =>
    cases e' with
    | objectLit span' members' =>
      have hspan : span = span' := hspan
      have hmembers : members = members' := hbelow.objectMembers (hfields.field "members" rfl rfl)
        (by simp_all [Node.children, Expr.children]) (by simp_all [Node.children, Expr.children])
      rw [hspan, hmembers]
    | _ => cases hsort
  | stringLit span value =>
    cases e' with
    | stringLit span' value' =>
      have hspan : span = span' := hspan
      have hvalue : value = value' := same_string_iff.1 (hfields.field "value" rfl rfl)
      rw [hspan, hvalue]
    | _ => cases hsort

theorem Stmt.eq_of_same {s s' : Stmt} (hbelow : Below A (.stmt s) (.stmt s'))
    (h : s.form.tagged.Same s'.form.tagged) : s = s' := by
  obtain ⟨htag, hspan, hfields⟩ := Form.eq_of_same h
  have hsort := Stmt.ctorIdx_eq_of_tag htag
  cases s with
  | block span body =>
    cases s' with
    | block span' body' =>
      have hspan : span = span' := hspan
      have hbody : body = body' := hbelow.stmts (hfields.field "body" rfl rfl)
        (by simp_all [Node.children, Stmt.children]) (by simp_all [Node.children, Stmt.children])
      rw [hspan, hbody]
    | _ => cases hsort
  | empty span =>
    cases s' with
    | empty span' =>
      have hspan : span = span' := hspan
      rw [hspan]
    | _ => cases hsort
  | expr span value =>
    cases s' with
    | expr span' value' =>
      have hspan : span = span' := hspan
      have hvalue : value = value' := hbelow.expr (hfields.field "expr" rfl rfl)
        (by simp [Node.children, Stmt.children]) (by simp [Node.children, Stmt.children])
      rw [hspan, hvalue]
    | _ => cases hsort
  | ifElse span test consequent alternate =>
    cases s' with
    | ifElse span' test' consequent' alternate' =>
      have hspan : span = span' := hspan
      have htest : test = test' := hbelow.expr (hfields.field "test" rfl rfl)
        (by simp [Node.children, Stmt.children]) (by simp [Node.children, Stmt.children])
      have hconsequent : consequent = consequent' :=
        hbelow.stmt (hfields.field "consequent" rfl rfl)
          (by simp [Node.children, Stmt.children]) (by simp [Node.children, Stmt.children])
      have halternate : alternate = alternate' :=
        hbelow.stmtOption (hfields.field "alternate" rfl rfl)
          (by simp_all [Node.children, Stmt.children]) (by simp_all [Node.children, Stmt.children])
      rw [hspan, htest, hconsequent, halternate]
    | _ => cases hsort
  | returnStmt span value =>
    cases s' with
    | returnStmt span' value' =>
      have hspan : span = span' := hspan
      have hvalue : value = value' := hbelow.option (hfields.field "value" rfl rfl)
        (by simp_all [Node.children, Stmt.children]) (by simp_all [Node.children, Stmt.children])
      rw [hspan, hvalue]
    | _ => cases hsort
  | throwStmt span value =>
    cases s' with
    | throwStmt span' value' =>
      have hspan : span = span' := hspan
      have hvalue : value = value' := hbelow.expr (hfields.field "value" rfl rfl)
        (by simp [Node.children, Stmt.children]) (by simp [Node.children, Stmt.children])
      rw [hspan, hvalue]
    | _ => cases hsort
  | whileLoop span condition body =>
    cases s' with
    | whileLoop span' condition' body' =>
      have hspan : span = span' := hspan
      have hcondition : condition = condition' := hbelow.expr (hfields.field "condition" rfl rfl)
        (by simp [Node.children, Stmt.children]) (by simp [Node.children, Stmt.children])
      have hbody : body = body' := hbelow.stmt (hfields.field "body" rfl rfl)
        (by simp [Node.children, Stmt.children]) (by simp [Node.children, Stmt.children])
      rw [hspan, hcondition, hbody]
    | _ => cases hsort
  | classDecl span name parent members =>
    cases s' with
    | classDecl span' name' parent' members' =>
      have hspan : span = span' := hspan
      have hname : name = name' := Ident.eq_of_same (hfields.field "name" rfl rfl)
      have hparent : parent = parent' := hbelow.option (hfields.field "extends" rfl rfl)
        (by simp_all [Node.children, Stmt.children]) (by simp_all [Node.children, Stmt.children])
      have hmembers : members = members' := hbelow.members (hfields.field "members" rfl rfl)
        (by simp_all [Node.children, Stmt.children]) (by simp_all [Node.children, Stmt.children])
      rw [hspan, hname, hparent, hmembers]
    | _ => cases hsort
  | functionDecl span name func =>
    cases s' with
    | functionDecl span' name' func' =>
      have hspan : span = span' := hspan
      have hname : name = name' := Ident.eq_of_same (hfields.field "name" rfl rfl)
      have hfunc : func = func' := hbelow.func (hfields.field "function" rfl rfl)
        (by simp [Node.children, Stmt.children]) (by simp [Node.children, Stmt.children])
      rw [hspan, hname, hfunc]
    | _ => cases hsort
  | varDecl span kind declarators =>
    cases s' with
    | varDecl span' kind' declarators' =>
      have hspan : span = span' := hspan
      have hkind : kind = kind' := DeclarationKind.eq_of_same (hfields.field "mode" rfl rfl)
      have hdeclarators : declarators = declarators' :=
        hbelow.declarators (hfields.field "declarators" rfl rfl)
          (by simp_all [Node.children, Stmt.children]) (by simp_all [Node.children, Stmt.children])
      rw [hspan, hkind, hdeclarators]
    | _ => cases hsort

/-! ### Functions, members and the other parts -/

theorem Func.eq_of_same {f f' : Func} (hbelow : Below A (.func f) (.func f'))
    (h : f.toJson.Same f'.toJson) : f = f' := by
  obtain ⟨span, arrow, async, generator, params, body⟩ := f
  obtain ⟨span', arrow', async', generator', params', body'⟩ := f'
  obtain ⟨hspan, hfields⟩ := Json.Same.node h
  have harrow : arrow = arrow' := same_bool_iff.1 (hfields.field "arrow" rfl rfl)
  have hasync : async = async' := same_bool_iff.1 (hfields.field "async_" rfl rfl)
  have hgenerator : generator = generator' := same_bool_iff.1 (hfields.field "generator" rfl rfl)
  have hparams : params = params' := hbelow.params (hfields.field "parameters" rfl rfl)
    (by simp_all [Node.children]) (by simp_all [Node.children])
  have hbody : body = body' := hbelow.body (hfields.field "body" rfl rfl)
    (by simp [Node.children]) (by simp [Node.children])
  rw [hspan, harrow, hasync, hgenerator, hparams, hbody]

theorem FuncBody.eq_of_same {b b' : FuncBody} (hbelow : Below A (.body b) (.body b'))
    (h : b.toJson.Same b'.toJson) : b = b' := by
  cases b with
  | block body =>
    cases b' with
    | block body' =>
      have hbody : body = body' := hbelow.stmts (h.field "Block" rfl rfl)
        (by simp_all [Node.children]) (by simp_all [Node.children])
      rw [hbody]
    | expr value' => exact (h.field_missing "Block" rfl rfl).elim
  | expr value =>
    cases b' with
    | block body' => exact (h.field_missing "Expression" rfl rfl).elim
    | expr value' =>
      have hvalue : value = value' := hbelow.expr (h.field "Expression" rfl rfl)
        (by simp [Node.children]) (by simp [Node.children])
      rw [hvalue]

theorem Param.eq_of_same {p p' : Param} (hbelow : Below A (.param p) (.param p'))
    (h : p.toJson.Same p'.toJson) : p = p' := by
  obtain ⟨span, rest, name, default⟩ := p
  obtain ⟨span', rest', name', default'⟩ := p'
  obtain ⟨hspan, hfields⟩ := Json.Same.node h
  have hrest : rest = rest' := same_bool_iff.1 (hfields.field "rest" rfl rfl)
  have hname : name = name' := Ident.eq_of_same (hfields.field "pattern" rfl rfl)
  have hdefault : default = default' := hbelow.option (hfields.field "default_value" rfl rfl)
    (by simp_all [Node.children]) (by simp_all [Node.children])
  rw [hspan, hrest, hname, hdefault]

theorem Arg.eq_of_same {a a' : Arg} (hbelow : Below A (.arg a) (.arg a'))
    (h : a.toJson.Same a'.toJson) : a = a' := by
  obtain ⟨span, spread, value⟩ := a
  obtain ⟨span', spread', value'⟩ := a'
  obtain ⟨hspan, hfields⟩ := Json.Same.node h
  have hspread : spread = spread' := same_bool_iff.1 (hfields.field "spread" rfl rfl)
  have hvalue : value = value' := hbelow.expr (hfields.field "value" rfl rfl)
    (by simp [Node.children]) (by simp [Node.children])
  rw [hspan, hspread, hvalue]

theorem Element.eq_of_same {e e' : Element} (hbelow : Below A (.element e) (.element e'))
    (h : e.toJson.Same e'.toJson) : e = e' := by
  cases e with
  | single value =>
    cases e' with
    | single value' =>
      have hvalue : value = value' := hbelow.expr (h.field "Single" rfl rfl)
        (by simp [Node.children]) (by simp [Node.children])
      rw [hvalue]
    | rest value' => exact (h.field_missing "Single" rfl rfl).elim
    | hole => cases h
  | rest value =>
    cases e' with
    | single value' => exact (h.field_missing "Rest" rfl rfl).elim
    | rest value' =>
      have hvalue : value = value' := hbelow.expr (h.field "Rest" rfl rfl)
        (by simp [Node.children]) (by simp [Node.children])
      rw [hvalue]
    | hole => cases h
  | hole =>
    cases e' with
    | single value' => cases h
    | rest value' => cases h
    | hole => rfl

theorem Key.eq_of_same {k k' : Key} (hbelow : Below A (.key k) (.key k'))
    (h : k.toJson.Same k'.toJson) : k = k' := by
  cases k with
  | direct key =>
    cases k' with
    | direct key' =>
      have hkey : key = key' := DirectKey.eq_of_same (h.field "Direct" rfl rfl)
      rw [hkey]
    | computed value' => exact (h.field_missing "Direct" rfl rfl).elim
    | privateName name' => exact (h.field_missing "Direct" rfl rfl).elim
  | computed value =>
    cases k' with
    | direct key' => exact (h.field_missing "Computed" rfl rfl).elim
    | computed value' =>
      have hvalue : value = value' := hbelow.expr (h.field "Computed" rfl rfl)
        (by simp [Node.children]) (by simp [Node.children])
      rw [hvalue]
    | privateName name' => exact (h.field_missing "Computed" rfl rfl).elim
  | privateName name =>
    cases k' with
    | direct key' => exact (h.field_missing "Private" rfl rfl).elim
    | computed value' => exact (h.field_missing "Private" rfl rfl).elim
    | privateName name' =>
      have hname : name = name' := Ident.eq_of_same (h.field "Private" rfl rfl)
      rw [hname]

theorem Member.eq_of_same {x x' : Member} (hbelow : Below A (.member x) (.member x'))
    (h : x.form.tagged.Same x'.form.tagged) : x = x' := by
  obtain ⟨htag, hspan, hfields⟩ := Form.eq_of_same h
  cases x with
  | method span key static kind func =>
    cases x' with
    | method span' key' static' kind' func' =>
      have hspan : span = span' := hspan
      have hkey : key = key' := hbelow.key (hfields.field "key" rfl rfl)
        (by simp [Node.children]) (by simp [Node.children])
      have hstatic : static = static' := same_bool_iff.1 (hfields.field "static_" rfl rfl)
      have hkind : kind = kind' := MethodKind.eq_of_same (hfields.field "kind" rfl rfl)
      have hfunc : func = func' := hbelow.func (hfields.field "func" rfl rfl)
        (by simp [Node.children]) (by simp [Node.children])
      rw [hspan, hkey, hstatic, hkind, hfunc]
    | field span' key' computed' value' =>
      exact absurd (show "MethodDefinition" = "FieldDefinition" from htag) (by decide)
  | field span key computed value =>
    cases x' with
    | method span' key' static' kind' func' =>
      exact absurd (show "FieldDefinition" = "MethodDefinition" from htag) (by decide)
    | field span' key' computed' value' =>
      have hspan : span = span' := hspan
      have hkey : key = key' := hbelow.key (hfields.field "key" rfl rfl)
        (by simp [Node.children]) (by simp [Node.children])
      have hcomputed : computed = computed' := same_bool_iff.1 (hfields.field "computed" rfl rfl)
      have hvalue : value = value' := hbelow.option (hfields.field "value" rfl rfl)
        (by simp_all [Node.children]) (by simp_all [Node.children])
      rw [hspan, hkey, hcomputed, hvalue]

theorem ObjectMember.eq_of_same {x x' : ObjectMember}
    (hbelow : Below A (.objectMember x) (.objectMember x'))
    (h : (Json.node x.parts.1 x.parts.2).Same (.node x'.parts.1 x'.parts.2)) : x = x' := by
  obtain ⟨hspan, hcontent⟩ := Json.Same.node h
  cases x with
  | valued span key value =>
    cases x' with
    | valued span' key' value' =>
      have hspan : span = span' := hspan
      have hfields := (hcontent.field "typ" rfl rfl).field "Valued" rfl rfl
      have hkey : key = key' := hbelow.key (hfields.field "key" rfl rfl)
        (by simp [Node.children]) (by simp [Node.children])
      have hvalue : value = value' := hbelow.expr (hfields.field "val" rfl rfl)
        (by simp [Node.children]) (by simp [Node.children])
      rw [hspan, hkey, hvalue]
    | method span' key' kind' func' =>
      exact ((hcontent.field "typ" rfl rfl).field_missing "Valued" rfl rfl).elim
    | shorthand span' name' =>
      exact ((hcontent.field "typ" rfl rfl).field_missing "Valued" rfl rfl).elim
  | method span key kind func =>
    cases x' with
    | valued span' key' value' =>
      exact ((hcontent.field "typ" rfl rfl).field_missing "Method" rfl rfl).elim
    | method span' key' kind' func' =>
      have hspan : span = span' := hspan
      have hfields := (hcontent.field "typ" rfl rfl).field "Method" rfl rfl
      have hkey : key = key' := hbelow.key (hfields.field "key" rfl rfl)
        (by simp [Node.children]) (by simp [Node.children])
      have hkind : kind = kind' := MethodKind.eq_of_same (hfields.field "kind" rfl rfl)
      have hfunc : func = func' := hbelow.func (hfields.field "func" rfl rfl)
        (by simp [Node.children]) (by simp [Node.children])
      rw [hspan, hkey, hkind, hfunc]
    | shorthand span' name' =>
      exact ((hcontent.field "typ" rfl rfl).field_missing "Method" rfl rfl).elim
  | shorthand span name =>
    cases x' with
    | valued span' key' value' =>
      exact ((hcontent.field "typ" rfl rfl).field_missing "Shorthand" rfl rfl).elim
    | method span' key' kind' func' =>
      exact ((hcontent.field "typ" rfl rfl).field_missing "Shorthand" rfl rfl).elim
    | shorthand span' name' =>
      have hspan : span = span' := hspan
      have hfields := (hcontent.field "typ" rfl rfl).field "Shorthand" rfl rfl
      have hname : name = name' := Ident.eq_of_same (hfields.field "id" rfl rfl)
      rw [hspan, hname]

theorem Declarator.eq_of_same {d d' : Declarator}
    (hbelow : Below A (.declarator d) (.declarator d')) (h : d.toJson.Same d'.toJson) : d = d' := by
  obtain ⟨name, initial⟩ := d
  obtain ⟨name', initial'⟩ := d'
  have hname : name = name' := Ident.eq_of_same (h.field "pattern" rfl rfl)
  have hinitial : initial = initial' := hbelow.option (h.field "initializer" rfl rfl)
    (by simp_all [Node.children]) (by simp_all [Node.children])
  rw [hname, hinitial]

theorem Program.eq_of_same {p p' : Program} (hbelow : Below A (.program p) (.program p'))
    (h : p.toJson.Same p'.toJson) : p = p' := by
  obtain ⟨span, body⟩ := p
  obtain ⟨span', body'⟩ := p'
  obtain ⟨hspan, hfields⟩ := Json.Same.node h
  have hspan : span = span' := hspan
  have hbody : body = body' := hbelow.stmts (hfields.field "body" rfl rfl)
    (by simp_all [Node.children]) (by simp_all [Node.children])
  rw [hspan, hbody]

/-! ### Trees -/

/-- A part is told from its written form, as soon as its numbers are told from their texts. -/
theorem Node.told (hA : ∀ x y, A x → A y → x.numeral? = y.numeral? → x = y) {n : Node}
    (h : Throughout (NumberIn A) n) : Told A n := by
  induction h with
  | @intro n hn _ ih =>
    intro m hm hclear hsame
    have hbelow : Below A n m := ⟨ih, fun c hc => hclear.child hc⟩
    cases n with
    | program p =>
      cases m with
      | program p' => rw [Program.eq_of_same hbelow hsame]
      | _ => cases hm
    | stmt s =>
      cases m with
      | stmt s' => rw [Stmt.eq_of_same hbelow hsame]
      | _ => cases hm
    | expr e =>
      cases m with
      | expr e' => rw [Expr.eq_of_same hA hn hclear.here hbelow hsame]
      | _ => cases hm
    | func f =>
      cases m with
      | func f' => rw [Func.eq_of_same hbelow hsame]
      | _ => cases hm
    | body b =>
      cases m with
      | body b' => rw [FuncBody.eq_of_same hbelow hsame]
      | _ => cases hm
    | param p =>
      cases m with
      | param p' => rw [Param.eq_of_same hbelow hsame]
      | _ => cases hm
    | arg a =>
      cases m with
      | arg a' => rw [Arg.eq_of_same hbelow hsame]
      | _ => cases hm
    | element e =>
      cases m with
      | element e' => rw [Element.eq_of_same hbelow hsame]
      | _ => cases hm
    | key k =>
      cases m with
      | key k' => rw [Key.eq_of_same hbelow hsame]
      | _ => cases hm
    | member x =>
      cases m with
      | member x' => rw [Member.eq_of_same hbelow hsame]
      | _ => cases hm
    | objectMember x =>
      cases m with
      | objectMember x' => rw [ObjectMember.eq_of_same hbelow hsame]
      | _ => cases hm
    | declarator d =>
      cases m with
      | declarator d' => rw [Declarator.eq_of_same hbelow hsame]
      | _ => cases hm
    | privateUse name =>
      cases m with
      | privateUse name' => rw [Ident.eq_of_same hsame]
      | _ => cases hm

end

/-- The number literals of the tree have finite values. -/
def Program.FiniteNumbers (p : Program) : Prop :=
  Throughout (NumberIn fun x => x.isFinite = true) (.program p)

/-- **The written form loses nothing.** Two trees with finite numbers whose JSON values are the same
are equal, places, flags, names and lists included. -/
theorem Program.toJson_inj {p q : Program} (hp : p.FiniteNumbers) (hq : q.FiniteNumbers)
    (h : p.toJson.Same q.toJson) : p = q :=
  Node.program.inj (Node.told (fun _ _ => Number.numeral?_inj) hp _ rfl hq h)

/-- A script that is the number `0.1`. -/
theorem Program.toJson_inj_tenth :
    let place : Span := ⟨0, 3⟩
    let tenth : Program := ⟨place, [.expr place (.numberLit place ⟨0x3fb999999999999a⟩)]⟩
    tenth.FiniteNumbers ∧ tenth.toJson.Same tenth.toJson ∧ tenth = tenth := by
  intro place tenth
  have hliteral : Throughout (NumberIn fun x => x.isFinite = true)
      (.expr (.numberLit place ⟨0x3fb999999999999a⟩)) :=
    .intro (by decide : Number.isFinite ⟨0x3fb999999999999a⟩ = true) nofun
  have hfinite : tenth.FiniteNumbers := by
    refine .intro trivial fun m hm => ?_
    obtain rfl := List.mem_singleton.1 hm
    refine .intro trivial fun m hm => ?_
    obtain rfl := List.mem_singleton.1 hm
    exact hliteral
  exact ⟨hfinite, .refl _, toJson_inj hfinite hfinite (.refl _)⟩

end EcmaScript
