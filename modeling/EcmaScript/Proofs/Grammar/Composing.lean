import EcmaScript.Proofs.Grammar.Parenthesized
import EcmaScript.Proofs.Relation.Frame
import EcmaScript.Proofs.Tree.DefinedNames
import EcmaScript.Proofs.Tree.Initializers

namespace EcmaScript

open EcmaScript.Parser

/-!
# Properties that are put together from parts

A run that succeeds gives a part of a tree. A property of such runs that goes from the parts to what
they are put together to holds of whole scripts.

* `RunRel` — relates the states before and after a run to the parts that it gives;
* `ClassRun` — how what is read inside a class lies in the run of the class;
* `Node.Formed` — what a part is by itself when it has been read;
* `Composing` — goes from parts to what they are put together to, with a second relation for what is
  read inside a class;
* `Compositional` — holds moreover where something was read in vain;
* `Rules.Composed` — statements and expressions satisfy the relation;
* `Composing.identifier`, …, `Composing.classExpression` — so does each rule that is built from them.
-/

/-- Relates the states before and after a run to the parts of the tree that the run gives. -/
abbrev RunRel := Context → State → State → List Node → Prop

/-- A class is read between `s` and `t`, and what is inside it between `s'` and `u`: in a scope of
its own where classes may have fields. -/
inductive ClassRun (c : Context) (s : State) : State → State → State → Prop where
  | withScope {u t : State} {count : Nat} : c.options.classFields = true →
    exitCount c u = .ok count → t.position = u.position → t.scopes = u.scopes.exit.2 →
    t.inInitializer = u.inInitializer → ClassRun c s s.entered u t
  | withoutScope {t : State} : c.options.classFields = false → ClassRun c s s t t

theorem inClass_classRun {α : Type} {p : Parser α} {c : Context} {s t : State} {a : α}
    (h : inClass p c s = .ok a t) : ∃ s' u, p c s' = .ok a u ∧ ClassRun c s s' u t := by
  cases hfields : c.options.classFields with
  | true =>
    obtain ⟨u, count, hp, hcount, hposition, hscopes, hinitializer⟩ := inClass_ok hfields h
    exact ⟨_, u, hp, .withScope hfields hcount hposition hscopes hinitializer⟩
  | false =>
    rw [inClass_run, hfields] at h
    exact ⟨s, t, h, .withoutScope hfields⟩

theorem ClassRun.position {c : Context} {s s' u t : State} (h : ClassRun c s s' u t) :
    s'.position = s.position := by
  cases h with
  | withScope => rfl
  | withoutScope => rfl

/-- Nothing is asked of such an expression by itself, apart from its place. -/
def Expr.isPlain : Expr → Bool
  | .arrow .. | .binary .. | .classExpr .. | .functionExpr .. | .ident .. | .member ..
  | .superRef _ | .unary .. => false
  | _ => true

namespace Node

/-- No class, no field, and no use of a private name. -/
def isOrdinary : Node → Bool
  | expr (.classExpr ..) => false
  | stmt (.classDecl ..) => false
  | member (.field ..) => false
  | privateUse _ => false
  | _ => true

/-- A part that has been read is well-formed, may stand in an initializer if it does, covers what it
was put together from, and has its name from the tokens. -/
structure Formed (c : Context) (t : State) (n : Node) : Prop where
  wellFormed : n.WellFormed
  permitted : c.Guards t → n.Permitted
  enclosed : InOrder c.token → n.Enclosed c.token
  takesName : n.TakesName c.token

/-- Nothing is asked of such a part by itself. -/
def isPlain : Node → Bool
  | stmt (.classDecl ..) | stmt (.functionDecl ..) => false
  | expr _ | param _ | declarator _ | member _ | objectMember _ | key (.direct _) | privateUse _ =>
    false
  | _ => true

variable {n : Node} {c : Context} {t : State}

theorem isOrdinary_of_isPlain (h : n.isPlain) : n.isOrdinary := by
  cases n with
  | expr => cases h
  | stmt s => cases s <;> first | rfl | cases h
  | member => cases h
  | privateUse => cases h
  | _ => rfl

theorem Formed.of_isPlain (h : n.isPlain) : n.Formed c t := by
  cases n with
  | expr => cases h
  | stmt s =>
    cases s <;> first
      | exact ⟨trivial, fun _ => trivial, fun _ => trivial, .of_none rfl⟩
      | cases h
  | key k =>
    cases k <;> first
      | exact ⟨trivial, fun _ => trivial, fun _ => trivial, .of_none rfl⟩
      | cases h
  | param => cases h
  | declarator => cases h
  | member => cases h
  | objectMember => cases h
  | _ => exact ⟨trivial, fun _ => trivial, fun _ => trivial, .of_none rfl⟩

theorem isOrdinary_of_expr {e : Expr} (h : e.isPlain) : (expr e).isOrdinary := by
  cases e <;> first | rfl | cases h

theorem Formed.of_expr {e : Expr} (h : e.isPlain) (hplace : InOrder c.token → e.Enclosed c.token) :
    (expr e).Formed c t := by
  cases e <;> first
    | exact ⟨trivial, fun _ => trivial, hplace, .of_none rfl⟩
    | cases h

/-- Nothing is asked of a class by itself, apart from its place and its name. -/
theorem Formed.of_members? {members : List Member} (h : n.members? = some members)
    (hplace : InOrder c.token → n.Enclosed c.token) (hname : n.TakesName c.token) :
    n.Formed c t := by
  unfold members? at h
  split at h
  · exact ⟨trivial, fun _ => trivial, hplace, hname⟩
  · exact ⟨trivial, fun _ => trivial, hplace, hname⟩
  · cases h

end Node

/-- A field without a private name declares none. -/
theorem declaredNames_field {span : Span} {k : Key} {computed : Bool} {value : Option Expr}
    (h : k.isPrivate = false) : declaredNames [.member (.field span k computed value)] = [] := by
  cases k with
  | direct => rfl
  | computed => rfl
  | privateName => cases h

/-- Goes from parts to what they are put together to, where nothing was read in vain. -/
structure Composing (Y Z : RunRel) : Prop where
  place {c : Context} {s t : State} : s.SamePlace t → Y c s t []
  token {c : Context} {s : State} : (c.token s.position).kind ≠ .privateName → Y c s s.advanced []
  append {c : Context} {s u t : State} {ns ms : List Node} :
    Y c s u ns → Y c u t ms → Y c s t (ns ++ ms)
  node {c : Context} {s t : State} {n : Node} :
    n.isOrdinary → n.Formed c t → Y c s t n.children → Y c s t [n]
  use {c : Context} {s u t : State} {name : Ident} : Grammar.privateName c s = .ok name u →
    usePrivate name c u = .ok () t → Y c s t [.privateUse name]
  withNames {c : Context} {s t : State} {ns : List Node} (names : NameRules) :
    Y { c with names := names } s t ns → Y c s t ns
  publicField {c : Context} {s u v t : State} {k : Key} {value : Option Expr} {span : Span} :
    k.isPrivate = false → ¬ k.NamesConstructor → Y c s u [.key k] →
    Y c { u with inInitializer := true } v (value.toList.map .expr) →
    Y c { v with inInitializer := u.inInitializer } t [] →
    Y c s t [.member (.field span k k.isComputed value)]
  classNode {c : Context} {s s' u t : State} {n : Node} {members : List Member} :
    n.members? = some members → n.Formed c t →
    declaredNames n.children = privateNames members → ClassRun c s s' u t →
    Z c s' u n.children → Y c s t [n]
  inside {c : Context} {s t : State} {ns : List Node} : declaredNames ns = [] → Y c s t ns →
    Z c s t ns
  insideAppend {c : Context} {s u t : State} {ns ms : List Node} :
    Z c s u ns → Z c u t ms → Z c s t (ns ++ ms)
  privateField {c : Context} {s u v w x t : State} {name : Ident} {value : Option Expr}
    {span : Span} :
    c.options.classFields = true → c.options.supportsFields = true →
    Grammar.privateName c s = .ok name u → name.name ≠ "constructor" →
    declarePrivate name c u = .ok () v → Y c v w [] →
    Y c { w with inInitializer := true } x (value.toList.map .expr) →
    Y c { x with inInitializer := w.inInitializer } t [] →
    Z c s t [.member (.field span (.privateName name) false value)]

/-- Goes from parts to what they are put together to, also where something was read in vain. -/
structure Compositional (Y Z : RunRel) : Prop extends Composing Y Z where
  stay {c : Context} {s t : State} : s.Kept c t → t.position = s.position → Y c s t []
  place h := stay (h.kept _) h.position

/-- Statements and expressions satisfy the relation. -/
structure Rules.Composed (Y : RunRel) (g : Rules) : Prop where
  reading : g.Reading
  covering : g.Covering
  keeping : g.Keeping
  stmt {c : Context} {s t : State} {a : Stmt} : g.stmt c s = .ok a t → Y c s t [.stmt a]
  expr {c : Context} {s t : State} {mode : ExprMode} {a : Expr × Bool} :
    mode.TakesCalls → g.expr mode c s = .ok a t → Y c s t [.expr a.1]

theorem Rules.Composed.whole {Y : RunRel} {g : Rules} (hg : g.Composed Y) {c : Context}
    {s t : State} {stops : List TokenKind} (hstops : .punctuator .parenthesisOpen ∉ stops) {e : Expr}
    (h : g.whole stops c s = .ok e t) : Y c s t [.expr e] := by
  simp only [Rules.whole, bind_ok_iff, pure_ok_iff] at h
  obtain ⟨_, _, hexpr, rfl, rfl⟩ := h
  exact hg.expr (ExprMode.whole_takesCalls hstops) hexpr

theorem Rules.Composed.whole_kept {Y : RunRel} {g : Rules} (hg : g.Composed Y) {c : Context}
    {s t : State} {stops : List TokenKind} {e : Expr} (h : g.whole stops c s = .ok e t) :
    s.Kept c t := by
  simp only [Rules.whole, bind_ok_iff, pure_ok_iff] at h
  obtain ⟨a, _, hexpr, -, rfl⟩ := h
  exact hg.keeping.expr _ (.inl ⟨a, hexpr⟩)

namespace Composing

open EcmaScript.Grammar

variable {Y Z : RunRel} {g : Rules} {c : Context} {s t u v : State} {ns ms : List Node}

/-! ### Tokens -/

/-- A part of which nothing is asked by itself. -/
theorem plain (hY : Composing Y Z) {n : Node} (hn : n.isPlain) (h : Y c s t n.children) :
    Y c s t [n] :=
  hY.node (Node.isOrdinary_of_isPlain hn) (.of_isPlain hn) h

/-- An expression of which nothing is asked by itself, apart from its place. -/
theorem plainExpr (hY : Composing Y Z) {e : Expr} (he : e.isPlain)
    (hplace : InOrder c.token → e.Enclosed c.token) (h : Y c s t (Node.expr e).children) :
    Y c s t [.expr e] :=
  hY.node (Node.isOrdinary_of_expr he) (.of_expr he hplace) h

/-- A run may begin with looks. -/
theorem behindLooks (hY : Composing Y Z) (h : s.SamePlace u) (hn : Y c u t ns) : Y c s t ns :=
  hY.append (hY.place h) hn

/-- A run may end with looks. -/
theorem beforeLooks (hY : Composing Y Z) (hn : Y c s u ns) (h : u.SamePlace t) :
    Y c s t ns := by
  have hall := hY.append hn (hY.place h)
  rwa [List.append_nil] at hall

/-- A token of a known kind. -/
theorem word (hY : Composing Y Z) {kind : TokenKind} (h : (c.token s.position).kind = kind)
    (hk : kind ≠ .privateName) : Y c s s.advanced [] :=
  hY.token (h ▸ hk)

/-- A run may begin with a token. -/
theorem behindWord (hY : Composing Y Z) {kind : TokenKind}
    (h : (c.token s.position).kind = kind) (hk : kind ≠ .privateName) (hn : Y c s.advanced t ns) :
    Y c s t ns :=
  hY.append (hY.word h hk) hn

/-- A run may end with a token. -/
theorem beforeWord (hY : Composing Y Z) {kind : TokenKind}
    (h : (c.token u.position).kind = kind) (hk : kind ≠ .privateName) (hn : Y c s u ns) :
    Y c s u.advanced ns := by
  have hall := hY.append hn (hY.word h hk)
  rwa [List.append_nil] at hall

theorem require (hY : Composing Y Z) {kind : TokenKind} {a : Token}
    (h : require kind c s = .ok a t) (hk : kind ≠ .privateName) : Y c s t [] := by
  obtain ⟨hkind, -, rfl⟩ := require_ok_iff.1 h
  exact hY.word hkind hk

theorem accept (hY : Composing Y Z) {kind : TokenKind} {b : Bool}
    (h : accept kind c s = .ok b t) (hk : kind ≠ .privateName) : Y c s t [] := by
  obtain ⟨hkind, -, rfl⟩ | ⟨-, -, rfl⟩ := accept_ok_iff.1 h
  · exact hY.word hkind hk
  · exact hY.place ((State.SamePlace.refl s).looked 0)

/-- The items of a list. -/
theorem separated (hY : Composing Y Z) {α : Type} {separator close : TokenKind}
    {item : Parser (Span → α)} {part : α → Node} (hs : separator ≠ .privateName)
    (hc : close ≠ .privateName)
    (hitem : ∀ {s t : State} {make : Span → α}, item c s = .ok make t →
      ∀ span, Y c s t [part (make span)])
    {n : Nat} {s t : State} {xs : List α} (h : separated separator close item n c s = .ok xs t) :
    Y c s t (xs.map part) := by
  induction n generalizing s xs with
  | zero => cases h
  | succ n ih =>
    have hplace := (State.SamePlace.refl s).looked 0
    obtain ⟨hclose, rfl, rfl⟩ | ⟨make, u, hmake, h⟩ := separated_ok h
    · exact hY.word hclose hc
    have hfirst := hY.behindLooks hplace (hitem hmake (spanSince c s.position u))
    obtain ⟨rest, hseparator, hrest, rfl⟩ | ⟨hclose, rfl, rfl⟩ := h
    · exact hY.append hfirst (hY.behindWord hseparator hs (ih hrest))
    · have hfirst := hY.beforeLooks hfirst ((State.SamePlace.refl u).looked 0)
      exact hY.beforeWord hclose hc hfirst

/-! ### Names and literals -/

theorem identifier (hY : Composing Y Z) {i : Ident} (h : identifier c s = .ok i t) :
    Y c s t [] := by
  simp only [Grammar.identifier, spanned_ok_iff, bind_ok_iff, pure_ok_iff] at h
  obtain ⟨_, ⟨_, _, hname, -, rfl⟩, -⟩ := h
  obtain ⟨hallowed, rfl⟩ := variableName_ok hname
  exact hY.token (NameRules.ne_privateName_of_allows hallowed)

theorem definitionName? (hY : Composing Y Z) {i : Option Ident}
    (h : definitionName? c s = .ok i t) : Y c s t [] := by
  obtain ⟨hallowed, -, rfl⟩ | ⟨-, ht⟩ := definitionName?_ok h
  · exact hY.token (NameRules.ne_privateName_of_allows hallowed)
  · exact hY.place ht

/-- Behind its keyword, the name of a function or a class is taken from the tokens. -/
theorem definitionName?_isTaken {i : Option Ident} {k : Nat} (hopen : OpensDefinition c.token k)
    (hk : s.position = k + 1) (h : Grammar.definitionName? c s = .ok i t) :
    ∀ name ∈ i, ∃ k, OpensDefinition c.token k ∧ name.IsTakenFrom (c.token (k + 1)) := by
  rintro name hname
  obtain ⟨hallowed, rfl, -⟩ | ⟨rfl, -⟩ := definitionName?_ok h
  · obtain rfl := Option.mem_some.1 hname
    exact ⟨k, hopen, by rw [hk], by rw [hk], c.names, by rwa [← hk]⟩
  · cases hname

/-- Before the name of a function stands its keyword, or a star behind this. -/
theorem opensDefinition_function {generator : Bool}
    (hword : (c.token u.position).kind = .keyword .kFunction)
    (h : Parser.accept (.punctuator .asterisk) c u.advanced = .ok generator v) :
    ∃ k, OpensDefinition c.token k ∧ v.position = k + 1 := by
  obtain ⟨hstar, -, rfl⟩ | ⟨-, -, rfl⟩ := accept_ok_iff.1 h
  · exact ⟨u.position + 1, .ofGenerator hword hstar, rfl⟩
  · exact ⟨u.position, .ofFunction hword, rfl⟩

theorem numberLiteral (hY : Composing Y Z) {e : Expr} (h : numberLiteral c s = .ok e t) :
    Y c s t [.expr e] := by
  have hplace := (numberLiteral_measured h).enclosed
  simp only [Grammar.numberLiteral, spanned_ok_iff, bind_ok_iff, pure_ok_iff] at h
  obtain ⟨_, ⟨_, _, hvalue, rfl, rfl⟩, rfl⟩ := h
  obtain ⟨hkind, rfl⟩ := numberValue_ok hvalue
  exact hY.plainExpr rfl (fun _ => hplace) (hY.word hkind (by decide))

theorem stringLiteral (hY : Composing Y Z) {e : Expr} (h : stringLiteral c s = .ok e t) :
    Y c s t [.expr e] := by
  have hplace := (stringLiteral_measured h).enclosed
  simp only [Grammar.stringLiteral, spanned_ok_iff, bind_ok_iff, pure_ok_iff] at h
  obtain ⟨_, ⟨_, _, hvalue, rfl, rfl⟩, rfl⟩ := h
  obtain ⟨hkind, rfl⟩ := stringValue_ok hvalue
  exact hY.plainExpr rfl (fun _ => hplace) (hY.word hkind (by decide))

theorem boolLiteral (hY : Composing Y Z) {e : Expr} (h : boolLiteral c s = .ok e t) :
    Y c s t [.expr e] := by
  have hplace := (boolLiteral_measured h).enclosed
  obtain ⟨hkind | hkind, ⟨_, rfl⟩, rfl⟩ := boolLiteral_ok h
  · exact hY.plainExpr rfl (fun _ => hplace) (hY.word hkind (by decide))
  · exact hY.plainExpr rfl (fun _ => hplace) (hY.word hkind (by decide))

theorem nullLiteral (hY : Composing Y Z) {e : Expr} (h : nullLiteral c s = .ok e t) :
    Y c s t [.expr e] := by
  have hplace := (nullLiteral_measured h).enclosed
  simp only [Grammar.nullLiteral, spanned_ok_iff, discard_bind, bind_ok_iff, pure_ok_iff] at h
  obtain ⟨_, ⟨_, _, hword, rfl, rfl⟩, rfl⟩ := h
  exact hY.plainExpr rfl (fun _ => hplace) (hY.require hword (by decide))

theorem elements (hY : Composing Y Z) (hg : g.Composed Y) {n : Nat} {es : List Element}
    (h : elements g n c s = .ok es t) : Y c s t (es.map .element) := by
  induction n generalizing s es with
  | zero => cases h
  | succ n ih =>
    have hplace := (State.SamePlace.refl s).looked 0
    obtain ⟨rest, hcomma, hrest, rfl⟩ | ⟨rfl, ht⟩ | ⟨spread, u, value, v, hspread, hvalue, h⟩ :=
      elements_ok h
    · have hhole : Y c s _ [.element .hole] := hY.plain rfl (hY.word hcomma (by decide))
      exact hY.append hhole (ih hrest)
    · exact hY.place ht
    have hspread := hY.behindLooks (hplace.looked 0) (hY.accept hspread (by decide))
    have hvalue := hY.append hspread (hg.whole (by decide) hvalue)
    have helement : Y c s v [.element (if spread then .rest value else .single value)] := by
      cases spread with
      | true => exact hY.plain rfl hvalue
      | false => exact hY.plain rfl hvalue
    obtain ⟨rfl, ht⟩ | ⟨rest, hcomma, hrest, rfl⟩ := h
    · exact hY.beforeLooks helement ht
    · have hcomma := hY.behindLooks ((State.SamePlace.refl v).looked 0) (hY.word hcomma (by decide))
      exact hY.append helement (hY.append hcomma (ih hrest))

theorem arrayLiteral (hY : Composing Y Z) (hg : g.Composed Y) {e : Expr}
    (h : arrayLiteral g c s = .ok e t) : Y c s t [.expr e] := by
  have hplace := (arrayLiteral_measured hg.reading h).enclosed
  simp only [Grammar.arrayLiteral, spanned_ok_iff, discard_bind, bind_ok_iff, pure_ok_iff] at h
  obtain ⟨_, ⟨_, _, hopen, _, _, helements, _, _, hclose, rfl, rfl⟩, rfl⟩ := h
  obtain ⟨hkind, -, rfl⟩ := require_ok_iff.1 hclose
  refine hY.plainExpr rfl (fun _ => hplace) (hY.beforeWord hkind (by decide) ?_)
  exact hY.append (hY.require hopen (by decide)) (hY.elements hg helements)

/-! ### Functions and arrows -/

theorem parameter (hY : Composing Y Z) (hg : g.Composed Y) {make : Span → Param}
    (h : parameter g c s = .ok make t) (span : Span) : Y c s t [.param (make span)] := by
  simp only [Grammar.parameter, bind_ok_iff] at h
  obtain ⟨_, u, hrest, name, v, hname, _, w, hequals, h⟩ := h
  have hword := hY.append (hY.accept hrest (by decide)) (hY.identifier hname)
  have hword := hY.append hword (hY.accept hequals (by decide))
  -- The mark of initializers is the same behind the name and behind the value.
  have hpermits (hmark : t.inInitializer = w.inInitializer) (hguards : c.Guards t) :
      name.name ≠ "arguments" :=
    have hmark := hmark.trans (accept_inInitializer hequals)
    identifier_permits hname ⟨hguards.checks, hmark.symm.trans hguards.inInitializer⟩
  split at h
  next =>
    simp only [map_ok_iff, bind_ok_iff, pure_ok_iff] at h
    obtain ⟨_, _, ⟨_, hvalue, rfl⟩, rfl, rfl⟩ := h
    have hkept := hg.whole_kept hvalue
    exact hY.node rfl ⟨trivial, hpermits hkept.inInitializer, fun _ => trivial, .of_none rfl⟩
      (hY.append hword (hg.whole (by decide) hvalue))
  next =>
    simp only [bind_ok_iff, pure_ok_iff] at h
    obtain ⟨_, _, ⟨rfl, rfl⟩, rfl, rfl⟩ := h
    exact hY.node rfl ⟨trivial, hpermits rfl, fun _ => trivial, .of_none rfl⟩ hword

theorem parameters (hY : Composing Y Z) (hg : g.Composed Y) {ps : List Param}
    (h : parameters g c s = .ok ps t) : Y c s t (ps.map .param) := by
  simp only [Grammar.parameters, Rules.list, discard_bind, require_bind_ok_iff] at h
  obtain ⟨hopen, h⟩ := h
  exact hY.behindWord hopen (by decide)
    (hY.separated (by decide) (by decide) (fun hitem => hY.parameter hg hitem) h)

theorem statements (hY : Composing Y Z) (hg : g.Composed Y) {stop : TokenKind} {n : Nat}
    {body : List Stmt} (h : statements g stop n c s = .ok body t) : Y c s t (body.map .stmt) := by
  induction n generalizing s body with
  | zero => cases h
  | succ n ih =>
    have hplace := (State.SamePlace.refl s).looked 0
    obtain ⟨-, rfl, ht⟩ | ⟨first, u, rest, hfirst, hrest, rfl⟩ := statements_ok h
    · exact hY.place ht
    · exact hY.append (hY.behindLooks hplace (hg.stmt hfirst)) (ih hrest)

theorem blockBody (hY : Composing Y Z) (hg : g.Composed Y) {body : List Stmt}
    (h : blockBody g c s = .ok body t) : Y c s t (body.map .stmt) := by
  simp only [Grammar.blockBody, discard_bind, bind_ok_iff, pure_ok_iff] at h
  obtain ⟨_, _, hopen, _, _, hbody, _, _, hclose, rfl, rfl⟩ := h
  obtain ⟨hkind, -, rfl⟩ := require_ok_iff.1 hclose
  exact hY.beforeWord hkind (by decide)
    (hY.append (hY.require hopen (by decide)) (hY.statements hg hbody))

theorem functionRest (hY : Composing Y Z) (hg : g.Composed Y) {async generator : Bool}
    {f : Func} (h : functionRest g async generator c s = .ok f t) : Y c s t [.func f] := by
  simp only [Grammar.functionRest, withNames_run, spanned_ok_iff, bind_ok_iff, pure_ok_iff] at h
  obtain ⟨_, ⟨_, _, hparams, _, _, hbody, rfl, rfl⟩, rfl⟩ := h
  have hbody := hY.plain (n := .body (.block _)) rfl (hY.blockBody hg hbody)
  exact hY.withNames _ (hY.plain rfl (hY.append (hY.parameters hg hparams) hbody))

theorem methodRest (hY : Composing Y Z) (hg : g.Composed Y) {kind : MethodKind}
    {async generator : Bool} {f : Func} (h : methodRest g kind async generator c s = .ok f t) :
    Y c s t [.func f] := hY.functionRest hg (methodRest_ok h).1

theorem functionExpression (hY : Composing Y Z) (hg : g.Composed Y) {e : Expr}
    (h : functionExpression g c s = .ok e t) : Y c s t [.expr e] := by
  have hplace := (functionExpression_measured hg.reading h).enclosed
  simp only [Grammar.functionExpression, spanned_ok_iff, discard_bind, bind_ok_iff,
    pure_ok_iff] at h
  obtain ⟨_, ⟨_, _, hasync, _, _, hword, _, _, hgenerator, _, _, hname, _, _, hfunc, rfl, rfl⟩, rfl⟩
    := h
  obtain ⟨hkind, -, rfl⟩ := require_ok_iff.1 hword
  obtain ⟨k, hopen, hk⟩ := opensDefinition_function hkind hgenerator
  have htaken := definitionName?_isTaken hopen hk hname
  have hword := hY.append (hY.accept hasync (by decide)) (hY.word hkind (by decide))
  have hword := hY.append hword (hY.accept hgenerator (by decide))
  have hname := hY.append hword (hY.definitionName? hname)
  have hformed := (functionRest_ok hfunc).1
  exact hY.node rfl ⟨hformed, fun _ => trivial, fun _ => hplace, htaken⟩
    (hY.append hname (hY.functionRest hg hfunc))

theorem arrowParameters (hY : Composing Y Z) (hg : g.Composed Y) {async : Bool}
    {ps : List Param} (h : arrowParameters g async c s = .ok ps t) : Y c s t (ps.map .param) := by
  obtain ⟨u, harrow, -, rfl, hread⟩ := arrowParameters_ok h
  have hplace := ((State.SamePlace.refl s).looked 0).looked 1
  refine hY.beforeWord harrow (by decide)
    (hY.withNames (c.names.forAsync async) (hY.behindLooks hplace ?_))
  obtain ⟨name, hname, rfl⟩ | hparams := hread
  · have hpermits := identifier_permits hname
    exact hY.node rfl ⟨trivial, hpermits, fun _ => trivial, .of_none rfl⟩ (hY.identifier hname)
  · exact hY.parameters hg hparams

theorem arrowFunction (hY : Composing Y Z) (hg : g.Composed Y) {stops : List TokenKind}
    (hstops : .punctuator .parenthesisOpen ∉ stops) {e : Expr}
    (h : arrowFunction g stops c s = .ok e t) : Y c s t [.expr e] := by
  have hplace := (arrowFunction_measured hg.reading h).enclosed
  obtain ⟨async, u, _, v, body, hu, hparams, hbody, rfl⟩ := arrowFunction_ok h
  have hu : Y c s u [] := by
    obtain hu | ⟨hasync, rfl⟩ := hu
    · exact hY.place hu
    · exact hY.behindLooks ((State.SamePlace.refl s).looked 1) (hY.word hasync (by decide))
  have hparams := hY.append hu (hY.arrowParameters hg hparams)
  have hv := (State.SamePlace.refl v).looked 0
  have hbody : Y c v t [.body body] := by
    refine hY.withNames (c.names.forAsync async) ?_
    obtain ⟨_, hblock, rfl⟩ | ⟨_, _, hvalue, rfl⟩ := arrowBody_ok hbody
    · exact hY.behindLooks hv (hY.plain rfl (hY.blockBody hg hblock))
    · have hvalue := hg.expr (ExprMode.assignment_takesCalls hstops) hvalue
      exact hY.behindLooks hv (hY.plain rfl hvalue)
  exact hY.node rfl ⟨⟨rfl, rfl⟩, fun _ => trivial, fun _ => hplace, .of_none rfl⟩
    (hY.plain rfl (hY.append hparams hbody))

theorem grouping (hY : Composing Y Z) (hg : g.Composed Y) {insertion : Bool} {a : Expr × Bool}
    (h : grouping g insertion c s = .ok a t) : Y c s t [.expr a.1] := by
  simp only [Grammar.grouping, discard_bind, bind_ok_iff, pure_ok_iff] at h
  obtain ⟨_, _, hopen, _, _, hvalue, _, _, hclose, rfl, rfl⟩ := h
  have hvalue := hg.expr (by cases insertion <;> decide) hvalue
  have hinside := hY.append hvalue (hY.require hclose (by decide))
  exact hY.append (hY.require hopen (by decide)) hinside

/-! ### Members -/

theorem memberKey (hY : Composing Y Z) (hg : g.Composed Y) {k : Key}
    (h : memberKey g c s = .ok k t) : Y c s t [.key k] := by
  obtain ⟨value, u, hopen, hvalue, hclose, rfl, rfl⟩ | ⟨key, hkey, rfl⟩ := memberKey_ok h
  · have hinside := hY.behindWord hopen (by decide) (hg.whole (by decide) hvalue)
    exact hY.plain rfl (hY.beforeWord hclose (by decide) hinside)
  · obtain ⟨-, hne, -, rfl⟩ := directKey_ok hkey
    have hplace := ((State.SamePlace.refl s).looked 0).looked 0
    exact hY.node rfl ⟨trivial, directKey_permits hkey, fun _ => trivial, .of_none rfl⟩
      (hY.behindLooks hplace (hY.token hne))

theorem modifier (hY : Composing Y Z) {k : Keyword} {sameLine b : Bool}
    (h : modifier k sameLine c s = .ok b t) : Y c s t [] := by
  obtain ⟨-, ht⟩ | ⟨-, hkind, rfl⟩ := modifier_ok h
  · exact hY.place ht
  · have hplace := ((State.SamePlace.refl s).looked 0).looked 1
    exact hY.behindLooks hplace (hY.word hkind TokenKind.noConfusion)

theorem methodModifiers (hY : Composing Y Z) {m : Bool × Bool × MethodKind}
    (h : methodModifiers c s = .ok m t) : Y c s t [] := by
  obtain ⟨star, u, hstar, h⟩ := bind_ok_iff.1 h
  have hstar := hY.accept hstar (by decide)
  rw [ite_run] at h
  split at h
  next =>
    obtain ⟨-, rfl⟩ := pure_ok_iff.1 h
    exact hstar
  obtain ⟨async, v, hasync, h⟩ := bind_ok_iff.1 h
  have hasync : Y c s v [] := by
    simp only [options_bind, ite_run] at hasync
    split at hasync
    · exact hY.append hstar (hY.modifier hasync)
    · obtain ⟨-, rfl⟩ := pure_ok_iff.1 hasync
      exact hstar
  rw [ite_run] at h
  split at h
  next =>
    simp only [bind_ok_iff, pure_ok_iff] at h
    obtain ⟨_, _, hgenerator, -, rfl⟩ := h
    exact hY.append hasync (hY.accept hgenerator (by decide))
  obtain ⟨get, w, hget, h⟩ := bind_ok_iff.1 h
  have hget := hY.append hasync (hY.modifier hget)
  rw [ite_run] at h
  split at h
  next =>
    obtain ⟨-, rfl⟩ := pure_ok_iff.1 h
    exact hget
  obtain ⟨set, x, hset, h⟩ := bind_ok_iff.1 h
  have hset := hY.append hget (hY.modifier hset)
  rw [ite_run] at h
  split at h
  · obtain ⟨-, rfl⟩ := pure_ok_iff.1 h
    exact hset
  · obtain ⟨-, rfl⟩ := pure_ok_iff.1 h
    exact hset

theorem memberHead (hY : Composing Y Z) (hg : g.Composed Y) {allowStatic : Bool}
    {head : MemberHead} (h : memberHead g allowStatic c s = .ok head t) :
    Y c s t [.key head.key] := by
  obtain ⟨u, v, hstatic, hmodifiers, hkey⟩ := memberHead_ok h
  have hstatic : Y c s u [] := by
    obtain hword | ⟨-, rfl⟩ := staticMark_ok hstatic
    · exact hY.modifier hword
    · exact hY.place (.refl _)
  exact hY.append (hY.append hstatic (hY.methodModifiers hmodifiers)) (hY.memberKey hg hkey)

theorem objectMember (hY : Composing Y Z) (hg : g.Composed Y) {make : Span → ObjectMember}
    (h : objectMember g c s = .ok make t) (span : Span) : Y c s t [.objectMember (make span)] := by
  obtain ⟨_, u, hu, hname, rfl⟩ | ⟨head, u, v, w, hu, hhead, hw, hrest⟩ := objectMember_ok h
  · have hpermits := identifier_permits hname
    exact hY.behindLooks hu
      (hY.node rfl ⟨trivial, hpermits, fun _ => trivial, .of_none rfl⟩ (hY.identifier hname))
  · obtain ⟨hprivate, hconstructor, hplain⟩ := memberHead_plain hhead
    have hhead := hY.beforeLooks (hY.behindLooks hu (hY.memberHead hg hhead)) hw
    obtain ⟨_, hfunc, rfl⟩ | ⟨_, hcolon, hvalue, rfl⟩ := hrest
    · have hadmits := methodRest_admits hfunc hplain
      refine hY.node rfl ⟨?_, fun _ => trivial, fun _ => trivial, .of_none rfl⟩
        (hY.append hhead (hY.methodRest hg hfunc))
      exact ⟨hprivate, hadmits, hconstructor⟩
    · have hvalue := hY.behindWord hcolon (by decide) (hg.whole (by decide) hvalue)
      exact hY.node rfl ⟨hprivate, fun _ => trivial, fun _ => trivial, .of_none rfl⟩
        (hY.append hhead hvalue)

theorem objectLiteral (hY : Composing Y Z) (hg : g.Composed Y) {e : Expr}
    (h : objectLiteral g c s = .ok e t) : Y c s t [.expr e] := by
  have hplace := (objectLiteral_measured hg.reading h).enclosed
  simp only [Grammar.objectLiteral, Rules.list, spanned_ok_iff, discard_bind,
    require_bind_ok_iff] at h
  obtain ⟨_, ⟨hopen, h⟩, rfl⟩ := h
  obtain ⟨_, _, hmembers, h⟩ := bind_ok_iff.1 h
  obtain ⟨rfl, rfl⟩ := pure_ok_iff.1 h
  refine hY.plainExpr rfl (fun _ => hplace) (hY.behindWord hopen (by decide) ?_)
  exact hY.separated (by decide) (by decide) (fun hitem => hY.objectMember hg hitem) hmembers

/-! ### Classes -/

theorem classMemberHead (hY : Composing Y Z) (hg : g.Composed Y) {head : MemberHead}
    (h : classMemberHead g c s = .ok head t) : Y c s t [.key head.key] := by
  obtain ⟨first, hfirst, hkey, -⟩ := classMemberHead_ok h
  rw [hkey]
  exact hY.memberHead hg hfirst

/-- A method of a class, with looks between its head and its parameters. -/
theorem classMethodNode (hY : Composing Y Z) (hg : g.Composed Y) {head : MemberHead}
    {make : Span → Member} (hhead : Grammar.classMemberHead g c s = .ok head u)
    (hv : u.SamePlace v) (h : classMethodRest g head c v = .ok make t) (span : Span) :
    Y c s t [.member (make span)] := by
  obtain ⟨-, func, hfunc, rfl⟩ := classMethodRest_ok h
  obtain ⟨hprivate, hconstructor, hplain⟩ := classMemberHead_plain hhead
  have hadmits := methodRest_admits hfunc hplain
  have hfunc := hY.behindLooks ((State.SamePlace.refl v).looked 0) (hY.methodRest hg hfunc)
  have hhead := hY.beforeLooks (hY.classMemberHead hg hhead) hv
  refine hY.node rfl ⟨?_, fun _ => trivial, fun _ => trivial, .of_none rfl⟩
    (hY.append hhead hfunc)
  exact ⟨hprivate, hadmits, hconstructor⟩

/-- The value of a field is read with the mark of initializers set. -/
theorem fieldValue? (hY : Composing Y Z) (hg : g.Composed Y) {value : Option Expr}
    (h : fieldValue? g c s = .ok value t) :
    ∃ u v, Y c s u [] ∧ Y c { u with inInitializer := true } v (value.toList.map .expr)
      ∧ t = { v with inInitializer := u.inInitializer } := by
  obtain ⟨rfl, ht⟩ | ⟨_, _, u, hequals, hvalue, rfl, rfl⟩ := fieldValue?_ok h
  -- Without a value nothing is read between setting the mark and taking it back.
  · exact ⟨t, { t with inInitializer := true }, hY.place ht, hY.place (.refl _), rfl⟩
  · exact ⟨s.advanced, u, hY.word hequals (by decide), hg.expr (by decide) hvalue, rfl⟩

theorem fieldEnd (hY : Composing Y Z) {x : Unit} (h : fieldEnd c s = .ok x t) :
    Y c s t [] := by
  rw [Grammar.fieldEnd, accept_bind] at h
  split at h
  next hsemicolon =>
    obtain ⟨-, rfl⟩ := pure_ok_iff.1 h
    exact hY.word hsemicolon (by decide)
  next =>
    simp only [Bool.false_eq_true, if_false, peek_bind, ite_run] at h
    split at h
    · obtain ⟨-, rfl⟩ := pure_ok_iff.1 h
      exact hY.place (((State.SamePlace.refl s).looked 0).looked 0)
    · exact (fail_ok_iff.1 h).elim

theorem classMethod (hY : Composing Y Z) (hg : g.Composed Y) {m : Member}
    (h : classMethod g c s = .ok m t) : Y c s t [.member m] ∧ m.privateName? = none := by
  simp only [Grammar.classMethod, spanned_ok_iff, bind_ok_iff] at h
  obtain ⟨_, ⟨_, _, hhead, hrest⟩, rfl⟩ := h
  refine ⟨hY.classMethodNode hg hhead (.refl _) hrest _, ?_⟩
  obtain ⟨-, _, -, rfl⟩ := classMethodRest_ok hrest
  rfl

theorem privateFieldNode (hY : Composing Y Z) (hg : g.Composed Y) {m : Member}
    (hclass : c.options.classFields = true) (hfields : c.options.supportsFields = true)
    (h : Grammar.privateField g c s = .ok m t) : Z c s t [.member m] := by
  obtain ⟨name, u, v, w, value, hname, hne, hdeclare, hvalue, hend, rfl⟩ := privateField_ok h
  obtain ⟨x, y, hequals, hinside, rfl⟩ := hY.fieldValue? hg hvalue
  exact hY.privateField hclass hfields hname hne hdeclare hequals hinside (hY.fieldEnd hend)

theorem classElement? (hY : Composing Y Z) (hg : g.Composed Y) {m : Option Member}
    (hclass : c.options.classFields = true) (h : classElement? g c s = .ok m t) :
    Z c s t (m.toList.map .member) := by
  obtain ⟨hsemicolon, rfl, rfl⟩ | ⟨u, field, hu, -, hfields, hfield, rfl⟩
    | ⟨u, v, w, head, hu, hhead, hw, hrest⟩ := classElement?_ok h
  · exact hY.inside rfl (hY.word hsemicolon (by decide))
  · have hfield := hY.privateFieldNode hg hclass hfields hfield
    exact hY.insideAppend (hY.inside rfl (hY.place hu)) hfield
  · obtain ⟨value, x, ⟨-, hkind, hmodifiers⟩, hvalue, hend, rfl⟩ | ⟨make, hmake, rfl⟩ := hrest
    · obtain ⟨hprivate, hconstructor, -⟩ := classMemberHead_plain hhead
      -- The word `constructor` would have made the member a constructor, which is no field.
      have hnames : ¬ head.key.NamesConstructor := fun hnames => by
        have hstatic := MemberHead.static_of_hasModifiers hmodifiers
        exact absurd (hkind.symm.trans (hconstructor.2 ⟨hstatic, hnames⟩)) (by decide)
      have hhead := hY.beforeLooks (hY.behindLooks hu (hY.classMemberHead hg hhead)) hw
      obtain ⟨y, z, hequals, hinside, rfl⟩ := hY.fieldValue? hg hvalue
      have hhead := hY.append hhead hequals
      exact hY.inside (declaredNames_field hprivate)
        (hY.publicField hprivate hnames hhead hinside (hY.fieldEnd hend))
    · refine hY.inside ?_ (hY.behindLooks hu (hY.classMethodNode hg hhead hw hmake _))
      obtain ⟨-, _, -, rfl⟩ := classMethodRest_ok hmake
      rfl

theorem classItems (hY : Composing Y Z) (hg : g.Composed Y) {n : Nat} {ms : List Member}
    (h : classItems g n c s = .ok ms t) : Z c s t (ms.map .member) := by
  induction n generalizing s ms with
  | zero => cases h
  | succ n ih =>
    obtain ⟨hclose, rfl, rfl⟩ | ⟨first, u, rest, hfirst, hrest, rfl⟩ := classItems_ok h
    · exact hY.inside rfl (hY.word hclose (by decide))
    have hplace := hY.inside rfl (hY.place (c := c) ((State.SamePlace.refl s).looked 0))
    rw [List.map_append]
    refine hY.insideAppend (hY.insideAppend hplace ?_) (ih hrest)
    obtain ⟨hclass, hfirst⟩ | ⟨-, ⟨hsemicolon, rfl, rfl⟩ | ⟨method, hmethod, rfl⟩⟩ :=
      classItem?_ok hfirst
    · exact hY.classElement? hg hclass hfirst
    · exact hY.inside rfl (hY.word hsemicolon (by decide))
    · have hplace := (State.SamePlace.refl (s.looked 0)).looked 0
      obtain ⟨hmethod, hnone⟩ := hY.classMethod hg hmethod
      refine hY.inside ?_ (hY.behindLooks hplace hmethod)
      simp only [Option.toList_some, List.map_cons, List.map_nil, declaredNames,
        List.filterMap_cons, Node.privateName?, hnone, List.filterMap_nil]

theorem classTail (hY : Composing Y Z) (hg : g.Composed Y) {a : Option Expr × List Member}
    (h : classTail g c s = .ok a t) :
    Z c s t (a.1.toList.map .expr ++ a.2.map .member) := by
  obtain ⟨u, hbody, hparent⟩ := classTail_ok h
  simp only [classBody, discard_bind, require_bind_ok_iff] at hbody
  obtain ⟨hopen, hitems⟩ := hbody
  have hopen := hY.inside rfl (hY.word hopen (by decide))
  have hitems := hY.insideAppend hopen (hY.classItems hg hitems)
  refine hY.insideAppend ?_ hitems
  obtain ⟨hnone, hu⟩ | ⟨parent, hextends, hparent, hsome⟩ := hparent
  · rw [hnone]
    exact hY.inside rfl (hY.place hu)
  · rw [hsome]
    exact hY.inside rfl (hY.behindWord hextends (by decide) (hg.whole (by decide) hparent))

theorem classExpression (hY : Composing Y Z) (hg : g.Composed Y) {e : Expr}
    (h : classExpression g c s = .ok e t) : Y c s t [.expr e] := by
  have hplace := (classExpression_measured hg.reading h).enclosed
  simp only [Grammar.classExpression, spanned_ok_iff, discard_bind, require_bind_ok_iff] at h
  obtain ⟨_, ⟨hword, h⟩, rfl⟩ := h
  obtain ⟨s', u, hinside, hclass⟩ := inClass_classRun h
  simp only [bind_ok_iff, pure_ok_iff] at hinside
  obtain ⟨name, _, hname, ⟨parent, members⟩, _, htail, rfl, rfl⟩ := hinside
  have htaken := definitionName?_isTaken (.ofClass hword) hclass.position hname
  have hinside := hY.insideAppend (hY.inside rfl (hY.definitionName? hname)) (hY.classTail hg htail)
  refine hY.behindWord hword (by decide) ?_
  exact hY.classNode rfl (.of_members? rfl (fun _ => hplace) htaken)
    (declaredNames_class parent members) hclass hinside

end Composing

end EcmaScript
