import EcmaScript.Proofs.Grammar.Composed
import EcmaScript.Proofs.Grammar.Locations
import EcmaScript.Proofs.Lexer.Modes

namespace EcmaScript

open EcmaScript.Parser

/-!
# Trees that scripts are read as

What holds of each part when it is read holds throughout the tree of a script.

* `AllThroughout` — a property of parts and of all the parts below them;
* `wellFormed_compositional`, `parse_wellFormed` — every tree is well-formed;
* `ClearRun`, `clearRun_compositional` — a part that is read in the value of a field is permitted
  there, and the mark of initializers is the same before a part and behind it;
* `parse_clearInitializers` — neither `super` nor `arguments` stands in the value of a field;
* `enclosed_compositional`, `parse_enclosed` — what an expression leaves out of the tokens that it
  was put together from are parentheses around its operands.
-/

/-- The property holds of parts and of all the parts below them. -/
def AllThroughout (P : Node → Prop) (ns : List Node) : Prop := ∀ n ∈ ns, Throughout P n

namespace AllThroughout

variable {P : Node → Prop} {n : Node} {ns ms : List Node}

theorem nil : AllThroughout P [] := fun _ hn => by cases hn

theorem append (h : AllThroughout P ns) (h' : AllThroughout P ms) : AllThroughout P (ns ++ ms) :=
  fun n hn => (List.mem_append.1 hn).elim (h n) (h' n)

theorem node (hn : P n) (h : AllThroughout P n.children) : AllThroughout P [n] := fun m hm => by
  obtain rfl := List.mem_singleton.1 hm
  exact .intro hn h

end AllThroughout

/-! ### Well-formed trees -/

/-- **Parts that are read are well-formed**, and so are all the parts below them. -/
theorem wellFormed_compositional :
    Compositional (fun _ _ _ ns => AllThroughout Node.WellFormed ns)
      (fun _ _ _ ns => AllThroughout Node.WellFormed ns) where
  stay _ _ := .nil
  token _ := .nil
  append h h' := h.append h'
  node _ hn h := .node hn.wellFormed h
  use _ _ := .node trivial .nil
  withNames _ h := h
  publicField {c s u v t k value span} hprivate hnames hkey hvalue _ := by
    refine .node ⟨rfl, hnames, ?_⟩ (hkey.append hvalue)
    rintro name rfl
    cases hprivate
  classNode _ hformed _ _ h := .node hformed.wellFormed h
  inside _ h := h
  insideAppend h h' := h.append h'
  privateField {c s u v w x t name value span} _ _ _ hne _ _ hvalue _ := by
    refine .node ⟨rfl, fun ⟨_, heq, _⟩ => (nomatch heq), ?_⟩ (.append (.node trivial .nil) hvalue)
    intro other heq
    obtain rfl := Key.privateName.inj heq
    exact hne

/-- **Every tree is well-formed.** In the tree of a script, whatever the options are:

* what is assigned to is a variable or a member, and calls, members and conditionals are no binary
  expressions; no private member is deleted;
* exactly the functions of arrow expressions are arrows; they are no generators, and no other
  function is without braces;
* a method takes the parameters of its kind, and only a plain one is async or a generator;
* the method of a class is its constructor exactly if it is not static and its key is the name or
  the string `constructor`; an object has no constructor;
* only fields have private names, a field is computed if its key is, and none is named
  `constructor`. -/
theorem parse_wellFormed {source : String} {options : Options} {p : Program}
    (h : parse source options = .ok p) : Throughout Node.WellFormed (.program p) := by
  obtain ⟨t, hrun⟩ := runScript_of_parse h
  obtain ⟨_, -, hall⟩ := wellFormed_compositional.script hrun
  exact hall _ List.mem_cons_self

set_option maxRecDepth 100000 in
/-- A script with each kind of method, a field, an arrow, a generator and an assignment. -/
theorem parse_wellFormed_members :
    ∃ p, parse "class A { constructor() {} *m() {} get a() {} set a(b) { b.c = () => 1; } #d; }"
        ⟨9, true⟩ = .ok p ∧ Throughout Node.WellFormed (.program p) := by
  have hsome : (parse
      "class A { constructor() {} *m() {} get a() {} set a(b) { b.c = () => 1; } #d; }"
      ⟨9, true⟩).isOk = true := by decide +kernel
  cases hp : parse
      "class A { constructor() {} *m() {} get a() {} set a(b) { b.c = () => 1; } #d; }"
      ⟨9, true⟩ with
  | error e =>
    rw [hp] at hsome
    cases hsome
  | ok p => exact ⟨p, rfl, parse_wellFormed hp⟩

/-! ### The values of fields -/

/-- The mark of initializers is as it was. Where the rules for initializers are checked, they are
kept in every field, and in the parts themselves if these are read with the mark set. -/
structure ClearRun (c : Context) (s t : State) (ns : List Node) : Prop where
  inInitializer : t.inInitializer = s.inInitializer
  clear : c.checks.initializers = true → AllThroughout Node.ClearInitializers ns
  permitted : c.Guards s → AllThroughout Node.Permitted ns

namespace ClearRun

variable {c : Context} {s t u : State} {ns ms : List Node}

theorem guards (h : ClearRun c s t ns) (hs : c.Guards s) : c.Guards t :=
  ⟨hs.checks, h.inInitializer.trans hs.inInitializer⟩

theorem nil (h : t.inInitializer = s.inInitializer) : ClearRun c s t [] :=
  ⟨h, fun _ => .nil, fun _ => .nil⟩

theorem append (h : ClearRun c s u ns) (h' : ClearRun c u t ms) : ClearRun c s t (ns ++ ms) where
  inInitializer := h'.inInitializer.trans h.inInitializer
  clear hc := (h.clear hc).append (h'.clear hc)
  permitted hs := (h.permitted hs).append (h'.permitted (h.guards hs))

theorem node {n : Node} (hclear : n.ClearInitializers) (hn : c.Guards t → n.Permitted)
    (h : ClearRun c s t n.children) : ClearRun c s t [n] where
  inInitializer := h.inInitializer
  clear hc := .node hclear (h.clear hc)
  permitted hs := .node (hn (h.guards hs)) (h.permitted hs)

/-- The value of a field is read with the mark set, wherever the field stands. -/
theorem field {k : Key} {computed : Bool} {value : Option Expr} {span : Span} {v : State}
    (hkey : ClearRun c s u [.key k])
    (hvalue : ClearRun c { u with inInitializer := true } v (value.toList.map .expr))
    (hend : ClearRun c { v with inInitializer := u.inInitializer } t []) :
    ClearRun c s t [.member (.field span k computed value)] := by
  -- The mark is set in the value, whether or not it is set around the field.
  have hpermitted (hc : c.checks.initializers = true) := hvalue.permitted ⟨hc, rfl⟩
  refine ⟨hend.inInitializer.trans hkey.inInitializer, fun hc => ?_, fun hs => ?_⟩
  · refine .node ?_ ((hkey.clear hc).append (hvalue.clear hc))
    rintro _ _ _ e heq
    obtain ⟨-, -, -, rfl⟩ := Member.field.inj (Node.member.inj heq)
    exact hpermitted hc _ List.mem_cons_self
  · exact .node trivial ((hkey.permitted hs).append (hpermitted hs.checks))

end ClearRun

theorem Node.clearInitializers_of_isOrdinary {n : Node} (h : n.isOrdinary) :
    n.ClearInitializers := by
  rintro _ _ _ _ rfl
  cases h

theorem Node.clearInitializers_of_members? {n : Node} {members : List Member}
    (h : n.members? = some members) : n.ClearInitializers := by
  rintro _ _ _ _ rfl
  cases h

/-- A private name is neither a field nor `arguments`. -/
theorem ClearRun.privateUse {c : Context} {s t : State} {name : Ident}
    (h : t.inInitializer = s.inInitializer) : ClearRun c s t [.privateUse name] :=
  .node (fun _ _ _ _ => Node.noConfusion) (fun _ => trivial) (.nil h)

/-- **Initializers are kept clear**, part by part: the mark is set exactly where the value of a
field is read. -/
theorem clearRun_compositional : Compositional ClearRun ClearRun where
  stay h _ := .nil h.inInitializer
  token _ := .nil rfl
  append h h' := h.append h'
  node hn hformed h := .node (Node.clearInitializers_of_isOrdinary hn) hformed.permitted h
  use hname huse := by
    obtain ⟨-, -, -, -, rfl⟩ := Grammar.privateName_ok hname
    obtain ⟨_, -, rfl⟩ | ⟨_, -, -, rfl⟩ := Grammar.usePrivate_ok huse
    · exact .privateUse rfl
    · exact .privateUse rfl
  withNames _ h := ⟨h.inInitializer, h.clear, fun hs => h.permitted ⟨hs.checks, hs.inInitializer⟩⟩
  publicField _ _ hkey hvalue hend := hkey.field hvalue hend
  classNode {c s s' u t n members} hn hformed _ hrun h := by
    refine .node (Node.clearInitializers_of_members? hn) hformed.permitted ?_
    cases hrun with
    | withScope _ _ _ _ hinitializer =>
      -- A class enters and leaves its scope with the mark as it is.
      have hmark := hinitializer.trans h.inInitializer
      exact ⟨hmark, h.clear, fun hs => h.permitted ⟨hs.checks, hs.inInitializer⟩⟩
    | withoutScope => exact h
  inside _ h := h
  insideAppend h h' := h.append h'
  privateField {c s u v w x t name value span} _ _ hname _ hdeclare hequals hvalue hend := by
    obtain ⟨-, -, -, -, rfl⟩ := Grammar.privateName_ok hname
    obtain ⟨_, -, rfl⟩ := Grammar.declarePrivate_ok hdeclare
    have hkey : ClearRun c s w [.key (.privateName name)] :=
      .node (fun _ _ _ _ => Node.noConfusion) (fun _ => trivial) (.nil hequals.inInitializer)
    exact hkey.field hvalue hend

/-- **Every expression was put together from balanced tokens**, all of which it covers but for some
parentheses. -/
theorem enclosed_compositional :
    Compositional (fun c _ _ ns => InOrder c.token → AllThroughout (Node.Enclosed c.token) ns)
      (fun c _ _ ns => InOrder c.token → AllThroughout (Node.Enclosed c.token) ns) where
  stay _ _ _ := .nil
  token _ _ := .nil
  append h h' ho := (h ho).append (h' ho)
  node _ hn h ho := .node (hn.enclosed ho) (h ho)
  use _ _ _ := .node trivial .nil
  withNames _ h := h
  publicField _ _ hkey hvalue _ ho := .node trivial ((hkey ho).append (hvalue ho))
  classNode _ hformed _ _ h ho := .node (hformed.enclosed ho) (h ho)
  inside _ h := h
  insideAppend h h' ho := (h ho).append (h' ho)
  privateField _ _ _ _ _ _ hvalue _ ho := .node trivial (.append (.node trivial .nil) (hvalue ho))

/-- **Expressions cover whole constructs up to parentheses.** The tokens of a source that lie inside
a place from one token to another are those between them. Every expression of the tree was put
together from tokens in which brackets match and nest, and covers them all but for opening
parentheses in front and closing ones behind. Only an expression that begins with an operand leaves
some out in front, and only one that ends with an operand leaves some out behind; in what it covers
brackets match and nest exactly if it leaves none out. -/
theorem parse_enclosed {source : String} {options : Options} {p : Program}
    (h : parse source options = .ok p) :
    (∀ k l m, k < l → ((Context.ofSource source options.classFields options).token m).kind ≠ .eof →
      ((spanBetween (Context.ofSource source options.classFields options).token k l).Holds
          ((Context.ofSource source options.classFields options).token m)
        ↔ k ≤ m ∧ m < l))
      ∧ Throughout (Node.Enclosed (Context.ofSource source options.classFields options).token)
          (.program p) := by
  have horder := Context.inOrder_ofSource source options.classFields options
  obtain ⟨t, hrun⟩ := runScript_of_parse h
  obtain ⟨_, -, hall⟩ := enclosed_compositional.script hrun
  refine ⟨fun k l m hkl hm => ?_, hall horder _ List.mem_cons_self⟩
  exact horder.holds_spanBetween hkl (Context.token_ofSource_lt source _ options hm)

set_option maxRecDepth 100000 in
/-- Operands in parentheses in front, behind, and inside. -/
theorem parse_enclosed_operands :
    ∃ p, parse "x = (a) + -(b) * (c); ((a.b))(c)[d] ? e : (f++);" ⟨9, true⟩ = .ok p
      ∧ Throughout (Node.Enclosed (Context.ofSource
          "x = (a) + -(b) * (c); ((a.b))(c)[d] ? e : (f++);" true ⟨9, true⟩).token)
          (.program p) := by
  have hsome : (parse "x = (a) + -(b) * (c); ((a.b))(c)[d] ? e : (f++);" ⟨9, true⟩).isOk = true := by
    decide +kernel
  cases hp : parse "x = (a) + -(b) * (c); ((a.b))(c)[d] ? e : (f++);" ⟨9, true⟩ with
  | error e =>
    rw [hp] at hsome
    cases hsome
  | ok p => exact ⟨p, rfl, (parse_enclosed hp).2⟩

end EcmaScript
