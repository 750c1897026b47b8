import EcmaScript.Proofs.Grammar.Accepted

namespace EcmaScript

open EcmaScript.Parser

/-!
# How names of functions and classes are read

A function or a class takes the token behind its keyword for its name, as it is written. Every other
name is decoded, and is looked at in the values of fields.

* `Grammar.identifier_ok_iff_definitionName?` — the two ways to read a name, side by side;
* `takesName_compositional` — functions and classes have their names from the tokens;
* `parse_definedNames` — so it is in every tree, and apart from these names the values of fields are
  clear of `arguments`.
-/

namespace Grammar

variable {c : Context} {s t : State}

theorem definitionName?_some_iff {i : Ident} :
    definitionName? c s = .ok (some i) t ↔ c.names.allows (c.token s.position).kind = true
      ∧ i = ⟨(c.token s.position).span, (c.token s.position).text⟩ ∧ t = s.advanced := by
  constructor
  · intro h
    obtain ⟨hallowed, hname, ht⟩ | ⟨hnone, -⟩ := definitionName?_ok h
    · exact ⟨hallowed, Option.some.inj hname, ht⟩
    · cases hnone
  · rintro ⟨hallowed, rfl, rfl⟩
    simp only [definitionName?, nameRules_bind, bind_ok_iff, acceptIf?_run, pure_ok_iff]
    exact ⟨_, _, if_pos hallowed, rfl, rfl⟩

theorem checkArguments_ok_iff {tok : Token} {name : String} :
    checkArguments tok name c s = .ok () t ↔ ¬ (c.Guards s ∧ name = "arguments") ∧ t = s := by
  constructor
  · intro h
    exact ⟨fun hrefused => checkArguments_permits h hrefused.1 hrefused.2, checkArguments_state h⟩
  · rintro ⟨hpermitted, rfl⟩
    simp only [checkArguments, read_bind, get_bind, ite_run]
    rw [if_neg]
    · rfl
    · intro hrefused
      simp only [Bool.and_eq_true, beq_iff_eq] at hrefused
      obtain ⟨⟨hchecks, hinitializer⟩, hname⟩ := hrefused
      exact hpermitted ⟨⟨hchecks, hinitializer⟩, hname⟩

theorem identifierText_ok_iff {tok : Token} {name : String} :
    identifierText tok c s = .ok name t ↔ Escape.decodeName? tok.text = some name ∧ t = s := by
  cases hdecode : Escape.decodeName? tok.text with
  | none =>
    simp only [identifierText, hdecode, fail_ok_iff, reduceCtorEq, false_and]
  | some decoded =>
    simp only [identifierText, hdecode, pure_ok_iff, Option.some.injEq, @eq_comm _ s]

theorem variableName_ok_iff {name : String} :
    variableName c s = .ok name t ↔ c.names.allows (c.token s.position).kind = true
      ∧ Escape.decodeName? (c.token s.position).text = some name
      ∧ ¬ (c.Guards s ∧ name = "arguments") ∧ t = s.advanced := by
  have hguards : c.Guards s.advanced ↔ c.Guards s :=
    ⟨fun h => ⟨h.checks, h.inInitializer⟩, fun h => ⟨h.checks, h.inInitializer⟩⟩
  constructor
  · intro h
    obtain ⟨hallowed, ht⟩ := variableName_ok h
    simp only [variableName, next_bind, nameRules_bind, ite_run, if_pos hallowed, bind_ok_iff,
      identifierText_ok_iff, pure_ok_iff] at h
    obtain ⟨_, _, ⟨hdecode, rfl⟩, _, _, hcheck, rfl, -⟩ := h
    obtain ⟨hpermitted, -⟩ := checkArguments_ok_iff.1 hcheck
    exact ⟨hallowed, hdecode, by rwa [hguards] at hpermitted, ht⟩
  · rintro ⟨hallowed, hdecode, hpermitted, rfl⟩
    simp only [variableName, next_bind, nameRules_bind, ite_run, if_pos hallowed, bind_ok_iff,
      identifierText_ok_iff, pure_ok_iff]
    rw [← hguards] at hpermitted
    exact ⟨name, _, ⟨hdecode, rfl⟩, (), _, checkArguments_ok_iff.2 ⟨hpermitted, rfl⟩, rfl, rfl⟩

/-- **The two ways to read a name.** A variable, a parameter or a declared name is read as the name
of a function or a class is; then it is decoded, and `arguments` is refused in the values of
fields. -/
theorem identifier_ok_iff_definitionName? {i : Ident} :
    identifier c s = .ok i t ↔ ∃ written, definitionName? c s = .ok (some written) t
      ∧ i.span = written.span ∧ Escape.decodeName? written.name = some i.name
      ∧ ¬ (c.Guards s ∧ i.name = "arguments") := by
  -- Both places are that of one token, measured and taken over.
  have hspan : spanSince c s.position s.advanced = (c.token s.position).span := by
    rw [spanSince]
    exact if_pos (Nat.lt_succ_self s.position)
  simp only [identifier, spanned_ok_iff, bind_ok_iff, pure_ok_iff, variableName_ok_iff,
    definitionName?_some_iff]
  constructor
  · rintro ⟨_, ⟨_, _, ⟨hallowed, hdecode, hpermitted, rfl⟩, rfl, rfl⟩, rfl⟩
    exact ⟨_, ⟨hallowed, rfl, rfl⟩, hspan, hdecode, hpermitted⟩
  · rintro ⟨_, ⟨hallowed, rfl, rfl⟩, hplace, hdecode, hpermitted⟩
    refine ⟨_, ⟨_, _, ⟨hallowed, hdecode, hpermitted, rfl⟩, rfl, rfl⟩, ?_⟩
    dsimp only at hplace ⊢
    rw [hspan, ← hplace]

end Grammar

/-! ### In every tree -/

/-- **Functions and classes take their names from the tokens**, part by part. -/
theorem takesName_compositional :
    Compositional (fun c _ _ ns => AllThroughout (Node.TakesName c.token) ns)
      (fun c _ _ ns => AllThroughout (Node.TakesName c.token) ns) where
  stay _ _ := .nil
  token _ := .nil
  append h h' := h.append h'
  node _ hformed h := .node hformed.takesName h
  use _ _ := .node (.of_none rfl) .nil
  withNames _ h := h
  publicField _ _ hkey hvalue _ := .node (.of_none rfl) (hkey.append hvalue)
  classNode _ hformed _ _ h := .node hformed.takesName h
  inside _ h := h
  insideAppend h h' := h.append h'
  privateField _ _ _ _ _ _ hvalue _ :=
    .node (.of_none rfl) (.append (.node (.of_none rfl) .nil) hvalue)

/-- **Only the names of functions and classes are `arguments` in the value of a field.** Such a name
is the token behind the keyword, escapes and all, at every place of the tree. Every other name is
read as one of these is, and then decoded and refused in the value of a field if it is `arguments`;
so the values of the fields of the tree are clear of it. -/
theorem parse_definedNames {source : String} {options : Options} {p : Program}
    (h : parse source options = .ok p) :
    (∀ (c : Context) (s t : State) (i : Ident),
        (Grammar.definitionName? c s = .ok (some i) t ↔
          c.names.allows (c.token s.position).kind = true
            ∧ i = ⟨(c.token s.position).span, (c.token s.position).text⟩ ∧ t = s.advanced)
        ∧ (Grammar.identifier c s = .ok i t ↔
          ∃ written, Grammar.definitionName? c s = .ok (some written) t
            ∧ i.span = written.span ∧ Escape.decodeName? written.name = some i.name
            ∧ ¬ (c.Guards s ∧ i.name = "arguments")))
      ∧ Throughout (fun n => n.TakesName (Context.ofSource source options.classFields options).token
          ∧ n.ClearInitializers) (.program p) := by
  refine ⟨fun c s t i => ⟨Grammar.definitionName?_some_iff,
    Grammar.identifier_ok_iff_definitionName?⟩, ?_⟩
  obtain ⟨t, hrun⟩ := runScript_of_parse h
  obtain ⟨_, -, htaken⟩ := takesName_compositional.script hrun
  obtain ⟨_, -, hclear⟩ := clearRun_compositional.script hrun
  exact (htaken _ List.mem_cons_self).and (hclear.clear rfl _ List.mem_cons_self)

set_option maxRecDepth 100000 in
/-- A function by the name of `arguments` in the value of a field: the value is clear of `arguments`
but for this name. -/
theorem parse_definedNames_arguments :
    ∃ p, parse "class A { a = function arguments() {} }" ⟨9, true⟩ = .ok p
      ∧ Throughout (fun n => n.TakesName (Context.ofSource
            "class A { a = function arguments() {} }" true ⟨9, true⟩).token
          ∧ n.ClearInitializers) (.program p)
      ∧ ¬ Throughout Node.ClearDefinitions (.program p) := by
  have hname : (parse "class A { a = function arguments() {} }" ⟨9, true⟩).toOption.map
      (fun p => (((Node.program p).children.flatMap Node.children).filterMap Node.fieldValue?
        |>.filterMap fun value => (Node.expr value).definedName?).map
          fun name => Escape.decodeName? name.name)
      = some [some "arguments"] := by
    decide +kernel
  cases hp : parse "class A { a = function arguments() {} }" ⟨9, true⟩ with
  | error e =>
    rw [hp] at hname
    cases hname
  | ok p =>
    refine ⟨p, rfl, (parse_definedNames hp).2, fun hclear => ?_⟩
    rw [hp] at hname
    have hmem := Option.some.inj hname ▸ List.mem_singleton_self (some "arguments")
    obtain ⟨name, hmem, hspelled⟩ := List.mem_map.1 hmem
    obtain ⟨value, hmem, hdefined⟩ := List.mem_filterMap.1 hmem
    obtain ⟨field, hmem, hvalue⟩ := List.mem_filterMap.1 hmem
    obtain ⟨class', hclass, hfield⟩ := List.mem_flatMap.1 hmem
    have hfield := hclear.inside (.child (.child .root hclass) hfield)
    exact (hfield.here value hvalue).here name hdefined hspelled

end EcmaScript
