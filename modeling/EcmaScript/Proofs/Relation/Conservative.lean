import EcmaScript.Proofs.PrivateNames.Scripts
import EcmaScript.Proofs.Relation.Lockstep
import EcmaScript.Proofs.Relation.SameTokens
import EcmaScript.Proofs.Relation.WiderRules

namespace EcmaScript

open EcmaScript.Parser

/-!
# Options are a conservative extension

What is accepted under some options is accepted, with the same tree, in every later edition and with
fields on.

* `Context.Accepts` — what the tokens of an accepted text are;
* `Context.ofSource_widens` — without fields, the text is the same one for options that allow more;
* `Options.flags_eq` — with fields, such options make no difference;
* `parse_conservative` — the tree of an accepted text is its tree under options that allow more.
-/

/-- A text that could be read through its end is balanced up to there, and nothing stands behind. -/
structure Context.Accepts (c : Context) (n : Nat) : Prop where
  balanced : Balanced c.token 0 n
  kind_eq_eof (i : Nat) : n ≤ i → (c.token i).kind = .eof

namespace Context.Accepts

variable {c : Context} {n : Nat}

/-- What holds of the end of the text and of balanced tokens holds of all tokens. -/
theorem forall_token (h : c.Accepts n) {P : Token → Prop} (heof : ∀ t : Token, t.kind = .eof → P t)
    (hread : ∀ i, i < n → P (c.token i)) (i : Nat) : P (c.token i) := by
  rcases Nat.lt_or_ge i n with hi | hi
  · exact hread i hi
  · exact heof _ (h.kind_eq_eof i hi)

theorem punctual (h : c.Accepts n) : c.Punctual :=
  h.forall_token (P := fun t => t.kind = Grammar.arrowKind → t.newlineBefore = false)
    (fun _ heof harrow => by cases heof.symm.trans harrow)
    fun i hi => h.balanced.newlineBefore_of_arrow i (Nat.zero_le i) hi

theorem kind_ne_invalid (h : c.Accepts n) (i : Nat) : (c.token i).kind ≠ .invalid :=
  h.forall_token (P := fun t => t.kind ≠ .invalid)
    (fun _ heof hinvalid => by cases heof.symm.trans hinvalid)
    (fun i hi => (h.balanced.kind_ne i (Nat.zero_le i) hi).1) i

end Context.Accepts

section

variable {source : String} {options : Options} {p : Program} {t t' : State}

/-- The end of the text is its last token. -/
theorem Context.token_ofSource_eof {privateNames : Bool} {n i : Nat}
    (h : ((ofSource source privateNames options).token n).kind = .eof) (hi : n ≤ i) :
    ((ofSource source privateNames options).token i).kind = .eof := by
  rcases Nat.lt_or_ge i (Lexer.ofString source privateNames).tokens.length with hlength | hlength
  · have hn := hi.trans_lt hlength
    rw [token_ofSource_eq, List.getD_eq_getElem _ _ hn] at h
    have hlast := (Lexer.getElem_tokens_eof _ n hn).1 h
    obtain rfl : n = i := by omega
    rwa [token_ofSource_eq, List.getD_eq_getElem _ _ hn]
  · rw [token_ofSource_eq, List.getD_eq_default _ _ hlength]
    rfl

/-- The tokens of an accepted text. -/
theorem Context.accepts_of_runScript {privateNames : Bool}
    (h : runScript (.ofSource source privateNames options) = .ok p t) :
    ∃ n, (ofSource source privateNames options).Accepts n ∧ t.position = n + 1 := by
  obtain ⟨s, u, hs, hbody, heof, ht, -⟩ := runScript_ok h
  have hbalanced := Grammar.statements_balanced (Rules.within_reading _) hbody
  rw [hs.position] at hbalanced
  exact ⟨u.position, ⟨hbalanced, fun i hi => token_ofSource_eof heof hi⟩, ht.position⟩

/-- No token of an accepted source is invalid. -/
theorem Context.Accepts.kind_ne_invalid_of_mem {privateNames : Bool} {n : Nat}
    (h : (ofSource source privateNames options).Accepts n) :
    ∀ t ∈ (Lexer.ofString source privateNames).tokens, t.kind ≠ .invalid := by
  intro t ht
  obtain ⟨i, hi, rfl⟩ := List.getElem_of_mem ht
  have hkind := h.kind_ne_invalid i
  rwa [token_ofSource_eq, List.getD_eq_getElem _ _ hi] at hkind

/-- Without fields, no token of an accepted text is a private name: nothing could declare it. -/
theorem Context.kind_ne_privateName
    (hfieldless : options.classFields = false ∨ options.supportsFields = false)
    (h : runScript (.ofSource source options.classFields options) = .ok p t) (i : Nat) :
    ((ofSource source options.classFields options).token i).kind ≠ .privateName := by
  obtain ⟨n, haccepts, hposition⟩ := accepts_of_runScript h
  rcases hfieldless with hoff | hoff
  · obtain hmem | heof := token_ofSource source options.classFields options i
    · exact Lexer.kind_ne_privateName_of_mem_tokens hoff _ hmem
    · rw [heof]
      exact TokenKind.noConfusion
  · refine haccepts.forall_token (P := fun t => t.kind ≠ .privateName)
      (fun _ heof hname => by cases heof.symm.trans hname) (fun i hi hname => ?_) i
    obtain ⟨s, hs, hscopes, hresolves⟩ := Resolves.ofScript rfl h
    have hbare : s.scopes.Bare := hs.scopes ▸ ClassScopes.bare_outside
    have hzero : s.position = 0 := hs.position
    -- A private name in the text would wait at its end, where no class is left.
    have hwaits := hresolves.waits hoff hbare ⟨i, by omega, by omega, hname⟩
    rw [hscopes] at hwaits
    exact ClassScopes.not_waits_outside hwaits

variable {options' : Options}

/-- In both modes of the lexer an accepted text has the same tokens. -/
theorem Context.ofSource_tokens (hfields : options.classFields = true → options'.classFields = true)
    (h : runScript (.ofSource source options.classFields options) = .ok p t) :
    (ofSource source options'.classFields options').tokens
      = (ofSource source options.classFields options).tokens := by
  obtain ⟨n, haccepts, -⟩ := accepts_of_runScript h
  have hvalid := haccepts.kind_ne_invalid_of_mem
  have htokens : (Lexer.ofString source options'.classFields).tokens
      = (Lexer.ofString source options.classFields).tokens := by
    cases hoff : options.classFields with
    | true => rw [hfields hoff]
    | false =>
      rw [hoff] at hvalid
      cases options'.classFields with
      | true => exact Lexer.tokens_of_valid _ rfl hvalid
      | false => rfl
  rw [ofSource, ofSource, htokens]

/-- A later edition has whatever an earlier one has. -/
theorem Options.supportsFields_mono (hedition : options.edition ≤ options'.edition)
    (h : options.supportsFields = true) : options'.supportsFields = true := by
  have h8 : 8 ≤ options.edition := of_decide_eq_true h
  exact decide_eq_true (h8.trans hedition)

/-- Where classes have fields, options that allow more have the same flags. -/
theorem Options.flags_eq (hedition : options.edition ≤ options'.edition)
    (hfields : options.classFields = true → options'.classFields = true)
    (hclass : options.classFields = true) (hsupports : options.supportsFields = true) :
    options'.flags = options.flags := by
  have hsupports' := supportsFields_mono hedition hsupports
  have hasync : options.supportsAsyncMembers = true := hsupports
  have hasync' : options'.supportsAsyncMembers = true := hsupports'
  rw [flags, flags, hclass, hfields hclass, hsupports, hsupports', hasync, hasync']

/-- Without fields, an accepted text is read again under options that allow more. -/
theorem Context.ofSource_widens (hedition : options.edition ≤ options'.edition)
    (hfields : options.classFields = true → options'.classFields = true)
    (hfieldless : options.classFields = false ∨ options.supportsFields = false)
    (h : runScript (.ofSource source options.classFields options) = .ok p t) :
    Widens (ofSource source options.classFields options)
      (ofSource source options'.classFields options') where
  tokens := ofSource_tokens hfields h
  sourceLength := rfl
  names := rfl
  checks := rfl
  fieldless := hfieldless
  asyncMembers := Options.supportsFields_mono hedition
  punctual := by
    obtain ⟨n, haccepts, -⟩ := accepts_of_runScript h
    exact haccepts.punctual
  kind_ne_privateName := kind_ne_privateName hfieldless h

/-- The script of an accepted text has the same tree under options that allow more, if the budget
suffices. -/
theorem Grammar.script_conservative (hedition : options.edition ≤ options'.edition)
    (hfields : options.classFields = true → options'.classFields = true) {n : Nat}
    (h : runScript (.ofSource source options.classFields options) = .ok p t)
    (hscript : script (.within n) (.ofSource source options.classFields options)
      (Context.ofSource source options.classFields options).begun = .ok p t') :
    (∃ u, script (.within n) (.ofSource source options'.classFields options')
        (Context.ofSource source options'.classFields options').begun = .ok p u)
      ∨ ∃ u, script (.within n) (.ofSource source options'.classFields options')
        (Context.ofSource source options'.classFields options').begun = .error .exhausted u := by
  set c := Context.ofSource source options.classFields options
  set c' := Context.ofSource source options'.classFields options'
  by_cases hsame : options.classFields = true ∧ options.supportsFields = true
  · have hflags : c.SameFlags c' :=
      ⟨Context.ofSource_tokens hfields h, rfl, rfl, rfl,
        Options.flags_eq hedition hfields hsame.1 hsame.2⟩
    have halike : c.begun.Alike (.beside (.refl .outside) true) 0 c'.begun :=
      ⟨rfl, ⟨[], [], rfl, rfl, rfl⟩, rfl⟩
    have hfollows := script_follows (Nat.le_refl n) hflags halike
    rw [hscript] at hfollows
    cases hrun' : script (.within n) c' c'.begun with
    | ok p' u =>
      rw [hrun'] at hfollows
      cases hfollows with
      | ok _ _ => exact .inl ⟨u, rfl⟩
    | error e u =>
      rw [hrun'] at hfollows
      cases hfollows
  · have hfieldless : options.classFields = false ∨ options.supportsFields = false := by
      simpa [or_iff_not_imp_left] using hsame
    have hwidens := Context.ofSource_widens hedition hfields hfieldless h
    have hmatches : c.begun.Matches c'.begun := ⟨rfl, rfl, .outside⟩
    have hgives := script_widens (Nat.le_refl n) hwidens hmatches hscript
    cases hrun' : script (.within n) c' c'.begun with
    | ok p' u =>
      rw [hrun'] at hgives
      cases hgives with
      | ok _ => exact .inl ⟨u, rfl⟩
    | error e u =>
      rw [hrun'] at hgives
      cases hgives with
      | exhausted => exact .inr ⟨u, rfl⟩

/-- **Options are a conservative extension.** A text with a tree has the same tree, places included,
in every later edition and with fields on. -/
theorem parse_conservative (hedition : options.edition ≤ options'.edition)
    (hfields : options.classFields = true → options'.classFields = true)
    (h : parse source options = .ok p) : parse source options' = .ok p := by
  obtain ⟨t, hrun⟩ := runScript_of_parse h
  have hbudget : (Context.ofSource source options'.classFields options').budget
      = (Context.ofSource source options.classFields options).budget := by
    rw [Context.budget, Context.budget, Context.ofSource_tokens hfields hrun]
  rw [parse_eq_script] at h
  split at h
  next p' u hscript =>
    obtain rfl := Except.ok.inj h
    have hparse := parse_eq_script source options'
    rw [hbudget] at hparse
    obtain ⟨u, hscript'⟩ | ⟨u, hscript'⟩ :=
      Grammar.script_conservative hedition hfields hrun hscript
    · rw [hparse, hscript']
    · rw [hscript'] at hparse
      exact absurd hparse (parse_ne_exhausted source options')
  next => cases h

set_option maxRecDepth 100000 in
/-- A class with a method `async`, and an expression in parentheses that could be parameters, in
edition 7 without fields and in edition 9 with fields. -/
theorem parse_conservative_async :
    ∃ p, parse "class A { async() { return (a, b); } } async(c);" ⟨7, false⟩ = .ok p
      ∧ parse "class A { async() { return (a, b); } } async(c);" ⟨9, true⟩ = .ok p := by
  have hsome : (parse "class A { async() { return (a, b); } } async(c);" ⟨7, false⟩).isOk = true
      := by decide +kernel
  cases hp : parse "class A { async() { return (a, b); } } async(c);" ⟨7, false⟩ with
  | error e =>
    rw [hp] at hsome
    cases hsome
  | ok p => exact ⟨p, rfl, parse_conservative (by decide) (by decide) hp⟩

end

end EcmaScript
