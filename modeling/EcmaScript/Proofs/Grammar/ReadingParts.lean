import EcmaScript.Grammar.Script
import EcmaScript.Proofs.Grammar.Balanced
import EcmaScript.Proofs.Tree.WellFormed

namespace EcmaScript

open EcmaScript.Parser

/-!
# What the rules read

A rule that succeeds has read balanced tokens, and most rules have read one at least.

* `Reads` — what lies between two positions is balanced and not empty;
* `Rules.Reading` — the two recursive rules read something whenever they succeed;
* `Grammar.parameters_reads`, `Grammar.classExpression_reads`, … — each rule does, on top of rules
  that do;
* `Context.Guards`, `Grammar.variableName_permits`, … — names that are read in a field initializer;
* `Grammar.methodRest_admits`, `Grammar.classMemberHead_plain` — what methods are like.
-/

/-- Balanced tokens, one at least. -/
structure Reads (token : Nat → Token) (i j : Nat) : Prop where
  balanced : Balanced token i j
  lt : i < j

namespace Reads

variable {token : Nat → Token} {i j k : Nat}

theorem append (h : Reads token i j) (h' : Balanced token j k) : Reads token i k :=
  ⟨h.balanced.trans h', Nat.lt_of_lt_of_le h.lt h'.le⟩

theorem prepend (h : Balanced token i j) (h' : Reads token j k) : Reads token i k :=
  ⟨h.trans h'.balanced, Nat.lt_of_le_of_lt h.le h'.lt⟩

theorem single (h : (token i).kind.isPlain) : Reads token i (i + 1) :=
  ⟨.single h, Nat.lt_succ_self i⟩

theorem brackets {o p : Punctuator} (hop : o.closing? = some p)
    (ho : (token i).kind = .punctuator o) (h : Balanced token (i + 1) j)
    (hp : (token j).kind = .punctuator p) : Reads token i (j + 1) :=
  ⟨.brackets hop ho h hp, by have := h.le; omega⟩

/-- What is read does not begin at the end of the text. -/
theorem kind_ne_eof (h : Reads token i j) : (token i).kind ≠ .eof :=
  (h.balanced.kind_ne i (Nat.le_refl i) h.lt).2

end Reads

/-- Both rules have read something when they succeed. -/
structure Rules.Reading (g : Rules) : Prop where
  stmt : ∀ {c : Context} {s t : State} {a : Stmt},
    g.stmt c s = .ok a t → Reads c.token s.position t.position
  expr : ∀ {c : Context} {s t : State} {mode : ExprMode} {a : Expr × Bool},
    g.expr mode c s = .ok a t → Reads c.token s.position t.position

variable {c : Context} {s t u : State}

/-! ### Tokens -/

namespace Parser

theorem require_reads {kind : TokenKind} {a : Token} (h : require kind c s = .ok a t)
    (hk : kind.isPlain) : Reads c.token s.position t.position := by
  obtain ⟨rfl, -, rfl⟩ := require_ok_iff.1 h
  exact .single hk

theorem accept_balanced {kind : TokenKind} {b : Bool} (h : accept kind c s = .ok b t)
    (hk : kind.isPlain) : Balanced c.token s.position t.position := by
  obtain ⟨rfl, -, rfl⟩ | ⟨-, -, rfl⟩ := accept_ok_iff.1 h
  · exact .single hk
  · exact .nil _

theorem look_position {n : Nat} {a : Token} (h : look n c s = .ok a t) :
    t.position = s.position := by
  obtain ⟨-, rfl⟩ := look_ok_iff.1 h
  rfl

/-- What stands between two brackets, and the brackets. -/
theorem brackets_reads {o p : Punctuator} {v : State} {a b : Token}
    (ho : require (.punctuator o) c s = .ok a u) (h : Balanced c.token u.position v.position)
    (hp : require (.punctuator p) c v = .ok b t) (hop : o.closing? = some p) :
    Reads c.token s.position t.position := by
  obtain ⟨hopen, -, rfl⟩ := require_ok_iff.1 ho
  obtain ⟨hclose, -, rfl⟩ := require_ok_iff.1 hp
  exact .brackets hop hopen h hclose

/-- A list ends at once, or it has a first item, and then a separator and more items, or the end. -/
theorem separated_ok {α : Type} {separator close : TokenKind} {item : Parser (Span → α)} {n : Nat}
    {xs : List α} (h : separated separator close item (n + 1) c s = .ok xs t) :
    ((c.token s.position).kind = close ∧ xs = [] ∧ t = s.advanced)
      ∨ ∃ make u, item c (s.looked 0) = .ok make u
        ∧ ((∃ rest, (c.token u.position).kind = separator
              ∧ separated separator close item n c u.advanced = .ok rest t
              ∧ xs = make (spanSince c s.position u) :: rest)
          ∨ ((c.token u.position).kind = close ∧ xs = [make (spanSince c s.position u)]
              ∧ t = (u.looked 0).advanced)) := by
  simp only [separated, accept_bind, discard_bind, if_true, Bool.false_eq_true, if_false,
    ite_run] at h
  split at h
  next hclose =>
    obtain ⟨rfl, rfl⟩ := pure_ok_iff.1 h
    exact .inl ⟨hclose, rfl, rfl⟩
  next =>
    obtain ⟨first, u, hfirst, h⟩ := bind_ok_iff.1 h
    obtain ⟨make, hmake, rfl⟩ := spanned_ok_iff.1 hfirst
    refine .inr ⟨make, u, hmake, ?_⟩
    rw [accept_bind] at h
    split at h
    next hseparator =>
      simp only [if_true, bind_ok_iff, pure_ok_iff] at h
      obtain ⟨rest, _, hrest, rfl, rfl⟩ := h
      exact .inl ⟨rest, hseparator, hrest, rfl⟩
    next =>
      simp only [Bool.false_eq_true, if_false] at h
      obtain ⟨hclose, h⟩ := require_bind_ok_iff.1 h
      obtain ⟨rfl, rfl⟩ := pure_ok_iff.1 h
      exact .inr ⟨hclose, rfl, rfl⟩

/-- A list reads balanced tokens up to its closing token, and that one. -/
theorem separated_balanced {α : Type} {separator close : TokenKind} {item : Parser (Span → α)}
    (hs : separator.isPlain) (hitem : ∀ {s t : State} {make : Span → α},
      item c s = .ok make t → Balanced c.token s.position t.position) {n : Nat} {s t : State}
    {xs : List α} (h : separated separator close item n c s = .ok xs t) :
    ∃ j, Balanced c.token s.position j ∧ (c.token j).kind = close ∧ t.position = j + 1 := by
  induction n generalizing s xs with
  | zero => cases h
  | succ n ih =>
    obtain ⟨hclose, -, rfl⟩ | ⟨_, u, hmake, h⟩ := separated_ok h
    · exact ⟨s.position, .nil _, hclose, rfl⟩
    have hread : Balanced c.token s.position u.position := hitem (s := s.looked 0) hmake
    obtain ⟨_, hseparator, hrest, -⟩ | ⟨hclose, -, rfl⟩ := h
    · obtain ⟨j, hj, hk, ht⟩ := ih hrest
      have hone : Balanced c.token u.position u.advanced.position := .single (hseparator ▸ hs)
      exact ⟨j, hread.trans (hone.trans hj), hk, ht⟩
    · exact ⟨u.position, hread, hclose, rfl⟩

end Parser

namespace NameRules

theorem ne_privateName_of_allows {rules : NameRules} {kind : TokenKind} (h : rules.allows kind) :
    kind ≠ .privateName := by
  rintro rfl
  cases h

theorem isPlain_of_allows {rules : NameRules} {kind : TokenKind} (h : rules.allows kind) :
    kind.isPlain := by
  unfold allows at h
  split at h
  · rfl
  · rfl
  · rfl
  · rfl
  · cases h

end NameRules

/-- Here lies a field initializer, and what is refused there is reported. -/
structure Context.Guards (c : Context) (s : State) : Prop where
  checks : c.checks.initializers = true
  inInitializer : s.inInitializer = true

namespace Grammar

variable {g : Rules}

/-! ### Names and literals -/

theorem identifierText_state {tok : Token} {name : String}
    (h : identifierText tok c s = .ok name t) : t = s := by
  unfold identifierText at h
  obtain ⟨p, hp, h⟩ := exists_run h
  split at hp
  · exact (pure_ok_iff.1 (hp ▸ h)).2.symm
  · exact (fail_ok_iff.1 (hp ▸ h)).elim

theorem checkArguments_state {tok : Token} {name : String} {x : Unit}
    (h : checkArguments tok name c s = .ok x t) : t = s := by
  simp only [checkArguments, read_bind, get_bind, ite_run] at h
  split at h
  · exact (fail_ok_iff.1 h).elim
  · exact (pure_ok_iff.1 h).2.symm

theorem checkArguments_permits {tok : Token} {name : String} {x : Unit}
    (h : checkArguments tok name c s = .ok x t) (hguards : c.Guards s) : name ≠ "arguments" := by
  rintro rfl
  simp only [checkArguments, read_bind, get_bind, hguards.checks, hguards.inInitializer] at h
  exact fail_ok_iff.1 h

theorem checkSuper_permits {tok : Token} {x : Unit} (h : checkSuper tok c s = .ok x t) :
    ¬ c.Guards s := by
  intro hguards
  simp only [checkSuper, read_bind, get_bind, hguards.checks, hguards.inInitializer] at h
  exact fail_ok_iff.1 h

theorem checkSuper_state {tok : Token} {x : Unit} (h : checkSuper tok c s = .ok x t) : t = s := by
  simp only [checkSuper, read_bind, get_bind, ite_run] at h
  split at h
  · exact (fail_ok_iff.1 h).elim
  · exact (pure_ok_iff.1 h).2.symm

theorem variableName_ok {name : String} (h : variableName c s = .ok name t) :
    c.names.allows (c.token s.position).kind ∧ t = s.advanced := by
  simp only [variableName, next_bind, nameRules_bind, ite_run] at h
  by_cases hallowed : c.names.allows (c.token s.position).kind = true
  · rw [if_pos hallowed] at h
    obtain ⟨_, u, htext, h⟩ := bind_ok_iff.1 h
    obtain ⟨_, v, hcheck, h⟩ := bind_ok_iff.1 h
    obtain ⟨-, rfl⟩ := pure_ok_iff.1 h
    rw [checkArguments_state hcheck, identifierText_state htext]
    exact ⟨hallowed, rfl⟩
  · rw [if_neg hallowed] at h
    exact (fail_ok_iff.1 h).elim

theorem variableName_permits {name : String} (h : variableName c s = .ok name t)
    (hguards : c.Guards t) : name ≠ "arguments" := by
  simp only [variableName, next_bind, nameRules_bind, ite_run] at h
  split at h
  · obtain ⟨_, u, htext, h⟩ := bind_ok_iff.1 h
    obtain ⟨_, v, hcheck, h⟩ := bind_ok_iff.1 h
    obtain ⟨rfl, rfl⟩ := pure_ok_iff.1 h
    exact checkArguments_permits hcheck (checkArguments_state hcheck ▸ hguards)
  · exact (fail_ok_iff.1 h).elim

theorem variableName_reads {name : String} (h : variableName c s = .ok name t) :
    Reads c.token s.position t.position := by
  obtain ⟨hallowed, rfl⟩ := variableName_ok h
  exact .single (NameRules.isPlain_of_allows hallowed)

theorem identifier_permits {i : Ident} (h : identifier c s = .ok i t) (hguards : c.Guards t) :
    i.name ≠ "arguments" := by
  simp only [identifier, spanned_ok_iff, bind_ok_iff, pure_ok_iff] at h
  obtain ⟨_, ⟨_, _, hname, rfl, rfl⟩, rfl⟩ := h
  exact variableName_permits hname hguards

theorem identifier_reads {i : Ident} (h : identifier c s = .ok i t) :
    Reads c.token s.position t.position := by
  simp only [identifier, spanned_ok_iff, bind_ok_iff, pure_ok_iff] at h
  obtain ⟨_, ⟨_, _, hname, -, rfl⟩, -⟩ := h
  exact variableName_reads hname

theorem definitionName?_ok {i : Option Ident} (h : definitionName? c s = .ok i t) :
    (c.names.allows (c.token s.position).kind
        ∧ i = some ⟨(c.token s.position).span, (c.token s.position).text⟩ ∧ t = s.advanced)
      ∨ (i = none ∧ s.SamePlace t) := by
  simp only [definitionName?, nameRules_bind, bind_ok_iff, acceptIf?_run, pure_ok_iff] at h
  obtain ⟨_, u, h, rfl, rfl⟩ := h
  by_cases hallowed : c.names.allows (c.token s.position).kind = true
  · rw [if_pos hallowed] at h
    injection h with h₁ h₂
    subst h₁ h₂
    exact .inl ⟨hallowed, rfl, rfl⟩
  · rw [if_neg hallowed] at h
    injection h with h₁ h₂
    subst h₁ h₂
    exact .inr ⟨rfl, (State.SamePlace.refl s).looked 0⟩

theorem definitionName?_balanced {i : Option Ident} (h : definitionName? c s = .ok i t) :
    Balanced c.token s.position t.position := by
  obtain ⟨hallowed, -, rfl⟩ | ⟨-, ht⟩ := definitionName?_ok h
  · exact .single (NameRules.isPlain_of_allows hallowed)
  · rw [ht.position]
    exact .nil _

theorem privateName_ok {i : Ident} (h : privateName c s = .ok i t) :
    (c.token s.position).kind = .privateName ∧ 1 < (c.token s.position).span.length
      ∧ i.span = (c.token s.position).span
      ∧ Escape.decodeName? (String.ofList ((c.token s.position).text.toList.drop 1)) = some i.name
      ∧ t = s.advanced := by
  simp only [privateName, require_bind_ok_iff, ite_run, peek_bind, State.advanced_position] at h
  obtain ⟨hkind, h⟩ := h
  by_cases hlength : (c.token s.position).span.length ≤ 1
  · rw [if_pos hlength] at h
    exact (fail_ok_iff.1 h).elim
  · rw [if_neg hlength] at h
    cases hname : Escape.decodeName? (String.ofList ((c.token s.position).text.toList.drop 1)) with
    | none =>
      rw [hname] at h
      exact (fail_ok_iff.1 h).elim
    | some name =>
      rw [hname] at h
      obtain ⟨rfl, rfl⟩ := pure_ok_iff.1 h
      exact ⟨hkind, Nat.lt_of_not_le hlength, rfl, rfl, rfl⟩

theorem privateName_reads {i : Ident} (h : privateName c s = .ok i t) :
    Reads c.token s.position t.position := by
  obtain ⟨hkind, -, -, -, rfl⟩ := privateName_ok h
  exact .single (hkind ▸ rfl)

theorem numberValue_ok {n : Number} (h : numberValue c s = .ok n t) :
    (c.token s.position).kind = .number ∧ t = s.advanced := by
  simp only [numberValue, require_bind_ok_iff] at h
  obtain ⟨hkind, h⟩ := h
  obtain ⟨p, hp, h⟩ := exists_run h
  split at hp
  · exact ⟨hkind, (pure_ok_iff.1 (hp ▸ h)).2.symm⟩
  · exact (fail_ok_iff.1 (hp ▸ h)).elim

theorem numberValue_reads {n : Number} (h : numberValue c s = .ok n t) :
    Reads c.token s.position t.position := by
  obtain ⟨hkind, rfl⟩ := numberValue_ok h
  exact .single (hkind ▸ rfl)

theorem stringValue_ok {v : String} (h : stringValue c s = .ok v t) :
    (c.token s.position).kind = .string ∧ t = s.advanced := by
  simp only [stringValue, require_bind_ok_iff] at h
  obtain ⟨hkind, h⟩ := h
  obtain ⟨p, hp, h⟩ := exists_run h
  split at hp
  · exact ⟨hkind, (pure_ok_iff.1 (hp ▸ h)).2.symm⟩
  · exact (fail_ok_iff.1 (hp ▸ h)).elim

theorem stringValue_reads {v : String} (h : stringValue c s = .ok v t) :
    Reads c.token s.position t.position := by
  obtain ⟨hkind, rfl⟩ := stringValue_ok h
  exact .single (hkind ▸ rfl)

theorem numberLiteral_reads {e : Expr} (h : numberLiteral c s = .ok e t) :
    Reads c.token s.position t.position := by
  simp only [numberLiteral, spanned_ok_iff, bind_ok_iff, pure_ok_iff] at h
  obtain ⟨_, ⟨_, _, hvalue, -, rfl⟩, -⟩ := h
  exact numberValue_reads hvalue

theorem stringLiteral_reads {e : Expr} (h : stringLiteral c s = .ok e t) :
    Reads c.token s.position t.position := by
  simp only [stringLiteral, spanned_ok_iff, bind_ok_iff, pure_ok_iff] at h
  obtain ⟨_, ⟨_, _, hvalue, -, rfl⟩, -⟩ := h
  exact stringValue_reads hvalue

theorem boolLiteral_ok {e : Expr} (h : boolLiteral c s = .ok e t) :
    ((c.token s.position).kind = .keyword .kTrue ∨ (c.token s.position).kind = .keyword .kFalse)
      ∧ (∃ value, e = .boolLit (spanSince c s.position t) value) ∧ t = s.advanced := by
  simp only [boolLiteral, spanned_ok_iff, next_bind] at h
  obtain ⟨make, h, rfl⟩ := h
  obtain ⟨p, hp, h⟩ := exists_run h
  split at hp
  next hkind =>
    obtain ⟨rfl, rfl⟩ := pure_ok_iff.1 (hp ▸ h)
    exact ⟨.inl hkind, ⟨true, rfl⟩, rfl⟩
  next hkind =>
    obtain ⟨rfl, rfl⟩ := pure_ok_iff.1 (hp ▸ h)
    exact ⟨.inr hkind, ⟨false, rfl⟩, rfl⟩
  next => exact (fail_ok_iff.1 (hp ▸ h)).elim

theorem boolLiteral_reads {e : Expr} (h : boolLiteral c s = .ok e t) :
    Reads c.token s.position t.position := by
  obtain ⟨hkind, -, rfl⟩ := boolLiteral_ok h
  rcases hkind with hkind | hkind
  · exact .single (hkind ▸ rfl)
  · exact .single (hkind ▸ rfl)

theorem nullLiteral_reads {e : Expr} (h : nullLiteral c s = .ok e t) :
    Reads c.token s.position t.position := by
  simp only [nullLiteral, spanned_ok_iff, discard_bind, bind_ok_iff, pure_ok_iff] at h
  obtain ⟨_, ⟨_, _, hword, -, rfl⟩, -⟩ := h
  exact require_reads hword rfl

theorem whole_reads (hg : g.Reading) {stops : List TokenKind} {e : Expr}
    (h : g.whole stops c s = .ok e t) : Reads c.token s.position t.position := by
  simp only [Rules.whole, bind_ok_iff, pure_ok_iff] at h
  obtain ⟨_, _, hexpr, -, rfl⟩ := h
  exact hg.expr hexpr

/-- The elements begin with a hole, or end, or begin with a value, behind which they end or go
on. -/
theorem elements_ok {n : Nat} {es : List Element} (h : elements g (n + 1) c s = .ok es t) :
    (∃ rest, (c.token s.position).kind = .punctuator .comma
        ∧ elements g n c s.advanced = .ok rest t ∧ es = .hole :: rest)
      ∨ (es = [] ∧ s.SamePlace t)
      ∨ ∃ spread u value v, accept (.punctuator .dotDotDot) c ((s.looked 0).looked 0) = .ok spread u
        ∧ g.whole [.punctuator .comma, .punctuator .bracketClose] c u = .ok value v
        ∧ ((es = [if spread then .rest value else .single value] ∧ v.SamePlace t)
          ∨ ∃ rest, (c.token v.position).kind = .punctuator .comma
            ∧ elements g n c (v.looked 0).advanced = .ok rest t
            ∧ es = (if spread then .rest value else .single value) :: rest) := by
  rw [elements, accept_bind] at h
  split at h
  next hcomma =>
    obtain ⟨rest, _, hrest, h⟩ := bind_ok_iff.1 h
    obtain ⟨rfl, rfl⟩ := pure_ok_iff.1 h
    exact .inl ⟨rest, hcomma, hrest, rfl⟩
  simp only [Bool.false_eq_true, if_false, peek_bind, ite_run] at h
  split at h
  next =>
    obtain ⟨rfl, rfl⟩ := pure_ok_iff.1 h
    exact .inr (.inl ⟨rfl, ((State.SamePlace.refl s).looked 0).looked 0⟩)
  next =>
    obtain ⟨spread, u, hspread, h⟩ := bind_ok_iff.1 h
    obtain ⟨value, v, hvalue, h⟩ := bind_ok_iff.1 h
    refine .inr (.inr ⟨spread, u, value, v, hspread, hvalue, ?_⟩)
    simp only [peek_bind, discard_bind, ite_run] at h
    split at h
    next =>
      obtain ⟨rfl, rfl⟩ := pure_ok_iff.1 h
      exact .inl ⟨rfl, (State.SamePlace.refl v).looked 0⟩
    next =>
      obtain ⟨hcomma, h⟩ := require_bind_ok_iff.1 h
      obtain ⟨rest, _, hrest, h⟩ := bind_ok_iff.1 h
      obtain ⟨rfl, rfl⟩ := pure_ok_iff.1 h
      exact .inr ⟨rest, hcomma, hrest, rfl⟩

theorem elements_balanced (hg : g.Reading) {n : Nat} {es : List Element}
    (h : elements g n c s = .ok es t) : Balanced c.token s.position t.position := by
  induction n generalizing s es with
  | zero => cases h
  | succ n ih =>
    obtain ⟨_, hcomma, hrest, -⟩ | ⟨-, ht⟩ | ⟨_, u, _, v, hspread, hvalue, h⟩ := elements_ok h
    · have hone : Balanced c.token s.position s.advanced.position := .single (hcomma ▸ rfl)
      exact hone.trans (ih hrest)
    · rw [ht.position]
      exact .nil _
    have hspread : Balanced c.token s.position u.position :=
      accept_balanced (s := (s.looked 0).looked 0) hspread rfl
    have hvalue := hspread.trans (whole_reads hg hvalue).balanced
    obtain ⟨-, ht⟩ | ⟨_, hcomma, hrest, -⟩ := h
    · rwa [ht.position]
    · have hone : Balanced c.token v.position v.advanced.position := .single (hcomma ▸ rfl)
      have hrest := ih hrest
      exact hvalue.trans (hone.trans hrest)

theorem arrayLiteral_reads (hg : g.Reading) {e : Expr} (h : arrayLiteral g c s = .ok e t) :
    Reads c.token s.position t.position := by
  simp only [arrayLiteral, spanned_ok_iff, discard_bind, bind_ok_iff, pure_ok_iff] at h
  obtain ⟨_, ⟨_, _, hopen, _, _, helements, _, _, hclose, -, rfl⟩, -⟩ := h
  exact brackets_reads hopen (elements_balanced hg helements) hclose rfl

/-! ### Functions and arrows -/

theorem parameter_reads (hg : g.Reading) {make : Span → Param}
    (h : parameter g c s = .ok make t) : Reads c.token s.position t.position := by
  simp only [parameter, bind_ok_iff] at h
  obtain ⟨_, u, hrest, _, v, hname, _, w, hequals, h⟩ := h
  have hname := (identifier_reads hname).prepend (accept_balanced hrest rfl)
  have hequals := hname.append (accept_balanced hequals rfl)
  split at h
  next =>
    simp only [map_ok_iff, bind_ok_iff, pure_ok_iff] at h
    obtain ⟨_, _, ⟨_, hvalue, -⟩, -, rfl⟩ := h
    exact hequals.append (whole_reads hg hvalue).balanced
  next =>
    simp only [bind_ok_iff, pure_ok_iff] at h
    obtain ⟨_, _, ⟨-, rfl⟩, -, rfl⟩ := h
    exact hequals

theorem parameters_reads (hg : g.Reading) {ps : List Param} (h : parameters g c s = .ok ps t) :
    Reads c.token s.position t.position := by
  simp only [parameters, Rules.list, discard_bind, require_bind_ok_iff] at h
  obtain ⟨hopen, h⟩ := h
  obtain ⟨j, hj, hclose, ht⟩ := separated_balanced rfl
    (fun hitem => (parameter_reads hg hitem).balanced) h
  rw [ht]
  exact .brackets (p := .parenthesisClose) rfl hopen hj hclose

theorem statements_ok {stop : TokenKind} {n : Nat} {body : List Stmt}
    (h : statements g stop (n + 1) c s = .ok body t) :
    (((c.token s.position).kind = stop ∨ (c.token s.position).kind = .eof) ∧ body = []
        ∧ s.SamePlace t)
      ∨ ∃ first u rest, g.stmt c (s.looked 0) = .ok first u
        ∧ statements g stop n c u = .ok rest t ∧ body = first :: rest := by
  simp only [statements, peek_bind, ite_run] at h
  split at h
  next hstop =>
    obtain ⟨rfl, rfl⟩ := pure_ok_iff.1 h
    simp only [Bool.or_eq_true, decide_eq_true_eq] at hstop
    exact .inl ⟨hstop, rfl, (State.SamePlace.refl s).looked 0⟩
  next =>
    simp only [bind_ok_iff, pure_ok_iff] at h
    obtain ⟨first, u, hfirst, rest, _, hrest, rfl, rfl⟩ := h
    exact .inr ⟨first, u, rest, hfirst, hrest, rfl⟩

theorem statements_balanced (hg : g.Reading) {stop : TokenKind} {n : Nat} {body : List Stmt}
    (h : statements g stop n c s = .ok body t) : Balanced c.token s.position t.position := by
  induction n generalizing s body with
  | zero => cases h
  | succ n ih =>
    obtain ⟨-, -, ht⟩ | ⟨_, _, _, hfirst, hrest, -⟩ := statements_ok h
    · rw [ht.position]
      exact .nil _
    · have hfirst := hg.stmt hfirst
      exact hfirst.balanced.trans (ih hrest)

theorem blockBody_reads (hg : g.Reading) {body : List Stmt} (h : blockBody g c s = .ok body t) :
    Reads c.token s.position t.position := by
  simp only [blockBody, discard_bind, bind_ok_iff, pure_ok_iff] at h
  obtain ⟨_, _, hopen, _, _, hbody, _, _, hclose, -, rfl⟩ := h
  exact brackets_reads hopen (statements_balanced hg hbody) hclose rfl

theorem functionRest_reads (hg : g.Reading) {async generator : Bool} {f : Func}
    (h : functionRest g async generator c s = .ok f t) : Reads c.token s.position t.position := by
  simp only [functionRest, withNames_run, spanned_ok_iff, bind_ok_iff, pure_ok_iff] at h
  obtain ⟨_, ⟨_, _, hparams, _, _, hbody, -, rfl⟩, -⟩ := h
  have hparams := parameters_reads hg hparams
  have hbody := blockBody_reads hg hbody
  exact hparams.append hbody.balanced

theorem functionRest_ok {async generator : Bool} {f : Func}
    (h : functionRest g async generator c s = .ok f t) :
    f.IsFunction ∧ f.isAsync = async ∧ f.isGenerator = generator := by
  simp only [functionRest, withNames_run, spanned_ok_iff, bind_ok_iff, pure_ok_iff] at h
  obtain ⟨_, ⟨_, _, -, body, _, -, rfl, -⟩, rfl⟩ := h
  exact ⟨⟨rfl, body, rfl⟩, rfl, rfl⟩

/-- A method is a function whose parameters its kind may have. -/
theorem methodRest_ok {kind : MethodKind} {async generator : Bool} {f : Func}
    (h : methodRest g kind async generator c s = .ok f t) :
    functionRest g async generator c s = .ok f t ∧ kind.Takes f.params := by
  simp only [methodRest, bind_ok_iff] at h
  obtain ⟨func, u, hfunc, h⟩ := h
  obtain ⟨p, hp, h⟩ := exists_run h
  split at hp
  next hparams =>
    subst hp
    obtain ⟨rfl, rfl⟩ := pure_ok_iff.1 h
    exact ⟨hfunc, hparams⟩
  next =>
    subst hp
    exact (fail_ok_iff.1 h).elim
  next param hparams =>
    split at hp
    · subst hp
      exact (fail_ok_iff.1 h).elim
    next hrest =>
      subst hp
      obtain ⟨rfl, rfl⟩ := pure_ok_iff.1 h
      exact ⟨hfunc, param, hparams, Bool.eq_false_iff.2 hrest⟩
  next =>
    subst hp
    exact (fail_ok_iff.1 h).elim
  next hget hset _ _ =>
    subst hp
    obtain ⟨rfl, rfl⟩ := pure_ok_iff.1 h
    refine ⟨hfunc, ?_⟩
    unfold MethodKind.Takes
    split
    · exact (hget rfl).elim
    · exact (hset rfl).elim
    · trivial
    · trivial

theorem methodRest_admits {kind : MethodKind} {async generator : Bool} {f : Func}
    (h : methodRest g kind async generator c s = .ok f t)
    (hplain : kind ≠ .method → async = false ∧ generator = false) : kind.Admits f := by
  obtain ⟨hfunc, htakes⟩ := methodRest_ok h
  obtain ⟨hfunction, hasync, hgenerator⟩ := functionRest_ok hfunc
  exact ⟨hfunction, htakes, fun hkind => hasync.trans (hplain hkind).1,
    fun hkind => hgenerator.trans (hplain hkind).2⟩

theorem methodRest_reads (hg : g.Reading) {kind : MethodKind} {async generator : Bool} {f : Func}
    (h : methodRest g kind async generator c s = .ok f t) : Reads c.token s.position t.position :=
  functionRest_reads hg (methodRest_ok h).1

theorem functionExpression_reads (hg : g.Reading) {e : Expr}
    (h : functionExpression g c s = .ok e t) : Reads c.token s.position t.position := by
  simp only [functionExpression, spanned_ok_iff, discard_bind, bind_ok_iff, pure_ok_iff] at h
  obtain ⟨_, ⟨_, _, hasync, _, _, hword, _, _, hgenerator, _, _, hname, _, _, hfunc, -, rfl⟩,
    -⟩ := h
  have hword := (require_reads hword rfl).prepend (accept_balanced hasync rfl)
  have hgenerator := hword.append (accept_balanced hgenerator rfl)
  have hname := hgenerator.append (definitionName?_balanced hname)
  exact hname.append (functionRest_reads hg hfunc).balanced

/-- The only parameter of an arrow function, or parameters in parentheses. -/
def beforeArrow (g : Rules) : Parser (List Param) := do
  let first ← look 0
  let second ← look 1
  if (← nameRules).allows first.kind && second.kind = arrowKind then
    let name ← identifier
    return [.mk name.span false name none]
  else parameters g

/-- The arrow behind parameters, on the same line. -/
def arrowSign : Parser Unit := do
  let arrow ← require arrowKind
  if arrow.newlineBefore then fail (arrow.error .lineTerminatorAfterArrowParameters)
  else return ()

/-- Parameters, and the arrow behind them. -/
theorem arrowParameters_eq (g : Rules) (async : Bool) :
    arrowParameters g async = (do
      let params ← withNames (·.forAsync async) (beforeArrow g)
      arrowSign
      return params) := by
  refine bind_congr fun params => ?_
  rw [arrowSign, bind_assoc]
  refine bind_congr fun arrow => ?_
  split
  · rfl
  · rw [pure_bind]

/-- The parameters of an arrow function are a name right before the arrow, or stand in
parentheses. -/
theorem arrowParameters_ok {async : Bool} {ps : List Param}
    (h : arrowParameters g async c s = .ok ps t) :
    ∃ u, (c.token u.position).kind = arrowKind ∧ (c.token u.position).newlineBefore = false
      ∧ t = u.advanced
      ∧ ((∃ name, identifier { c with names := c.names.forAsync async } ((s.looked 0).looked 1)
            = .ok name u ∧ ps = [.mk name.span false name none])
        ∨ parameters g { c with names := c.names.forAsync async } ((s.looked 0).looked 1)
            = .ok ps u) := by
  unfold arrowParameters at h
  obtain ⟨params, u, hparams, hrest⟩ := bind_ok_iff.1 h
  obtain ⟨_, v, harrow, hline⟩ := bind_ok_iff.1 hrest
  obtain ⟨hkind, rfl, rfl⟩ := require_ok_iff.1 harrow
  rw [ite_run] at hline
  split at hline
  next => exact (fail_ok_iff.1 hline).elim
  next hnewline =>
    obtain ⟨rfl, rfl⟩ := pure_ok_iff.1 hline
    refine ⟨u, hkind, Bool.eq_false_iff.2 hnewline, rfl, ?_⟩
    simp only [withNames_run, look_bind, nameRules_bind, ite_run] at hparams
    split at hparams
    next =>
      simp only [bind_ok_iff, pure_ok_iff] at hparams
      obtain ⟨name, _, hname, rfl, rfl⟩ := hparams
      exact .inl ⟨name, hname, rfl⟩
    next => exact .inr hparams

/-- The parameters of an arrow function end right before the arrow. -/
theorem arrowParameters_beforeArrow (hg : g.Reading) {async : Bool} {ps : List Param}
    (h : arrowParameters g async c s = .ok ps t) :
    ∃ i, Reads c.token s.position i ∧ (c.token i).kind = arrowKind
      ∧ (c.token i).newlineBefore = false ∧ t.position = i + 1 := by
  obtain ⟨u, hkind, hline, rfl, ⟨_, hname, -⟩ | hparams⟩ := arrowParameters_ok h
  · have hname := identifier_reads hname
    exact ⟨u.position, hname, hkind, hline, rfl⟩
  · have hparams := parameters_reads hg hparams
    exact ⟨u.position, hparams, hkind, hline, rfl⟩

theorem arrowParameters_reads (hg : g.Reading) {async : Bool} {ps : List Param}
    (h : arrowParameters g async c s = .ok ps t) : Reads c.token s.position t.position := by
  obtain ⟨i, hi, harrow, hline, ht⟩ := arrowParameters_beforeArrow hg h
  rw [ht]
  exact hi.append ((Balanced.nil i).arrow harrow hline)

theorem arrowBody_ok {stops : List TokenKind} {b : FuncBody}
    (h : arrowBody g stops c s = .ok b t) :
    (∃ body, blockBody g c (s.looked 0) = .ok body t ∧ b = .block body)
      ∨ ∃ value inserted, g.expr (.assignment stops) c (s.looked 0) = .ok (value, inserted) t
        ∧ b = .expr value := by
  simp only [arrowBody, peek_bind, ite_run] at h
  split at h
  next =>
    simp only [bind_ok_iff, pure_ok_iff] at h
    obtain ⟨body, _, hbody, rfl, rfl⟩ := h
    exact .inl ⟨body, hbody, rfl⟩
  next =>
    simp only [bind_ok_iff, pure_ok_iff] at h
    obtain ⟨⟨value, inserted⟩, _, hvalue, rfl, rfl⟩ := h
    exact .inr ⟨value, inserted, hvalue, rfl⟩

theorem arrowBody_reads (hg : g.Reading) {stops : List TokenKind} {b : FuncBody}
    (h : arrowBody g stops c s = .ok b t) : Reads c.token s.position t.position := by
  obtain ⟨_, hbody, -⟩ | ⟨_, _, hvalue, -⟩ := arrowBody_ok h
  · have hbody := blockBody_reads hg hbody
    exact hbody
  · have hvalue := hg.expr hvalue
    exact hvalue

/-- An arrow function is its parameters and its body, perhaps behind `async`. -/
theorem arrowFunction_ok {stops : List TokenKind} {e : Expr}
    (h : arrowFunction g stops c s = .ok e t) :
    ∃ async u params v body,
      (s.SamePlace u ∨ (c.token s.position).kind = .keyword .kAsync ∧ u = (s.looked 1).advanced)
      ∧ arrowParameters g async c u = .ok params v
      ∧ arrowBody g stops { c with names := c.names.forAsync async } v = .ok body t
      ∧ e = .arrow (spanSince c s.position t)
          (.mk (spanSince c s.position t) true async false params body) := by
  -- The parameters and the body are read alike, whether `async` stands before them or not.
  have tail {async : Bool} {u : State} {make : Span → Expr}
      (h : (do
        let params ← arrowParameters g async
        let body ← withNames (·.forAsync async) (arrowBody g stops)
        return fun span => .arrow span (.mk span true async false params body) : Parser _) c u
          = .ok make t) :
      ∃ params v body, arrowParameters g async c u = .ok params v
        ∧ arrowBody g stops { c with names := c.names.forAsync async } v = .ok body t
        ∧ make = fun span => .arrow span (.mk span true async false params body) := by
    simp only [bind_ok_iff, withNames_run, pure_ok_iff] at h
    obtain ⟨params, v, hparams, body, _, hbody, rfl, rfl⟩ := h
    exact ⟨params, v, body, hparams, hbody, rfl⟩
  have hplace := State.SamePlace.refl s
  simp only [arrowFunction, spanned_ok_iff, look_bind, pure_bind, ite_run, accept_bind] at h
  obtain ⟨make, h, rfl⟩ := h
  split at h
  next =>
    obtain ⟨params, v, body, hparams, hbody, rfl⟩ := tail h
    exact ⟨false, _, params, v, body, .inl (hplace.looked 1), hparams, hbody, rfl⟩
  split at h
  next hasync =>
    obtain ⟨params, v, body, hparams, hbody, rfl⟩ := tail h
    exact ⟨true, _, params, v, body, .inr ⟨hasync, rfl⟩, hparams, hbody, rfl⟩
  next =>
    obtain ⟨params, v, body, hparams, hbody, rfl⟩ := tail h
    exact ⟨false, _, params, v, body, .inl ((hplace.looked 1).looked 0), hparams, hbody, rfl⟩

theorem arrowFunction_reads (hg : g.Reading) {stops : List TokenKind} {e : Expr}
    (h : arrowFunction g stops c s = .ok e t) : Reads c.token s.position t.position := by
  obtain ⟨_, u, _, v, _, hu, hparams, hbody, -⟩ := arrowFunction_ok h
  have hparams := arrowParameters_reads hg hparams
  have hbody := arrowBody_reads hg hbody
  have hrest := hparams.append hbody.balanced
  obtain hu | ⟨hasync, rfl⟩ := hu
  · rwa [hu.position] at hrest
  · have hone : Reads c.token s.position (s.position + 1) := .single (hasync ▸ rfl)
    exact hone.append hrest.balanced

theorem grouping_reads (hg : g.Reading) {insertion : Bool} {a : Expr × Bool}
    (h : grouping g insertion c s = .ok a t) : Reads c.token s.position t.position := by
  simp only [grouping, discard_bind, bind_ok_iff, pure_ok_iff] at h
  obtain ⟨_, _, hopen, _, _, hvalue, _, _, hclose, -, rfl⟩ := h
  exact brackets_reads hopen (hg.expr hvalue).balanced hclose rfl

/-- An arrow function or an expression in parentheses begins where the attempt at parameters
began. -/
theorem arrowOrGrouping_ok {stops : List TokenKind} {insertion : Bool} {a : Expr × Bool}
    (h : arrowOrGrouping g stops insertion c s = .ok a t) :
    (∃ ps u e, arrowParameters g false c s = .ok ps u
        ∧ arrowFunction g stops c { u with position := s.position } = .ok e t ∧ a = (e, false))
      ∨ ∃ e u, arrowParameters g false c s = .error (.error e) u
        ∧ e.cause ≠ .lineTerminatorAfterArrowParameters
        ∧ grouping g insertion c { u with position := s.position } = .ok a t := by
  simp only [arrowOrGrouping, position_bind, bind_ok_iff, attempt] at h
  obtain ⟨found, u, hfound, h⟩ := h
  split at hfound
  next ps v hparams =>
    injection hfound with h₁ h₂
    subst h₁ h₂
    simp only [restore_bind, bind_ok_iff, pure_ok_iff] at h
    obtain ⟨e, _, he, ha, rfl⟩ := h
    exact .inl ⟨ps, _, e, hparams, he, ha.symm⟩
  next e v hparams =>
    injection hfound with h₁ h₂
    subst h₁ h₂
    simp only [ite_run] at h
    split at h
    next => exact (fail_ok_iff.1 h).elim
    next hcause => exact .inr ⟨e, _, hparams, hcause, h⟩
  next => cases hfound

theorem arrowOrGrouping_reads (hg : g.Reading) {stops : List TokenKind} {insertion : Bool}
    {a : Expr × Bool} (h : arrowOrGrouping g stops insertion c s = .ok a t) :
    Reads c.token s.position t.position := by
  obtain ⟨_, _, _, -, h, -⟩ | ⟨_, _, -, -, h⟩ := arrowOrGrouping_ok h
  · have h := arrowFunction_reads hg h
    exact h
  · have h := grouping_reads hg h
    exact h

/-! ### Members -/

/-- A key that is spelled out is one token, of the kind that the key remembers. -/
theorem directKey_ok {k : DirectKey} (h : directKey c s = .ok k t) :
    (c.token s.position).kind.isPlain ∧ (c.token s.position).kind ≠ .privateName
      ∧ k.kind = (c.token s.position).kind ∧ t = (s.looked 0).advanced := by
  simp only [directKey, spanned_ok_iff, peek_bind, bind_ok_iff, pure_ok_iff] at h
  obtain ⟨_, ⟨text, _, h, rfl, rfl⟩, rfl⟩ := h
  unfold directKeyText at h
  obtain ⟨p, hp, h⟩ := exists_run h
  split at hp
  next hkind =>
    subst hp
    obtain ⟨-, rfl⟩ := stringValue_ok h
    exact ⟨hkind ▸ rfl, hkind ▸ TokenKind.noConfusion, rfl, rfl⟩
  next hkind =>
    subst hp
    obtain ⟨_, _, hvalue, h⟩ := bind_ok_iff.1 h
    obtain ⟨-, rfl⟩ := pure_ok_iff.1 h
    obtain ⟨-, rfl⟩ := numberValue_ok hvalue
    exact ⟨hkind ▸ rfl, hkind ▸ TokenKind.noConfusion, rfl, rfl⟩
  next hkind =>
    subst hp
    simp only [next_bind, bind_ok_iff, pure_ok_iff] at h
    obtain ⟨_, _, htext, _, _, hcheck, -, rfl⟩ := h
    rw [checkArguments_state hcheck, identifierText_state htext]
    exact ⟨hkind ▸ rfl, hkind ▸ TokenKind.noConfusion, rfl, rfl⟩
  next k hkind =>
    subst hp
    simp only [next_bind, pure_ok_iff] at h
    obtain ⟨-, rfl⟩ := h
    exact ⟨hkind ▸ rfl, hkind ▸ TokenKind.noConfusion, rfl, rfl⟩
  next =>
    subst hp
    exact (fail_ok_iff.1 h).elim

theorem directKey_permits {k : DirectKey} (h : directKey c s = .ok k t) (hguards : c.Guards t)
    (hkind : k.kind = .identifier) : k.text ≠ "arguments" := by
  simp only [directKey, spanned_ok_iff, peek_bind, bind_ok_iff, pure_ok_iff] at h
  obtain ⟨_, ⟨text, _, h, rfl, rfl⟩, rfl⟩ := h
  have hkind : (c.token s.position).kind = .identifier := hkind
  unfold directKeyText at h
  rw [hkind] at h
  simp only [next_bind, bind_ok_iff, pure_ok_iff] at h
  obtain ⟨_, _, -, _, _, hcheck, rfl, rfl⟩ := h
  exact checkArguments_permits hcheck (checkArguments_state hcheck ▸ hguards)

theorem directKey_reads {k : DirectKey} (h : directKey c s = .ok k t) :
    Reads c.token s.position t.position := by
  obtain ⟨hplain, -, -, rfl⟩ := directKey_ok h
  exact .single hplain

/-- A key stands in brackets, or is spelled out. -/
theorem memberKey_ok {k : Key} (h : memberKey g c s = .ok k t) :
    (∃ value u, (c.token s.position).kind = .punctuator .bracketOpen
        ∧ g.whole [.punctuator .bracketClose] c s.advanced = .ok value u
        ∧ (c.token u.position).kind = .punctuator .bracketClose ∧ t = u.advanced
        ∧ k = .computed value)
      ∨ ∃ key, directKey c (s.looked 0) = .ok key t ∧ k = .direct key := by
  rw [memberKey, accept_bind] at h
  split at h
  next hopen =>
    simp only [if_true, discard_bind, bind_ok_iff, require_ok_iff, pure_ok_iff] at h
    obtain ⟨value, u, hvalue, _, _, ⟨hclose, -, rfl⟩, rfl, rfl⟩ := h
    exact .inl ⟨value, u, hopen, hvalue, hclose, rfl, rfl⟩
  next =>
    simp only [Bool.false_eq_true, if_false, bind_ok_iff, pure_ok_iff] at h
    obtain ⟨key, _, hkey, rfl, rfl⟩ := h
    exact .inr ⟨key, hkey, rfl⟩

theorem memberKey_reads (hg : g.Reading) {k : Key} (h : memberKey g c s = .ok k t) :
    Reads c.token s.position t.position := by
  obtain ⟨_, u, hopen, hvalue, hclose, rfl, -⟩ | ⟨_, hkey, -⟩ := memberKey_ok h
  · have hvalue := whole_reads hg hvalue
    exact .brackets (p := .bracketClose) rfl hopen hvalue.balanced hclose
  · have hkey := directKey_reads hkey
    exact hkey

/-- No key of a member that is read behind modifiers is a private name. -/
theorem memberKey_isPrivate {k : Key} (h : memberKey g c s = .ok k t) : k.isPrivate = false := by
  obtain ⟨_, _, -, -, -, -, rfl⟩ | ⟨_, -, rfl⟩ := memberKey_ok h
  · rfl
  · rfl

theorem modifier_ok {word : Keyword} {sameLine b : Bool}
    (h : modifier word sameLine c s = .ok b t) :
    (b = false ∧ s.SamePlace t)
      ∨ (b = true ∧ (c.token s.position).kind = .keyword word
        ∧ t = ((s.looked 0).looked 1).advanced) := by
  simp only [modifier, look_bind, discard_bind, next_bind, ite_run] at h
  split at h
  next =>
    obtain ⟨rfl, rfl⟩ := pure_ok_iff.1 h
    exact .inl ⟨rfl, ((State.SamePlace.refl s).looked 0).looked 1⟩
  next hword =>
    obtain ⟨rfl, rfl⟩ := pure_ok_iff.1 h
    refine .inr ⟨rfl, ?_, rfl⟩
    by_contra hne
    exact hword (by simp [hne])

theorem modifier_balanced {word : Keyword} {sameLine b : Bool}
    (h : modifier word sameLine c s = .ok b t) : Balanced c.token s.position t.position := by
  obtain ⟨-, ht⟩ | ⟨-, hkind, rfl⟩ := modifier_ok h
  · rw [ht.position]
    exact .nil _
  · exact .single (hkind ▸ rfl)

/-- Whether `async` is a modifier, where members may be async at all. -/
def asyncModifier : Parser Bool := do
  if (← options).supportsAsyncMembers then modifier .kAsync true else pure false

/-- What stands behind `async`, or in its place. -/
def otherModifiers (async : Bool) : Parser (Bool × Bool × MethodKind) := do
  if async then return (true, ← accept (.punctuator .asterisk), .method)
  else if ← modifier .kGet false then return (false, false, .get)
  else if ← modifier .kSet false then return (false, false, .set)
  else return (false, false, .method)

/-- The modifiers of a method, one after the other. -/
theorem methodModifiers_eq : methodModifiers = (do
    if ← accept (.punctuator .asterisk) then return (false, true, .method)
    else
      let async ← asyncModifier
      otherModifiers async) := rfl

theorem methodModifiers_balanced {m : Bool × Bool × MethodKind}
    (h : methodModifiers c s = .ok m t) : Balanced c.token s.position t.position := by
  obtain ⟨star, u, hstar, h⟩ := bind_ok_iff.1 h
  have hstar := accept_balanced hstar rfl
  rw [ite_run] at h
  split at h
  next =>
    obtain ⟨-, rfl⟩ := pure_ok_iff.1 h
    exact hstar
  obtain ⟨async, v, hasync, h⟩ := bind_ok_iff.1 h
  have hasync : Balanced c.token s.position v.position := by
    simp only [options_bind, ite_run] at hasync
    split at hasync
    · exact hstar.trans (modifier_balanced hasync)
    · obtain ⟨-, rfl⟩ := pure_ok_iff.1 hasync
      exact hstar
  rw [ite_run] at h
  split at h
  next =>
    simp only [bind_ok_iff, pure_ok_iff] at h
    obtain ⟨_, _, hgenerator, -, rfl⟩ := h
    exact hasync.trans (accept_balanced hgenerator rfl)
  obtain ⟨get, w, hget, h⟩ := bind_ok_iff.1 h
  have hget := hasync.trans (modifier_balanced hget)
  rw [ite_run] at h
  split at h
  next =>
    obtain ⟨-, rfl⟩ := pure_ok_iff.1 h
    exact hget
  obtain ⟨set, x, hset, h⟩ := bind_ok_iff.1 h
  have hset := hget.trans (modifier_balanced hset)
  rw [ite_run] at h
  split at h
  · obtain ⟨-, rfl⟩ := pure_ok_iff.1 h
    exact hset
  · obtain ⟨-, rfl⟩ := pure_ok_iff.1 h
    exact hset

/-- Only a plain method may be async or a generator, and no word makes a method a constructor. -/
theorem methodModifiers_ok {async generator : Bool} {kind : MethodKind}
    (h : methodModifiers c s = .ok (async, generator, kind) t) :
    kind ≠ .constructor ∧ (kind ≠ .method → async = false ∧ generator = false) := by
  have plain {u v : State} {a b : Bool}
      (h : (pure (a, b, MethodKind.method) : Parser _) c u = .ok (async, generator, kind) v) :
      kind ≠ .constructor ∧ (kind ≠ .method → async = false ∧ generator = false) := by
    obtain ⟨heq, -⟩ := pure_ok_iff.1 h
    cases heq
    exact ⟨by decide, fun hkind => absurd rfl hkind⟩
  -- An asterisk.
  obtain ⟨_, _, -, h⟩ := bind_ok_iff.1 h
  rw [ite_run] at h
  split at h
  next => exact plain h
  -- The word `async`, behind which an asterisk may stand.
  obtain ⟨_, _, -, h⟩ := bind_ok_iff.1 h
  rw [ite_run] at h
  split at h
  next =>
    obtain ⟨_, _, -, h⟩ := bind_ok_iff.1 h
    exact plain h
  -- The word `get`.
  obtain ⟨_, _, -, h⟩ := bind_ok_iff.1 h
  rw [ite_run] at h
  split at h
  next =>
    obtain ⟨heq, -⟩ := pure_ok_iff.1 h
    cases heq
    exact ⟨by decide, fun _ => ⟨rfl, rfl⟩⟩
  -- The word `set`.
  obtain ⟨_, _, -, h⟩ := bind_ok_iff.1 h
  rw [ite_run] at h
  split at h
  next =>
    obtain ⟨heq, -⟩ := pure_ok_iff.1 h
    cases heq
    exact ⟨by decide, fun _ => ⟨rfl, rfl⟩⟩
  next => exact plain h

/-- The mark of a static member; only members of classes may bear it. -/
def staticMark (allowStatic : Bool) : Parser Bool :=
  if allowStatic then modifier .kStatic false else pure false

/-- What stands behind the mark: the other modifiers and the key. -/
def memberHeadRest (g : Rules) (static : Bool) : Parser MemberHead := do
  let modifiers ← methodModifiers
  let key ← memberKey g
  return ⟨static, modifiers.1, modifiers.2.1, modifiers.2.2, key⟩

/-- The mark of a static member and the rest of the head, one after the other. -/
theorem memberHead_eq (g : Rules) (allowStatic : Bool) :
    memberHead g allowStatic = staticMark allowStatic >>= memberHeadRest g := by
  cases allowStatic <;> rfl

/-- A member that may not be static is not, whatever it begins with. -/
theorem staticMark_ok {allowStatic b : Bool} (h : staticMark allowStatic c s = .ok b t) :
    modifier .kStatic false c s = .ok b t ∨ (b = false ∧ t = s) := by
  cases allowStatic with
  | true => exact .inl h
  | false =>
    obtain ⟨rfl, rfl⟩ := pure_ok_iff.1 h
    exact .inr ⟨rfl, rfl⟩

theorem staticMark_balanced {allowStatic b : Bool} (h : staticMark allowStatic c s = .ok b t) :
    Balanced c.token s.position t.position := by
  obtain h | ⟨-, rfl⟩ := staticMark_ok h
  · exact modifier_balanced h
  · exact .nil _

/-- A head is its modifiers and its key. -/
theorem memberHead_ok {allowStatic : Bool} {head : MemberHead}
    (h : memberHead g allowStatic c s = .ok head t) :
    ∃ u v, staticMark allowStatic c s = .ok head.static u
      ∧ methodModifiers c u = .ok (head.async, head.generator, head.kind) v
      ∧ memberKey g c v = .ok head.key t := by
  rw [memberHead_eq] at h
  obtain ⟨_, u, hstatic, h⟩ := bind_ok_iff.1 h
  simp only [memberHeadRest, bind_ok_iff, pure_ok_iff] at h
  obtain ⟨_, v, hmodifiers, _, _, hkey, rfl, rfl⟩ := h
  exact ⟨u, v, hstatic, hmodifiers, hkey⟩

/-- The same of the head of a member, whose key is no private name. -/
theorem memberHead_plain {allowStatic : Bool} {head : MemberHead}
    (h : memberHead g allowStatic c s = .ok head t) :
    head.key.isPrivate = false ∧ head.kind ≠ .constructor
      ∧ (head.kind ≠ .method → head.async = false ∧ head.generator = false) := by
  obtain ⟨_, _, -, hmodifiers, hkey⟩ := memberHead_ok h
  exact ⟨memberKey_isPrivate hkey, methodModifiers_ok hmodifiers⟩

theorem memberHead_reads (hg : g.Reading) {allowStatic : Bool} {head : MemberHead}
    (h : memberHead g allowStatic c s = .ok head t) : Reads c.token s.position t.position := by
  obtain ⟨_, _, hstatic, hmodifiers, hkey⟩ := memberHead_ok h
  have hmarks := (staticMark_balanced hstatic).trans (methodModifiers_balanced hmodifiers)
  exact (memberKey_reads hg hkey).prepend hmarks

/-- A member of an object is a name alone, a method, or a key with a value. -/
theorem objectMember_ok {make : Span → ObjectMember} (h : objectMember g c s = .ok make t) :
    (∃ name u, s.SamePlace u ∧ identifier c u = .ok name t
        ∧ make = fun span => .shorthand span name)
      ∨ ∃ head u v w, s.SamePlace u ∧ memberHead g false c u = .ok head v ∧ v.SamePlace w
        ∧ ((∃ func, methodRest g head.kind head.async head.generator c w = .ok func t
              ∧ make = fun span => .method span head.key head.kind func)
          ∨ ∃ value, (c.token w.position).kind = .punctuator .colon
              ∧ g.whole [.punctuator .comma, .punctuator .braceClose] c w.advanced = .ok value t
              ∧ make = fun span => .valued span head.key value) := by
  simp only [objectMember, look_bind, nameRules_bind, ite_run, pure_bind, if_true] at h
  have hlooked := ((State.SamePlace.refl s).looked 0).looked 1
  split at h
  next =>
    simp only [bind_ok_iff, pure_ok_iff] at h
    obtain ⟨name, _, hname, rfl, rfl⟩ := h
    exact .inl ⟨name, _, hlooked, hname, rfl⟩
  next =>
    obtain ⟨head, v, hhead, h⟩ := bind_ok_iff.1 h
    have hv := State.SamePlace.refl v
    simp only [ite_run, peek_bind] at h
    split at h
    next =>
      simp only [bind_ok_iff, pure_ok_iff] at h
      obtain ⟨func, _, hfunc, rfl, rfl⟩ := h
      exact .inr ⟨head, _, v, v, hlooked, hhead, hv, .inl ⟨func, hfunc, rfl⟩⟩
    split at h
    next =>
      simp only [bind_ok_iff, pure_ok_iff] at h
      obtain ⟨func, _, hfunc, rfl, rfl⟩ := h
      exact .inr ⟨head, _, v, _, hlooked, hhead, hv.looked 0, .inl ⟨func, hfunc, rfl⟩⟩
    next =>
      rw [discard_bind, require_bind_ok_iff] at h
      obtain ⟨hcolon, h⟩ := h
      obtain ⟨value, _, hvalue, h⟩ := bind_ok_iff.1 h
      obtain ⟨rfl, rfl⟩ := pure_ok_iff.1 h
      exact .inr ⟨head, _, v, _, hlooked, hhead, hv.looked 0, .inr ⟨value, hcolon, hvalue, rfl⟩⟩

theorem objectMember_reads (hg : g.Reading) {make : Span → ObjectMember}
    (h : objectMember g c s = .ok make t) : Reads c.token s.position t.position := by
  obtain ⟨_, u, hu, hname, -⟩ | ⟨_, u, v, w, hu, hhead, hw, h⟩ := objectMember_ok h
  · have hname := identifier_reads hname
    rwa [hu.position] at hname
  · have hhead := memberHead_reads hg hhead
    rw [hu.position] at hhead
    obtain ⟨_, hfunc, -⟩ | ⟨_, hcolon, hvalue, -⟩ := h
    · have hfunc := methodRest_reads hg hfunc
      rw [hw.position] at hfunc
      exact hhead.append hfunc.balanced
    · have hone : Reads c.token w.position w.advanced.position := .single (hcolon ▸ rfl)
      have hvalue := hone.append (whole_reads hg hvalue).balanced
      rw [hw.position] at hvalue
      exact hhead.append hvalue.balanced

theorem objectLiteral_reads (hg : g.Reading) {e : Expr} (h : objectLiteral g c s = .ok e t) :
    Reads c.token s.position t.position := by
  simp only [objectLiteral, Rules.list, spanned_ok_iff, discard_bind, require_bind_ok_iff] at h
  obtain ⟨_, ⟨hopen, h⟩, -⟩ := h
  obtain ⟨_, _, hmembers, h⟩ := bind_ok_iff.1 h
  obtain ⟨-, rfl⟩ := pure_ok_iff.1 h
  obtain ⟨j, hj, hclose, ht⟩ := separated_balanced rfl
    (fun hitem => (objectMember_reads hg hitem).balanced) hmembers
  rw [ht]
  exact .brackets (p := .braceClose) rfl hopen hj hclose

/-! ### Classes -/

/-- The head of a member of a class differs from that of any member in the kind of constructors,
which are plain methods. -/
theorem classMemberHead_ok {head : MemberHead} (h : classMemberHead g c s = .ok head t) :
    ∃ first, memberHead g true c s = .ok first t ∧ head.key = first.key ∧ head.async = first.async
      ∧ head.generator = first.generator ∧ head.static = first.static
      ∧ ((head.kind = first.kind ∧ (head.key.NamesConstructor → head.static = true))
        ∨ (head.kind = .constructor ∧ first.hasModifiers = false ∧ head.key.NamesConstructor)) := by
  obtain ⟨first, u, hfirst, h⟩ := bind_ok_iff.1 h
  obtain ⟨p, hp, h⟩ := exists_run h
  split at hp
  next hkey =>
    have hnames : first.key.NamesConstructor := (Key.namesConstructor_iff _).2 (hkey ▸ rfl)
    split at hp
    next hstatic =>
      subst hp
      obtain ⟨rfl, rfl⟩ := pure_ok_iff.1 h
      exact ⟨_, hfirst, rfl, rfl, rfl, rfl, .inl ⟨rfl, fun _ => hstatic⟩⟩
    next =>
      split at hp
      · subst hp
        exact (fail_ok_iff.1 h).elim
      next hmodifiers =>
        subst hp
        obtain ⟨rfl, rfl⟩ := pure_ok_iff.1 h
        exact ⟨_, hfirst, rfl, rfl, rfl, rfl,
          .inr ⟨rfl, Bool.eq_false_iff.2 hmodifiers, hnames⟩⟩
  next hkey =>
    subst hp
    obtain ⟨rfl, rfl⟩ := pure_ok_iff.1 h
    have hnames : ¬ first.key.NamesConstructor := by
      rw [Key.namesConstructor_iff, hkey]
      exact Bool.false_ne_true
    exact ⟨_, hfirst, rfl, rfl, rfl, rfl, .inl ⟨rfl, fun h => absurd h hnames⟩⟩

theorem MemberHead.static_of_hasModifiers {head : MemberHead} (h : head.hasModifiers = false) :
    head.static = false := by
  simp only [hasModifiers, Bool.or_eq_false_iff] at h
  exact h.1.1.1

/-- A member of a class is its constructor if its key says so and it is not static. -/
theorem classMemberHead_plain {head : MemberHead} (h : classMemberHead g c s = .ok head t) :
    head.key.isPrivate = false
      ∧ (head.kind = .constructor ↔ head.static = false ∧ head.key.NamesConstructor)
      ∧ (head.kind ≠ .method → head.async = false ∧ head.generator = false) := by
  obtain ⟨first, hfirst, hkey, hasync, hgenerator, hstatic, hkind⟩ := classMemberHead_ok h
  obtain ⟨hprivate, hconstructor, hplain⟩ := memberHead_plain hfirst
  refine ⟨hkey ▸ hprivate, ?_⟩
  obtain ⟨hkind, hnames⟩ | ⟨hkind, hmodifiers, hnames⟩ := hkind
  -- The kind is that of any member, unless the key has made a plain method the constructor.
  · refine ⟨⟨fun h => absurd (hkind.symm.trans h) hconstructor, fun h => ?_⟩, ?_⟩
    · exact absurd (hnames h.2) (h.1 ▸ Bool.false_ne_true)
    · rw [hkind, hasync, hgenerator]
      exact hplain
  · simp only [MemberHead.hasModifiers, Bool.or_eq_false_iff] at hmodifiers
    obtain ⟨⟨⟨hstatic', hasync'⟩, hgenerator'⟩, -⟩ := hmodifiers
    exact ⟨⟨fun _ => ⟨hstatic.trans hstatic', hnames⟩, fun _ => hkind⟩,
      fun _ => ⟨hasync.trans hasync', hgenerator.trans hgenerator'⟩⟩

theorem classMemberHead_reads (hg : g.Reading) {head : MemberHead}
    (h : classMemberHead g c s = .ok head t) : Reads c.token s.position t.position := by
  obtain ⟨_, hfirst, -⟩ := classMemberHead_ok h
  exact memberHead_reads hg hfirst

theorem classMethodRest_ok {head : MemberHead} {make : Span → Member}
    (h : classMethodRest g head c s = .ok make t) :
    (c.token s.position).kind = .punctuator .parenthesisOpen
      ∧ ∃ func, methodRest g head.kind head.async head.generator c (s.looked 0) = .ok func t
        ∧ make = fun span => .method span head.key head.static head.kind func := by
  simp only [classMethodRest, peek_bind, ite_run] at h
  split at h
  next hopen =>
    simp only [bind_ok_iff, pure_ok_iff] at h
    obtain ⟨func, _, hfunc, rfl, rfl⟩ := h
    exact ⟨hopen, func, hfunc, rfl⟩
  next => exact (fail_ok_iff.1 h).elim

theorem classMethodRest_reads (hg : g.Reading) {head : MemberHead} {make : Span → Member}
    (h : classMethodRest g head c s = .ok make t) : Reads c.token s.position t.position := by
  obtain ⟨-, _, hfunc, -⟩ := classMethodRest_ok h
  have hfunc := methodRest_reads hg hfunc
  exact hfunc

theorem classMethod_reads (hg : g.Reading) {m : Member} (h : classMethod g c s = .ok m t) :
    Reads c.token s.position t.position := by
  simp only [classMethod, spanned_ok_iff, bind_ok_iff] at h
  obtain ⟨_, ⟨_, _, hhead, hrest⟩, -⟩ := h
  exact (classMemberHead_reads hg hhead).append (classMethodRest_reads hg hrest).balanced

theorem inInitializer_ok_iff {α : Type} {p : Parser α} {a : α} :
    inInitializer p c s = .ok a t ↔
      ∃ u, p c { s with inInitializer := true } = .ok a u
        ∧ t = { u with inInitializer := s.inInitializer } := by
  rw [inInitializer_run]
  cases p c { s with inInitializer := true } with
  | ok b u =>
    dsimp only
    constructor
    · intro h
      injection h with h₁ h₂
      exact ⟨u, by rw [h₁], h₂.symm⟩
    · rintro ⟨v, h, rfl⟩
      injection h with h₁ h₂
      rw [h₁, h₂]
  | error e u => cases e <;> simp

theorem fieldValue?_ok {v : Option Expr} (h : fieldValue? g c s = .ok v t) :
    (v = none ∧ s.SamePlace t)
      ∨ ∃ value x u, (c.token s.position).kind = .punctuator .equals
        ∧ g.expr (.statement [.punctuator .semicolon, .punctuator .braceClose]) c
            { s.advanced with inInitializer := true } = .ok (value, x) u
        ∧ v = some value ∧ t = { u with inInitializer := s.inInitializer } := by
  rw [fieldValue?, accept_bind] at h
  split at h
  next hequals =>
    simp only [if_true, bind_ok_iff, inInitializer_ok_iff, pure_ok_iff] at h
    obtain ⟨⟨value, x⟩, _, ⟨u, hvalue, rfl⟩, rfl, rfl⟩ := h
    exact .inr ⟨value, x, u, hequals, hvalue, rfl, rfl⟩
  next =>
    obtain ⟨rfl, rfl⟩ := pure_ok_iff.1 h
    exact .inl ⟨rfl, (State.SamePlace.refl s).looked 0⟩

theorem fieldValue?_balanced (hg : g.Reading) {v : Option Expr} (h : fieldValue? g c s = .ok v t) :
    Balanced c.token s.position t.position := by
  obtain ⟨-, ht⟩ | ⟨_, _, u, hequals, hvalue, -, rfl⟩ := fieldValue?_ok h
  · rw [ht.position]
    exact .nil _
  · have hone : Balanced c.token s.position s.advanced.position := .single (hequals ▸ rfl)
    have hvalue := (hg.expr hvalue).balanced
    exact hone.trans hvalue

theorem fieldEnd_balanced {x : Unit} (h : fieldEnd c s = .ok x t) :
    Balanced c.token s.position t.position := by
  rw [fieldEnd, accept_bind] at h
  split at h
  next hsemicolon =>
    obtain ⟨-, rfl⟩ := pure_ok_iff.1 h
    exact .single (hsemicolon ▸ rfl)
  next =>
    simp only [Bool.false_eq_true, if_false, peek_bind, ite_run] at h
    split at h
    · obtain ⟨-, rfl⟩ := pure_ok_iff.1 h
      exact .nil _
    · exact (fail_ok_iff.1 h).elim

/-- A field with a private name: its name is declared before its value is read. -/
theorem privateField_ok {m : Member} (h : privateField g c s = .ok m t) :
    ∃ name u v w value, privateName c s = .ok name u ∧ name.name ≠ "constructor"
      ∧ declarePrivate name c u = .ok () v ∧ fieldValue? g c v = .ok value w
      ∧ fieldEnd c w = .ok () t
      ∧ m = .field (spanSince c s.position w) (.privateName name) false value := by
  rw [privateField, position_bind] at h
  obtain ⟨name, u, hname, h⟩ := bind_ok_iff.1 h
  rw [ite_run] at h
  split at h
  next => exact (fail_ok_iff.1 h).elim
  next hne =>
    simp only [bind_ok_iff, since_bind, pure_ok_iff] at h
    obtain ⟨_, v, hdeclare, value, w, hvalue, _, _, hend, rfl, rfl⟩ := h
    exact ⟨name, u, v, w, value, hname, hne, hdeclare, hvalue, hend, rfl⟩

theorem declarePrivate_ok {name : Ident} {x : Unit} (h : declarePrivate name c s = .ok x t) :
    ∃ scopes, s.scopes.declare name.name name.span = .ok scopes
      ∧ t = { s with scopes := scopes } := by
  rw [declarePrivate, get_bind] at h
  cases hscopes : s.scopes.declare name.name name.span with
  | error e =>
    rw [hscopes] at h
    exact (fail_ok_iff.1 h).elim
  | ok scopes =>
    rw [hscopes] at h
    injection h with _ h
    exact ⟨scopes, rfl, h.symm⟩

theorem privateField_reads (hg : g.Reading) {m : Member} (h : privateField g c s = .ok m t) :
    Reads c.token s.position t.position := by
  obtain ⟨_, u, _, _, _, hname, -, hdeclare, hvalue, hend, -⟩ := privateField_ok h
  obtain ⟨_, -, rfl⟩ := declarePrivate_ok hdeclare
  have hvalue := fieldValue?_balanced hg hvalue
  exact ((privateName_reads hname).append hvalue).append (fieldEnd_balanced hend)

theorem isField_ok {head : MemberHead} {b : Bool} (h : isField head c s = .ok b t) :
    s.SamePlace t ∧ (b = true → c.options.supportsFields ∧ head.kind = .method
      ∧ head.hasModifiers = false ∧ (c.token s.position).kind ≠ .punctuator .parenthesisOpen) := by
  rw [isField, options_bind, ite_run] at h
  split at h
  next hplain =>
    rw [peek_bind, pure_ok_iff] at h
    obtain ⟨rfl, rfl⟩ := h
    refine ⟨(State.SamePlace.refl s).looked 0, fun hb => ?_⟩
    simp only [Bool.and_eq_true, decide_eq_true_eq, Bool.not_eq_true'] at hplain
    exact ⟨hplain.1.1, hplain.1.2, hplain.2, of_decide_eq_true hb⟩
  next =>
    obtain ⟨rfl, rfl⟩ := pure_ok_iff.1 h
    exact ⟨.refl s, fun hb => nomatch hb⟩

/-- An element of a class that may have fields: a semicolon, a private field, a public field, or a
method. -/
theorem classElement?_ok {m : Option Member} (h : classElement? g c s = .ok m t) :
    ((c.token s.position).kind = .punctuator .semicolon ∧ m = none ∧ t = s.advanced)
      ∨ (∃ u field, s.SamePlace u ∧ (c.token s.position).kind = .privateName
          ∧ c.options.supportsFields ∧ privateField g c u = .ok field t ∧ m = some field)
      ∨ ∃ u v w head, s.SamePlace u ∧ classMemberHead g c u = .ok head v ∧ v.SamePlace w
        ∧ ((∃ value x, (c.options.supportsFields ∧ head.kind = .method ∧ head.hasModifiers = false)
              ∧ fieldValue? g c w = .ok value x
              ∧ fieldEnd c x = .ok () t
              ∧ m = some (.field (spanSince c s.position x) head.key head.key.isComputed value))
          ∨ ∃ make, classMethodRest g head c w = .ok make t
              ∧ m = some (make (spanSince c s.position t))) := by
  rw [classElement?, accept_bind] at h
  split at h
  next hsemicolon =>
    obtain ⟨rfl, rfl⟩ := pure_ok_iff.1 h
    exact .inl ⟨hsemicolon, rfl, rfl⟩
  next =>
    have hlooked := ((State.SamePlace.refl s).looked 0).looked 0
    simp only [Bool.false_eq_true, if_false, peek_bind, options_bind, ite_run] at h
    split at h
    next hprivate =>
      simp only [Bool.and_eq_true, decide_eq_true_eq] at hprivate
      obtain ⟨field, _, hfield, h⟩ := bind_ok_iff.1 h
      obtain ⟨rfl, rfl⟩ := pure_ok_iff.1 h
      exact .inr (.inl ⟨_, field, hlooked, hprivate.1, hprivate.2, hfield, rfl⟩)
    next =>
      rw [position_bind] at h
      obtain ⟨head, v, hhead, h⟩ := bind_ok_iff.1 h
      obtain ⟨b, w, hfield, h⟩ := bind_ok_iff.1 h
      obtain ⟨hw, hb⟩ := isField_ok hfield
      rw [ite_run] at h
      split at h
      next hisField =>
        rw [report_bind] at h
        simp only [bind_ok_iff, since_bind, pure_ok_iff] at h
        obtain ⟨value, x, hvalue, _, _, hend, rfl, rfl⟩ := h
        have hw' :
            v.SamePlace { w with trace := w.trace.push (.publicField head.key.staticName?) } :=
          ⟨hw.seen, hw.position, hw.scopes, hw.inInitializer⟩
        obtain ⟨hsupports, hkind, hmodifiers, -⟩ := hb hisField
        exact .inr (.inr ⟨_, v, _, head, hlooked, hhead, hw',
          .inl ⟨value, x, ⟨hsupports, hkind, hmodifiers⟩, hvalue, hend, rfl⟩⟩)
      next =>
        simp only [bind_ok_iff, since_bind, pure_ok_iff] at h
        obtain ⟨make, _, hmake, rfl, rfl⟩ := h
        exact .inr (.inr ⟨_, v, w, head, hlooked, hhead, hw, .inr ⟨make, hmake, rfl⟩⟩)

theorem classElement?_reads (hg : g.Reading) {m : Option Member}
    (h : classElement? g c s = .ok m t) : Reads c.token s.position t.position := by
  obtain ⟨hsemicolon, -, rfl⟩ | ⟨u, _, hu, -, -, h, -⟩ | ⟨u, v, w, _, hu, hhead, hw, h⟩ :=
    classElement?_ok h
  · exact .single (hsemicolon ▸ rfl)
  · have h := privateField_reads hg h
    rwa [hu.position] at h
  · have hhead := classMemberHead_reads hg hhead
    rw [hu.position] at hhead
    obtain ⟨_, x, -, hvalue, hend, -⟩ | ⟨_, hmake, -⟩ := h
    · have hvalue := fieldValue?_balanced hg hvalue
      rw [hw.position] at hvalue
      exact (hhead.append hvalue).append (fieldEnd_balanced hend)
    · have hmake := classMethodRest_reads hg hmake
      rw [hw.position] at hmake
      exact hhead.append hmake.balanced

/-- Where classes may not have fields, an item is a semicolon or a method. -/
theorem classItem?_ok {m : Option Member} (h : classItem? g c s = .ok m t) :
    (c.options.classFields = true ∧ classElement? g c s = .ok m t)
      ∨ (c.options.classFields = false
        ∧ (((c.token s.position).kind = .punctuator .semicolon ∧ m = none ∧ t = s.advanced)
          ∨ ∃ method, classMethod g c (s.looked 0) = .ok method t ∧ m = some method)) := by
  rw [classItem?, options_bind, ite_run] at h
  split at h
  next hfields => exact .inl ⟨hfields, h⟩
  next hfields =>
    refine .inr ⟨Bool.eq_false_iff.2 hfields, ?_⟩
    rw [accept_bind] at h
    split at h
    next hsemicolon =>
      obtain ⟨rfl, rfl⟩ := pure_ok_iff.1 h
      exact .inl ⟨hsemicolon, rfl, rfl⟩
    next =>
      simp only [Bool.false_eq_true, if_false, bind_ok_iff, pure_ok_iff] at h
      obtain ⟨method, _, hmethod, rfl, rfl⟩ := h
      exact .inr ⟨method, hmethod, rfl⟩

theorem classItem?_reads (hg : g.Reading) {m : Option Member} (h : classItem? g c s = .ok m t) :
    Reads c.token s.position t.position := by
  obtain ⟨-, h⟩ | ⟨-, ⟨hsemicolon, -, rfl⟩ | ⟨_, hmethod, -⟩⟩ := classItem?_ok h
  · exact classElement?_reads hg h
  · exact .single (hsemicolon ▸ rfl)
  · have hmethod := classMethod_reads hg hmethod
    exact hmethod

theorem classItems_ok {n : Nat} {ms : List Member} (h : classItems g (n + 1) c s = .ok ms t) :
    ((c.token s.position).kind = .punctuator .braceClose ∧ ms = [] ∧ t = s.advanced)
      ∨ ∃ first u rest, classItem? g c (s.looked 0) = .ok first u
        ∧ classItems g n c u = .ok rest t ∧ ms = first.toList ++ rest := by
  rw [classItems, accept_bind] at h
  split at h
  next hclose =>
    obtain ⟨rfl, rfl⟩ := pure_ok_iff.1 h
    exact .inl ⟨hclose, rfl, rfl⟩
  next =>
    simp only [Bool.false_eq_true, if_false, bind_ok_iff, pure_ok_iff] at h
    obtain ⟨first, u, hfirst, rest, _, hrest, rfl, rfl⟩ := h
    exact .inr ⟨first, u, rest, hfirst, hrest, rfl⟩

theorem classItems_balanced (hg : g.Reading) {n : Nat} {ms : List Member}
    (h : classItems g n c s = .ok ms t) :
    ∃ j, Balanced c.token s.position j ∧ (c.token j).kind = .punctuator .braceClose
      ∧ t.position = j + 1 := by
  induction n generalizing s ms with
  | zero => cases h
  | succ n ih =>
    obtain ⟨hclose, -, rfl⟩ | ⟨_, _, _, hfirst, hrest, -⟩ := classItems_ok h
    · exact ⟨s.position, .nil _, hclose, rfl⟩
    · have hfirst := classItem?_reads hg hfirst
      obtain ⟨j, hj, hclose, ht⟩ := ih hrest
      exact ⟨j, hfirst.balanced.trans hj, hclose, ht⟩

theorem classBody_reads (hg : g.Reading) {ms : List Member} (h : classBody g c s = .ok ms t) :
    Reads c.token s.position t.position := by
  simp only [classBody, discard_bind, require_bind_ok_iff] at h
  obtain ⟨hopen, h⟩ := h
  obtain ⟨j, hj, hclose, ht⟩ := classItems_balanced hg h
  rw [ht]
  exact .brackets (p := .braceClose) rfl hopen hj hclose

/-- A class has a parent or none, and its members. -/
theorem classTail_ok {a : Option Expr × List Member} (h : classTail g c s = .ok a t) :
    ∃ u, classBody g c u = .ok a.2 t
      ∧ ((a.1 = none ∧ s.SamePlace u)
        ∨ ∃ parent, (c.token s.position).kind = .keyword .kExtends
            ∧ g.whole [.punctuator .braceOpen] c s.advanced = .ok parent u
            ∧ a.1 = some parent) := by
  rw [classTail, accept_bind] at h
  split at h
  next hextends =>
    simp only [if_true, map_ok_iff, bind_ok_iff, pure_ok_iff] at h
    obtain ⟨_, u, ⟨parent, hparent, rfl⟩, members, _, hbody, rfl, rfl⟩ := h
    exact ⟨u, hbody, .inr ⟨parent, hextends, hparent, rfl⟩⟩
  next =>
    simp only [Bool.false_eq_true, if_false, pure_bind, bind_ok_iff, pure_ok_iff] at h
    obtain ⟨members, _, hbody, rfl, rfl⟩ := h
    exact ⟨_, hbody, .inl ⟨rfl, (State.SamePlace.refl s).looked 0⟩⟩

theorem classTail_reads (hg : g.Reading) {a : Option Expr × List Member}
    (h : classTail g c s = .ok a t) : Reads c.token s.position t.position := by
  obtain ⟨u, hbody, ⟨-, hu⟩ | ⟨_, hextends, hparent, -⟩⟩ := classTail_ok h
  · have hbody := classBody_reads hg hbody
    rwa [hu.position] at hbody
  · have hone : Reads c.token s.position s.advanced.position := .single (hextends ▸ rfl)
    have hparent := whole_reads hg hparent
    exact (hone.append hparent.balanced).append (classBody_reads hg hbody).balanced

/-- The tokens of a class are those of what is read in its scope. -/
theorem inClass_position {α : Type} {p : Parser α} {a : α} (h : inClass p c s = .ok a t) :
    ∃ u v, p c u = .ok a v ∧ u.position = s.position ∧ t.position = v.position := by
  cases hfields : c.options.classFields with
  | true =>
    obtain ⟨u, _, hp, -, ht, -⟩ := inClass_ok hfields h
    exact ⟨_, u, hp, rfl, ht⟩
  | false =>
    rw [inClass_run, hfields] at h
    exact ⟨s, t, h, rfl, rfl⟩

theorem classExpression_reads (hg : g.Reading) {e : Expr} (h : classExpression g c s = .ok e t) :
    Reads c.token s.position t.position := by
  simp only [classExpression, spanned_ok_iff, discard_bind, require_bind_ok_iff] at h
  obtain ⟨_, ⟨hword, h⟩, -⟩ := h
  obtain ⟨u, v, h, hu, ht⟩ := inClass_position h
  simp only [bind_ok_iff, pure_ok_iff] at h
  obtain ⟨_, _, hname, _, _, htail, -, rfl⟩ := h
  have hone : Reads c.token s.position s.advanced.position := .single (hword ▸ rfl)
  have hname := definitionName?_balanced hname
  rw [hu] at hname
  rw [ht]
  exact (hone.append hname).append (classTail_reads hg htail).balanced

end Grammar

end EcmaScript
