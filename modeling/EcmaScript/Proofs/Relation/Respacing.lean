import EcmaScript.Proofs.Parser.Runs
import EcmaScript.Proofs.Tree.Bare
import Mathlib.Data.List.Forall2
import Mathlib.Order.Nat

namespace EcmaScript

open EcmaScript.Parser

/-!
# Two texts with the same tokens

Two runs over tokens that are the same but for their places and the spelling of names. Whatever the
first run gives, the second one gives as well, with each place that begins at a token replaced by
one that begins at the other token of the same index. In the second run more tokens may stand in
front of those that are compared; then the first of them may begin a line there.

* `Token.reading`, `Introduces` — what a token is read as, and the words in front of a name that is
  taken as it is written;
* `Respacing` — two sequences of tokens that differ in their places, and in the spelling of names;
* `Respaced` — when two values are the same but for places;
* `Respacing.Contexts`, `Respacing.States` — contexts and states of the two runs;
* `Respacing.Parallel` — two parsers that give the same, and how far they read at least;
* `Respacing.ParallelAt` — the same where the place is known at which they begin;
* `Respacing.Parallel.bind`, `Respacing.Parallel.spanned`, … — how such parsers are put together.
-/

/-! ### Spellings -/

/-- What a token is read as: its text, where a name has its escapes decoded. -/
def Token.reading (t : Token) : Option String :=
  match t.kind with
  | .identifier => Escape.decodeName? t.text
  | .privateName => Escape.decodeName? (String.ofList (t.text.toList.drop 1))
  | _ => some t.text

/-- Behind this token the name of a function or a class may stand. -/
def Introduces (token : Nat → Token) (i : Nat) : Prop :=
  (token i).kind = .keyword .kClass ∨ (token i).kind = .keyword .kFunction
    ∨ (token (i - 1)).kind = .keyword .kFunction ∧ (token i).kind = .punctuator .asterisk

instance (token : Nat → Token) (i : Nat) : Decidable (Introduces token i) :=
  inferInstanceAs (Decidable (_ ∨ _ ∨ _ ∧ _))

/-! ### Tokens at other places -/

/-- Two sequences of tokens with the same kinds and line breaks, in which the tokens stand in the
same order and are read as the same. The names of functions and classes are spelled alike as well,
and a sigil has a name behind it in both or in neither. No rule asks for a line break before the
first token. -/
structure Respacing where
  token : Nat → Token
  token' : Nat → Token
  /-- Number of tokens in front of those that are compared, in the second run. -/
  shift : Nat
  kind (i : Nat) : (token' i).kind = (token i).kind
  reading (i : Nat) : (token' i).reading = (token i).reading
  definition (i : Nat) : Introduces token i → (token' (i + 1)).text = (token (i + 1)).text
  newlineBefore {i : Nat} : 0 < i → (token' i).newlineBefore = (token i).newlineBefore
  sigil (i : Nat) : (token i).kind = .privateName →
    ((token' i).span.length ≤ 1 ↔ (token i).span.length ≤ 1)
  start_le_iff (i j : Nat) : (token' i).span.start ≤ (token' j).span.start ↔
    (token i).span.start ≤ (token j).span.start
  /-- Something that holds of every place from a token to the same one or a later one, and of what
  covers two such places; it is followed through the first run. -/
  Fits : Span → Prop := fun _ => True
  fits {i j : Nat} : i ≤ j → Fits ⟨(token i).span.start, (token j).span.stop⟩ := by intros; trivial
  fits_union {a b : Span} : Fits a → Fits b → Fits (a ∪ b) := by intros; trivial

namespace Token

variable {t t' : Token}

theorem reading_identifier (h : t.kind = .identifier) : t.reading = Escape.decodeName? t.text := by
  rw [reading, h]

theorem reading_privateName (h : t.kind = .privateName) :
    t.reading = Escape.decodeName? (String.ofList (t.text.toList.drop 1)) := by
  rw [reading, h]

/-- What is no name is read as it is written. -/
theorem reading_of_ne (h : t.kind ≠ .identifier) (h' : t.kind ≠ .privateName) :
    t.reading = some t.text := by
  unfold reading
  split
  next hkind => exact absurd hkind h
  next hkind => exact absurd hkind h'
  next => rfl

end Token

namespace Respacing

section

variable (w : Respacing) {i : Nat}

/-- What is no name has the same text. -/
theorem text (h : (w.token i).kind ≠ .identifier) (h' : (w.token i).kind ≠ .privateName) :
    (w.token' i).text = (w.token i).text := by
  have hreading := w.reading i
  rw [Token.reading_of_ne h h', Token.reading_of_ne (by rwa [w.kind]) (by rwa [w.kind])] at hreading
  exact Option.some.inj hreading

/-- An identifier or a word is decoded to the same name. -/
theorem decodeName? (h : (w.token i).kind ≠ .privateName) :
    Escape.decodeName? (w.token' i).text = Escape.decodeName? (w.token i).text := by
  by_cases hkind : (w.token i).kind = .identifier
  · have hreading := w.reading i
    rwa [Token.reading_identifier hkind, Token.reading_identifier ((w.kind i).trans hkind)]
      at hreading
  · rw [w.text hkind h]

end

/-- Two places that begin at the tokens of one index. -/
structure SameStart (w : Respacing) (a a' : Span) : Prop where
  fits : w.Fits a
  start : ∃ i, a.start = (w.token i).span.start ∧ a'.start = (w.token' i).span.start

variable {w : Respacing}

theorem sameStart_token (i : Nat) : w.SameStart (w.token i).span (w.token' i).span :=
  ⟨w.fits (Nat.le_refl i), i, rfl, rfl⟩

theorem SameStart.union {a a' b b' : Span} (h : w.SameStart a a') (h' : w.SameStart b b') :
    w.SameStart (a ∪ b) (a' ∪ b') := by
  refine ⟨w.fits_union h.fits h'.fits, ?_⟩
  obtain ⟨i, hi, hi'⟩ := h.start
  obtain ⟨j, hj, hj'⟩ := h'.start
  have horder := w.start_le_iff i j
  by_cases hij : (w.token i).span.start ≤ (w.token j).span.start
  · refine ⟨i, ?_, ?_⟩
    · rw [Span.union_start, hi, hj, Nat.min_eq_left hij]
    · rw [Span.union_start, hi', hj', Nat.min_eq_left (horder.2 hij)]
  · have hji := Nat.le_of_not_le hij
    have hji' := Nat.le_of_not_le fun h => hij (horder.1 h)
    refine ⟨j, ?_, ?_⟩
    · rw [Span.union_start, hi, hj, Nat.min_eq_right hji]
    · rw [Span.union_start, hi', hj', Nat.min_eq_right hji']

/-- Of two places, the first one begins first in both texts or in neither. -/
theorem SameStart.lt_iff {a a' b b' : Span} (h : w.SameStart a a') (h' : w.SameStart b b') :
    a'.start < b'.start ↔ a.start < b.start := by
  obtain ⟨i, hi, hi'⟩ := h.start
  obtain ⟨j, hj, hj'⟩ := h'.start
  rw [hi, hj, hi', hj', ← Nat.not_le, ← Nat.not_le, w.start_le_iff]

end Respacing

/-! ### Values with other places -/

/-- When two values are the same but for places. Places that an error may be about begin at tokens
of the same index. -/
class Respaced (α : Type) where
  rel : Respacing → α → α → Prop

namespace Respacing

/-- The two values are the same but for places. -/
abbrev Same (w : Respacing) {α : Type} [Respaced α] (a a' : α) : Prop := Respaced.rel w a a'

end Respacing

section

/-! Values without places have to be the same. -/

instance : Respaced Unit := ⟨fun _ => Eq⟩
instance : Respaced Bool := ⟨fun _ => Eq⟩
instance : Respaced Nat := ⟨fun _ => Eq⟩
instance : Respaced String := ⟨fun _ => Eq⟩
instance : Respaced Number := ⟨fun _ => Eq⟩
instance : Respaced Operator := ⟨fun _ => Eq⟩
instance : Respaced MethodKind := ⟨fun _ => Eq⟩
instance : Respaced DeclarationKind := ⟨fun _ => Eq⟩

/-! Places, tokens, names and errors keep the index of the token where they begin. -/

instance : Respaced Span := ⟨fun w => w.SameStart⟩

instance : Respaced Token := ⟨fun w t t' => ∃ i, t = w.token i ∧ t' = w.token' i⟩

instance : Respaced SyntaxError :=
  ⟨fun w e e' => e.cause = e'.cause ∧ e.token = e'.token ∧ w.SameStart e.span e'.span⟩

instance : Respaced Ident := ⟨fun w i i' => i.bare = i'.bare ∧ w.SameStart i.span i'.span⟩

instance : Respaced DirectKey := ⟨fun w k k' => k.bare = k'.bare ∧ w.SameStart k.span k'.span⟩

/-- The key of a member. -/
inductive Key.Same (w : Respacing) : Key → Key → Prop where
  | direct {k k' : DirectKey} : w.Same k k' → Same w (.direct k) (.direct k')
  | computed {e e' : Expr} : e.bare = e'.bare → Same w (.computed e) (.computed e')
  | privateName {i i' : Ident} : w.Same i i' → Same w (.privateName i) (.privateName i')

instance : Respaced Key := ⟨Key.Same⟩

/-! Expressions and functions do as well; of the other parts of trees no error is about their
place. -/

instance : Respaced Expr := ⟨fun w e e' => e.bare = e'.bare ∧ w.SameStart e.span e'.span⟩
instance : Respaced Func := ⟨fun w f f' => f.bare = f'.bare ∧ w.SameStart f.span f'.span⟩
instance : Respaced Stmt := ⟨fun _ s s' => s.bare = s'.bare⟩
instance : Respaced FuncBody := ⟨fun _ b b' => b.bare = b'.bare⟩
instance : Respaced Param := ⟨fun _ p p' => p.bare = p'.bare⟩
instance : Respaced Arg := ⟨fun _ a a' => a.bare = a'.bare⟩
instance : Respaced Element := ⟨fun _ e e' => e.bare = e'.bare⟩
instance : Respaced Member := ⟨fun _ m m' => m.bare = m'.bare⟩
instance : Respaced ObjectMember := ⟨fun _ m m' => m.bare = m'.bare⟩
instance : Respaced Declarator := ⟨fun _ d d' => d.bare = d'.bare⟩
instance : Respaced Program := ⟨fun _ p p' => p.bare = p'.bare⟩

/-! Values that are made of others. -/

variable {α β : Type} [Respaced α] [Respaced β]

instance : Respaced (Option α) := ⟨fun w => Option.Rel w.Same⟩
instance : Respaced (List α) := ⟨fun w => List.Forall₂ w.Same⟩
instance : Respaced (α × β) := ⟨fun w a a' => w.Same a.1 a'.1 ∧ w.Same a.2 a'.2⟩

/-- What a part is made into when its place is known. -/
instance : Respaced (Span → α) :=
  ⟨fun w make make' => ∀ ⦃span span' : Span⦄, w.SameStart span span' →
    w.Same (make span) (make' span')⟩

/-- What was held back. -/
inductive HeldSame (w : Respacing) : Except SyntaxError α → Except SyntaxError α → Prop where
  | ok {a a' : α} : w.Same a a' → HeldSame w (.ok a) (.ok a')
  | error {e e' : SyntaxError} : w.Same e e' → HeldSame w (.error e) (.error e')

instance : Respaced (Except SyntaxError α) := ⟨HeldSame⟩

end

/-! ### Lists of parts -/

namespace Respacing

variable {w : Respacing}

/-- Values that are the same one by one are mapped to the same list. -/
theorem map_eq_of_forall₂ {α β : Type} {f : α → β} {as as' : List α}
    (h : List.Forall₂ (fun a a' => f a = f a') as as') : as.map f = as'.map f := by
  induction h with
  | nil => rfl
  | cons hfirst _ ih => rw [List.map_cons, List.map_cons, hfirst, ih]

theorem bareList_stmt {ss ss' : List Stmt} (h : w.Same ss ss') :
    Stmt.bareList ss = Stmt.bareList ss' := by
  rw [Stmt.bareList_eq_map, Stmt.bareList_eq_map]
  exact map_eq_of_forall₂ h

theorem bareList_param {ps ps' : List Param} (h : w.Same ps ps') :
    Param.bareList ps = Param.bareList ps' := by
  rw [Param.bareList_eq_map, Param.bareList_eq_map]
  exact map_eq_of_forall₂ h

theorem bareList_arg {as as' : List Arg} (h : w.Same as as') :
    Arg.bareList as = Arg.bareList as' := by
  rw [Arg.bareList_eq_map, Arg.bareList_eq_map]
  exact map_eq_of_forall₂ h

theorem bareList_element {es es' : List Element} (h : w.Same es es') :
    Element.bareList es = Element.bareList es' := by
  rw [Element.bareList_eq_map, Element.bareList_eq_map]
  exact map_eq_of_forall₂ h

theorem bareList_member {ms ms' : List Member} (h : w.Same ms ms') :
    Member.bareList ms = Member.bareList ms' := by
  rw [Member.bareList_eq_map, Member.bareList_eq_map]
  exact map_eq_of_forall₂ h

theorem bareList_objectMember {ms ms' : List ObjectMember} (h : w.Same ms ms') :
    ObjectMember.bareList ms = ObjectMember.bareList ms' := by
  rw [ObjectMember.bareList_eq_map, ObjectMember.bareList_eq_map]
  exact map_eq_of_forall₂ h

theorem bareList_declarator {ds ds' : List Declarator} (h : w.Same ds ds') :
    Declarator.bareList ds = Declarator.bareList ds' := by
  rw [Declarator.bareList_eq_map, Declarator.bareList_eq_map]
  exact map_eq_of_forall₂ h

theorem bareOption_expr {e e' : Option Expr} (h : w.Same e e') :
    Expr.bareOption e = Expr.bareOption e' := by
  cases h with
  | none => rfl
  | some h => exact congrArg some h.1

theorem bareOption_stmt {s s' : Option Stmt} (h : w.Same s s') :
    Stmt.bareOption s = Stmt.bareOption s' := by
  cases h with
  | none => rfl
  | some h => exact congrArg some h

theorem bare_name {i i' : Option Ident} (h : w.Same i i') :
    i.map Ident.bare = i'.map Ident.bare := by
  cases h with
  | none => rfl
  | some h => exact congrArg some h.1

theorem same_name {i i' : Ident} (h : w.Same i i') : i.name = i'.name := by
  have hname : i.bare.name = i'.bare.name := by rw [h.1]
  exact hname

theorem bare_key {k k' : Key} (h : w.Same k k') : k.bare = k'.bare := by
  cases h with
  | direct h => exact congrArg Key.direct h.1
  | computed h => exact congrArg Key.computed h
  | privateName h => exact congrArg Key.privateName h.1

theorem same_token (i : Nat) : w.Same (w.token i) (w.token' i) := ⟨i, rfl, rfl⟩

/-- An error at a token. -/
theorem same_error {t t' : Token} (h : w.Same t t') (cause : SyntaxError.Cause) :
    w.Same (t.error cause) (t'.error cause) := by
  obtain ⟨i, rfl, rfl⟩ := h
  exact ⟨rfl, congrArg some (w.kind i).symm, sameStart_token i⟩

theorem same_misplaced {t t' : Token} (h : w.Same t t') (cause : SyntaxError.Cause) :
    w.Same (t.misplaced cause) (t'.misplaced cause) := by
  have herror := same_error h
  obtain ⟨i, rfl, rfl⟩ := h
  unfold Token.misplaced
  rw [w.kind]
  split
  · exact herror _
  next hkind =>
    rw [w.text (by rw [hkind]; decide) (by rw [hkind]; decide)]
    split
    · exact herror _
    · exact herror _
    · exact herror _
  · exact herror _

/-! ### Contexts and states -/

/-- Contexts of the two runs. -/
structure Contexts (w : Respacing) (c c' : Context) : Prop where
  token (i : Nat) : c.token i = w.token i
  token' (i : Nat) : c'.token (i + w.shift) = w.token' i
  options : c'.options = c.options
  names : c'.names = c.names
  checks : c'.checks = c.checks

theorem Contexts.withNames {c c' : Context} (h : w.Contexts c c') (f : NameRules → NameRules) :
    w.Contexts { c with names := f c.names } { c' with names := f c'.names } :=
  ⟨h.token, h.token', h.options, congrArg f h.names, h.checks⟩

theorem Contexts.same_start {c c' : Context} {stop : Nat} (h : w.Contexts c c') {i j : Nat}
    (hij : i ≤ j) : w.SameStart ⟨(c.token i).span.start, (c.token j).span.stop⟩
      ⟨(c'.token (i + w.shift)).span.start, stop⟩ := by
  rw [h.token, h.token, h.token']
  exact ⟨w.fits hij, i, rfl, rfl⟩

/-- A use that waits, in the two runs. -/
def SameUse (w : Respacing) (u u' : String × Span) : Prop := u.1 = u'.1 ∧ w.SameStart u.2 u'.2

/-- The scope of a class in the two runs. -/
structure SameScope (w : Respacing) (k k' : ClassScope) : Prop where
  declared : k'.declared = k.declared
  waiting : List.Forall₂ w.SameUse k.waiting k'.waiting

/-- The scopes of the classes around a place in the two runs. -/
def SameScopes (w : Respacing) (k k' : ClassScopes) : Prop :=
  List.Forall₂ w.SameScope k.scopes k'.scopes

/-- States of the two runs. What has been looked at and reported is not compared. -/
structure States (w : Respacing) (s s' : State) : Prop where
  position : s'.position = s.position + w.shift
  scopes : w.SameScopes s.scopes s'.scopes
  inInitializer : s'.inInitializer = s.inInitializer

namespace States

variable {s s' : State}

theorem looked (h : w.States s s') (n : Nat) : w.States (s.looked n) (s'.looked n) :=
  ⟨h.position, h.scopes, h.inInitializer⟩

theorem advanced (h : w.States s s') : w.States s.advanced s'.advanced :=
  ⟨(congrArg (· + 1) h.position).trans (Nat.add_right_comm ..), h.scopes, h.inInitializer⟩

theorem restore (h : w.States s s') (i : Nat) :
    w.States { s with position := i } { s' with position := i + w.shift } :=
  ⟨rfl, h.scopes, h.inInitializer⟩

theorem withInitializer (h : w.States s s') (b : Bool) :
    w.States { s with inInitializer := b } { s' with inInitializer := b } :=
  ⟨h.position, h.scopes, rfl⟩

theorem withScopes (h : w.States s s') {k k' : ClassScopes} (hk : w.SameScopes k k') :
    w.States { s with scopes := k } { s' with scopes := k' } :=
  ⟨h.position, hk, h.inInitializer⟩

theorem entered (h : w.States s s') : w.States s.entered s'.entered :=
  ⟨h.position, .cons ⟨rfl, .nil⟩ h.scopes, h.inInitializer⟩

end States

/-! ### Scopes -/

theorem SameScope.declares {k k' : ClassScope} (h : w.SameScope k k') (name : String) :
    k'.declares name = k.declares name := by
  rw [ClassScope.declares, ClassScope.declares, h.declared]

theorem SameScope.any_declares {ks ks' : List ClassScope} (h : List.Forall₂ w.SameScope ks ks')
    (name : String) :
    (ks'.any fun k => k.declares name) = ks.any fun k => k.declares name := by
  induction h with
  | nil => rfl
  | cons hscope _ ih => rw [List.any_cons, List.any_cons, hscope.declares, ih]

/-- The same uses are left when a condition on their names chooses among them. -/
theorem SameUse.filter {us us' : List (String × Span)} (h : List.Forall₂ w.SameUse us us')
    (p : String → Bool) :
    List.Forall₂ w.SameUse (us.filter fun u => p u.1) (us'.filter fun u => p u.1) := by
  induction h with
  | nil => exact .nil
  | @cons u u' _ _ hu _ ih =>
    rw [List.filter_cons, List.filter_cons, hu.1]
    split
    · exact .cons hu ih
    · exact ih

theorem SameUse.any {us us' : List (String × Span)} (h : List.Forall₂ w.SameUse us us')
    (p : String → Bool) : us'.any (fun u => p u.1) = us.any fun u => p u.1 := by
  induction h with
  | nil => rfl
  | cons hu _ ih => rw [List.any_cons, List.any_cons, hu.1, ih]

theorem SameScope.unresolved {k k' : ClassScope} (h : w.SameScope k k') :
    List.Forall₂ w.SameUse k.unresolved k'.unresolved := by
  have hfilter := SameUse.filter h.waiting fun name => !k.declares name
  have hdeclares : (fun u : String × Span => !k'.declares u.1) = fun u => !k.declares u.1 :=
    funext fun u => by rw [h.declares]
  rw [ClassScope.unresolved, ClassScope.unresolved, hdeclares]
  exact hfilter

theorem SameScope.await {k k' : ClassScope} (h : w.SameScope k k') {u u' : String × Span}
    (hu : w.SameUse u u') : w.SameScope (k.await u.1 u.2) (k'.await u'.1 u'.2) := by
  have hany := SameUse.any h.waiting (· == u.1)
  rw [ClassScope.await, ClassScope.await, ← hu.1, hany]
  split
  · exact h
  · exact ⟨h.declared, List.rel_append h.waiting (.cons ⟨rfl, hu.2⟩ .nil)⟩

theorem SameScope.declare {k k' : ClassScope} (h : w.SameScope k k') (name : String) :
    w.SameScope (k.declare name) (k'.declare name) :=
  ⟨congrArg (name :: ·) h.declared, SameUse.filter h.waiting (· != name)⟩

theorem SameScope.foldl_await {us us' : List (String × Span)} (hus : List.Forall₂ w.SameUse us us')
    {k k' : ClassScope} (h : w.SameScope k k') :
    w.SameScope (us.foldl (fun o u => o.await u.1 u.2) k)
      (us'.foldl (fun o u => o.await u.1 u.2) k') := by
  induction hus generalizing k k' with
  | nil => exact h
  | cons hu _ ih => exact ih (h.await hu)

/-- The use that starts first has the same index in both texts. -/
theorem SameUse.earliest? {us us' : List (String × Span)} (h : List.Forall₂ w.SameUse us us') :
    Option.Rel w.SameStart (EcmaScript.earliest? us) (EcmaScript.earliest? us') := by
  induction h with
  | nil => exact .none
  | @cons u u' _ _ hu _ ih =>
    rw [EcmaScript.earliest?, EcmaScript.earliest?]
    generalize EcmaScript.earliest? _ = first at ih ⊢
    generalize EcmaScript.earliest? _ = first' at ih ⊢
    cases ih with
    | none => exact .some hu.2
    | @some other other' hother =>
      have hlt := hother.lt_iff hu.2
      dsimp only
      by_cases hfirst : other.start < u.2.start
      · rw [if_pos hfirst, if_pos (hlt.2 hfirst)]
        exact .some hother
      · rw [if_neg hfirst, if_neg fun h => hfirst (hlt.1 h)]
        exact .some hu.2

theorem same_nameError {span span' : Span} (h : w.SameStart span span')
    (cause : SyntaxError.Cause) :
    w.Same (ClassScopes.nameError cause span) (ClassScopes.nameError cause span') :=
  ⟨rfl, rfl, h⟩

theorem SameScopes.exit {k k' : ClassScopes} (h : w.SameScopes k k') :
    w.Same k.exit.1 k'.exit.1 ∧ w.SameScopes k.exit.2 k'.exit.2 := by
  obtain ⟨scopes⟩ := k
  obtain ⟨scopes'⟩ := k'
  cases h with
  | nil => exact ⟨.ok rfl, .nil⟩
  | cons hlast hrest =>
    cases hrest with
    | nil =>
      have hearliest := SameUse.earliest? hlast.unresolved
      simp only [ClassScopes.exit]
      generalize EcmaScript.earliest? _ = first at hearliest ⊢
      generalize EcmaScript.earliest? _ = first' at hearliest ⊢
      cases hearliest with
      | none => exact ⟨.ok rfl, .nil⟩
      | some hstart => exact ⟨.error (same_nameError hstart _), .nil⟩
    | cons houter hrest =>
      refine ⟨.ok hlast.unresolved.length_eq, .cons ?_ hrest⟩
      exact SameScope.foldl_await hlast.unresolved houter

/-- Scopes that could be changed, or the error why not. -/
inductive SameChange (w : Respacing) :
    Except SyntaxError ClassScopes → Except SyntaxError ClassScopes → Prop where
  | ok {k k' : ClassScopes} : w.SameScopes k k' → SameChange w (.ok k) (.ok k')
  | error {e e' : SyntaxError} : w.Same e e' → SameChange w (.error e) (.error e')

theorem SameScopes.declare {k k' : ClassScopes} (h : w.SameScopes k k') {i i' : Ident}
    (hi : w.Same i i') : w.SameChange (k.declare i.name i.span) (k'.declare i'.name i'.span) := by
  obtain ⟨scopes⟩ := k
  obtain ⟨scopes'⟩ := k'
  have hname := same_name hi
  cases h with
  | nil => exact .ok .nil
  | cons hinner hrest =>
    rw [ClassScopes.declare, ClassScopes.declare, ← hname]
    dsimp only
    rw [hinner.declares]
    split
    · exact .error (same_nameError hi.2 _)
    · exact .ok (.cons (hinner.declare _) hrest)

theorem SameScopes.use {k k' : ClassScopes} (h : w.SameScopes k k') {i i' : Ident}
    (hi : w.Same i i') : w.SameChange (k.use i.name i.span) (k'.use i'.name i'.span) := by
  obtain ⟨scopes⟩ := k
  obtain ⟨scopes'⟩ := k'
  have hname := same_name hi
  have hany : (scopes'.any fun scope => scope.declares i.name)
      = scopes.any fun scope => scope.declares i.name := SameScope.any_declares h i.name
  rw [ClassScopes.use, ClassScopes.use, ← hname, hany]
  split
  · exact .ok h
  · cases h with
    | nil => exact .error (same_nameError hi.2 _)
    | cons hinner hrest =>
      have huse : w.SameUse (i.name, i.span) (i.name, i'.span) := ⟨rfl, hi.2⟩
      exact .ok (.cons (hinner.await huse) hrest)

/-! ### Runs -/

/-- The two runs come to the same end, behind token `i` or later where they succeed. -/
inductive Outcome (w : Respacing) {α : Type} [Respaced α] (i : Nat) :
    EStateM.Result Failure State α → EStateM.Result Failure State α → Prop where
  | ok {a a' : α} {t t' : State} : w.Same a a' → w.States t t' → i ≤ t.position →
    Outcome w i (.ok a t) (.ok a' t')
  | error {e e' : SyntaxError} {t t' : State} : w.Same e e' → w.States t t' →
    Outcome w i (.error (.error e) t) (.error (.error e') t')
  | exhausted (t t' : State) : Outcome w i (.error .exhausted t) (.error .exhausted t')

/-- Begun at token `i` or later, the two parsers come to the same end, at token `j` or later. -/
def Parallel (w : Respacing) {α : Type} [Respaced α] (i j : Nat) (p p' : Parser α) : Prop :=
  ∀ ⦃c c' : Context⦄, w.Contexts c c' → ∀ ⦃s s' : State⦄, w.States s s' → i ≤ s.position →
    w.Outcome j (p c s) (p' c' s')

/-- The same of parsers that begin at token `i`. -/
def ParallelAt (w : Respacing) {α : Type} [Respaced α] (i j : Nat) (p p' : Parser α) : Prop :=
  ∀ ⦃c c' : Context⦄, w.Contexts c c' → ∀ ⦃s s' : State⦄, w.States s s' → s.position = i →
    w.Outcome j (p c s) (p' c' s')

section

variable {α β : Type} [Respaced α] [Respaced β] {i j k : Nat}

theorem Outcome.mono {r r' : EStateM.Result Failure State α} (h : w.Outcome j r r') (hk : k ≤ j) :
    w.Outcome k r r' := by
  cases h with
  | ok ha ht hj => exact .ok ha ht (hk.trans hj)
  | error he ht => exact .error he ht
  | exhausted t t' => exact .exhausted t t'

theorem Outcome.bind {c c' : Context} {s s' : State} {p p' : Parser α} {f f' : α → Parser β}
    (hp : w.Outcome j (p c s) (p' c' s'))
    (hf : ∀ {a a' u u'}, p c s = .ok a u → w.Same a a' → w.States u u' → j ≤ u.position →
      w.Outcome k (f a c u) (f' a' c' u')) :
    w.Outcome k ((p >>= f) c s) ((p' >>= f') c' s') := by
  rw [bind_apply, bind_apply]
  generalize hrun : p c s = r at hp
  generalize p' c' s' = r' at hp
  cases hp with
  | ok ha hu hj => exact hf hrun ha hu hj
  | error he hu => exact .error he hu
  | exhausted u u' => exact .exhausted u u'

end

namespace Parallel

variable {α β : Type} [Respaced α] [Respaced β] {i j k : Nat} {p p' : Parser α}

theorem mono (h : w.Parallel i j p p') (hk : k ≤ j) : w.Parallel i k p p' :=
  fun _ _ hc _ _ hs hi => (h hc hs hi).mono hk

theorem pure {a a' : α} (ha : w.Same a a') (hj : j ≤ i) :
    w.Parallel i j (Pure.pure a : Parser α) (Pure.pure a') :=
  fun _ _ _ _ _ hs hi => .ok ha hs (hj.trans hi)

theorem fail {e e' : SyntaxError} (he : w.Same e e') :
    w.Parallel i j (Parser.fail e : Parser α) (Parser.fail e') :=
  fun _ _ _ _ _ hs _ => .error he hs

theorem exhausted : w.Parallel i j (Parser.exhausted : Parser α) Parser.exhausted :=
  fun _ _ _ _ _ _ _ => .exhausted _ _

theorem bind {f f' : α → Parser β} (hp : w.Parallel i j p p')
    (hf : ∀ a a', w.Same a a' → w.Parallel j k (f a) (f' a')) :
    w.Parallel i k (p >>= f) (p' >>= f') :=
  fun _ _ hc _ _ hs hi => (hp hc hs hi).bind fun _ ha hu hj => hf _ _ ha hc hu hj

theorem map {f f' : α → β} (hp : w.Parallel i j p p')
    (hf : ∀ a a', w.Same a a' → w.Same (f a) (f' a')) : w.Parallel i j (f <$> p) (f' <$> p') := by
  rw [map_eq_bind, map_eq_bind]
  exact hp.bind fun a a' ha => pure (hf a a' ha) (Nat.le_refl j)

theorem discard (hp : w.Parallel i j p p') :
    w.Parallel i j (Functor.discard p : Parser PUnit) (Functor.discard p') := by
  rw [discard_eq_bind, discard_eq_bind]
  exact hp.bind fun _ _ _ => pure (α := Unit) rfl (Nat.le_refl j)

theorem ite {cond : Prop} [Decidable cond] {q q' : Parser α} (hp : cond → w.Parallel i j p p')
    (hq : ¬ cond → w.Parallel i j q q') :
    w.Parallel i j (if cond then p else q) (if cond then p' else q') := by
  by_cases h : cond
  · rw [if_pos h, if_pos h]
    exact hp h
  · rw [if_neg h, if_neg h]
    exact hq h

/-! ### Tokens -/

/-- The token that is looked at has an index which is known to be large enough. -/
theorem lookBind (n : Nat) {f f' : Token → Parser β}
    (hf : ∀ m, i + n ≤ m → w.Parallel i k (f (w.token m)) (f' (w.token' m))) :
    w.Parallel i k (Parser.look n >>= f) (Parser.look n >>= f') := by
  intro c c' hc s s' hs hi
  rw [look_bind, look_bind, hs.position, Nat.add_right_comm, hc.token, hc.token']
  exact hf _ (Nat.add_le_add_right hi n) hc (hs.looked n) hi

theorem peekBind {f f' : Token → Parser β}
    (hf : ∀ m, i ≤ m → w.Parallel i k (f (w.token m)) (f' (w.token' m))) :
    w.Parallel i k (Parser.peek >>= f) (Parser.peek >>= f') := lookBind 0 hf

theorem nextBind {f f' : Token → Parser β}
    (hf : ∀ m, i ≤ m → w.Parallel (i + 1) k (f (w.token m)) (f' (w.token' m))) :
    w.Parallel i k (Parser.next >>= f) (Parser.next >>= f') := by
  intro c c' hc s s' hs hi
  rw [next_bind, next_bind, hs.position, hc.token, hc.token']
  exact hf _ hi hc hs.advanced (Nat.succ_le_succ hi)

theorem look (n : Nat) : w.Parallel i i (Parser.look n) (Parser.look n) := by
  rw [← bind_pure (Parser.look n)]
  exact lookBind n fun m _ => pure (same_token m) (Nat.le_refl i)

theorem peek : w.Parallel i i Parser.peek Parser.peek := look 0

theorem next : w.Parallel i (i + 1) Parser.next Parser.next := by
  rw [← bind_pure Parser.next]
  exact nextBind fun m _ => pure (same_token m) (Nat.le_refl _)

/-- A condition that does not ask for the places of tokens. -/
def Blind (w : Respacing) (cond : Token → Bool) : Prop := ∀ n, cond (w.token' n) = cond (w.token n)

theorem acceptIf? {cond : Token → Bool} (hcond : Blind w cond) :
    w.Parallel i i (Parser.acceptIf? cond) (Parser.acceptIf? cond) := by
  intro c c' hc s s' hs hi
  rw [acceptIf?_run, acceptIf?_run, hs.position, hc.token, hc.token', hcond]
  split
  · exact .ok (.some (same_token _)) hs.advanced (hi.trans (Nat.le_succ _))
  · exact .ok .none (hs.looked 0) hi

theorem accept (kind : TokenKind) : w.Parallel i i (Parser.accept kind) (Parser.accept kind) := by
  have hcond : Blind w fun t => decide (t.kind = kind) := fun n =>
    decide_eq_decide.2 (by rw [w.kind])
  refine (acceptIf? hcond).bind fun found found' hfound => pure ?_ (Nat.le_refl i)
  cases hfound with
  | none => rfl
  | some _ => rfl

theorem require (kind : TokenKind) :
    w.Parallel i (i + 1) (Parser.require kind) (Parser.require kind) := by
  refine next.bind fun t t' ht => ?_
  have hmisplaced := same_misplaced ht (.requiredToken kind)
  obtain ⟨n, rfl, rfl⟩ := ht
  rw [w.kind]
  exact ite (fun _ => pure (same_token n) (Nat.le_refl _)) fun _ => fail hmisplaced

/-- A token that is required and not looked at. -/
theorem drop (kind : TokenKind) {f f' : PUnit → Parser β}
    (hf : w.Parallel (i + 1) k (f ⟨⟩) (f' ⟨⟩)) :
    w.Parallel i k (Functor.discard (Parser.require kind) >>= f)
      (Functor.discard (Parser.require kind) >>= f') := by
  rw [discard_bind, discard_bind]
  exact (require kind).bind fun _ _ _ => hf

theorem position {f f' : Nat → Parser β}
    (hf : ∀ n, i ≤ n → w.Parallel n k (f n) (f' (n + w.shift))) :
    w.Parallel i k (Parser.position >>= f) (Parser.position >>= f') := by
  intro c c' hc s s' hs hi
  rw [position_bind, position_bind, hs.position]
  exact hf _ hi hc hs (Nat.le_refl _)

theorem restore (n : Nat) : w.Parallel i n (Parser.restore n) (Parser.restore (n + w.shift)) :=
  fun _ _ _ _ _ hs _ => .ok rfl (hs.restore n) (Nat.le_refl n)

/-- A place that begins at a token which has been read. -/
theorem since {start : Nat} (hstart : start < i) :
    w.Parallel i i (Parser.since start) (Parser.since (start + w.shift)) := by
  intro c c' hc s s' hs hi
  have hlt := hstart.trans_le hi
  rw [since_run, since_run, spanSince, spanSince, if_pos hlt,
    if_pos (by rw [hs.position]; exact Nat.add_lt_add_right hlt _)]
  exact .ok (hc.same_start (Nat.le_sub_one_of_lt hlt)) hs hi

theorem spanned {p p' : Parser (Span → α)}
    (hp : ∀ n, i ≤ n → w.Parallel n (n + 1) p p') :
    w.Parallel i (i + 1) (Parser.spanned p) (Parser.spanned p') := by
  refine position fun n hn => (hp n hn).bind fun make make' hmake => ?_
  refine (since (Nat.lt_succ_self n)).bind fun span span' hspan => ?_
  exact pure (hmake hspan) (Nat.succ_le_succ hn)

/-! ### Names, classes and initializers -/

theorem nameRules {f f' : NameRules → Parser β}
    (hf : ∀ rules, w.Parallel i k (f rules) (f' rules)) :
    w.Parallel i k (Parser.nameRules >>= f) (Parser.nameRules >>= f') := by
  intro c c' hc s s' hs hi
  rw [nameRules_bind, nameRules_bind, hc.names]
  exact hf _ hc hs hi

theorem options {f f' : Options → Parser β} (hf : ∀ o, w.Parallel i k (f o) (f' o)) :
    w.Parallel i k (Parser.options >>= f) (Parser.options >>= f') := by
  intro c c' hc s s' hs hi
  rw [options_bind, options_bind, hc.options]
  exact hf _ hc hs hi

theorem withNames (f : NameRules → NameRules) (hp : w.Parallel i j p p') :
    w.Parallel i j (Parser.withNames f p) (Parser.withNames f p') :=
  fun _ _ hc _ _ hs hi => hp (hc.withNames f) hs hi

/-- What is reported is not compared. -/
theorem report (entry entry' : TraceEntry) :
    w.Parallel i i (Parser.report entry) (Parser.report entry') :=
  fun _ _ _ _ _ hs hi => .ok rfl ⟨hs.position, hs.scopes, hs.inInitializer⟩ hi

/-- Where an attempt fails, nothing is known of the position. -/
theorem attempt (hp : w.Parallel i j p p') :
    w.Parallel i 0 (Parser.attempt p) (Parser.attempt p') := by
  intro c c' hc s s' hs hi
  have h := hp hc hs hi
  rw [Parser.attempt, Parser.attempt]
  generalize p c s = r at h
  generalize p' c' s' = r' at h
  cases h with
  | ok ha ht _ => exact .ok (.ok ha) ht (Nat.zero_le _)
  | error he ht => exact .ok (.error he) ht (Nat.zero_le _)
  | exhausted t t' => exact .exhausted t t'

theorem inInitializer (hp : w.Parallel i j p p') :
    w.Parallel i j (Parser.inInitializer p) (Parser.inInitializer p') := by
  intro c c' hc s s' hs hi
  have h := hp hc (hs.withInitializer true) hi
  rw [inInitializer_run, inInitializer_run]
  generalize p c _ = r at h
  generalize p' c' _ = r' at h
  rw [hs.inInitializer]
  cases h with
  | ok ha ht hj => exact .ok ha (ht.withInitializer _) hj
  | error he ht => exact .error he (ht.withInitializer _)
  | exhausted t t' => exact .exhausted t t'

theorem checkArguments {t t' : Token} (ht : w.Same t t') (name : String) :
    w.Parallel i i (Parser.checkArguments t name) (Parser.checkArguments t' name) := by
  intro c c' hc s s' hs hi
  simp only [Parser.checkArguments, read_bind, get_bind, ite_run, hc.checks, hs.inInitializer]
  split
  · exact .error (same_error ht _) hs
  · exact .ok rfl hs hi

theorem checkSuper {t t' : Token} (ht : w.Same t t') :
    w.Parallel i i (Parser.checkSuper t) (Parser.checkSuper t') := by
  intro c c' hc s s' hs hi
  simp only [Parser.checkSuper, read_bind, get_bind, ite_run, hc.checks, hs.inInitializer]
  split
  · exact .error (same_error ht _) hs
  · exact .ok rfl hs hi

theorem declarePrivate {n n' : Ident} (hn : w.Same n n') :
    w.Parallel i i (Parser.declarePrivate n) (Parser.declarePrivate n') := by
  intro c c' hc s s' hs hi
  have h := hs.scopes.declare hn
  rw [Parser.declarePrivate, Parser.declarePrivate, get_bind, get_bind]
  generalize s.scopes.declare n.name n.span = r at h ⊢
  generalize s'.scopes.declare n'.name n'.span = r' at h ⊢
  cases h with
  | ok hk => exact .ok rfl (hs.withScopes hk) hi
  | error he => exact .error he hs

theorem usePrivate {n n' : Ident} (hn : w.Same n n') :
    w.Parallel i i (Parser.usePrivate n) (Parser.usePrivate n') := by
  intro c c' hc s s' hs hi
  have h := hs.scopes.use hn
  rw [Parser.usePrivate, Parser.usePrivate, get_bind, get_bind]
  generalize s.scopes.use n.name n.span = r at h ⊢
  generalize s'.scopes.use n'.name n'.span = r' at h ⊢
  cases h with
  | ok hk => exact .ok rfl (hs.withScopes hk) hi
  | error he =>
    simp only [read_bind, ite_run, hc.checks]
    split
    · exact .error he hs
    · exact .ok rfl hs hi

/-- The end of a class gives the same in both runs. -/
theorem endClass {found found' : Except SyntaxError α} {c c' : Context} {s s' : State}
    (hc : w.Contexts c c') (hs : w.States s s') (h : w.Same found found')
    (hi : found.isOk → i ≤ s.position) :
    w.Outcome i (Parser.endClass found c s) (Parser.endClass found' c' s') := by
  have hexit := hs.scopes.exit
  have hcount : w.Same (exitCount c s) (exitCount c' s') := by
    rw [exitCount, exitCount, hc.checks]
    split
    · exact hexit.1
    · generalize s.scopes.exit.1 = r at hexit ⊢
      generalize s'.scopes.exit.1 = r' at hexit ⊢
      cases hexit.1 with
      | ok h => exact .ok h
      | error _ => exact .ok rfl
  have hstates (trace trace' : Array TraceEntry) :
      w.States { s with scopes := s.scopes.exit.2, trace := trace }
        { s' with scopes := s'.scopes.exit.2, trace := trace' } :=
    ⟨hs.position, hexit.2, hs.inInitializer⟩
  rw [endClass_run, endClass_run]
  generalize exitCount c s = count at hcount
  generalize exitCount c' s' = count' at hcount
  cases h with
  | ok ha =>
    cases hcount with
    | ok _ => exact .ok ha (hstates _ _) (hi rfl)
    | error he => exact .error he (hstates _ _)
  | error he =>
    cases hcount with
    | ok _ => exact .error he (hstates _ _)
    | error _ => exact .error he (hstates _ _)

end Parallel

/-! ### Parsers that begin at a known token -/

theorem Parallel.at {α : Type} [Respaced α] {i j : Nat} {p p' : Parser α}
    (h : w.Parallel i j p p') : w.ParallelAt i j p p' :=
  fun _ _ hc _ _ hs hi => h hc hs hi.ge

/-- A parser may be looked at from each token by itself where it can begin. -/
theorem Parallel.ofAt {α : Type} [Respaced α] {i j : Nat} {p p' : Parser α}
    (h : ∀ n, i ≤ n → w.ParallelAt n j p p') : w.Parallel i j p p' :=
  fun _ _ hc _ _ hs hi => h _ hi hc hs rfl

namespace ParallelAt

variable {α β : Type} [Respaced α] [Respaced β] {i j k : Nat} {p p' : Parser α}

theorem bind {f f' : α → Parser β} (hp : w.ParallelAt i j p p')
    (hf : ∀ a a', w.Same a a' → w.Parallel j k (f a) (f' a')) :
    w.ParallelAt i k (p >>= f) (p' >>= f') :=
  fun _ _ hc _ _ hs hi => (hp hc hs hi).bind fun _ ha hu hj => hf _ _ ha hc hu hj

theorem peek {f f' : Token → Parser β} (hf : w.ParallelAt i k (f (w.token i)) (f' (w.token' i))) :
    w.ParallelAt i k (Parser.peek >>= f) (Parser.peek >>= f') := by
  intro c c' hc s s' hs hi
  rw [peek_bind, peek_bind, hs.position, hi, hc.token, hc.token']
  exact hf hc (hs.looked 0) hi

theorem next {f f' : Token → Parser β}
    (hf : w.ParallelAt (i + 1) k (f (w.token i)) (f' (w.token' i))) :
    w.ParallelAt i k (Parser.next >>= f) (Parser.next >>= f') := by
  intro c c' hc s s' hs hi
  rw [next_bind, next_bind, hs.position, hi, hc.token, hc.token']
  exact hf hc hs.advanced (congrArg (· + 1) hi)

/-- A token of a known kind. -/
theorem require {kind : TokenKind} {f f' : Token → Parser β}
    (hf : (w.token i).kind = kind → w.ParallelAt (i + 1) k (f (w.token i)) (f' (w.token' i))) :
    w.ParallelAt i k (Parser.require kind >>= f) (Parser.require kind >>= f') := by
  intro c c' hc s s' hs hi
  rw [Parser.require, bind_assoc, bind_assoc]
  refine next ?_ hc hs hi
  have hmisplaced := same_misplaced (same_token (w := w) i) (.requiredToken kind)
  rw [w.kind]
  by_cases hkind : (w.token i).kind = kind
  · rw [if_pos hkind, if_pos hkind, pure_bind, pure_bind]
    exact hf hkind
  · rw [if_neg hkind, if_neg hkind]
    exact fun _ _ _ _ _ hs _ => .error hmisplaced hs

/-- A token of a known kind that is not looked at. -/
theorem drop {kind : TokenKind} {f f' : PUnit → Parser β}
    (hf : (w.token i).kind = kind → w.ParallelAt (i + 1) k (f ⟨⟩) (f' ⟨⟩)) :
    w.ParallelAt i k (Functor.discard (Parser.require kind) >>= f)
      (Functor.discard (Parser.require kind) >>= f') := by
  rw [discard_bind, discard_bind]
  exact require hf

/-- A token that may be missing, and is looked at. -/
theorem acceptIf? {cond : Token → Bool} (hcond : Parallel.Blind w cond)
    {f f' : Option Token → Parser β}
    (hfound : w.ParallelAt (i + 1) k (f (some (w.token i))) (f' (some (w.token' i))))
    (hmissing : w.ParallelAt i k (f none) (f' none)) :
    w.ParallelAt i k (Parser.acceptIf? cond >>= f) (Parser.acceptIf? cond >>= f') := by
  intro c c' hc s s' hs hi
  rw [bind_apply, bind_apply, acceptIf?_run, acceptIf?_run, hs.position, hi, hc.token, hc.token',
    hcond]
  by_cases h : cond (w.token i) = true
  · rw [if_pos h, if_pos h]
    exact hfound hc hs.advanced (congrArg (· + 1) hi)
  · rw [if_neg h, if_neg h]
    exact hmissing hc (hs.looked 0) hi

/-- A token that may be missing. -/
theorem accept {kind : TokenKind} {f f' : Bool → Parser β}
    (hfound : (w.token i).kind = kind → w.ParallelAt (i + 1) k (f true) (f' true))
    (hmissing : w.ParallelAt i k (f false) (f' false)) :
    w.ParallelAt i k (Parser.accept kind >>= f) (Parser.accept kind >>= f') := by
  intro c c' hc s s' hs hi
  rw [accept_bind, accept_bind, hs.position, hi, hc.token, hc.token', w.kind]
  split
  next hkind => exact hfound hkind hc hs.advanced (congrArg (· + 1) hi)
  next => exact hmissing hc (hs.looked 0) hi

theorem nameRules {f f' : NameRules → Parser β}
    (hf : ∀ rules, w.ParallelAt i k (f rules) (f' rules)) :
    w.ParallelAt i k (Parser.nameRules >>= f) (Parser.nameRules >>= f') := by
  intro c c' hc s s' hs hi
  rw [nameRules_bind, nameRules_bind, hc.names]
  exact hf _ hc hs hi

theorem withNames (f : NameRules → NameRules) (hp : w.ParallelAt i j p p') :
    w.ParallelAt i j (Parser.withNames f p) (Parser.withNames f p') :=
  fun _ _ hc _ _ hs hi => hp (hc.withNames f) hs hi

theorem inClass (hp : w.ParallelAt i j p p') :
    w.ParallelAt i j (Parser.inClass p) (Parser.inClass p') := by
  intro c c' hc s s' hs hi
  rw [inClass_run, inClass_run, hc.options]
  split
  · have h := hp hc hs.entered hi
    generalize p c _ = r at h
    generalize p' c' _ = r' at h
    cases h with
    | ok ha ht hj => exact Parallel.endClass hc ht (.ok ha) fun _ => hj
    | error he ht => exact Parallel.endClass hc ht (.error he) nofun
    | exhausted t t' => exact .exhausted t t'
  · exact hp hc hs hi

end ParallelAt

end Respacing

end EcmaScript
