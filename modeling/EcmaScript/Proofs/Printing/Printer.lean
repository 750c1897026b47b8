import EcmaScript.Proofs.Printing.Words
import EcmaScript.Proofs.Tree.Bare

namespace EcmaScript

/-!
# Printing with few parentheses

An expression is printed as a line of words. A part of it stands in parentheses exactly where its
own operator binds less tightly than its position needs.

* `Expr.words`, `Expr.print` — an expression as words, and as a text;
* `Expr.fits` — whether an expression can stand in a position as it is;
* `Expr.Plain` — the expressions built from plain names and operators alone;
* `Expr.Plain.printable` — the words of a plain expression are separate, and no arrow is among them;
* `Expr.Plain.precedence_lt_last`, `Expr.Plain.le_last` — how tightly the last operand of a part is
  bound, by the position of the part.
-/

/-! ### Operators as words -/

theorem TokenKind.mem_all (kind : TokenKind) : kind ∈ all := by
  cases kind with
  | keyword k => simp [all, k.mem_all]
  | punctuator p => simp [all, p.mem_all]
  | textClass c => cases c <;> decide
  | _ => simp [all]

namespace Operator

/-- The kind of token that is the operator in a table of operators. -/
def kindIn (table : TokenKind → Option Operator) (op : Operator) : TokenKind :=
  (TokenKind.all.find? fun kind => table kind = some op).getD .invalid

/-- The operator as the word before its operand. -/
def leadingWord (op : Operator) : Word := .sign (op.kindIn leading?)

/-- The operator as the word between its operands. -/
def followingWord (op : Operator) : Word := .sign (op.kindIn following?)

/-- The operator as the word behind its operand. -/
def updateWord (op : Operator) : Word := .sign (op.kindIn update?)

/-- The operators before an operand, but for those that are names outside of functions. -/
def IsPrefix (op : Operator) : Prop := (∃ kind, leading? kind = some op) ∧ op ≠ await ∧ op ≠ yield

/-- The operators between two operands, commas and assignments included. -/
def IsBinary (op : Operator) : Prop :=
  (∃ kind, following? kind = some op)
    ∧ op ∉ [call, computedMemberAccess, conditional, memberAccess]

/-- The operators behind an operand. -/
def IsUpdate (op : Operator) : Prop := ∃ kind, update? kind = some op

/-- The least precedence that an operand before the operator needs: a right-associative operator
wants a tighter one. -/
def leftPrecedence (op : Operator) : Nat :=
  match op.associativity with
  | .left => op.precedence
  | .right => op.precedence + 1

theorem table_kindIn {table : TokenKind → Option Operator} {op : Operator}
    (h : ∃ kind, table kind = some op) : table (op.kindIn table) = some op := by
  obtain ⟨kind, hkind⟩ := h
  have hsome : (TokenKind.all.find? fun kind => table kind = some op).isSome := by
    rw [List.find?_isSome]
    exact ⟨kind, kind.mem_all, decide_eq_true hkind⟩
  obtain ⟨found, hfound⟩ := Option.isSome_iff_exists.1 hsome
  have htable := List.find?_some hfound
  rw [kindIn, hfound, Option.getD_some]
  exact of_decide_eq_true htable

/-- Operators of one precedence associate on the same side. -/
theorem associativity_eq {op op' : Operator} (h : op.precedence = op'.precedence) :
    op.associativity = op'.associativity := by
  have hlevel (op : Operator) : op.associativity
      = if op.precedence ∈ [2, 3, 4, 15, 16, 18] then .right else .left := by
    cases op <;> rfl
  rw [hlevel op, hlevel op', h]

/-- An operator that stands left of another one, unparenthesised, holds its right operand more
tightly than the other one pulls. -/
theorem precedence_lt_operandPrecedence {op op' : Operator}
    (h : op.leftPrecedence ≤ op'.precedence) : op.precedence < op'.operandPrecedence := by
  rw [leftPrecedence] at h
  rw [operandPrecedence]
  cases hop : op.associativity with
  | left =>
    rw [hop] at h
    cases hop' : op'.associativity with
    | left => exact Nat.lt_succ_of_le h
    | right =>
      refine Nat.lt_of_le_of_ne h fun heq => ?_
      rw [associativity_eq heq, hop'] at hop
      cases hop
  | right =>
    rw [hop] at h
    cases op'.associativity with
    | left => exact Nat.lt_of_lt_of_le h (Nat.le_succ _)
    | right => exact h

theorem precedence_le_leftPrecedence (op : Operator) : op.precedence ≤ op.leftPrecedence := by
  rw [leftPrecedence]
  split
  · exact Nat.le_refl _
  · exact Nat.le_succ _

theorem precedence_le_operandPrecedence (op : Operator) : op.precedence ≤ op.operandPrecedence := by
  rw [operandPrecedence]
  split
  · exact Nat.le_succ _
  · exact Nat.le_refl _

/-- Only the conditional asks for its own precedence on its right. -/
theorem operandPrecedence_ne {op : Operator} (h : op ≠ conditional) :
    op.operandPrecedence ≠ conditional.precedence := by
  revert h
  cases op <;> decide

theorem ne_conditionalAlternate {op : Operator} {kind : TokenKind}
    (h : update? kind = some op ∨ following? kind = some op) : op ≠ conditionalAlternate := by
  rintro rfl
  obtain h | h := h
  · unfold update? at h
    split at h <;> cases h
  · unfold following? at h
    split at h <;> cases h

/-- Operators before an operand are right-associative. -/
theorem IsPrefix.operandPrecedence {op : Operator} (h : op.IsPrefix) :
    op.operandPrecedence = op.precedence := by
  obtain ⟨⟨kind, h⟩, -⟩ := h
  unfold leading? at h
  split at h <;> cases h <;> rfl

/-- Operators behind an operand are left-associative, and no assignments. -/
theorem IsUpdate.left {op : Operator} (h : op.IsUpdate) :
    op.leftPrecedence = op.precedence ∧ op.isAssignment = false := by
  obtain ⟨kind, h⟩ := h
  unfold update? at h
  split at h <;> cases h <;> exact ⟨rfl, rfl⟩

theorem IsPrefix.ne_conditional {op : Operator} (h : op.IsPrefix) : op ≠ conditional := by
  rintro rfl
  obtain ⟨⟨kind, h⟩, -⟩ := h
  unfold leading? at h
  split at h <;> cases h

theorem IsBinary.ne_conditional {op : Operator} (h : op.IsBinary) : op ≠ conditional := by
  rintro rfl
  exact h.2 (by decide)

theorem precedence_pos (op : Operator) : 0 < op.precedence := by
  cases op <;> decide

end Operator

/-! ### Expressions as words -/

/-- The operator that an expression is built around. -/
def Expr.operator? : Expr → Option Operator
  | .binary _ op _ _ => some op
  | .unary _ op _ => some op
  | .update _ op _ => some op
  | .conditional .. => some .conditional
  | .member .. => some .memberAccess
  | .computedMember .. => some .computedMemberAccess
  | .call .. => some .call
  | _ => none

/-- Does the expression bind tightly enough for a position? -/
def Expr.fits (e : Expr) (need : Nat) : Bool := e.operator?.all fun op => need ≤ op.precedence

/-- Words in parentheses. -/
def Word.parenthesised (ws : List Word) : List Word :=
  .sign (.punctuator .parenthesisOpen) :: ws ++ [.sign (.punctuator .parenthesisClose)]

/-- The words of an expression as they stand in a position. -/
def Expr.placed (e : Expr) (need : Nat) (ws : List Word) : List Word :=
  if e.fits need then ws else Word.parenthesised ws

mutual

/-- The words of an expression, without parentheses around it. -/
def Expr.words : Expr → List Word
  | .ident _ name => [.name name]
  | .binary _ op left right =>
    left.placed op.leftPrecedence left.words
      ++ op.followingWord :: right.placed op.operandPrecedence right.words
  | .unary _ op argument => op.leadingWord :: argument.placed op.precedence argument.words
  | .update _ op argument => argument.placed op.precedence argument.words ++ [op.updateWord]
  | .conditional _ test consequent alternate =>
    test.placed (Operator.conditional.precedence + 1) test.words
      ++ .sign (.punctuator .question) :: consequent.words
      ++ .sign (.punctuator .colon)
        :: alternate.placed Operator.conditionalAlternate.precedence alternate.words
  | .member _ object name =>
    object.placed Operator.memberAccess.precedence object.words
      ++ [.sign (.punctuator .dot), .name name]
  | .computedMember _ object member =>
    object.placed Operator.computedMemberAccess.precedence object.words
      ++ .sign (.punctuator .bracketOpen) :: member.words ++ [.sign (.punctuator .bracketClose)]
  | .call _ callee arguments =>
    callee.placed Operator.call.precedence callee.words
      ++ .sign (.punctuator .parenthesisOpen) :: Arg.listWords arguments
      ++ [.sign (.punctuator .parenthesisClose)]
  | _ => []

/-- The words of an argument, which may be anything but a bare comma expression. -/
def Arg.words : Arg → List Word
  | .mk _ _ value => value.placed (Operator.comma.precedence + 1) value.words

/-- Arguments with commas between them. -/
def Arg.listWords : List Arg → List Word
  | [] => []
  | [a] => a.words
  | a :: b :: rest => a.words ++ .sign (.punctuator .comma) :: Arg.listWords (b :: rest)

end

/-- An expression as a text. -/
def Expr.print (e : Expr) : String := Word.line e.words

/-- The value of an argument. -/
def Arg.value : Arg → Expr
  | .mk _ _ value => value

/-- Is the argument spread out? -/
def Arg.spread : Arg → Bool
  | .mk _ spread _ => spread

/-- The expressions that are built from plain names with operators alone. What is assigned to is a
variable or a member. -/
inductive Expr.Plain : Expr → Prop where
  | ident (span : Span) {name : String} : Lexeme.isPlainName name = true → Plain (.ident span name)
  | binary (span : Span) {op : Operator} {left right : Expr} : op.IsBinary →
    (op.isAssignment = true → Grammar.isAssignable left = true) → Plain left → Plain right →
    Plain (.binary span op left right)
  | unary (span : Span) {op : Operator} {argument : Expr} : op.IsPrefix → Plain argument →
    Plain (.unary span op argument)
  | update (span : Span) {op : Operator} {argument : Expr} : op.IsUpdate → Plain argument →
    Plain (.update span op argument)
  | conditional (span : Span) {test consequent alternate : Expr} : Plain test → Plain consequent →
    Plain alternate → Plain (.conditional span test consequent alternate)
  | member (span : Span) {object : Expr} {name : String} : Plain object →
    Lexeme.isPlainName name = true → Plain (.member span object name)
  | computedMember (span : Span) {object member : Expr} : Plain object → Plain member →
    Plain (.computedMember span object member)
  | call (span : Span) {callee : Expr} {arguments : List Arg} : Plain callee →
    (∀ a ∈ arguments, a.spread = false) → (∀ a ∈ arguments, Plain a.value) →
    Plain (.call span callee arguments)

/-! ### What the words are -/

/-- A word that can stand on a line of an expression: the lexer reads it, and it is no arrow. -/
structure Word.Printable (w : Word) : Prop where
  separate : w.Separate
  kind_ne_arrow : w.kind ≠ Grammar.arrowKind

namespace Word.Printable

theorem name {text : String} (h : Lexeme.isPlainName text = true) : (Word.name text).Printable :=
  ⟨separate_name h, nofun⟩

theorem punctuator {p : Punctuator} (h : p ≠ .equalsChevronRight) :
    (sign (.punctuator p)).Printable :=
  ⟨separate_punctuator p, fun heq => h (TokenKind.punctuator.inj heq)⟩

/-- The word of an operator, wherever it stands. -/
theorem operator {kind : TokenKind} {op : Operator} (h : Operator.leading? kind = some op
      ∨ Operator.following? kind = some op ∨ Operator.update? kind = some op) :
    (sign kind).Printable := by
  cases kind with
  | punctuator p =>
    refine punctuator ?_
    rintro rfl
    obtain h | h | h := h <;> cases h
  | keyword k => exact ⟨separate_keyword k, nofun⟩
  | _ => obtain h | h | h := h <;> cases h

theorem leadingWord {op : Operator} (h : op.IsPrefix) : op.leadingWord.Printable :=
  operator (.inl (Operator.table_kindIn h.1))

theorem followingWord {op : Operator} (h : op.IsBinary) : op.followingWord.Printable :=
  operator (.inr (.inl (Operator.table_kindIn h.1)))

theorem updateWord {op : Operator} (h : op.IsUpdate) : op.updateWord.Printable :=
  operator (.inr (.inr (Operator.table_kindIn h)))

end Word.Printable

/-- Parentheses keep a line printable. -/
theorem Expr.printable_placed {e : Expr} {ws : List Word} (h : ∀ w ∈ ws, w.Printable) (need : Nat) :
    ∀ w ∈ e.placed need ws, w.Printable := by
  rw [placed]
  split
  · exact h
  · simp only [Word.parenthesised, List.cons_append, List.forall_mem_cons, List.forall_mem_append,
      List.not_mem_nil, false_implies, implies_true, and_true]
    exact ⟨.punctuator nofun, h, .punctuator nofun⟩

theorem Arg.printable_listWords {arguments : List Arg}
    (h : ∀ a ∈ arguments, ∀ w ∈ a.words, w.Printable) : ∀ w ∈ listWords arguments, w.Printable := by
  induction arguments with
  | nil => exact nofun
  | cons a rest ih =>
    have ha := h a List.mem_cons_self
    have ih := ih fun b hb => h b (List.mem_cons_of_mem _ hb)
    cases rest with
    | nil =>
      rw [listWords]
      exact ha
    | cons b rest =>
      simp only [listWords, List.forall_mem_append, List.forall_mem_cons]
      exact ⟨ha, .punctuator nofun, ih⟩

/-- **The words of a plain expression are printable.** -/
theorem Expr.Plain.printable {e : Expr} (he : e.Plain) : ∀ w ∈ e.words, w.Printable := by
  induction he with
  | ident _ hname =>
    rw [words]
    exact List.forall_mem_singleton.2 (.name hname)
  | binary _ hop _ _ _ hleft hright =>
    simp only [words, List.forall_mem_append, List.forall_mem_cons]
    exact ⟨printable_placed hleft _, .followingWord hop, printable_placed hright _⟩
  | unary _ hop _ hargument =>
    simp only [words, List.forall_mem_cons]
    exact ⟨.leadingWord hop, printable_placed hargument _⟩
  | update _ hop _ hargument =>
    simp only [words, List.forall_mem_append, List.forall_mem_singleton]
    exact ⟨printable_placed hargument _, .updateWord hop⟩
  | conditional _ _ _ _ htest hconsequent halternate =>
    simp only [words, List.forall_mem_append, List.forall_mem_cons]
    exact ⟨⟨printable_placed htest _, .punctuator nofun, hconsequent⟩, .punctuator nofun,
      printable_placed halternate _⟩
  | member _ _ hname hobject =>
    simp only [words, List.forall_mem_append, List.forall_mem_cons]
    exact ⟨printable_placed hobject _, .punctuator nofun, .name hname, nofun⟩
  | computedMember _ _ _ hobject hmember =>
    simp only [words, List.forall_mem_append, List.forall_mem_cons]
    exact ⟨⟨printable_placed hobject _, .punctuator nofun, hmember⟩, .punctuator nofun, nofun⟩
  | @call _ _ arguments _ _ _ hcallee harguments =>
    have hlist := Arg.printable_listWords fun a ha => by
      obtain ⟨_, _, value⟩ := a
      rw [Arg.words]
      exact printable_placed (harguments _ ha) _
    simp only [words, List.forall_mem_append, List.forall_mem_cons]
    exact ⟨⟨printable_placed hcallee _, .punctuator nofun, hlist⟩, .punctuator nofun, nofun⟩

/-! ### How tightly the last operand is held -/

namespace Expr

/-- The least precedence with which the last operand of an expression is read, unless a bracket or a
name ends it. -/
def last? : Expr → Option Nat
  | .binary _ op _ _ => some op.operandPrecedence
  | .unary _ op _ => some op.operandPrecedence
  | .conditional .. => some Operator.conditionalAlternate.precedence
  | _ => none

theorem fits_iff {e : Expr} {need : Nat} :
    e.fits need = true ↔ ∀ op, e.operator? = some op → need ≤ op.precedence := by
  rw [fits]
  cases e.operator? <;> simp

theorem fits_mono {e : Expr} {need need' : Nat} (h : e.fits need = true) (hle : need' ≤ need) :
    e.fits need' = true :=
  fits_iff.2 fun op hop => hle.trans (fits_iff.1 h op hop)

/-- Every operator binds at least as tightly as the comma. -/
theorem fits_comma (e : Expr) : e.fits Operator.comma.precedence = true :=
  fits_iff.2 fun op _ => op.precedence_pos

end Expr

/-- What binds a conditional on its left binds less tightly than the alternate of the conditional,
unless it is an assignment. -/
theorem Operator.precedence_lt_conditionalAlternate {op : Operator}
    (h : op.leftPrecedence ≤ conditional.precedence) (hassignment : op.isAssignment = false)
    (halternate : op ≠ conditionalAlternate) : op.precedence < conditionalAlternate.precedence := by
  revert h hassignment halternate
  cases op <;> decide

namespace Expr.Plain

variable {e : Expr}

/-- In a position in front of an operator, the last operand of an expression is held more tightly
than the operator pulls. -/
theorem precedence_lt_last (he : e.Plain) {op : Operator} (hop : op ≠ .conditionalAlternate)
    (htarget : op.isAssignment = true → Grammar.isAssignable e = true)
    (hfits : e.fits op.leftPrecedence = true) : ∀ p ∈ e.last?, op.precedence < p := by
  have hfits := fits_iff.1 hfits
  intro p hp
  cases he with
  | binary _ _ _ _ _ =>
    obtain rfl := Option.some.inj hp
    exact Operator.precedence_lt_operandPrecedence (hfits _ rfl)
  | unary _ _ _ =>
    obtain rfl := Option.some.inj hp
    exact Operator.precedence_lt_operandPrecedence (hfits _ rfl)
  | conditional _ _ _ _ =>
    obtain rfl := Option.some.inj hp
    refine Operator.precedence_lt_conditionalAlternate (hfits _ rfl) ?_ hop
    by_contra hassignment
    exact absurd (htarget (Bool.of_not_eq_false hassignment)) (by simp [Grammar.isAssignable])
  | _ => cases hp

/-- In a position behind an operator, the last operand of an expression is held as tightly as the
position asks. No operator asks for the precedence of conditionals. -/
theorem le_last (he : e.Plain) {need : Nat} (hneed : need ≠ Operator.conditional.precedence)
    (hfits : e.fits need = true) : ∀ p ∈ e.last?, need ≤ p := by
  have hfits := fits_iff.1 hfits
  intro p hp
  cases he with
  | binary _ _ _ _ _ =>
    obtain rfl := Option.some.inj hp
    exact (hfits _ rfl).trans (Operator.precedence_le_operandPrecedence _)
  | unary _ _ _ =>
    obtain rfl := Option.some.inj hp
    exact (hfits _ rfl).trans (Operator.precedence_le_operandPrecedence _)
  | conditional _ _ _ _ =>
    obtain rfl := Option.some.inj hp
    exact Nat.le_of_lt_succ (Nat.lt_of_le_of_ne (hfits _ rfl) hneed)
  | _ => cases hp

end Expr.Plain

end EcmaScript
