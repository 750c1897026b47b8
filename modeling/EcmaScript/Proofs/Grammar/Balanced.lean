import EcmaScript.Proofs.Parser.Runs

namespace EcmaScript

/-!
# Balanced tokens

What a rule of the grammar reads is a sequence of tokens in which brackets match and nest.

* `Punctuator.closing?` — the bracket that closes another one;
* `TokenKind.isPlain` — what a token may be that is neither a bracket nor an arrow;
* `Balanced` — between two positions brackets match and nest, and every token is one;
* `Balanced.newlineBefore_of_arrow` — no arrow stands on a line of its own;
* `Balanced.depth_le` — no bracket closes that was not opened between them;
* `Balanced.close_unique` — from an opening bracket there is one way to the bracket that closes it.
-/

/-! ### Brackets -/

/-- The bracket that closes this one. -/
def Punctuator.closing? : Punctuator → Option Punctuator
  | .parenthesisOpen => some .parenthesisClose
  | .bracketOpen => some .bracketClose
  | .braceOpen => some .braceClose
  | _ => none

namespace TokenKind

/-- How many brackets are open behind a token, compared with before it. -/
def weight : TokenKind → Int
  | .punctuator .parenthesisOpen | .punctuator .bracketOpen | .punctuator .braceOpen => 1
  | .punctuator .parenthesisClose | .punctuator .bracketClose | .punctuator .braceClose => -1
  | _ => 0

/-- Neither a bracket, nor an arrow, nor the end of the text, nor invalid text. -/
def isPlain (kind : TokenKind) : Bool :=
  kind.weight = 0 && kind ≠ .eof && kind ≠ .invalid && kind ≠ .punctuator .equalsChevronRight

theorem weight_of_closing? {o p : Punctuator} (h : o.closing? = some p) :
    weight (.punctuator o) = 1 ∧ weight (.punctuator p) = -1 := by
  cases o <;> simp [Punctuator.closing?] at h <;> subst h <;> exact ⟨rfl, rfl⟩

theorem isPlain_iff {kind : TokenKind} :
    kind.isPlain ↔ kind.weight = 0 ∧ kind ≠ .eof ∧ kind ≠ .invalid
      ∧ kind ≠ .punctuator .equalsChevronRight := by
  simp [isPlain, and_assoc]

end TokenKind

/-! ### Balanced sequences -/

/-- From one position to another, brackets match and nest, arrows stand on the line of what is
before them, and there is neither invalid text nor the end of the text. -/
inductive Balanced (token : Nat → Token) : Nat → Nat → Prop where
  | nil (i : Nat) : Balanced token i i
  | plain {i j : Nat} : Balanced token i j → (token j).kind.isPlain → Balanced token i (j + 1)
  | arrow {i j : Nat} : Balanced token i j → (token j).kind = .punctuator .equalsChevronRight →
      (token j).newlineBefore = false → Balanced token i (j + 1)
  | enclosed {i j k : Nat} {o p : Punctuator} :
    o.closing? = some p → Balanced token i j → (token j).kind = .punctuator o →
      Balanced token (j + 1) k → (token k).kind = .punctuator p → Balanced token i (k + 1)

namespace Balanced

variable {token : Nat → Token} {i j k : Nat}

theorem le (h : Balanced token i j) : i ≤ j := by
  induction h with
  | nil i => exact Nat.le_refl i
  | plain _ _ ih => exact Nat.le_succ_of_le ih
  | arrow _ _ _ ih => exact Nat.le_succ_of_le ih
  | enclosed _ _ _ _ _ ih ih' => omega

theorem trans (h : Balanced token i j) (h' : Balanced token j k) : Balanced token i k := by
  induction h' with
  | nil _ => exact h
  | plain _ hplain ih => exact (ih h).plain hplain
  | arrow _ harrow hline ih => exact (ih h).arrow harrow hline
  | enclosed hop _ ho hinner hp ih _ => exact enclosed hop (ih h) ho hinner hp

/-- One token that is no bracket. -/
theorem single (h : (token i).kind.isPlain) : Balanced token i (i + 1) := (nil i).plain h

/-- A sequence in brackets. -/
theorem brackets {o p : Punctuator} (hop : o.closing? = some p)
    (ho : (token i).kind = .punctuator o) (h : Balanced token (i + 1) j)
    (hp : (token j).kind = .punctuator p) : Balanced token i (j + 1) :=
  enclosed hop (nil i) ho h hp

/-- What holds of plain tokens, of arrows and of brackets holds of every token of a balanced
sequence. -/
theorem forall_token (h : Balanced token i j) (P : Token → Prop)
    (hplain : ∀ t : Token, t.kind.isPlain → P t)
    (harrow : ∀ t : Token, t.kind = .punctuator .equalsChevronRight → t.newlineBefore = false → P t)
    (hbracket : ∀ (t : Token) (p : Punctuator), t.kind = .punctuator p →
      TokenKind.weight (.punctuator p) ≠ 0 → P t) :
    ∀ m, i ≤ m → m < j → P (token m) := by
  induction h with
  | nil i =>
    intro m hi hj
    omega
  | @plain i j _ ht ih =>
    intro m hi hj
    rcases Nat.lt_or_eq_of_le (Nat.le_of_lt_succ hj) with hlt | rfl
    · exact ih m hi hlt
    · exact hplain _ ht
  | @arrow i j _ ht hline ih =>
    intro m hi hj
    rcases Nat.lt_or_eq_of_le (Nat.le_of_lt_succ hj) with hlt | rfl
    · exact ih m hi hlt
    · exact harrow _ ht hline
  | @enclosed i j k o p hop _ ho _ hp ih ih' =>
    obtain ⟨hwo, hwp⟩ := TokenKind.weight_of_closing? hop
    intro m hi hk
    rcases Nat.lt_trichotomy m j with hlt | rfl | hgt
    · exact ih m hi hlt
    · exact hbracket _ o ho (by rw [hwo]; decide)
    · rcases Nat.lt_or_eq_of_le (Nat.le_of_lt_succ hk) with hlt | rfl
      · exact ih' m hgt hlt
      · exact hbracket _ p hp (by rw [hwp]; decide)

/-- No token of a balanced sequence is invalid, or the end of the text. -/
theorem kind_ne (h : Balanced token i j) :
    ∀ m, i ≤ m → m < j → (token m).kind ≠ .invalid ∧ (token m).kind ≠ .eof := by
  refine h.forall_token (fun t => t.kind ≠ .invalid ∧ t.kind ≠ .eof) (fun t ht => ?_)
    (fun t ht _ => ?_) fun t p ht _ => ?_
  · exact ⟨(TokenKind.isPlain_iff.1 ht).2.2.1, (TokenKind.isPlain_iff.1 ht).2.1⟩
  · rw [ht]
    exact ⟨TokenKind.noConfusion, TokenKind.noConfusion⟩
  · rw [ht]
    exact ⟨TokenKind.noConfusion, TokenKind.noConfusion⟩

/-- No arrow of a balanced sequence stands behind a line break. -/
theorem newlineBefore_of_arrow (h : Balanced token i j) :
    ∀ m, i ≤ m → m < j → (token m).kind = .punctuator .equalsChevronRight →
      (token m).newlineBefore = false := by
  refine h.forall_token
    (fun t => t.kind = .punctuator .equalsChevronRight → t.newlineBefore = false)
    (fun t ht harrow => ?_) (fun t _ hline _ => hline) fun t p ht hp harrow => ?_
  · exact absurd harrow (TokenKind.isPlain_iff.1 ht).2.2.2
  · rw [ht] at harrow
    rw [harrow] at hp
    exact absurd rfl hp

end Balanced

/-! ### Depth -/

/-- How many brackets are open before a token, closing ones counted against. -/
def depth (token : Nat → Token) : Nat → Int
  | 0 => 0
  | i + 1 => depth token i + (token i).kind.weight

namespace Balanced

variable {token : Nat → Token} {i j k : Nat}

/-- **Nothing is closed that was not opened.** Inside a balanced sequence the depth never falls
below what it is at its two ends. -/
theorem depth_le (h : Balanced token i j) :
    depth token j = depth token i ∧ ∀ m, i ≤ m → m ≤ j → depth token i ≤ depth token m := by
  induction h with
  | nil i =>
    refine ⟨rfl, fun m hi hj => ?_⟩
    exact Int.le_of_eq (by rw [Nat.le_antisymm hi hj])
  | @plain i j _ hplain ih =>
    have hj : depth token (j + 1) = depth token i := by
      rw [depth, (TokenKind.isPlain_iff.1 hplain).1, ih.1, Int.add_zero]
    refine ⟨hj, fun m hi hm => ?_⟩
    rcases Nat.lt_or_eq_of_le hm with hlt | rfl
    · exact ih.2 m hi (Nat.le_of_lt_succ hlt)
    · exact Int.le_of_eq hj.symm
  | @arrow i j _ harrow _ ih =>
    have hj : depth token (j + 1) = depth token i := by
      rw [depth, harrow, ih.1]
      exact Int.add_zero _
    refine ⟨hj, fun m hi hm => ?_⟩
    rcases Nat.lt_or_eq_of_le hm with hlt | rfl
    · exact ih.2 m hi (Nat.le_of_lt_succ hlt)
    · exact Int.le_of_eq hj.symm
  | @enclosed i j k o p hop hij ho hjk hp ih ih' =>
    have hwo := (TokenKind.weight_of_closing? hop).1
    have hwp := (TokenKind.weight_of_closing? hop).2
    have hj : depth token (j + 1) = depth token i + 1 := by rw [depth, ho, hwo, ih.1]
    have hk : depth token (k + 1) = depth token i := by
      rw [depth, hp, hwp, ih'.1, hj]
      omega
    refine ⟨hk, fun m hi hm => ?_⟩
    rcases Nat.lt_or_ge j m with hjm | hmj
    · rcases Nat.lt_or_eq_of_le hm with hlt | rfl
      · have := ih'.2 m hjm (Nat.le_of_lt_succ hlt)
        omega
      · exact Int.le_of_eq hk.symm
    · exact ih.2 m hi hmj

/-- **The closing bracket is determined.** A balanced sequence cannot go on over a closing bracket,
so two of them that begin at one place and are followed by closing brackets are one. -/
theorem close_unique {p q : Punctuator} (h : Balanced token i j)
    (hp : (token j).kind = .punctuator p) (hwp : TokenKind.weight (.punctuator p) = -1)
    (h' : Balanced token i k)
    (hq : (token k).kind = .punctuator q) (hwq : TokenKind.weight (.punctuator q) = -1) :
    j = k := by
  have hj : depth token (j + 1) = depth token i - 1 := by
    rw [depth, hp, hwp, h.depth_le.1]
    rfl
  have hk : depth token (k + 1) = depth token i - 1 := by
    rw [depth, hq, hwq, h'.depth_le.1]
    rfl
  rcases Nat.lt_trichotomy j k with hlt | heq | hgt
  · have := h'.depth_le.2 (j + 1) (by have := h.le; omega) hlt
    omega
  · exact heq
  · have := h.depth_le.2 (k + 1) (by have := h'.le; omega) hgt
    omega

end Balanced

end EcmaScript
