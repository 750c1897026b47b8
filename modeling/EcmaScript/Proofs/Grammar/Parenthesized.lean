import EcmaScript.Proofs.Grammar.Placed

namespace EcmaScript

open EcmaScript.Parser

/-!
# What an expression covers of the tokens that it was read from

Where an operator stands behind an operand, the place of the expression reaches from the place of
its first operand to that of its last one. Parentheses around an operand belong to neither, so such
an expression may leave parentheses out at its ends, and nothing else.

* `Expr.beginsWithOperand`, `Expr.endsWithOperand` — which places begin, or end, as an operand does;
* `Expr.Covers` — what an expression covers of balanced tokens: all but parentheses at the two ends;
* `Expr.Joins` — what it covers of the tokens that it was put together from, and when that is
  balanced; `Expr.Enclosed` — it was put together from some tokens;
* `Expr.Measured` — the place of an expression was measured while it was read;
* `Grammar.update_joined`, `Grammar.continuation_joined` — an operator behind an operand;
* `Rules.within_covering` — what is read is covered up to parentheses, whatever the budget is.
-/

/-! ### Places that are put together -/

namespace Expr

/-- Does the place of the expression begin where the place of its first operand does? -/
def beginsWithOperand : Expr → Bool
  | binary .. | call .. | computedMember .. | conditional .. | member .. | privateMember ..
  | update .. => true
  | _ => false

/-- Does the place of the expression end where the place of its last operand does? -/
def endsWithOperand : Expr → Bool
  | binary .. | conditional .. => true
  | _ => false

/-- Of balanced tokens from `i` to `j`, the expression covers those from `k` to `l`; what it does not
cover are opening parentheses in front of them and closing ones behind them. -/
structure Covers (token : Nat → Token) (i k l j : Nat) (e : Expr) : Prop where
  balanced : Balanced token i j
  begins : i ≤ k
  lt : k < l
  ends : l ≤ j
  opening : ∀ m, i ≤ m → m < k → (token m).kind = .punctuator .parenthesisOpen
  closing : ∀ m, l ≤ m → m < j → (token m).kind = .punctuator .parenthesisClose
  span : e.span = spanBetween token k l

/-- The tokens from `i` to `j` are the construct that the expression stands for. It leaves some out
only where it has an operand in parentheses, and what it covers is balanced only if it leaves none
out. -/
structure Joins (token : Nat → Token) (i k l j : Nat) (e : Expr) : Prop
    extends Covers token i k l j e where
  begins_eq : e.beginsWithOperand = false → k = i
  ends_eq : e.endsWithOperand = false → l = j
  whole : Balanced token k l → k = i ∧ l = j

/-- The expression was read from the tokens between the two, perhaps in parentheses. -/
def StandsIn (token : Nat → Token) (i j : Nat) (e : Expr) : Prop :=
  ∃ k l, e.Covers token i k l j

/-- The expression was put together from the tokens between the two. -/
def JoinedIn (token : Nat → Token) (i j : Nat) (e : Expr) : Prop :=
  ∃ k l, e.Joins token i k l j

/-- The expression was put together from some tokens. -/
def Enclosed (token : Nat → Token) (e : Expr) : Prop := ∃ i j, e.JoinedIn token i j

end Expr

/-- A part that is an expression was put together from some tokens. -/
def Node.Enclosed (token : Nat → Token) : Node → Prop
  | .expr e => e.Enclosed token
  | _ => True

/-! ### Tokens that are left out -/

theorem depth_of_weight {token : Nat → Token} {w : Int} {i n : Nat}
    (h : ∀ m, i ≤ m → m < i + n → (token m).kind.weight = w) :
    depth token (i + n) = depth token i + n * w := by
  induction n with
  | zero => simp
  | succ n ih =>
    have hlast := h (i + n) (Nat.le_add_right i n) (Nat.lt_succ_self _)
    rw [← Nat.add_assoc, depth, ih fun m hi hm => h m hi (by omega), hlast, Int.natCast_succ,
      Int.add_mul, Int.one_mul, Int.add_assoc]

namespace Expr

variable {token : Nat → Token} {e left : Expr} {a b i j k l m : Nat}

namespace Covers

theorem depth_begin (h : e.Covers token i k l j) :
    depth token k = depth token i + ((k - i : Nat) : Int) := by
  have hk : k = i + (k - i) := by have := h.begins; omega
  have hdepth := depth_of_weight (i := i) (n := k - i) (w := 1) fun m hi hm => by
    rw [h.opening m hi (by omega)]
    rfl
  rwa [← hk, Int.mul_one] at hdepth

theorem depth_end (h : e.Covers token i k l j) :
    depth token l = depth token j + ((j - l : Nat) : Int) := by
  have hj : j = l + (j - l) := by have := h.ends; omega
  have hdepth := depth_of_weight (i := l) (n := j - l) (w := -1) fun m hl hm => by
    rw [h.closing m hl (by omega)]
    rfl
  rw [← hj] at hdepth
  omega

/-- Where brackets are balanced from the first token to some token that is covered, what is covered
is balanced only if it is everything: it would close the parentheses that it leaves out. -/
theorem whole (h : e.Covers token i k l j) (hm : Balanced token i m) (hkm : k ≤ m) (hml : m ≤ l)
    (hkl : Balanced token k l) : k = i ∧ l = j := by
  have hbegin := h.depth_begin
  have hend := h.depth_end
  have hlow := hkl.depth_le.2 m hkm hml
  have hi := h.begins
  have hj := h.ends
  rw [hm.depth_le.1] at hlow
  have hboth := hkl.depth_le.1
  have htotal := h.balanced.depth_le.1
  omega

/-- What an operator adds goes behind the expression on its left, up to closing parentheses around
what comes last. -/
theorem extend (h : left.Covers token i k l m) (horder : InOrder token) (hmj : Balanced token m j)
    (hma : m ≤ a) (hab : a < b) (hbj : b ≤ j)
    (hclosing : ∀ n, b ≤ n → n < j → (token n).kind = .punctuator .parenthesisClose)
    (hspan : e.span = left.span ∪ spanBetween token a b) (hbegin : e.beginsWithOperand = true)
    (hend : e.endsWithOperand = false → b = j) : e.Joins token i k b j := by
  have hkl := h.lt
  have hlm := h.ends
  have hcovers : e.Covers token i k b j := by
    refine ⟨h.balanced.trans hmj, h.begins, by omega, hbj, h.opening, hclosing, ?_⟩
    rw [hspan, h.span, horder.spanBetween_union (by omega) (by omega)]
  refine ⟨hcovers, fun hne => ?_, hend, hcovers.whole h.balanced (by omega) (by omega)⟩
  rw [hbegin] at hne
  cases hne

end Covers

theorem JoinedIn.standsIn (h : e.JoinedIn token i j) : e.StandsIn token i j := by
  obtain ⟨k, l, h⟩ := h
  exact ⟨k, l, h.toCovers⟩

theorem JoinedIn.enclosed (h : e.JoinedIn token i j) : e.Enclosed token := ⟨i, j, h⟩

/-- An operator adds something that ends with the last of the tokens. -/
theorem StandsIn.extend (h : left.StandsIn token i m) (horder : InOrder token)
    (hmj : Balanced token m j) (hma : m ≤ a) (haj : a < j)
    (hspan : e.span = left.span ∪ spanBetween token a j) (hbegin : e.beginsWithOperand = true) :
    e.JoinedIn token i j := by
  obtain ⟨k, l, h⟩ := h
  exact ⟨k, j, h.extend horder hmj hma haj (Nat.le_refl j) (by omega) hspan hbegin fun _ => rfl⟩

/-- An operator adds something that ends with an operand. -/
theorem StandsIn.extendOperand {right : Expr} (h : left.StandsIn token i m) (horder : InOrder token)
    (hmj : Balanced token m j) (hma : m ≤ a) (hright : right.StandsIn token a j)
    (hspan : e.span = left.span ∪ right.span) (hbegin : e.beginsWithOperand = true)
    (hend : e.endsWithOperand = true) : e.JoinedIn token i j := by
  obtain ⟨k, l, h⟩ := h
  obtain ⟨k', l', hright⟩ := hright
  have hmk := hma.trans hright.begins
  rw [hright.span] at hspan
  refine ⟨k, l', h.extend horder hmj hmk hright.lt hright.ends hright.closing hspan hbegin ?_⟩
  rw [hend]
  exact Bool.noConfusion

/-- Parentheses around an expression. -/
theorem StandsIn.grouping (h : e.StandsIn token (i + 1) j)
    (ho : (token i).kind = .punctuator .parenthesisOpen)
    (hp : (token j).kind = .punctuator .parenthesisClose) : e.StandsIn token i (j + 1) := by
  obtain ⟨k, l, h⟩ := h
  have hbegin := h.begins
  refine ⟨k, l, .brackets (p := .parenthesisClose) rfl ho h.balanced hp, by omega, h.lt,
    Nat.le_succ_of_le h.ends, fun m hi hm => ?_, fun m hl hm => ?_, h.span⟩
  · rcases Nat.lt_or_eq_of_le hi with hlt | rfl
    · exact h.opening m hlt hm
    · exact ho
  · rcases Nat.lt_or_eq_of_le (Nat.le_of_lt_succ hm) with hlt | rfl
    · exact h.closing m hl hlt
    · exact hp

end Expr

/-! ### Places that are measured -/

/-- The expression covers all the tokens that were read with it. -/
structure Expr.Measured (c : Context) (s t : State) (e : Expr) : Prop where
  reads : Reads c.token s.position t.position
  span : e.span = spanSince c s.position t

namespace Expr.Measured

variable {c : Context} {s t : State} {e : Expr}

theorem joinedIn (h : e.Measured c s t) : e.JoinedIn c.token s.position t.position := by
  have hspan := h.span
  rw [spanSince_of_lt h.reads.lt] at hspan
  refine ⟨s.position, t.position,
    ⟨h.reads.balanced, Nat.le_refl _, h.reads.lt, Nat.le_refl _, ?_, ?_, hspan⟩,
    fun _ => rfl, fun _ => rfl, fun _ => ⟨rfl, rfl⟩⟩
  · intro m hs hm
    omega
  · intro m ht hm
    omega

theorem standsIn (h : e.Measured c s t) : e.StandsIn c.token s.position t.position :=
  h.joinedIn.standsIn

theorem enclosed (h : e.Measured c s t) : e.Enclosed c.token := h.joinedIn.enclosed

end Expr.Measured

/-- What is read is covered up to parentheses. -/
structure Rules.Covering (g : Rules) : Prop where
  expr : ∀ {c : Context} {s t : State} {mode : ExprMode} {a : Expr × Bool}, InOrder c.token →
    g.expr mode c s = .ok a t → a.1.StandsIn c.token s.position t.position

namespace Grammar

variable {g : Rules} {c : Context} {s t : State} {e : Expr} {a : Expr × Bool} {mode : ExprMode}

theorem numberLiteral_measured (h : numberLiteral c s = .ok e t) : e.Measured c s t := by
  have hreads := numberLiteral_reads h
  simp only [numberLiteral, spanned_ok_iff, bind_ok_iff, pure_ok_iff] at h
  obtain ⟨_, ⟨_, _, -, rfl, -⟩, rfl⟩ := h
  exact ⟨hreads, rfl⟩

theorem stringLiteral_measured (h : stringLiteral c s = .ok e t) : e.Measured c s t := by
  have hreads := stringLiteral_reads h
  simp only [stringLiteral, spanned_ok_iff, bind_ok_iff, pure_ok_iff] at h
  obtain ⟨_, ⟨_, _, -, rfl, -⟩, rfl⟩ := h
  exact ⟨hreads, rfl⟩

theorem boolLiteral_measured (h : boolLiteral c s = .ok e t) : e.Measured c s t := by
  have hreads := boolLiteral_reads h
  obtain ⟨-, ⟨_, rfl⟩, -⟩ := boolLiteral_ok h
  exact ⟨hreads, rfl⟩

theorem nullLiteral_measured (h : nullLiteral c s = .ok e t) : e.Measured c s t := by
  have hreads := nullLiteral_reads h
  simp only [nullLiteral, spanned_ok_iff, discard_bind, bind_ok_iff, pure_ok_iff] at h
  obtain ⟨_, ⟨_, _, -, rfl, -⟩, rfl⟩ := h
  exact ⟨hreads, rfl⟩

theorem variableUse_measured (h : variableUse c s = .ok e t) : e.Measured c s t := by
  have hreads := variableUse_reads h
  simp only [variableUse, spanned_ok_iff, bind_ok_iff, pure_ok_iff] at h
  obtain ⟨_, ⟨_, _, -, rfl, -⟩, rfl⟩ := h
  exact ⟨hreads, rfl⟩

theorem superReference_measured (h : superReference c s = .ok e t) : e.Measured c s t := by
  have hreads := superReference_reads h
  simp only [superReference, spanned_ok_iff, discard_bind, bind_ok_iff, pure_ok_iff] at h
  obtain ⟨_, ⟨_, _, -, rfl, -⟩, rfl⟩ := h
  exact ⟨hreads, rfl⟩

theorem thisReference_measured (h : thisReference c s = .ok e t) : e.Measured c s t := by
  have hreads := thisReference_reads h
  simp only [thisReference, spanned_ok_iff, discard_bind, bind_ok_iff, pure_ok_iff] at h
  obtain ⟨_, ⟨_, _, -, rfl, -⟩, rfl⟩ := h
  exact ⟨hreads, rfl⟩

theorem arrayLiteral_measured (hg : g.Reading) (h : arrayLiteral g c s = .ok e t) :
    e.Measured c s t := by
  have hreads := arrayLiteral_reads hg h
  simp only [arrayLiteral, spanned_ok_iff, discard_bind, bind_ok_iff, pure_ok_iff] at h
  obtain ⟨_, ⟨_, _, -, _, _, -, _, _, -, rfl, -⟩, rfl⟩ := h
  exact ⟨hreads, rfl⟩

theorem objectLiteral_measured (hg : g.Reading) (h : objectLiteral g c s = .ok e t) :
    e.Measured c s t := by
  have hreads := objectLiteral_reads hg h
  simp only [objectLiteral, spanned_ok_iff, discard_bind, bind_ok_iff, pure_ok_iff] at h
  obtain ⟨_, ⟨_, _, -, _, _, -, rfl, -⟩, rfl⟩ := h
  exact ⟨hreads, rfl⟩

theorem functionExpression_measured (hg : g.Reading) (h : functionExpression g c s = .ok e t) :
    e.Measured c s t := by
  have hreads := functionExpression_reads hg h
  simp only [functionExpression, spanned_ok_iff, discard_bind, bind_ok_iff, pure_ok_iff] at h
  obtain ⟨_, ⟨_, _, -, _, _, -, _, _, -, _, _, -, _, _, -, rfl, -⟩, rfl⟩ := h
  exact ⟨hreads, rfl⟩

theorem arrowFunction_measured (hg : g.Reading) {stops : List TokenKind}
    (h : arrowFunction g stops c s = .ok e t) : e.Measured c s t := by
  have hreads := arrowFunction_reads hg h
  obtain ⟨_, _, _, _, _, -, -, -, rfl⟩ := arrowFunction_ok h
  exact ⟨hreads, rfl⟩

theorem classExpression_measured (hg : g.Reading) (h : classExpression g c s = .ok e t) :
    e.Measured c s t := by
  have hreads := classExpression_reads hg h
  simp only [classExpression, spanned_ok_iff, discard_bind, require_bind_ok_iff] at h
  obtain ⟨_, ⟨-, h⟩, rfl⟩ := h
  obtain ⟨_, _, h, -, -⟩ := inClass_position h
  simp only [bind_ok_iff, pure_ok_iff] at h
  obtain ⟨_, _, -, _, _, -, rfl, -⟩ := h
  exact ⟨hreads, rfl⟩

theorem unary_measured (hg : g.Reading) {leading : Operator}
    (hplain : (c.token s.position).kind.isPlain) (h : unary g mode leading c s = .ok a t) :
    a.1.Measured c s t := by
  have hreads := unary_reads hg hplain h
  obtain ⟨_, _, _, -, -, -, ha⟩ := unary_ok h
  rw [ha]
  exact ⟨hreads, rfl⟩

/-- The operand that `yield` does not have is put together from the word itself. -/
theorem missingOperand_enclosed (hplain : (c.token s.position).kind.isPlain) :
    (missingOperand (c.token s.position)).Enclosed c.token := by
  have hspan : spanSince c s.position s.advanced = (c.token s.position).span :=
    spanSince_of_lt (Nat.lt_succ_self _)
  have hmeasured : (missingOperand (c.token s.position)).Measured c s s.advanced :=
    ⟨.single hplain, hspan.symm⟩
  exact hmeasured.enclosed

/-! ### Operands -/

theorem grouping_stands (hs : g.Covering) (ho : InOrder c.token) {insertion : Bool}
    (h : grouping g insertion c s = .ok a t) : a.1.StandsIn c.token s.position t.position := by
  simp only [grouping, discard_bind, bind_ok_iff, require_ok_iff, pure_ok_iff] at h
  obtain ⟨_, _, ⟨hopen, -, rfl⟩, _, _, hvalue, _, _, ⟨hclose, -, rfl⟩, rfl, rfl⟩ := h
  exact (hs.expr ho hvalue).grouping hopen hclose

theorem arrowOrGrouping_stands (hg : g.Reading) (hs : g.Covering) (ho : InOrder c.token)
    {stops : List TokenKind} {insertion : Bool}
    (h : arrowOrGrouping g stops insertion c s = .ok a t) :
    a.1.StandsIn c.token s.position t.position := by
  obtain ⟨_, _, _, -, harrow, rfl⟩ | ⟨_, _, -, -, hgrouping⟩ := arrowOrGrouping_ok h
  · have harrow := (arrowFunction_measured hg harrow).standsIn
    exact harrow
  · have hgrouping := grouping_stands hs ho hgrouping
    exact hgrouping

theorem asyncOperand?_stands (hg : g.Reading) {stops : List TokenKind} {first second third : Token}
    (h : asyncOperand? g stops first second third c s = .ok (some e) t) :
    e.StandsIn c.token s.position t.position := by
  obtain ⟨_, he, ⟨_, _, -, -, -, h⟩ | h | h⟩ | ⟨hne, -⟩ := asyncOperand?_ok h
  · obtain rfl := Option.some.inj he
    have h := (arrowFunction_measured hg h).standsIn
    exact h
  · obtain rfl := Option.some.inj he
    exact (functionExpression_measured hg h).standsIn
  · obtain rfl := Option.some.inj he
    exact (arrowFunction_measured hg h).standsIn
  · cases hne

theorem atom_stands (hg : g.Reading) (hs : g.Covering) (ho : InOrder c.token) {first : Token}
    (h : atom g mode first c s = .ok a t) : a.1.StandsIn c.token s.position t.position := by
  obtain ⟨-, h⟩ | ⟨_, rfl, h | h | h | h | h | h | h | h | h | h⟩ := atom_ok h
  · exact arrowOrGrouping_stands hg hs ho h
  · exact (arrayLiteral_measured hg h).standsIn
  · exact (objectLiteral_measured hg h).standsIn
  · exact (classExpression_measured hg h).standsIn
  · exact (functionExpression_measured hg h).standsIn
  · exact (superReference_measured h.1).standsIn
  · exact (thisReference_measured h).standsIn
  · exact (boolLiteral_measured h).standsIn
  · exact (nullLiteral_measured h).standsIn
  · exact (numberLiteral_measured h).standsIn
  · exact (stringLiteral_measured h).standsIn

theorem operand_stands (hg : g.Reading) (hs : g.Covering) (ho : InOrder c.token)
    (h : operand g mode c s = .ok a t) : a.1.StandsIn c.token s.position t.position := by
  obtain ⟨u, hu, ⟨op, hop, h⟩ | ⟨found, v, hfound, h⟩⟩ := operand_ok h
  · rw [← hu.position] at hop ⊢
    exact (unary_measured hg (leadingOperator?_isPlain hop) h).standsIn
  · rw [← hu.position]
    obtain ⟨_, rfl, rfl, rfl⟩ | ⟨rfl, h⟩ := h
    · exact asyncOperand?_stands hg hfound
    · have hv : v.position = u.position := asyncOperand?_reads hg hfound
      rw [← hv]
      obtain ⟨_, rfl, h | h⟩ | h := h
      · exact (arrowFunction_measured hg h).standsIn
      · exact (variableUse_measured h).standsIn
      · exact atom_stands hg hs ho h

/-! ### Operators behind an operand -/

section Following

variable {i : Nat} {left : Expr} {op : Operator}

/-- An update goes to the end of its operator. -/
theorem update_joined (ho : InOrder c.token) (hleft : left.StandsIn c.token i s.position)
    (hop : Operator.update? (c.token s.position).kind = some op) :
    (Expr.update (left.span ∪ (c.token s.position).span) op left).JoinedIn c.token i
      s.advanced.position :=
  hleft.extend ho (.single (update?_isPlain hop)) (Nat.le_refl _) (Nat.lt_succ_self _) rfl rfl

/-- A member goes to the end of its name, which is the last token. -/
theorem memberAccess_span {object : Expr} (h : memberAccess object c s = .ok e t) :
    t.position = s.position + 1
      ∧ e.span = object.span ∪ spanBetween c.token s.position (s.position + 1)
      ∧ e.beginsWithOperand = true := by
  obtain ⟨name, u, hname, huse, rfl⟩ | ⟨name, -, -, rfl, rfl⟩ := memberAccess_ok h
  · obtain ⟨-, -, hspan, -, rfl⟩ := privateName_ok hname
    have hspan : name.span = spanBetween c.token s.position (s.position + 1) := hspan
    have ht : t.position = s.position + 1 := by
      obtain ⟨_, -, rfl⟩ | ⟨_, -, -, rfl⟩ := usePrivate_ok huse
      · rfl
      · rfl
    exact ⟨ht, congrArg (object.span ∪ ·) hspan, rfl⟩
  · exact ⟨rfl, rfl, rfl⟩

/-- An operator and what it adds go behind the expression on its left. -/
theorem continuation_joined (hg : g.Reading) (hs : g.Covering) (ho : InOrder c.token)
    (hleft : left.StandsIn c.token i s.position)
    (hop : Operator.following? (c.token s.position).kind = some op)
    (h : continuation g mode s.position op left c s.advanced = .ok a t) :
    a.1.JoinedIn c.token i t.position := by
  have hreads := continuation_reads hg hop h
  obtain ⟨-, as, has, rfl⟩ | ⟨-, member, u, hmember, -, rfl, rfl⟩
    | ⟨-, consequent, u, alternate, hconsequent, -, halternate, ha⟩ | ⟨-, e, he, rfl⟩
    | ⟨-, -, -, -, -, right, hright, ha⟩ := continuation_ok h
  · have hspan := spanSince_of_lt (c := c) hreads.lt
    exact hleft.extend ho hreads.balanced (Nat.le_refl _) hreads.lt
      (congrArg (left.span ∪ ·) hspan) rfl
  · have hle : s.position ≤ u.position :=
      (Nat.le_succ _).trans (whole_reads hg hmember).balanced.le
    exact hleft.extend ho hreads.balanced hle (Nat.lt_succ_self _) rfl rfl
  · have hle : s.position ≤ u.position :=
      (Nat.le_succ _).trans (whole_reads hg hconsequent).balanced.le
    rw [ha]
    exact hleft.extendOperand ho hreads.balanced (Nat.le_succ_of_le hle) (hs.expr ho halternate)
      rfl rfl rfl
  · obtain ⟨ht, hspan, hbegin⟩ := memberAccess_span he
    rw [← ht] at hspan
    exact hleft.extend ho hreads.balanced (Nat.le_succ _) (by rw [ht]; exact Nat.lt_succ_self _)
      hspan hbegin
  · rw [ha]
    exact hleft.extendOperand ho hreads.balanced (Nat.le_succ _) (hs.expr ho hright) rfl rfl rfl

/-- What is put together next is an expression on the left again. -/
theorem climb_stands (hg : g.Reading) (hs : g.Covering) (ho : InOrder c.token) {inserted : Bool}
    {n : Nat} (hleft : left.StandsIn c.token i s.position)
    (h : climb g mode left inserted n c s = .ok a t) : a.1.StandsIn c.token i t.position := by
  induction n generalizing s left inserted with
  | zero => cases h
  | succ n ih =>
    obtain ⟨ht, ha⟩ | ⟨op, hop, h⟩ | ⟨op, _, _, u, hop, hlonger, h⟩ := climb_ok h
    · rw [ht.position, ha]
      exact hleft
    · exact ih (update_joined ho hleft hop).standsIn h
    · exact ih (continuation_joined hg hs ho hleft hop hlonger).standsIn h

end Following

/-- **Expressions.** Over rules that cover what they read up to parentheses, an expression does. -/
theorem expression_stands (hg : g.Reading) (hs : g.Covering) (ho : InOrder c.token)
    (h : expression g mode c s = .ok a t) : a.1.StandsIn c.token s.position t.position := by
  obtain ⟨_, u, hoperand, h⟩ := bind_ok_iff.1 h
  exact climb_stands hg hs ho (operand_stands hg hs ho hoperand) h

end Grammar

/-- **Every budget.** Whatever the budget is, an expression covers what it was read from up to
parentheses. -/
theorem Rules.within_covering (n : Nat) : (Rules.within n).Covering := by
  induction n with
  | zero => exact ⟨fun _ h => (nomatch h)⟩
  | succ n ih => exact ⟨fun ho h => Grammar.expression_stands (within_reading n) ih ho h⟩

end EcmaScript
