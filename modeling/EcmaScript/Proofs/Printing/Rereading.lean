import EcmaScript.Proofs.Printing.Climbing
import EcmaScript.Proofs.Relation.Punctual

namespace EcmaScript

open EcmaScript.Parser EcmaScript.Grammar

/-!
# Printed expressions are read again

What a plain expression is printed as, with a semicolon behind it, is read as this expression. The
proof goes by induction on the expression, for every way in which an expression is read, every list
of tokens that end it, and every text behind it.

* `Context.Room` — the budget suffices for the tokens from an index on;
* `Grammar.arrowParameters_fails` — a text without arrows has no parameters of one;
* `Expr.Readable` — the words of an expression are read as it stands, wherever it fits;
* `Expr.Readable.placed`, `Expr.Readable.before`, `Expr.Readable.behind` — the same for a part in
  its position, in parentheses or not;
* `Expr.Plain.readable` — every plain expression is readable;
* `Expr.Plain.print_rereads` — reading takes a printed text back to its expression.
-/

variable {c : Context} {mode : ExprMode} {s : State} {e : Expr} {i j l n floor need : Nat}

/-! ### Budgets and stops -/

/-- Two steps for each token that is left. -/
def Context.Room (c : Context) (n i : Nat) : Prop := 2 * c.tokens.size ≤ n + 2 * i

namespace Context.Room

theorem mono (h : c.Room n i) (hij : i ≤ j) : c.Room n j := by
  unfold Room at *
  omega

/-- One step further inside, and at least one token further on, there is room again. -/
theorem inside (h : c.Room n i) (hi : i < c.tokens.size) (hij : i < j) :
    ∃ m, n = m + 1 ∧ c.Room m j := by
  unfold Room at *
  exact ⟨n - 1, by omega, by omega⟩

end Context.Room

/-- No stop is an operator that binds as tightly as this, or more tightly. -/
structure StopsBelow (stops : List TokenKind) (floor : Nat) : Prop where
  le : floor ≤ Operator.conditionalAlternate.precedence
  precedence_lt {kind : TokenKind} {op : Operator} : kind ∈ stops →
    (Operator.update? kind = some op ∨ Operator.following? kind = some op) → op.precedence < floor

namespace StopsBelow

/-- A closing token is no operator at all. -/
theorem closing {kind : TokenKind} (hupdate : Operator.update? kind = none)
    (hfollowing : Operator.following? kind = none) : StopsBelow [kind] 0 := by
  refine ⟨Nat.zero_le _, fun hmem hop => ?_⟩
  obtain rfl := List.mem_singleton.1 hmem
  rw [hupdate, hfollowing] at hop
  obtain h | h := hop <;> cases h

/-- Of what ends an argument only the comma is an operator. -/
theorem arguments : StopsBelow argumentStops (Operator.comma.precedence + 1) := by
  refine ⟨by decide, fun hmem hop => ?_⟩
  simp only [argumentStops, List.mem_cons, List.not_mem_nil, or_false] at hmem
  obtain rfl | rfl := hmem
  · obtain h | h := hop <;> cases h
    exact Nat.lt_succ_self _
  · obtain h | h := hop <;> cases h

end StopsBelow

/-- In a text without arrows the attempt at the parameters of an arrow function fails, and the text
can be read again. -/
theorem Grammar.arrowParameters_fails (hc : c.Plain) (hroom : c.Room n i) (hi : i < c.tokens.size)
    (hs : s.Stands i) :
    ∃ error t, arrowParameters (.within n) false c s = .error (.error error) t
      ∧ error.cause ≠ .lineTerminatorAfterArrowParameters ∧ t.inInitializer = false := by
  have hreading := Rules.within_reading n
  obtain ⟨k, hk⟩ := Nat.exists_eq_add_of_lt hi
  have hsuffices : (Rules.within n).Suffices (k + 1 + 1 - 1) := by
    apply Rules.within_suffices
    unfold Context.Room at hroom
    omega
  have hfinishes := (hsuffices.closed hreading).arrowParameters false (Nat.le_add_left 1 (k + 1))
    (show c.tokens.size < s.position + (k + 1 + 1) by rw [hs.position]; omega)
  cases hrun : arrowParameters (.within n) false c s with
  | ok params t =>
    obtain ⟨u, harrow, -⟩ := arrowParameters_ok hrun
    exact absurd harrow (hc.kind_ne_arrow _)
  | error e t =>
    cases e with
    | exhausted =>
      rw [hrun] at hfinishes
      exact hfinishes.elim
    | error error =>
      have hpunctual : c.Punctual := fun i harrow => absurd harrow (hc.kind_ne_arrow i)
      have hcause := ((Rules.within_punctual n).steps hreading).arrowParameters false hpunctual hrun
      have hkept := ((Rules.within_keeping n).steps hreading).arrowParameters false
        (.inr ⟨error, hrun⟩)
      exact ⟨error, t, rfl, hcause, hkept.inInitializer.trans hs.inInitializer⟩

/-! ### Parts in their positions -/

/-- The words of the expression are read as it stands, wherever it fits, and reading may go on. What
follows must not be pulled into its last operand. -/
def Expr.Readable (c : Context) (e : Expr) : Prop :=
  ∀ ⦃n floor i j : Nat⦄ ⦃mode : ExprMode⦄ ⦃s : State⦄, c.Room n i → StopsBelow mode.stops floor →
    e.fits floor = true → e.fits mode.least = true → s.Stands i → c.Shows i e.words →
    j = i + e.words.length → (∀ p ∈ e.last?, c.EndsAt mode.stops p j) →
    Reaches (.within n) mode c s e j

namespace Expr

theorem Plain.words_ne_nil (he : e.Plain) : e.words ≠ [] := by
  cases he <;> simp [words]

theorem Plain.placed_ne_nil (he : e.Plain) (need : Nat) : e.placed need e.words ≠ [] := by
  rw [placed]
  split
  · exact he.words_ne_nil
  · exact List.cons_ne_nil _ _

theorem placed_of_fits {ws : List Word} (h : e.fits need = true) : e.placed need ws = ws := by
  rw [placed, if_pos h]

namespace Readable

/-- An expression up to a closing token may be anything. -/
theorem closed (h : e.Readable c) (hc : c.Plain) (he : e.Plain) (hroom : c.Room n i)
    {kind : TokenKind} (hupdate : Operator.update? kind = none)
    (hfollowing : Operator.following? kind = none) (insertion : Bool) (hshows : c.Shows i e.words)
    (hj : j = i + e.words.length) (hkind : (c.token j).kind = kind) :
    (Rules.within (n + 1)).Rereads ⟨Operator.comma.precedence, [kind], insertion⟩ c i e j := by
  intro s hs
  have hsize := hshows.le_size he.words_ne_nil fun w hw => (he.printable w hw).separate.kind_ne_eof
  have hends (least : Nat) : c.EndsAt [kind] least j := .inl (List.mem_singleton.2 hkind)
  have hreaches : Reaches (.within n) ⟨Operator.comma.precedence, [kind], insertion⟩ c s e j :=
    h hroom (.closing hupdate hfollowing) (fits_mono e.fits_comma (Nat.zero_le _)) e.fits_comma hs
      hshows hj fun p _ => hends p
  refine hreaches.ends hc (hends _) ?_
  rw [Rules.within_budget, hs.position]
  unfold Context.Room at hroom
  omega

/-- An expression in its position is read as it stands where it fits, and in parentheses where it
does not. -/
theorem placed (h : e.Readable c) (hc : c.Plain) (he : e.Plain) (hroom : c.Room n i)
    (hstops : StopsBelow mode.stops floor) (hfloor : floor ≤ need) (hleast : mode.least ≤ need)
    (hs : s.Stands i) (hshows : c.Shows i (e.placed need e.words))
    (hj : j = i + (e.placed need e.words).length)
    (hlast : e.fits need = true → ∀ p ∈ e.last?, c.EndsAt mode.stops p j) :
    Reaches (.within n) mode c s e j := by
  by_cases hfits : e.fits need = true
  · rw [placed_of_fits hfits] at hshows hj
    exact h hroom hstops (fits_mono hfits hfloor) (fits_mono hfits hleast) hs hshows hj
      (hlast hfits)
  · rw [Expr.placed, if_neg hfits] at hshows hj
    obtain ⟨k, hk, hinside, hclose⟩ := hshows.split
    rw [Word.parenthesised, List.length_append, ← Nat.add_assoc, ← hk] at hj
    have hopen : (c.token i).kind = .punctuator .parenthesisOpen := hinside.kind
    have hclose : (c.token k).kind = .punctuator .parenthesisClose := hclose.kind
    have hi : i < c.tokens.size := Context.lt_size (by rw [hopen]; decide)
    obtain ⟨m, rfl, hroom'⟩ := hroom.inside hi (Nat.lt_succ_self i)
    have hk' : k = i + 1 + e.words.length := by
      rw [hk, List.length_cons]
      omega
    have hrereads := h.closed hc he hroom' rfl rfl mode.insertion hinside.tail hk' hclose
    obtain ⟨e', t, hrun, hbare, ht⟩ := operand_parenthesised hs hopen
      (fun u hu => arrowParameters_fails hc hroom hi hu) hrereads hclose
    subst hj
    refine .of_operand hrun hbare ht ?_
    rw [hs.position, hk']
    simp only [List.length_cons, List.length_nil]
    omega

/-- A part in front of an operator is read up to the operator, which is no stop, and behind which
there is room for one step further inside. -/
theorem before (h : e.Readable c) (hc : c.Plain) (he : e.Plain) {op : Operator}
    (htarget : op.isAssignment = true → isAssignable e = true) (hroom : c.Room n i)
    (hstops : StopsBelow mode.stops floor) (hfloor : floor ≤ op.precedence)
    (hleast : mode.least ≤ op.precedence) (hs : s.Stands i)
    (hshows : c.Shows i (e.placed op.leftPrecedence e.words))
    (hj : j = i + (e.placed op.leftPrecedence e.words).length)
    (hsign : Operator.update? (c.token j).kind = some op
      ∨ Operator.following? (c.token j).kind = some op) :
    Reaches (.within n) mode c s e j ∧ (c.token j).kind ∉ mode.stops
      ∧ ∃ m, n = m + 1 ∧ c.Room m (j + 1) := by
  have hleft := op.precedence_le_leftPrecedence
  have hop := Operator.ne_conditionalAlternate hsign
  have hij : i ≤ j := hj ▸ Nat.le_add_right _ _
  refine ⟨h.placed hc he hroom hstops (hfloor.trans hleft) (hleast.trans hleft) hs hshows hj ?_, ?_,
    (hroom.mono hij).inside ?_ (Nat.lt_succ_self j)⟩
  · intro hfits p hp
    exact .inr ⟨op, hsign, he.precedence_lt_last hop htarget hfits p hp⟩
  · intro hmem
    exact Nat.not_lt.2 hfloor (hstops.precedence_lt hmem hsign)
  · apply Context.lt_size
    intro heof
    rw [heof] at hsign
    obtain h | h := hsign <;> cases h

/-- A part behind an operator is read up to a token that ends it. -/
theorem behind (h : e.Readable c) (hc : c.Plain) (he : e.Plain)
    (hneed : need ≠ Operator.conditional.precedence) (hroom : c.Room n i)
    (hstops : StopsBelow mode.stops floor) (hfloor : floor ≤ need) (hleast : mode.least ≤ need)
    (hshows : c.Shows i (e.placed need e.words)) (hj : j = i + (e.placed need e.words).length)
    (hends : c.EndsAt mode.stops mode.least j) :
    (Rules.within (n + 1)).Rereads mode c i e j := by
  intro s hs
  have hsize : j ≤ c.tokens.size := by
    rw [hj]
    exact hshows.le_size (he.placed_ne_nil need) fun w hw =>
      (printable_placed he.printable need w hw).separate.kind_ne_eof
  have hreaches := h.placed hc he hroom hstops hfloor hleast hs hshows hj fun hfits p hp =>
    hends.mono (hleast.trans (he.le_last hneed hfits p hp))
  refine hreaches.ends hc hends ?_
  rw [Rules.within_budget, hs.position]
  unfold Context.Room at hroom
  omega

end Readable

/-! ### Arguments -/

/-- A word that neither ends a list of arguments nor spreads one. -/
def BeginsArgument (w : Word) : Prop :=
  w.kind ∉ [.punctuator .parenthesisClose, .punctuator .dotDotDot]

theorem placed_head {ws : List Word} (h : ∃ w rest, ws = w :: rest ∧ BeginsArgument w)
    (e : Expr) (need : Nat) : ∃ w rest, e.placed need ws = w :: rest ∧ BeginsArgument w := by
  rw [placed]
  split
  · exact h
  · refine ⟨_, _, rfl, ?_⟩
    unfold BeginsArgument
    decide

theorem append_head {ws : List Word} (h : ∃ w rest, ws = w :: rest ∧ BeginsArgument w)
    (vs : List Word) : ∃ w rest, ws ++ vs = w :: rest ∧ BeginsArgument w := by
  obtain ⟨w, rest, rfl, hw⟩ := h
  exact ⟨w, rest ++ vs, rfl, hw⟩

/-- Every plain expression begins with a name, an operator before an operand or a parenthesis. -/
theorem Plain.head (he : e.Plain) : ∃ w rest, e.words = w :: rest ∧ BeginsArgument w := by
  induction he with
  | ident _ _ =>
    rw [words]
    refine ⟨_, _, rfl, ?_⟩
    unfold BeginsArgument Word.name
    simp
  | unary _ hop _ _ =>
    rw [words]
    refine ⟨_, _, rfl, fun hmem => ?_⟩
    have hkind := Operator.table_kindIn hop.1
    simp only [List.mem_cons, List.not_mem_nil, or_false] at hmem
    obtain h | h := hmem
    · rw [show Operator.kindIn _ _ = _ from h] at hkind
      cases hkind
    · rw [show Operator.kindIn _ _ = _ from h] at hkind
      cases hkind
  | binary _ _ _ _ _ ihleft _ =>
    rw [words]
    exact append_head (placed_head ihleft _ _) _
  | update _ _ _ ih =>
    rw [words]
    exact append_head (placed_head ih _ _) _
  | conditional _ _ _ _ ihtest _ _ =>
    rw [words]
    exact append_head (append_head (placed_head ihtest _ _) _) _
  | member _ _ _ ih =>
    rw [words]
    exact append_head (placed_head ih _ _) _
  | computedMember _ _ _ ihobject _ =>
    rw [words]
    exact append_head (append_head (placed_head ihobject _ _) _) _
  | call _ _ _ _ ihcallee _ =>
    rw [words]
    exact append_head (append_head (placed_head ihcallee _ _) _) _

/-- An argument is read from its words, up to a comma or the closing parenthesis. -/
theorem Readable.argument (h : e.Readable c) (hc : c.Plain) (he : e.Plain) (hroom : c.Room n i)
    (hshows : c.Shows i (e.placed (Operator.comma.precedence + 1) e.words))
    (hj : j = i + (e.placed (Operator.comma.precedence + 1) e.words).length)
    (hends : (c.token j).kind ∈ argumentStops) :
    (c.token i).kind ∉ [.punctuator .parenthesisClose, .punctuator .dotDotDot]
      ∧ (Rules.within (n + 1)).Rereads (.whole argumentStops) c i e j ∧ i < j := by
  have hpos := List.length_pos_iff.2 (he.placed_ne_nil (Operator.comma.precedence + 1))
  refine ⟨?_, ?_, by omega⟩
  · obtain ⟨w, rest, hcons, hw⟩ := placed_head he.head e (Operator.comma.precedence + 1)
    rw [hcons] at hshows
    rw [hshows.kind]
    exact hw
  · have hneed : Operator.comma.precedence + 1 ≠ Operator.conditional.precedence := by decide
    exact h.behind hc he hneed hroom .arguments (Nat.le_refl _) (Nat.le_succ _) hshows hj
      (.inl hends)

/-- Arguments are read from their words, up to the closing parenthesis. -/
theorem argumentsAt {arguments : List Arg} (hc : c.Plain)
    (hspread : ∀ a ∈ arguments, a.spread = false) (hplain : ∀ a ∈ arguments, a.value.Plain)
    (hreadable : ∀ a ∈ arguments, a.value.Readable c)
    (hroom : c.Room n i) (hshows : c.Shows i (Arg.listWords arguments))
    (hj : j = i + (Arg.listWords arguments).length)
    (hclose : (c.token j).kind = .punctuator .parenthesisClose) :
    ArgumentsAt (.within (n + 1)) c i arguments (j + 1) := by
  induction arguments generalizing i with
  | nil =>
    obtain rfl : j = i := hj
    exact .nil hclose
  | cons a rest ih =>
    obtain ⟨span, spread, value⟩ := a
    obtain rfl : spread = false := hspread _ List.mem_cons_self
    have hvalue : value.Plain := hplain _ List.mem_cons_self
    have hread : value.Readable c := hreadable _ List.mem_cons_self
    cases rest with
    | nil =>
      rw [Arg.listWords, Arg.words] at hshows hj
      have hends : (c.token j).kind ∈ argumentStops := by
        rw [hclose]
        decide
      obtain ⟨hfirst, hrereads, hlt⟩ := hread.argument hc hvalue hroom hshows hj hends
      exact .last span hfirst hrereads hlt hclose
    | cons b rest =>
      rw [Arg.listWords, Arg.words] at hshows hj
      obtain ⟨k, hk, hshowsValue, hshowsRest⟩ := hshows.split
      have hcomma : (c.token k).kind = .punctuator .comma := hshowsRest.kind
      have hends : (c.token k).kind ∈ argumentStops := by
        rw [hcomma]
        decide
      obtain ⟨hfirst, hrereads, hlt⟩ := hread.argument hc hvalue hroom hshowsValue hk hends
      have hj : j = k + 1 + (Arg.listWords (b :: rest)).length := by
        rw [hj, List.length_append, List.length_cons]
        omega
      have hrest := ih (fun a ha => hspread a (List.mem_cons_of_mem _ ha))
        (fun a ha => hplain a (List.mem_cons_of_mem _ ha))
        (fun a ha => hreadable a (List.mem_cons_of_mem _ ha)) (hroom.mono (by omega))
        hshowsRest.tail hj
      exact .cons span hfirst hrereads hlt hcomma hrest

/-! ### Every plain expression -/

namespace Plain

theorem readable_ident (hc : c.Plain) (span : Span) {name : String}
    (hname : Lexeme.isPlainName name = true) : (Expr.ident span name).Readable c := by
  intro n floor i l mode s _ _ _ _ hs hshows hl _
  rw [words] at hshows hl
  obtain rfl : l = i + 1 := hl
  obtain ⟨span', t, hrun, ht⟩ := operand_name hname hc hs hshows.kind hshows.text
  refine .of_operand hrun ?_ ht (hs.position ▸ Nat.lt_succ_self _)
  rw [Expr.bare, Expr.bare]

theorem readable_unary (hc : c.Plain) (span : Span) {op : Operator} {argument : Expr}
    (hop : op.IsPrefix) (hargument : argument.Plain) (ih : argument.Readable c) :
    (Expr.unary span op argument).Readable c := by
  intro n floor i l mode s hroom hstops hfloor hleast hs hshows hl hlast
  have hfloor := fits_iff.1 hfloor op rfl
  rw [words, ← hop.operandPrecedence] at hshows hl
  have hsign : Operator.leading? (c.token i).kind = some op := by
    rw [hshows.kind]
    exact Operator.table_kindIn hop.1
  have hi : i < c.tokens.size := by
    apply Context.lt_size
    intro heof
    rw [heof] at hsign
    cases hsign
  obtain ⟨m, rfl, hroom'⟩ := hroom.inside hi (Nat.lt_succ_self i)
  have hl : l = i + 1 + (argument.placed op.operandPrecedence argument.words).length := by
    rw [hl, List.length_cons]
    omega
  have hrereads : (Rules.within (m + 1)).Rereads { mode with least := op.operandPrecedence } c
      (i + 1) argument l :=
    ih.behind hc hargument (Operator.operandPrecedence_ne hop.ne_conditional) hroom' hstops
      (hfloor.trans op.precedence_le_operandPrecedence) (Nat.le_refl _) hshows.tail hl (hlast _ rfl)
  obtain ⟨span', e', t, hrun, hbare, ht⟩ := operand_prefix hop hs hsign hrereads hargument
  refine .of_operand hrun ?_ ht (by rw [hs.position]; omega)
  rw [Expr.bare, Expr.bare, hbare]

theorem readable_update (hc : c.Plain) (span : Span) {op : Operator} {argument : Expr}
    (hop : op.IsUpdate) (hargument : argument.Plain) (ih : argument.Readable c) :
    (Expr.update span op argument).Readable c := by
  intro n floor i l mode s hroom hstops hfloor hleast hs hshows hl _
  have hfloor := fits_iff.1 hfloor op rfl
  have hleast := fits_iff.1 hleast op rfl
  obtain ⟨hleft, hassignment⟩ := hop.left
  rw [words, ← hleft] at hshows hl
  obtain ⟨j, hj, hshowsLeft, hshowsRight⟩ := hshows.split
  have hsign : Operator.update? (c.token j).kind = some op := by
    rw [hshowsRight.kind]
    exact Operator.table_kindIn hop
  have htarget : op.isAssignment = true → isAssignable argument = true := by
    rw [hassignment]
    exact fun h => absurd h (by decide)
  obtain ⟨hreaches, hstop, -⟩ := ih.before hc hargument htarget hroom hstops hfloor hleast hs
    hshowsLeft hj (.inl hsign)
  obtain rfl : l = j + 1 := by
    rw [hl, hj, List.length_append, Nat.add_assoc]
    rfl
  exact hreaches.update hc hsign hstop hleast span

theorem readable_binary (hc : c.Plain) (span : Span) {op : Operator} {left right : Expr}
    (hop : op.IsBinary) (htarget : op.isAssignment = true → isAssignable left = true)
    (hleft : left.Plain) (hright : right.Plain) (ihleft : left.Readable c)
    (ihright : right.Readable c) : (Expr.binary span op left right).Readable c := by
  intro n floor i l mode s hroom hstops hfloor hleast hs hshows hl hlast
  have hfloor := fits_iff.1 hfloor op rfl
  have hleast := fits_iff.1 hleast op rfl
  rw [words] at hshows hl
  obtain ⟨j, hj, hshowsLeft, hshowsRight⟩ := hshows.split
  have hsign : Operator.following? (c.token j).kind = some op := by
    rw [hshowsRight.kind]
    exact Operator.table_kindIn hop.1
  obtain ⟨hreaches, hstop, m, rfl, hroom'⟩ := ihleft.before hc hleft htarget hroom hstops hfloor
    hleast hs hshowsLeft hj (.inr hsign)
  have hl : l = j + 1 + (right.placed op.operandPrecedence right.words).length := by
    rw [hl, List.length_append, List.length_cons]
    omega
  have hrereads : (Rules.within (m + 1)).Rereads { mode with least := op.operandPrecedence } c
      (j + 1) right l :=
    ihright.behind hc hright (Operator.operandPrecedence_ne hop.ne_conditional) hroom' hstops
      (hfloor.trans op.precedence_le_operandPrecedence) (Nat.le_refl _) hshowsRight.tail hl
      (hlast _ rfl)
  exact hreaches.following hsign hstop hleast (by omega)
    (continues_binary hop htarget hrereads span)

theorem readable_conditional (hc : c.Plain) (span : Span) {test consequent alternate : Expr}
    (htest : test.Plain) (hconsequent : consequent.Plain) (halternate : alternate.Plain)
    (ihtest : test.Readable c) (ihconsequent : consequent.Readable c)
    (ihalternate : alternate.Readable c) :
    (Expr.conditional span test consequent alternate).Readable c := by
  intro n floor i l mode s hroom hstops hfloor hleast hs hshows hl hlast
  have hfloor := fits_iff.1 hfloor .conditional rfl
  have hleast := fits_iff.1 hleast .conditional rfl
  rw [words] at hshows hl
  obtain ⟨k, hk, hshows, hshowsAlternate⟩ := hshows.split
  obtain ⟨j, hj, hshowsTest, hshowsConsequent⟩ := hshows.split
  have hsign : Operator.following? (c.token j).kind = some .conditional := by
    rw [hshowsConsequent.kind]
    rfl
  obtain ⟨hreaches, hstop, m, rfl, hroom'⟩ := ihtest.before hc htest
    (fun h => absurd h (by decide)) hroom hstops hfloor hleast hs hshowsTest hj (.inr hsign)
  have hcolon : (c.token k).kind = .punctuator .colon := hshowsAlternate.kind
  have hk' : k = j + 1 + consequent.words.length := by
    rw [hk, List.length_append, List.length_cons]
    omega
  have hl' : l = k + 1 + (alternate.placed Operator.conditionalAlternate.precedence
      alternate.words).length := by
    rw [hl, List.length_append, List.length_cons]
    omega
  have hfirst : (Rules.within (m + 1)).Rereads (.whole [.punctuator .colon]) c (j + 1) consequent
      k :=
    ihconsequent.closed hc hconsequent hroom' rfl rfl false hshowsConsequent.tail hk' hcolon
  have hsecond : (Rules.within (m + 1)).Rereads
      { mode with least := Operator.conditionalAlternate.precedence } c (k + 1) alternate l :=
    ihalternate.behind hc halternate (by decide) (hroom'.mono (by omega)) hstops hstops.le
      (Nat.le_refl _) hshowsAlternate.tail hl' (hlast _ rfl)
  exact hreaches.following hsign hstop hleast (by omega)
    (continues_conditional hfirst hcolon hsecond span)

theorem readable_member (hc : c.Plain) (span : Span) {object : Expr} {name : String}
    (hobject : object.Plain) (hname : Lexeme.isPlainName name = true) (ih : object.Readable c) :
    (Expr.member span object name).Readable c := by
  intro n floor i l mode s hroom hstops hfloor hleast hs hshows hl _
  have hfloor := fits_iff.1 hfloor .memberAccess rfl
  have hleast := fits_iff.1 hleast .memberAccess rfl
  rw [words] at hshows hl
  obtain ⟨j, hj, hshowsObject, hshowsName⟩ := hshows.split
  have hsign : Operator.following? (c.token j).kind = some .memberAccess := by
    rw [hshowsName.kind]
    rfl
  obtain ⟨hreaches, hstop, -⟩ := ih.before hc hobject (fun h => absurd h (by decide)) hroom hstops
    hfloor hleast hs hshowsObject hj (.inr hsign)
  obtain rfl : l = j + 1 + 1 := by
    rw [hl, hj, List.length_append, ← Nat.add_assoc]
    rfl
  exact hreaches.following hsign hstop hleast (by omega)
    (continues_member hname hshowsName.tail.kind hshowsName.tail.text span)

theorem readable_computedMember (hc : c.Plain) (span : Span) {object member : Expr}
    (hobject : object.Plain) (hmember : member.Plain) (ihobject : object.Readable c)
    (ihmember : member.Readable c) : (Expr.computedMember span object member).Readable c := by
  intro n floor i l mode s hroom hstops hfloor hleast hs hshows hl _
  have hfloor := fits_iff.1 hfloor .computedMemberAccess rfl
  have hleast := fits_iff.1 hleast .computedMemberAccess rfl
  rw [words] at hshows hl
  obtain ⟨k, hk, hshows, hshowsClose⟩ := hshows.split
  obtain ⟨j, hj, hshowsObject, hshowsMember⟩ := hshows.split
  have hsign : Operator.following? (c.token j).kind = some .computedMemberAccess := by
    rw [hshowsMember.kind]
    rfl
  obtain ⟨hreaches, hstop, m, rfl, hroom'⟩ := ihobject.before hc hobject
    (fun h => absurd h (by decide)) hroom hstops hfloor hleast hs hshowsObject hj (.inr hsign)
  have hclose : (c.token k).kind = .punctuator .bracketClose := hshowsClose.kind
  have hk' : k = j + 1 + member.words.length := by
    rw [hk, List.length_append, List.length_cons]
    omega
  have hrereads : (Rules.within (m + 1)).Rereads (.whole [.punctuator .bracketClose]) c (j + 1)
      member k :=
    ihmember.closed hc hmember hroom' rfl rfl false hshowsMember.tail hk' hclose
  obtain rfl : l = k + 1 := by
    rw [hl, hk, List.length_append, ← Nat.add_assoc]
    rfl
  exact hreaches.following hsign hstop hleast (by omega)
    (continues_computedMember hrereads hclose span)

theorem readable_call (hc : c.Plain) (span : Span) {callee : Expr} {arguments : List Arg}
    (hcallee : callee.Plain) (hspread : ∀ a ∈ arguments, a.spread = false)
    (harguments : ∀ a ∈ arguments, a.value.Plain) (ihcallee : callee.Readable c)
    (iharguments : ∀ a ∈ arguments, a.value.Readable c) :
    (Expr.call span callee arguments).Readable c := by
  intro n floor i l mode s hroom hstops hfloor hleast hs hshows hl _
  have hfloor := fits_iff.1 hfloor .call rfl
  have hleast := fits_iff.1 hleast .call rfl
  rw [words] at hshows hl
  obtain ⟨k, hk, hshows, hshowsClose⟩ := hshows.split
  obtain ⟨j, hj, hshowsCallee, hshowsArguments⟩ := hshows.split
  have hsign : Operator.following? (c.token j).kind = some .call := by
    rw [hshowsArguments.kind]
    rfl
  obtain ⟨hreaches, hstop, m, rfl, hroom'⟩ := ihcallee.before hc hcallee
    (fun h => absurd h (by decide)) hroom hstops hfloor hleast hs hshowsCallee hj (.inr hsign)
  have hclose : (c.token k).kind = .punctuator .parenthesisClose := hshowsClose.kind
  have hk' : k = j + 1 + (Arg.listWords arguments).length := by
    rw [hk, List.length_append, List.length_cons]
    omega
  have hat := argumentsAt hc hspread harguments iharguments hroom' hshowsArguments.tail hk' hclose
  obtain rfl : l = k + 1 := by
    rw [hl, hk, List.length_append, ← Nat.add_assoc]
    rfl
  refine hreaches.following hsign hstop hleast (by omega) (continues_call (hat.reread ?_) span)
  have hsize : k < c.tokens.size := Context.lt_size (by rw [hclose]; decide)
  rw [Rules.within_budget]
  unfold Context.Room at hroom'
  omega

/-- **Every plain expression is read from its words.** -/
theorem readable (hc : c.Plain) (he : e.Plain) : e.Readable c := by
  induction he with
  | ident span hname => exact readable_ident hc span hname
  | binary span hop htarget hleft hright ihleft ihright =>
    exact readable_binary hc span hop htarget hleft hright ihleft ihright
  | unary span hop hargument ih => exact readable_unary hc span hop hargument ih
  | update span hop hargument ih => exact readable_update hc span hop hargument ih
  | conditional span htest hconsequent halternate ihtest ihconsequent ihalternate =>
    exact readable_conditional hc span htest hconsequent halternate ihtest ihconsequent ihalternate
  | member span hobject hname ih => exact readable_member hc span hobject hname ih
  | computedMember span hobject hmember ihobject ihmember =>
    exact readable_computedMember hc span hobject hmember ihobject ihmember
  | call span hcallee hspread harguments ihcallee iharguments =>
    exact readable_call hc span hcallee hspread harguments ihcallee iharguments

end Plain

/-- A printed expression as a text of its own, with a semicolon behind it. -/
def printed (e : Expr) (options : Options) : Context :=
  .ofSource (e.print ++ ";") options.classFields options

namespace Plain

/-- The tokens of a printed expression are its words, the semicolon, and the end of the text. -/
theorem shape_printed (he : e.Plain) (options : Options) (i : Nat) :
    ((e.printed options).token i).shape
      = ((e.words ++ [Word.sign (.punctuator .semicolon)]).map Word.shape).getD i
        (.eof, "", false) :=
  Context.shape_line (fun w hw => (he.printable w hw).separate) options.classFields options i

theorem printed_plain (he : e.Plain) (options : Options) : (e.printed options).Plain := by
  have hshape (i : Nat) : ((e.printed options).token i).kind ≠ arrowKind
      ∧ ((e.printed options).token i).newlineBefore = false := by
    have hwords : ∀ w ∈ e.words ++ [Word.sign (.punctuator .semicolon)], w.Printable := by
      simp only [List.forall_mem_append, List.forall_mem_singleton]
      exact ⟨he.printable, .punctuator nofun⟩
    have hall : ∀ shape ∈ (e.words ++ [Word.sign (.punctuator .semicolon)]).map Word.shape,
        shape.1 ≠ arrowKind ∧ shape.2.2 = false := by
      intro shape hmem
      obtain ⟨w, hw, rfl⟩ := List.mem_map.1 hmem
      exact ⟨(hwords w hw).kind_ne_arrow, rfl⟩
    have htoken := he.shape_printed options i
    rw [List.getD_eq_getElem?_getD] at htoken
    rw [show ((e.printed options).token i).kind = _ from congrArg Prod.fst htoken,
      show ((e.printed options).token i).newlineBefore = _ from
        congrArg (fun shape => shape.2.2) htoken]
    cases hfound : ((e.words ++ [Word.sign (.punctuator .semicolon)]).map Word.shape)[i]? with
    | none => exact ⟨nofun, rfl⟩
    | some shape => exact hall shape (List.mem_of_getElem? hfound)
  exact ⟨fun i => (hshape i).1, fun i => (hshape i).2⟩

/-- **Reading takes a printed expression back.** What a plain expression is printed as, with a
semicolon behind it, is read as this expression, locations aside, and read up to the semicolon, the
last token of the text. -/
theorem print_rereads (he : e.Plain) (options : Options) :
    ∃ (e' : Expr) (t : State),
      (Rules.within (e.printed options).budget).expr (.whole [.punctuator .semicolon])
          (e.printed options) .initial = .ok (e', false) t
      ∧ e'.bare = e.bare
      ∧ t.position = e.words.length
      ∧ ((e.printed options).token t.position).kind = .punctuator .semicolon
      ∧ ((e.printed options).token (t.position + 1)).kind = .eof := by
  have hshows := Context.shows_of_getD fun k => by
    rw [Nat.zero_add]
    exact he.shape_printed options k
  obtain ⟨j, hj, hwords, hsemicolon⟩ := hshows.split
  have hsemicolon : ((e.printed options).token j).kind = .punctuator .semicolon := hsemicolon.kind
  have hroom : (e.printed options).Room (2 * (e.printed options).tokens.size + 7) 0 := by
    unfold Context.Room
    omega
  have hplain := he.printed_plain options
  have hrereads := (he.readable hplain).closed hplain he hroom rfl rfl false hwords hj hsemicolon
  have hinitial : State.initial.Stands 0 := ⟨rfl, rfl⟩
  obtain ⟨e', t, hrun, hbare, ht⟩ := hrereads hinitial
  have hend : ((e.printed options).token (j + 1)).kind = .eof := by
    have hshape := he.shape_printed options (j + 1)
    rw [List.getD_eq_default] at hshape
    · exact congrArg Prod.fst hshape
    · rw [List.length_map, List.length_append, hj, Nat.zero_add]
      exact Nat.le_refl _
  refine ⟨e', t, hrun, hbare, ?_, ?_, ?_⟩
  · rw [ht.position, hj, Nat.zero_add]
  · rw [ht.position, hsemicolon]
  · rw [ht.position, hend]

/-- A sum in parentheses, because a product binds more tightly, and a sign without parentheses. -/
theorem print_rereads_product :
    (Expr.binary default .multiplication
        (.binary default .addition (.ident default "a") (.ident default "b"))
        (.unary default .unaryNegation (.ident default "c"))).print = "( a + b ) * - c"
    ∧ ∃ (e' : Expr) (t : State),
        (Rules.within
            (Context.ofSource "( a + b ) * - c;" true ⟨9, true⟩).budget).expr
          (.whole [.punctuator .semicolon]) (Context.ofSource "( a + b ) * - c;" true ⟨9, true⟩) .initial
          = .ok (e', false) t
        ∧ e'.bare = .binary default .multiplication
            (.binary default .addition (.ident default "a") (.ident default "b"))
            (.unary default .unaryNegation (.ident default "c"))
        ∧ t.position = 8 := by
  have hplain : (Expr.binary default .multiplication
      (.binary default .addition (.ident default "a") (.ident default "b"))
      (.unary default .unaryNegation (.ident default "c"))).Plain := by
    refine .binary _ ⟨⟨.punctuator .asterisk, rfl⟩, by decide⟩ (fun h => absurd h (by decide)) ?_ ?_
    · refine .binary _ ⟨⟨.punctuator .plus, rfl⟩, by decide⟩ (fun h => absurd h (by decide)) ?_ ?_
      · exact .ident _ (by decide)
      · exact .ident _ (by decide)
    · refine .unary _ ⟨⟨.punctuator .hyphen, rfl⟩, by decide, by decide⟩ ?_
      exact .ident _ (by decide)
  have hprint : (Expr.binary default .multiplication
      (.binary default .addition (.ident default "a") (.ident default "b"))
      (.unary default .unaryNegation (.ident default "c"))).print = "( a + b ) * - c" := by
    decide +kernel
  obtain ⟨e', t, hrun, hbare, hposition, -⟩ := hplain.print_rereads ⟨9, true⟩
  rw [printed, hprint] at hrun
  exact ⟨hprint, e', t, hrun, hbare, hposition⟩

end Plain

end Expr

end EcmaScript
