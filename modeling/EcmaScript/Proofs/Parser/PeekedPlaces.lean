import EcmaScript.Proofs.Parser.TokenBuffer

namespace EcmaScript

open EcmaScript.Parser

/-!
# Places that depend on what has been looked at

A place since a mark is measured from tokens that have been taken from the text. At a mark behind
all of them there is none to measure from, and the place is where the text goes on. So a look at the
token there moves the place over the trivia in front of the token.

* `TokenStep.Reaches` — the states, and the marks in them, that steps lead to;
* `spanSince_of_le` — the place since a mark behind which nothing was read;
* `peekSteps_run` — looks take tokens from the text, and leave all else as it is;
* `TokenStep.Reaches.since_peeked` — when a place is the same before and after looks.
-/

/-! ### Where tokens begin -/

namespace Lexer

/-- Only trivia stands in front of the next token. -/
theorem next_start (l : Lexer) :
    l.next.1.span.start = l.offset + byteLength ((Trivia.leading l.rest).flatMap Trivia.chars) := by
  have htoken (m : Lexer) (newline : Bool) : (m.token newline).1.span.start = m.offset := by
    unfold token
    split <;> rfl
  rw [next, htoken, skip, ← List.prefix_iff_eq_take.1 (Trivia.leading_isPrefix l.rest)]

/-- The next token begins right here exactly if no trivia stands in front of it. -/
theorem next_start_eq_iff (l : Lexer) :
    l.next.1.span.start = l.offset ↔ Trivia.leading l.rest = [] := by
  rw [next_start]
  cases hgap : Trivia.leading l.rest with
  | nil => simp
  | cons piece gap =>
    have hpos := byteLength_pos piece.chars_ne_nil
    simp only [List.flatMap_cons, byteLength_append, reduceCtorEq, iff_false]
    omega

end Lexer

/-! ### Places without tokens -/

variable {c : Context} {l : Lexer} {s : State} {mark : Nat}

/-- Where nothing was read since a mark, the place is empty: at the token at the mark if it has been
taken from the text, and else where the text goes on. -/
theorem spanSince_of_le (hc : ∀ i, c.token i = l.stream i) (hl : l.offset = 0)
    (hs : s.position ≤ s.seen) (hmark : mark ≤ s.seen) (hread : s.position ≤ mark) :
    spanSince c mark s =
      .point (if mark < s.seen then (l.stream mark).span.start else (l.after mark).offset) := by
  have hsince := TokenBuffer.under_since hc hl hs mark
  rw [TokenBuffer.since, TokenBuffer.under_position, if_pos hread] at hsince
  by_cases hseen : mark < s.seen
  · rw [TokenBuffer.under_tokens hseen] at hsince
    rw [if_pos hseen]
    exact (Option.some.inj hsince).symm
  · obtain rfl : mark = s.seen := Nat.le_antisymm hmark (Nat.le_of_not_lt hseen)
    rw [TokenBuffer.under_tokens_eq_none (Nat.le_refl _)] at hsince
    rw [if_neg hseen]
    exact (Option.some.inj hsince).symm

/-- Such a place is that of the token at the mark exactly if the token has been taken from the text,
or no trivia stands in front of it. -/
theorem spanSince_eq_point_iff (hc : ∀ i, c.token i = l.stream i) (hl : l.offset = 0)
    (hs : s.position ≤ s.seen) (hmark : mark ≤ s.seen) (hread : s.position ≤ mark) :
    spanSince c mark s = .point (l.stream mark).span.start
      ↔ mark < s.seen ∨ Trivia.leading (l.after mark).rest = [] := by
  rw [spanSince_of_le hc hl hs hmark hread]
  by_cases hseen : mark < s.seen
  · rw [if_pos hseen]
    exact iff_of_true rfl (.inl hseen)
  · have hpoint (m n : Nat) : Span.point m = .point n ↔ n = m :=
      ⟨fun h => (congrArg Span.start h).symm, fun h => h ▸ rfl⟩
    rw [if_neg hseen, hpoint, or_iff_right hseen]
    exact (l.after mark).next_start_eq_iff

namespace TokenStep

/-! ### States that can be reached -/

/-- The states, and the marks in them, that steps lead to from the start. -/
inductive Reaches (c : Context) : List Nat → State → Prop where
  | initial : Reaches c [] .initial
  | step {marks marks' : List Nat} {s t : State} {step : TokenStep} {answer : TokenAnswer} :
    Reaches c marks s → step.perform marks c s = .ok (answer, marks') t → Reaches c marks' t

/-- Neither the parser nor a mark stands behind the tokens that have been taken from the text. -/
theorem Reaches.bounds (hc : ∀ i, c.token i = l.stream i) (hl : l.offset = 0) {marks : List Nat}
    (h : Reaches c marks s) : s.position ≤ s.seen ∧ ∀ mark ∈ marks, mark ≤ s.seen := by
  induction h with
  | initial => exact ⟨Nat.le_refl 0, nofun⟩
  | @step marks marks' s t step answer _ hperform ih =>
    obtain ⟨answer', marks'', t', hagrees⟩ := simulates hc hl ih.1 ih.2 step
    rw [hagrees.performed] at hperform
    cases hperform
    exact ⟨hagrees.behind, hagrees.marked⟩

/-! ### Looks -/

/-- Does the step look at tokens, and no more than that? -/
def isPeek : TokenStep → Bool
  | peek => true
  | peekMany _ => true
  | _ => false

/-- A look takes tokens from the text. -/
theorem perform_of_isPeek {step : TokenStep} (hstep : step.isPeek = true)
    (hs : s.position ≤ s.seen) (marks : List Nat) :
    ∃ answer seen, s.seen ≤ seen
      ∧ step.perform marks c s = .ok (answer, marks) { s with seen := seen } := by
  cases step with
  | peek =>
    exact ⟨.token (c.token s.position), _, Nat.le_max_left _ _, by rw [perform, peek_bind]; rfl⟩
  | peekMany n =>
    have hlooks := lookMany_run (c := c) 0 n hs
    refine ⟨.tokens ((List.range' 0 n).map fun i => c.token (s.position + i)),
      max s.seen (s.position + (0 + n)), Nat.le_max_left _ _, ?_⟩
    rw [perform, List.range_eq_range', bind_apply, hlooks]
    rfl
  | _ => cases hstep

/-- Looks take tokens from the text, and leave all else as it is. -/
theorem peekSteps_run {steps : List TokenStep} (hsteps : ∀ step ∈ steps, step.isPeek = true)
    (hs : s.position ≤ s.seen) (marks : List Nat) :
    ∃ answers seen, s.seen ≤ seen
      ∧ performSteps marks steps c s = .ok answers { s with seen := seen } := by
  induction steps generalizing s with
  | nil => exact ⟨[], s.seen, Nat.le_refl _, rfl⟩
  | cons step steps ih =>
    obtain ⟨hstep, hsteps⟩ := List.forall_mem_cons.1 hsteps
    obtain ⟨answer, seen, hseen, hperform⟩ := perform_of_isPeek (c := c) hstep hs marks
    obtain ⟨answers, seen', hseen', hperforms⟩ :=
      ih (s := { s with seen := seen }) hsteps (hs.trans hseen)
    refine ⟨answer :: answers, seen', hseen.trans hseen', ?_⟩
    rw [performSteps, bind_apply, hperform]
    dsimp only
    rw [bind_apply, hperforms]
    rfl

/-- **Looking ahead moves a place only over trivia.** In every state that steps lead to, a place
since a mark can be measured before and after any looks, and is the same unless nothing was read
since the mark, the looks take the token at the mark from the text, and trivia stands in front of
it. Where nothing was read since, it is the empty place at the token at the mark exactly if this
token has been taken from the text or has no trivia in front of it. -/
theorem Reaches.since_peeked {source : String} {privateNames : Bool} {options : Options}
    {marks : List Nat} (h : Reaches (.ofSource source privateNames options) marks s)
    (hmark : mark ∈ marks) {peeks : List TokenStep}
    (hpeeks : ∀ step ∈ peeks, step.isPeek = true) :
    ∃ answers t before after,
      performSteps marks peeks (.ofSource source privateNames options) s = .ok answers t
        ∧ Parser.since mark (.ofSource source privateNames options) s = .ok before s
        ∧ Parser.since mark (.ofSource source privateNames options) t = .ok after t
        ∧ (after = before ↔ mark < s.seen ∨ t.seen ≤ mark
          ∨ Trivia.leading ((Lexer.ofString source privateNames).after mark).rest = [])
        ∧ (s.position ≤ mark →
          (before = .point ((Lexer.ofString source privateNames).stream mark).span.start
            ↔ mark < s.seen
              ∨ Trivia.leading ((Lexer.ofString source privateNames).after mark).rest = [])) := by
  have hc := Context.token_ofSource_eq_stream source privateNames options
  have hl : (Lexer.ofString source privateNames).offset = 0 := rfl
  obtain ⟨hs, hmarks⟩ := h.bounds hc hl
  have hmark := hmarks mark hmark
  obtain ⟨answers, seen, hseen, hrun⟩ :=
    peekSteps_run (c := .ofSource source privateNames options) hpeeks hs marks
  refine ⟨answers, _, _, _, hrun, since_run mark, since_run mark, ?_,
    spanSince_eq_point_iff hc hl hs hmark⟩
  by_cases hread : s.position ≤ mark
  · have hbefore := spanSince_eq_point_iff hc hl hs hmark hread
    have hafter := spanSince_of_le (s := { s with seen := seen }) hc hl (hs.trans hseen)
      (hmark.trans hseen) hread
    by_cases hreach : mark < seen
    · -- The looks have reached the token, so that the place is at the token behind them.
      rw [hafter, if_pos hreach, eq_comm, hbefore]
      simp [Nat.not_le_of_lt hreach]
    · have hsame := spanSince_of_le hc hl hs hmark hread
      rw [hafter, hsame, if_neg hreach, if_neg (fun hlt => hreach (hlt.trans_le hseen))]
      exact iff_of_true rfl (.inr (.inl (Nat.le_of_not_lt hreach)))
  · -- What has been read since the mark is measured by its tokens.
    have hlt := Nat.lt_of_not_le hread
    refine iff_of_true ?_ (.inl (hlt.trans_le hs))
    rw [spanSince, spanSince, if_pos hlt, if_pos hlt]

set_option maxRecDepth 100000 in
/-- Between the two names of `a /**/ b`, a look moves the place over the comment. -/
theorem Reaches.since_peeked_comment :
    ∃ s, Reaches (.ofSource "a /**/ b" false ⟨9, false⟩) [1] s ∧ s.position = 1 ∧ s.seen = 1
      ∧ ∃ answers t before after,
        performSteps [1] [.peek] (.ofSource "a /**/ b" false ⟨9, false⟩) s = .ok answers t
          ∧ Parser.since 1 (.ofSource "a /**/ b" false ⟨9, false⟩) s = .ok before s
          ∧ Parser.since 1 (.ofSource "a /**/ b" false ⟨9, false⟩) t = .ok after t
          ∧ after ≠ before
          ∧ before ≠ .point ((Lexer.ofString "a /**/ b" false).stream 1).span.start := by
  have hgap : Trivia.leading ((Lexer.ofString "a /**/ b" false).after 1).rest ≠ [] := by
    decide +kernel
  have hread : Reaches (.ofSource "a /**/ b" false ⟨9, false⟩) [] State.initial.advanced :=
    .step .initial (rfl : TokenStep.consume.perform _ _ _ = _)
  have hmarked : Reaches (.ofSource "a /**/ b" false ⟨9, false⟩) [1] State.initial.advanced :=
    .step hread (rfl : TokenStep.checkpoint.perform _ _ _ = _)
  refine ⟨_, hmarked, rfl, rfl, ?_⟩
  obtain ⟨answers, t, before, after, hperform, hbefore, hafter, hsame, hplace⟩ :=
    hmarked.since_peeked (List.mem_singleton_self 1)
      (by decide : ∀ step ∈ [TokenStep.peek], step.isPeek = true)
  have hseen : t.seen = 2 := by
    cases hperform
    rfl
  refine ⟨answers, t, before, after, hperform, hbefore, hafter, fun heq => ?_, fun heq => ?_⟩
  · obtain hlt | hle | hnil := hsame.1 heq
    · exact absurd hlt (by decide)
    · rw [hseen] at hle
      exact absurd hle (by decide)
    · exact hgap hnil
  · obtain hlt | hnil := (hplace (by decide)).1 heq
    · exact absurd hlt (by decide)
    · exact hgap hnil

end TokenStep

end EcmaScript
