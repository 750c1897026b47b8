import EcmaScript.Proofs.Lexer.Stream
import EcmaScript.Proofs.Parser.Runs

namespace EcmaScript

open EcmaScript.Parser

/-!
# Tokens as they are needed

A parser reads tokens from a list that is complete before it begins. A buffer that takes the next
token from the text only when it is needed first, and drops none, cannot be told from that list:
both are a cursor over the tokens that the lexer gives one after the other.

* `TokenBuffer` — the tokens that have been taken so far, and the place in the text behind them;
* `TokenStep` — what may be done with tokens and with the places that have been marked;
* `TokenStep.Moves` — what a cursor answers, and where it goes;
* `TokenStep.simulates` — parser, buffer and cursor take one step alike;
* `performSteps_refines` — and any number of steps.
-/

/-! ### A buffer of tokens -/

/-- Tokens that are taken from a text when they are needed first, and kept. -/
structure TokenBuffer where
  /-- Behind the last token that has been taken. -/
  lexer : Lexer
  /-- The tokens that have been taken. -/
  tokens : Array Token
  /-- Index of the next token. -/
  position : Nat

namespace TokenBuffer

/-- Before the first token. -/
def ofLexer (l : Lexer) : TokenBuffer := ⟨l, #[], 0⟩

/-- Takes one more token if all that have been taken are behind the position. -/
def filled (b : TokenBuffer) : TokenBuffer :=
  if b.tokens.size = b.position then
    { b with lexer := b.lexer.next.2, tokens := b.tokens.push b.lexer.next.1 }
  else b

/-- The next token, and the buffer behind it if it is to be read; nothing if the buffer has no token
at its position. -/
def forward (reads : Token → Bool) (b : TokenBuffer) : Option (Token × TokenBuffer) :=
  match b.filled.tokens[b.position]? with
  | some t => some (t, if reads t then { b.filled with position := b.position + 1 } else b.filled)
  | none => none

/-- Reads tokens. -/
def forwardMany : Nat → TokenBuffer → Option (List Token × TokenBuffer)
  | 0, b => some ([], b)
  | n + 1, b => do
    let (t, b) ← b.forward fun _ => true
    let (rest, b) ← forwardMany n b
    return (t :: rest, b)

/-- The span from the token at a mark to the last one that was read; nothing if the buffer lacks one
of them. Where nothing was read since, it is empty: at the token at the mark, or else at the place
in the text. -/
def since (mark : Nat) (b : TokenBuffer) : Option Span :=
  if b.position ≤ mark then
    match b.tokens[mark]? with
    | some t => some (.point t.span.start)
    | none => some (.point b.lexer.offset)
  else do
    let first ← b.tokens[mark]?
    let last ← b.tokens[b.position - 1]?
    return ⟨first.span.start, last.span.stop⟩

/-- The buffer over a text when a parser of this state has read it. -/
def under (l : Lexer) (s : State) : TokenBuffer :=
  ⟨l.after s.seen, ((List.range s.seen).map l.stream).toArray, s.position⟩

variable {l : Lexer} {s : State} {i : Nat}

@[simp] theorem under_position : (under l s).position = s.position := rfl

theorem under_size : (under l s).tokens.size = s.seen := by simp [under]

theorem under_tokens (h : i < s.seen) : (under l s).tokens[i]? = some (l.stream i) := by
  simp [under, h]

theorem under_tokens_eq_none (h : s.seen ≤ i) : (under l s).tokens[i]? = none := by
  simp [under, h]

/-- A token is taken where the parser sees one more. -/
theorem under_filled (h : s.position ≤ s.seen) : (under l s).filled = under l (s.looked 0) := by
  rw [filled, under_size]
  -- The parser sees a new token exactly where the position is behind all that were taken.
  by_cases hend : s.seen = s.position
  · have hseen : (s.looked 0).seen = s.seen + 1 := by
      simp only [State.looked]
      omega
    rw [under_position, if_pos hend, under, under, hseen, List.range_succ, Lexer.after_succ]
    simp [Lexer.stream]
  · have hseen : (s.looked 0).seen = s.seen := by
      simp only [State.looked]
      omega
    rw [under_position, if_neg hend, under, under, hseen]
    rfl

/-- The next token is there, and the parser sees or reads it. -/
theorem under_forward (h : s.position ≤ s.seen) (reads : Token → Bool) :
    (under l s).forward reads =
      some (l.stream s.position,
        under l (if reads (l.stream s.position) then s.advanced else s.looked 0)) := by
  have hseen : s.position < (s.looked 0).seen := by
    simp only [State.looked]
    omega
  rw [forward, under_filled h, under_position, under_tokens hseen]
  dsimp only
  by_cases hreads : reads (l.stream s.position) = true
  · rw [if_pos hreads, if_pos hreads]
    rfl
  · rw [if_neg hreads, if_neg hreads]

/-- A number of tokens are read, taken from the text as far as need be. -/
theorem under_forwardMany (n : Nat) (h : s.position ≤ s.seen) :
    (under l s).forwardMany n =
      some ((List.range n).map fun i => l.stream (s.position + i),
        under l { s with position := s.position + n, seen := max s.seen (s.position + n) }) := by
  induction n generalizing s with
  | zero => simp [forwardMany, under, Nat.max_eq_left h]
  | succ n ih =>
    have hadvanced : s.advanced.position ≤ s.advanced.seen := Nat.le_max_right ..
    have hseen : max s.advanced.seen (s.advanced.position + n)
        = max s.seen (s.position + (n + 1)) := by
      simp only [State.advanced]
      omega
    have hposition : s.advanced.position + n = s.position + (n + 1) := by
      rw [State.advanced_position]
      omega
    have hlist : (List.range (n + 1)).map (fun i => l.stream (s.position + i))
        = l.stream s.position
          :: (List.range n).map fun i => l.stream (s.advanced.position + i) := by
      rw [List.range_succ_eq_map, List.map_cons, List.map_map]
      simp [Function.comp_def, Nat.add_right_comm, Nat.add_assoc]
    rw [forwardMany, under_forward h, hlist, ← hseen, ← hposition]
    show ((under l s.advanced).forwardMany n
      >>= fun r => pure (l.stream s.position :: r.1, r.2)) = _
    rw [ih hadvanced]
    rfl

/-- The place since a mark is the one that the parser gives. -/
theorem under_since {c : Context} (hc : ∀ i, c.token i = l.stream i) (hl : l.offset = 0)
    (h : s.position ≤ s.seen) (mark : Nat) :
    (under l s).since mark = some (spanSince c mark s) := by
  rw [since, spanSince, under_position, hc, hc, hc]
  by_cases hmark : mark < s.position
  · rw [if_neg (Nat.not_le_of_lt hmark), if_pos hmark, under_tokens (by omega),
      under_tokens (by omega)]
    rfl
  · rw [if_pos (Nat.le_of_not_lt hmark), if_neg hmark]
    by_cases hseen : mark < s.seen
    · rw [under_tokens hseen, if_pos hseen]
    · rw [under_tokens_eq_none (Nat.le_of_not_lt hseen), if_neg hseen]
      -- Behind all the tokens that have been taken, the place in the text decides.
      cases hn : s.seen with
      | zero =>
        have hoffset : (under l s).lexer.offset = 0 := by simp [under, hn, Lexer.after, hl]
        rw [hoffset]
        rfl
      | succ n =>
        have hoffset : (under l s).lexer.offset = (l.stream n).span.stop := by
          simp [under, hn, Lexer.after_succ, Lexer.stream, Lexer.next_stop]
        rw [hoffset]
        rfl

end TokenBuffer

/-! ### Steps -/

/-- What may be done with the next tokens. Places that have been marked go by the order in which
they were marked; a place that has not been marked is neither gone to nor measured from. -/
inductive TokenStep where
  | peek
  | peekMany (n : Nat)
  | consume
  | consumeIf (kind : TokenKind)
  | consumeIfSatisfies (p : Token → Bool)
  | require (kind : TokenKind)
  | requireIf (p : TokenKind → Bool) (what : String)
  | checkpoint
  | restore (k : Nat)
  | since (k : Nat)

/-- What comes of a step. -/
inductive TokenAnswer where
  | token (t : Token)
  | tokens (ts : List Token)
  | matched (found : Bool)
  | accepted (found : Option Token)
  | required (found : Except SyntaxError Token)
  | place (span : Span)
  | done

namespace TokenStep

/-- The step of a parser with these marks, and the marks behind it. -/
def perform (marks : List Nat) : TokenStep → Parser (TokenAnswer × List Nat)
  | .peek => return (.token (← Parser.peek), marks)
  | .peekMany n => return (.tokens (← (List.range n).mapM look), marks)
  | .consume => return (.token (← next), marks)
  | .consumeIf kind => return (.matched (← accept kind), marks)
  | .consumeIfSatisfies p => return (.accepted (← acceptIf? p), marks)
  | .require kind => return (.required (← attempt (Parser.require kind)), marks)
  | .requireIf p what => return (.required (← attempt (Parser.requireIf p what)), marks)
  | .checkpoint => return (.done, marks ++ [← position])
  | .restore k =>
    match marks[k]? with
    | some mark => do
      Parser.restore mark
      return (.done, marks)
    | none => return (.done, marks)
  | .since k =>
    match marks[k]? with
    | some mark => return (.place (← Parser.since mark), marks)
    | none => return (.done, marks)

/-- The step of a buffer with these marks; nothing where it looks for a token that it lacks. -/
def take (marks : List Nat) :
    TokenStep → TokenBuffer → Option (TokenAnswer × List Nat × TokenBuffer)
  | .peek, b => do
    let (t, b) ← b.forward fun _ => false
    return (.token t, marks, b)
  | .peekMany n, b => do
    let (ts, after) ← b.forwardMany n
    return (.tokens ts, marks, { after with position := b.position })
  | .consume, b => do
    let (t, b) ← b.forward fun _ => true
    return (.token t, marks, b)
  | .consumeIf kind, b => do
    let (t, b) ← b.forward fun t => t.kind = kind
    return (.matched (t.kind = kind), marks, b)
  | .consumeIfSatisfies p, b => do
    let (t, b) ← b.forward p
    return (.accepted (if p t then some t else none), marks, b)
  | .require kind, b => do
    let (t, b) ← b.forward fun _ => true
    let found := if t.kind = kind then .ok t else .error (t.misplaced (.requiredToken kind))
    return (.required found, marks, b)
  | .requireIf p what, b => do
    let (t, b) ← b.forward fun _ => true
    let found := if p t.kind then .ok t else .error (t.misplaced (.expected what))
    return (.required found, marks, b)
  | .checkpoint, b => some (.done, marks ++ [b.position], b)
  | .restore k, b =>
    match marks[k]? with
    | some mark => some (.done, marks, { b with position := mark })
    | none => some (.done, marks, b)
  | .since k, b =>
    match marks[k]? with
    | some mark => do return (.place (← b.since mark), marks, b)
    | none => some (.done, marks, b)

/-- The step of a cursor at index `i`, with what it answers, the marks and the index behind it. Only
reading moves it on, and only going back to a mark moves it anywhere else. -/
inductive Moves (t : Nat → Token) (marks : List Nat) (i : Nat) :
    TokenStep → TokenAnswer → List Nat → Nat → Prop
  | peek : Moves t marks i .peek (.token (t i)) marks i
  | peekMany (n : Nat) :
    Moves t marks i (.peekMany n) (.tokens ((List.range n).map fun j => t (i + j))) marks i
  | consume : Moves t marks i .consume (.token (t i)) marks (i + 1)
  | consumeIf_found {kind : TokenKind} : (t i).kind = kind →
    Moves t marks i (.consumeIf kind) (.matched true) marks (i + 1)
  | consumeIf_other {kind : TokenKind} : (t i).kind ≠ kind →
    Moves t marks i (.consumeIf kind) (.matched false) marks i
  | consumeIfSatisfies_found {p : Token → Bool} : p (t i) = true →
    Moves t marks i (.consumeIfSatisfies p) (.accepted (some (t i))) marks (i + 1)
  | consumeIfSatisfies_other {p : Token → Bool} : p (t i) = false →
    Moves t marks i (.consumeIfSatisfies p) (.accepted none) marks i
  | require_found {kind : TokenKind} : (t i).kind = kind →
    Moves t marks i (.require kind) (.required (.ok (t i))) marks (i + 1)
  | require_other {kind : TokenKind} : (t i).kind ≠ kind →
    Moves t marks i (.require kind)
      (.required (.error ((t i).misplaced (.requiredToken kind)))) marks (i + 1)
  | requireIf_found {p : TokenKind → Bool} (what : String) : p (t i).kind = true →
    Moves t marks i (.requireIf p what) (.required (.ok (t i))) marks (i + 1)
  | requireIf_other {p : TokenKind → Bool} (what : String) : p (t i).kind = false →
    Moves t marks i (.requireIf p what)
      (.required (.error ((t i).misplaced (.expected what)))) marks (i + 1)
  | checkpoint : Moves t marks i .checkpoint .done (marks ++ [i]) i
  | restore {k mark : Nat} : marks[k]? = some mark → Moves t marks i (.restore k) .done marks mark
  | restore_unmarked {k : Nat} : marks[k]? = none → Moves t marks i (.restore k) .done marks i
  | since {k mark : Nat} : marks[k]? = some mark → mark < i →
    Moves t marks i (.since k) (.place ⟨(t mark).span.start, (t (i - 1)).span.stop⟩) marks i
  /-- Where nothing was read since, the place is empty. -/
  | since_empty {k mark : Nat} (offset : Nat) : marks[k]? = some mark → i ≤ mark →
    Moves t marks i (.since k) (.place (.point offset)) marks i
  | since_unmarked {k : Nat} : marks[k]? = none → Moves t marks i (.since k) .done marks i

/-! ### One step -/

variable {c : Context} {l : Lexer} {s : State} {marks : List Nat}

/-- Looks at tokens one after the other are one look that goes as far as the last. -/
theorem lookMany_run (first n : Nat) (h : s.position + first ≤ s.seen) :
    (List.range' first n).mapM look c s =
      .ok ((List.range' first n).map fun i => c.token (s.position + i))
        { s with seen := max s.seen (s.position + (first + n)) } := by
  induction n generalizing first s with
  | zero =>
    have hseen : max s.seen (s.position + first) = s.seen := Nat.max_eq_left h
    simp [hseen]
  | succ n ih =>
    have hle : (s.looked first).position + (first + 1) ≤ (s.looked first).seen :=
      Nat.le_max_right ..
    have hseen : max (s.looked first).seen (s.position + (first + 1 + n))
        = max s.seen (s.position + (first + (n + 1))) := by
      simp only [State.looked]
      omega
    rw [List.range'_succ, List.mapM_cons, look_bind, bind_apply, ih _ hle]
    simp only [State.looked_position, hseen, pure_apply, List.map_cons]
    rfl

theorem requireIf_run (p : TokenKind → Bool) (what : String) :
    Parser.requireIf p what c s =
      if p (c.token s.position).kind then .ok (c.token s.position) s.advanced
      else .error (.error ((c.token s.position).misplaced (.expected what))) s.advanced := by
  rw [Parser.requireIf, next_bind, ite_run]
  rfl

/-- What parser, buffer and cursor have in common behind a step: the answer and the marks, and the
places at which they stand. -/
structure Agrees (c : Context) (l : Lexer) (s : State) (marks : List Nat) (step : TokenStep)
    (answer : TokenAnswer) (marks' : List Nat) (s' : State) : Prop where
  performed : step.perform marks c s = .ok (answer, marks') s'
  taken : step.take marks (.under l s) = some (answer, marks', .under l s')
  moved : Moves l.stream marks s.position step answer marks' s'.position
  /-- No token has been read that was not taken. -/
  behind : s'.position ≤ s'.seen
  marked : ∀ mark ∈ marks', mark ≤ s'.seen

/-- A step that reads the next token. -/
theorem Agrees.of_advanced (hmarks : ∀ mark ∈ marks, mark ≤ s.seen) {step : TokenStep}
    {answer : TokenAnswer} (performed : step.perform marks c s = .ok (answer, marks) s.advanced)
    (taken : step.take marks (.under l s) = some (answer, marks, .under l s.advanced))
    (moved : Moves l.stream marks s.position step answer marks (s.position + 1)) :
    Agrees c l s marks step answer marks s.advanced :=
  ⟨performed, taken, moved, Nat.le_max_right ..,
    fun mark h => (hmarks mark h).trans (Nat.le_max_left ..)⟩

/-- A step that looks at the next token. -/
theorem Agrees.of_looked (hs : s.position ≤ s.seen) (hmarks : ∀ mark ∈ marks, mark ≤ s.seen)
    {step : TokenStep} {answer : TokenAnswer}
    (performed : step.perform marks c s = .ok (answer, marks) (s.looked 0))
    (taken : step.take marks (.under l s) = some (answer, marks, .under l (s.looked 0)))
    (moved : Moves l.stream marks s.position step answer marks s.position) :
    Agrees c l s marks step answer marks (s.looked 0) :=
  ⟨performed, taken, moved, hs.trans (Nat.le_max_left ..),
    fun mark h => (hmarks mark h).trans (Nat.le_max_left ..)⟩

/-- Looks at several tokens go as far as the last of them. -/
theorem simulates_peekMany (hc : ∀ i, c.token i = l.stream i) (hs : s.position ≤ s.seen)
    (hmarks : ∀ mark ∈ marks, mark ≤ s.seen) (n : Nat) :
    ∃ answer marks' s', Agrees c l s marks (.peekMany n) answer marks' s' := by
  have hlooks := lookMany_run (c := c) 0 n hs
  have hrange := List.range_eq_range' (n := n)
  refine ⟨.tokens ((List.range n).map fun i => l.stream (s.position + i)), marks,
    { s with seen := max s.seen (s.position + n) }, ?_, ?_, .peekMany n,
    hs.trans (Nat.le_max_left ..), fun mark h => (hmarks mark h).trans (Nat.le_max_left ..)⟩
  · rw [perform, hrange, bind_apply, hlooks]
    simp only [Nat.zero_add, hc, pure_apply]
  · simp only [take, TokenBuffer.under_forwardMany n hs]
    rfl

/-- A place since a mark is measured and nothing moves. -/
theorem simulates_since (hc : ∀ i, c.token i = l.stream i) (hl : l.offset = 0)
    (hs : s.position ≤ s.seen) (hmarks : ∀ mark ∈ marks, mark ≤ s.seen) (k : Nat) :
    ∃ answer marks' s', Agrees c l s marks (.since k) answer marks' s' := by
  cases hmark : marks[k]? with
  | some mark =>
    have hplace : Moves l.stream marks s.position (.since k) (.place (spanSince c mark s)) marks
        s.position := by
      rw [spanSince, hc, hc, hc]
      by_cases hlt : mark < s.position
      · rw [if_pos hlt]
        exact .since hmark hlt
      · rw [if_neg hlt]
        split
        · exact .since_empty _ hmark (Nat.le_of_not_lt hlt)
        · split <;> exact .since_empty _ hmark (Nat.le_of_not_lt hlt)
    refine ⟨.place (spanSince c mark s), marks, s, ?_, ?_, hplace, hs, hmarks⟩
    · rw [perform, hmark]
      dsimp only
      rw [since_bind, pure_apply]
    · rw [take, hmark]
      simp [TokenBuffer.under_since hc hl hs]
  | none =>
    refine ⟨.done, marks, s, ?_, ?_, .since_unmarked hmark, hs, hmarks⟩
    · rw [perform, hmark]
      rfl
    · rw [take, hmark]

/-- Parser, buffer and cursor take every step alike. -/
theorem simulates (hc : ∀ i, c.token i = l.stream i) (hl : l.offset = 0)
    (hs : s.position ≤ s.seen) (hmarks : ∀ mark ∈ marks, mark ≤ s.seen) (step : TokenStep) :
    ∃ answer marks' s', Agrees c l s marks step answer marks' s' := by
  have hnext := hc s.position
  have hforward := TokenBuffer.under_forward (l := l) hs
  cases step with
  | peek =>
    refine ⟨_, marks, _, .of_looked hs hmarks ?_ ?_ .peek⟩
    · rw [perform, peek_bind, hnext, pure_apply]
    · simp [take, hforward]
  | peekMany n => exact simulates_peekMany hc hs hmarks n
  | consume =>
    refine ⟨_, marks, _, .of_advanced hmarks ?_ ?_ .consume⟩
    · rw [perform, next_bind, hnext, pure_apply]
    · simp [take, hforward]
  | consumeIf kind =>
    by_cases hkind : (l.stream s.position).kind = kind
    · refine ⟨_, marks, _, .of_advanced hmarks ?_ ?_ (.consumeIf_found hkind)⟩
      · rw [perform, accept_bind, hnext, if_pos hkind, pure_apply]
      · simp [take, hforward, hkind]
    · refine ⟨_, marks, _, .of_looked hs hmarks ?_ ?_ (.consumeIf_other hkind)⟩
      · rw [perform, accept_bind, hnext, if_neg hkind, pure_apply]
      · simp [take, hforward, hkind]
  | consumeIfSatisfies p =>
    cases hp : p (l.stream s.position) with
    | true =>
      refine ⟨_, marks, _, .of_advanced hmarks ?_ ?_ (.consumeIfSatisfies_found hp)⟩
      · rw [perform, bind_apply, acceptIf?_run, hnext, if_pos hp]
        rfl
      · simp [take, hforward, hp]
    | false =>
      refine ⟨_, marks, _, .of_looked hs hmarks ?_ ?_ (.consumeIfSatisfies_other hp)⟩
      · rw [perform, bind_apply, acceptIf?_run, hnext, if_neg (by simp [hp])]
        rfl
      · simp [take, hforward, hp]
  | require kind =>
    by_cases hkind : (l.stream s.position).kind = kind
    · refine ⟨_, marks, _, .of_advanced hmarks ?_ ?_ (.require_found hkind)⟩
      · rw [perform, attempt_bind, require_run, hnext, if_pos hkind]
        rfl
      · simp [take, hforward, hkind]
    · refine ⟨_, marks, _, .of_advanced hmarks ?_ ?_ (.require_other hkind)⟩
      · rw [perform, attempt_bind, require_run, hnext, if_neg hkind]
        rfl
      · simp [take, hforward, hkind]
  | requireIf p what =>
    cases hp : p (l.stream s.position).kind with
    | true =>
      refine ⟨_, marks, _, .of_advanced hmarks ?_ ?_ (.requireIf_found what hp)⟩
      · rw [perform, attempt_bind, requireIf_run, hnext, if_pos hp]
        rfl
      · simp [take, hforward, hp]
    | false =>
      refine ⟨_, marks, _, .of_advanced hmarks ?_ ?_ (.requireIf_other what hp)⟩
      · rw [perform, attempt_bind, requireIf_run, hnext, if_neg (by simp [hp])]
        rfl
      · simp [take, hforward, hp]
  | checkpoint =>
    refine ⟨.done, marks ++ [s.position], s, rfl, rfl, .checkpoint, hs, fun mark h => ?_⟩
    rcases List.mem_append.1 h with h | h
    · exact hmarks mark h
    · exact (List.mem_singleton.1 h).trans_le hs
  | restore k =>
    cases hmark : marks[k]? with
    | some mark =>
      refine ⟨.done, marks, { s with position := mark }, ?_, ?_, .restore hmark,
        hmarks mark (List.mem_of_getElem? hmark), hmarks⟩
      · rw [perform, hmark]
        rfl
      · rw [take, hmark]
        rfl
    | none =>
      refine ⟨.done, marks, s, ?_, ?_, .restore_unmarked hmark, hs, hmarks⟩
      · rw [perform, hmark]
        rfl
      · rw [take, hmark]
  | since k => exact simulates_since hc hl hs hmarks k

end TokenStep

/-! ### Runs -/

/-- Steps one after the other. -/
def performSteps (marks : List Nat) : List TokenStep → Parser (List TokenAnswer)
  | [] => return []
  | step :: steps => do
    let (answer, marks) ← step.perform marks
    return answer :: (← performSteps marks steps)

/-- Steps of a buffer one after the other. -/
def takeSteps (marks : List Nat) :
    List TokenStep → TokenBuffer → Option (List TokenAnswer × TokenBuffer)
  | [], b => some ([], b)
  | step :: steps, b => do
    let (answer, marks, b) ← step.take marks b
    let (answers, b) ← takeSteps marks steps b
    return (answer :: answers, b)

/-- Steps of a cursor one after the other. -/
inductive MovesAlong (t : Nat → Token) :
    List Nat → Nat → List TokenStep → List TokenAnswer → Nat → Prop
  | nil (marks : List Nat) (i : Nat) : MovesAlong t marks i [] [] i
  | cons {marks marks' : List Nat} {i j k : Nat} {step : TokenStep} {steps : List TokenStep}
      {answer : TokenAnswer} {answers : List TokenAnswer} :
    step.Moves t marks i answer marks' j → MovesAlong t marks' j steps answers k →
      MovesAlong t marks i (step :: steps) (answer :: answers) k

/-- Parser, buffer and cursor run alike from wherever they stand at the same place. -/
theorem steps_simulate {c : Context} {l : Lexer} (hc : ∀ i, c.token i = l.stream i)
    (hl : l.offset = 0) (steps : List TokenStep) {s : State} {marks : List Nat}
    (hs : s.position ≤ s.seen) (hmarks : ∀ mark ∈ marks, mark ≤ s.seen) :
    ∃ answers t, performSteps marks steps c s = .ok answers t
      ∧ takeSteps marks steps (.under l s) = some (answers, .under l t)
      ∧ MovesAlong l.stream marks s.position steps answers t.position
      ∧ t.position ≤ t.seen := by
  -- The marks stay in bounds, as a step marks only the place where the parser stands.
  induction steps generalizing s marks with
  | nil => exact ⟨[], s, rfl, rfl, .nil marks s.position, hs⟩
  | cons step steps ih =>
    obtain ⟨answer, marks', u, h⟩ := TokenStep.simulates hc hl hs hmarks step
    obtain ⟨answers, t, hperform, htake, hmoves, ht⟩ := ih h.behind h.marked
    refine ⟨answer :: answers, t, ?_, ?_, .cons h.moved hmoves, ht⟩
    · rw [performSteps, bind_apply, h.performed]
      dsimp only
      rw [bind_apply, hperform]
      rfl
    · simp [takeSteps, h.taken, htake]

/-- Whatever is done with the tokens of a source, the parser is a cursor over the tokens that the
lexer gives one after the other, and cannot be told from a buffer that takes them as they are
needed: such a buffer never looks for a token that it lacks, and holds the first tokens of the
source, through the one before the cursor at least. -/
theorem performSteps_refines (source : String) (privateNames : Bool) (options : Options)
    (steps : List TokenStep) :
    ∃ answers s b,
      performSteps [] steps (.ofSource source privateNames options) .initial = .ok answers s
        ∧ takeSteps [] steps (.ofLexer (Lexer.ofString source privateNames)) = some (answers, b)
        ∧ MovesAlong (Lexer.ofString source privateNames).stream [] 0 steps answers s.position
        ∧ b.position = s.position ∧ s.position ≤ b.tokens.size
        ∧ b.tokens.toList
          = (List.range b.tokens.size).map (Lexer.ofString source privateNames).stream
        ∧ b.lexer = (Lexer.ofString source privateNames).after b.tokens.size
        ∧ s.seen = b.tokens.size := by
  have hmarks : ∀ mark ∈ ([] : List Nat), mark ≤ State.initial.seen := nofun
  obtain ⟨answers, s, hperform, htake, hmoves, hs⟩ := steps_simulate
    (Context.token_ofSource_eq_stream source privateNames options) rfl steps (Nat.le_refl 0) hmarks
  have hsize := TokenBuffer.under_size (l := Lexer.ofString source privateNames) (s := s)
  refine ⟨answers, s, .under (Lexer.ofString source privateNames) s, hperform, htake, hmoves, rfl,
    ?_, ?_, ?_, hsize.symm⟩
  · exact hs.trans_eq hsize.symm
  · rw [hsize]
    rfl
  · rw [hsize]
    rfl

end EcmaScript
