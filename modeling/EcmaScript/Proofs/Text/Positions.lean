import EcmaScript.Position
import EcmaScript.Proofs.Grammar.Locations
import EcmaScript.Proofs.Lexer.Layout
import Mathlib.Data.List.DropRight
import Mathlib.Data.Prod.Lex

namespace EcmaScript

/-!
# Lines and columns count line breaks and characters

The position of an offset depends on the characters that start before it, and on nothing else: the
line counts the line breaks among them, the column the characters behind the last one.

* `startedBefore` — the characters of a source that start before an offset;
* `lineBreaks`, `lastLine` — the line breaks of a text, and what stands behind the last of them;
* `Position.foldl_step` — the characters so far determine the position and whether a CR comes just
  before it;
* `Position.key_lt_foldl_step` — every character moves the position on, but for the LF of a CR LF;
* `Position.ofOffset_counts` — lines and columns are counted exactly, grow with the offset, and tell
  all places apart but the two sides of the LF of a CR LF.
-/

/-! ### What stands before an offset -/

/-- The characters of a text with the offsets at which they start, the first one at `here`. -/
def charStarts : Nat → List Char → List (Nat × Char)
  | _, [] => []
  | here, c :: rest => (here, c) :: charStarts (here + c.utf8Size) rest

/-- The characters of a source that start before an offset. -/
def startedBefore (source : String) (offset : Nat) : List Char :=
  ((charStarts 0 source.toList).filter fun x => x.1 < offset).map Prod.snd

/-- Number of line breaks in a text; CR LF is one of them. -/
def lineBreaks : List Char → Nat
  | [] => 0
  | '\r' :: '\n' :: rest => lineBreaks rest + 1
  | c :: rest => if CharSet.lineTerminator.has c then lineBreaks rest + 1 else lineBreaks rest

/-- What stands behind the last character of a text that belongs to a line break. -/
def lastLine (cs : List Char) : List Char := cs.rtakeWhile fun c => !CharSet.lineTerminator.has c

/-- No character starts before the first one. -/
theorem le_of_mem_charStarts {here : Nat} {cs : List Char} {x : Nat × Char}
    (hx : x ∈ charStarts here cs) : here ≤ x.1 := by
  induction cs generalizing here with
  | nil => cases hx
  | cons c rest ih =>
    obtain rfl | hx := List.mem_cons.1 hx
    · exact Nat.le_refl here
    · have := ih hx
      omega

/-- At the offset behind a front of a text, exactly this front has started. -/
theorem filter_charStarts_append (here : Nat) (before after : List Char) :
    (((charStarts here (before ++ after)).filter
      fun x => x.1 < here + Lexer.byteLength before).map Prod.snd) = before := by
  induction before generalizing here with
  | nil =>
    have hnone : (charStarts here after).filter (fun x => x.1 < here) = [] := by
      rw [List.filter_eq_nil_iff]
      intro x hx
      have := le_of_mem_charStarts hx
      simpa using this
    show ((charStarts here after).filter fun x => x.1 < here).map Prod.snd = []
    rw [hnone, List.map_nil]
  | cons c before ih =>
    have hpos := c.utf8Size_pos
    have hrest := ih (here + c.utf8Size)
    rw [Nat.add_assoc] at hrest
    rw [List.cons_append, charStarts, Lexer.byteLength_cons, List.filter_cons_of_pos, List.map_cons,
      hrest]
    simp only [decide_eq_true_eq]
    omega

theorem startedBefore_byteLength {source : String} {before after : List Char}
    (h : source.toList = before ++ after) :
    startedBefore source (Lexer.byteLength before) = before := by
  have hfront := filter_charStarts_append 0 before after
  rwa [Nat.zero_add, ← h] at hfront

/-- With a greater offset, more characters may have started. -/
theorem startedBefore_prefix (source : String) {a b : Nat} (hab : a ≤ b) :
    startedBefore source a <+: startedBefore source b := by
  suffices hfilter : ∀ here cs, (charStarts here cs).filter (fun x => x.1 < a)
      <+: (charStarts here cs).filter fun x => x.1 < b from (hfilter 0 source.toList).map Prod.snd
  intro here cs
  induction cs generalizing here with
  | nil => exact List.prefix_refl _
  | cons c rest ih =>
    by_cases ha : here < a
    · have hb : here < b := by omega
      simpa [charStarts, ha, hb] using ih (here + c.utf8Size)
    · -- The offsets only grow, so that nothing behind has started either.
      have hnone : (charStarts here (c :: rest)).filter (fun x => x.1 < a) = [] := by
        rw [List.filter_eq_nil_iff]
        intro x hx
        have := le_of_mem_charStarts hx
        simp only [decide_eq_true_eq]
        omega
      rw [hnone]
      exact List.nil_prefix

/-! ### Line breaks -/

/-- Every line terminator makes a line break, but for the CR of a CR LF: there the LF does. -/
theorem lineBreaks_cons (c : Char) (cs : List Char) :
    lineBreaks (c :: cs) = lineBreaks cs
      + if CharSet.lineTerminator.has c ∧ ¬ (c = '\r' ∧ cs.head? = some '\n') then 1 else 0 := by
  by_cases hpair : c = '\r' ∧ cs.head? = some '\n'
  · obtain ⟨rfl, hhead⟩ := hpair
    obtain ⟨rest, rfl⟩ := List.head?_eq_some_iff.1 hhead
    have hfeed : CharSet.lineTerminator.has '\n' = true := by decide
    rw [lineBreaks, lineBreaks, if_pos hfeed, if_neg (fun h => h.2 ⟨rfl, rfl⟩)]
    exact nofun
  · rw [lineBreaks]
    · by_cases hc : CharSet.lineTerminator.has c = true <;> simp [hc, hpair]
    · rintro rest rfl rfl
      exact hpair ⟨rfl, rfl⟩

/-- An LF right behind a CR belongs to its line break; every other line terminator makes one. -/
theorem lineBreaks_concat (cs : List Char) (c : Char) :
    lineBreaks (cs ++ [c]) = lineBreaks cs
      + if CharSet.lineTerminator.has c ∧ ¬ (c = '\n' ∧ cs.getLast? = some '\r') then 1 else 0 := by
  induction cs with
  | nil => simp [lineBreaks_cons]
  | cons d rest ih =>
    rw [List.cons_append, lineBreaks_cons, ih, lineBreaks_cons, Nat.add_right_comm]
    cases rest with
    | cons e rest => rfl
    | nil =>
      by_cases hpair : d = '\r' ∧ c = '\n'
      · obtain ⟨rfl, rfl⟩ := hpair
        decide
      · have hc : ¬ (c = '\n' ∧ [d].getLast? = some '\r') := by
          rintro ⟨rfl, hd⟩
          exact hpair ⟨Option.some.inj hd, rfl⟩
        have hd : ¬ (d = '\r' ∧ ([] ++ [c]).head? = some '\n') := by
          rintro ⟨rfl, hhead⟩
          exact hpair ⟨rfl, Option.some.inj hhead⟩
        simp only [hc, hd, not_false_eq_true, and_true, List.head?_nil, List.getLast?_nil,
          reduceCtorEq, and_false]

theorem lastLine_concat (cs : List Char) (c : Char) :
    lastLine (cs ++ [c]) = if CharSet.lineTerminator.has c then [] else lastLine cs ++ [c] := by
  by_cases hc : CharSet.lineTerminator.has c = true
  · rw [if_pos hc, lastLine, List.rtakeWhile_concat_neg _ _ _ (by simp [hc])]
  · rw [if_neg hc, lastLine, List.rtakeWhile_concat_pos _ _ _ (by simp [hc])]
    rfl

namespace Position

/-! ### Characters so far -/

/-- The position behind one more character, and whether the character is a CR. -/
def step (x : Position × Bool) (c : Char) : Position × Bool := (x.1.advance x.2 c, c = '\r')

/-- A walk takes a step for each character that starts before the offset. -/
theorem walk_eq_foldl (offset here : Nat) (p : Position) (afterReturn : Bool) (cs : List Char) :
    walk offset p here afterReturn cs
      = ((((charStarts here cs).filter fun x => x.1 < offset).map Prod.snd).foldl step
        (p, afterReturn)).1 := by
  induction cs generalizing p here afterReturn with
  | nil => rfl
  | cons c rest ih =>
    rw [walk]
    by_cases hoffset : offset ≤ here
    · have hnone : (charStarts here (c :: rest)).filter (fun x => x.1 < offset) = [] := by
        rw [List.filter_eq_nil_iff]
        intro x hx
        have := le_of_mem_charStarts hx
        simp only [decide_eq_true_eq]
        omega
      rw [if_pos hoffset, hnone]
      rfl
    · have hc : here < offset := by omega
      rw [if_neg hoffset, ih, charStarts, List.filter_cons_of_pos (by simpa using hc)]
      rfl

theorem ofOffset_eq_foldl (source : String) (offset : Nat) :
    ofOffset source offset = ((startedBefore source offset).foldl step (first, false)).1 :=
  walk_eq_foldl offset 0 first false source.toList

/-- The characters so far determine the position, and whether a CR comes just before it. -/
theorem foldl_step (cs : List Char) :
    cs.foldl step (first, false)
      = (Position.mk (1 + lineBreaks cs) (1 + (lastLine cs).length),
        decide (cs.getLast? = some '\r')) := by
  -- The induction appends characters: whether an LF makes a line break depends on what stands
  -- before it.
  induction cs using List.reverseRecOn with
  | nil => rfl
  | append_singleton cs c ih =>
    rw [List.foldl_append, ih, List.foldl_cons, List.foldl_nil, step, lineBreaks_concat,
      lastLine_concat, List.getLast?_concat]
    refine Prod.ext ?_ (by simp)
    show Position.advance (Position.mk (1 + lineBreaks cs) (1 + (lastLine cs).length))
      (cs.getLast? = some '\r') c = _
    by_cases hpair : c = '\n' ∧ cs.getLast? = some '\r'
    · obtain ⟨rfl, hlast⟩ := hpair
      -- Behind the CR a line has begun, and the LF is no part of it.
      obtain ⟨ds, rfl⟩ := List.getLast?_eq_some_iff.1 hlast
      have hline : lastLine (ds ++ ['\r']) = [] := lastLine_concat ds '\r'
      have hfeed : CharSet.lineTerminator.has '\n' = true := by decide
      simp [advance, hline, hfeed]
    · by_cases hc : CharSet.lineTerminator.has c = true
      · simp [advance, hc, hpair, Nat.add_assoc]
      · simp [advance, hc, hpair, Nat.add_assoc]

theorem ofOffset_eq (source : String) (offset : Nat) :
    ofOffset source offset = ⟨1 + lineBreaks (startedBefore source offset),
      1 + (lastLine (startedBefore source offset)).length⟩ := by
  rw [ofOffset_eq_foldl, foldl_step]

/-! ### The order of positions -/

/-- Positions in the order of reading: by lines, and in a line by columns. -/
def key (p : Position) : ℕ ×ₗ ℕ := toLex (p.line, p.column)

/-- A character moves the position on, unless it is the LF of a CR LF. -/
theorem key_lt_advance (p : Position) (afterReturn : Bool) (c : Char) :
    p.key < (p.advance afterReturn c).key
      ∨ c = '\n' ∧ afterReturn = true ∧ p.advance afterReturn c = p := by
  by_cases hpair : c = '\n' ∧ afterReturn = true
  · obtain ⟨rfl, rfl⟩ := hpair
    exact .inr ⟨rfl, rfl, rfl⟩
  · refine .inl ?_
    by_cases hc : CharSet.lineTerminator.has c = true
    · simp [key, advance, hpair, hc, Prod.Lex.toLex_lt_toLex]
    · simp [key, advance, hpair, hc, Prod.Lex.toLex_lt_toLex]

theorem key_le_advance (p : Position) (afterReturn : Bool) (c : Char) :
    p.key ≤ (p.advance afterReturn c).key := by
  obtain hlt | ⟨-, -, heq⟩ := p.key_lt_advance afterReturn c
  · exact hlt.le
  · rw [heq]

theorem key_le_foldl_step (x : Position × Bool) (cs : List Char) :
    x.1.key ≤ (cs.foldl step x).1.key := by
  induction cs generalizing x with
  | nil => exact le_refl _
  | cons c cs ih => exact (x.1.key_le_advance x.2 c).trans (ih (step x c))

/-- Further characters move the position on, unless they are the LF of a CR LF alone. -/
theorem key_lt_foldl_step (x : Position × Bool) {cs : List Char} (hne : cs ≠ []) :
    x.1.key < (cs.foldl step x).1.key ∨ cs = ['\n'] ∧ x.2 = true := by
  obtain ⟨c, cs, rfl⟩ := List.exists_cons_of_ne_nil hne
  obtain hlt | ⟨rfl, hreturn, heq⟩ := x.1.key_lt_advance x.2 c
  · exact .inl (hlt.trans_le (key_le_foldl_step (step x c) cs))
  · cases cs with
    | nil => exact .inr ⟨rfl, hreturn⟩
    | cons d cs =>
      -- Behind the LF no CR comes just before the next character.
      refine .inl ?_
      have hstep : step x '\n' = (x.1, false) := Prod.ext heq rfl
      obtain hlt | ⟨-, hfalse, -⟩ := x.1.key_lt_advance false d
      · rw [List.foldl_cons, hstep]
        exact hlt.trans_le (key_le_foldl_step (step (x.1, false) d) cs)
      · cases hfalse

/-- The two offsets are the sides of the LF of a CR LF. -/
def SidesOfLineFeed (source : String) (a b : Nat) : Prop :=
  ∃ before after, source.toList = before ++ '\r' :: '\n' :: after
    ∧ a = Lexer.byteLength before + 1 ∧ b = Lexer.byteLength before + 2

theorem exists_append_of_isValid {source : String} {offset : Nat}
    (h : (⟨offset⟩ : String.Pos.Raw).IsValid source) :
    ∃ before after, source.toList = before ++ after ∧ offset = Lexer.byteLength before := by
  obtain ⟨s, t, rfl, hs⟩ := String.Pos.Raw.isValid_iff_exists_append.1 h
  refine ⟨s.toList, t.toList, String.toList_append, ?_⟩
  rw [Lexer.byteLength_toList]
  exact congrArg String.Pos.Raw.byteIdx hs

theorem SidesOfLineFeed.ofOffset_eq {source : String} {a b : Nat} (h : SidesOfLineFeed source a b) :
    ofOffset source a = ofOffset source b := by
  obtain ⟨before, after, hsource, ha, hb⟩ := h
  have hleft : startedBefore source a = before ++ ['\r'] := by
    have hcut : source.toList = (before ++ ['\r']) ++ '\n' :: after := by simp [hsource]
    rw [ha, ← startedBefore_byteLength hcut, Lexer.byteLength_append]
    rfl
  have hright : startedBefore source b = before ++ ['\r'] ++ ['\n'] := by
    have hcut : source.toList = (before ++ ['\r'] ++ ['\n']) ++ after := by simp [hsource]
    rw [hb, ← startedBefore_byteLength hcut, Lexer.byteLength_append, Lexer.byteLength_append]
    rfl
  have hlast : (before ++ ['\r']).getLast? = some '\r' := by simp
  generalize before ++ ['\r'] = u at hleft hright hlast
  rw [ofOffset_eq_foldl, ofOffset_eq_foldl, hleft, hright, List.foldl_append, foldl_step]
  simp [step, advance, hlast]

/-- Of two places in a text the later one has the greater position, unless they are the sides of the
LF of a CR LF. -/
theorem key_lt_of_lt {source : String} {a b : Nat} (ha : (⟨a⟩ : String.Pos.Raw).IsValid source)
    (hb : (⟨b⟩ : String.Pos.Raw).IsValid source) (hab : a < b) :
    (ofOffset source a).key < (ofOffset source b).key ∨ SidesOfLineFeed source a b := by
  obtain ⟨u, v, hu, rfl⟩ := exists_append_of_isValid ha
  obtain ⟨w, z, hw, rfl⟩ := exists_append_of_isValid hb
  obtain ⟨x, rfl, -⟩ := Lexer.exists_append_of_byteLength_le (hw.symm.trans hu) hab.le
  have hne : x ≠ [] := by
    rintro rfl
    rw [List.append_nil] at hab
    exact absurd hab (Nat.lt_irrefl _)
  rw [ofOffset_eq_foldl, ofOffset_eq_foldl, startedBefore_byteLength hu,
    startedBefore_byteLength hw, List.foldl_append]
  obtain hlt | ⟨rfl, hreturn⟩ := key_lt_foldl_step (u.foldl step (first, false)) hne
  · exact .inl hlt
  · rw [foldl_step, decide_eq_true_eq] at hreturn
    obtain ⟨before, rfl⟩ := List.getLast?_eq_some_iff.1 hreturn
    refine .inr ⟨before, z, by simpa using hw, ?_, ?_⟩
    · rw [Lexer.byteLength_append]
      rfl
    · simp only [Lexer.byteLength_append]
      rfl

/-- **Lines and columns are counted exactly.** The line counts the line breaks among the characters
that start before the offset, the column the characters behind the last one. So the position grows
with the offset, and two places in a text share a position exactly if they are the two sides of the
LF of a CR LF. -/
theorem ofOffset_counts (source : String) :
    (∀ offset, ofOffset source offset = ⟨1 + lineBreaks (startedBefore source offset),
        1 + (lastLine (startedBefore source offset)).length⟩)
      ∧ (∀ a b, a ≤ b → (ofOffset source a).key ≤ (ofOffset source b).key)
      ∧ ∀ a b, (⟨a⟩ : String.Pos.Raw).IsValid source → (⟨b⟩ : String.Pos.Raw).IsValid source →
        a ≠ b → (ofOffset source a = ofOffset source b
          ↔ SidesOfLineFeed source a b ∨ SidesOfLineFeed source b a) := by
  refine ⟨ofOffset_eq source, fun a b hab => ?_, fun a b ha hb hne => ⟨fun heq => ?_, ?_⟩⟩
  · obtain ⟨more, hmore⟩ := startedBefore_prefix source hab
    rw [ofOffset_eq_foldl, ofOffset_eq_foldl, ← hmore, List.foldl_append]
    exact key_le_foldl_step _ more
  · obtain hab | hba := Nat.lt_or_gt_of_ne hne
    · refine .inl ((key_lt_of_lt ha hb hab).resolve_left fun hlt => ?_)
      exact hlt.ne (congrArg key heq)
    · refine .inr ((key_lt_of_lt hb ha hba).resolve_left fun hlt => ?_)
      exact hlt.ne (congrArg key heq.symm)
  · rintro (hsides | hsides)
    · exact hsides.ofOffset_eq
    · exact hsides.ofOffset_eq.symm

/-- An LF alone, a CR LF, a character of two bytes and a CR alone. -/
example : (List.range 9).map (fun offset => ofOffset "a\n\r\né\rb" offset)
    = [⟨1, 1⟩, ⟨1, 2⟩, ⟨2, 1⟩, ⟨3, 1⟩, ⟨3, 1⟩, ⟨3, 2⟩, ⟨3, 2⟩, ⟨4, 1⟩, ⟨4, 2⟩] := by decide +kernel

end Position

end EcmaScript
