import EcmaScript.Proofs.Grammar.Locations
import EcmaScript.Proofs.Relation.Budget
import EcmaScript.Proofs.Relation.Respaced
import Mathlib.Data.List.GetD

namespace EcmaScript

open EcmaScript.Parser

/-!
# Parsing depends on the tokens only

Two sources with the same tokens are both accepted, with the same tree, or both refused, with the
same error at the same token.

* `Token.shape` — what the grammar asks of a token: its kind, its text, the line break before it;
* `Context.start_le_start_iff` — tokens begin in the order of their indices;
* `Respacing.ofSources` — two sources whose tokens have the same shapes;
* `ParsedAlike`, `Respacing.parsedAlike` — what becomes of two sources whose tokens are read alike;
* `parse_sameTokens` — they are parsed alike.
-/

/-- What the grammar asks of a token, its place apart. -/
def Token.shape (t : Token) : TokenKind × String × Bool := (t.kind, t.text, t.newlineBefore)

theorem Token.reading_eq_of_shape {t t' : Token} (h : t'.shape = t.shape) :
    t'.reading = t.reading := by
  obtain ⟨hkind, htail⟩ := Prod.mk.inj h
  rw [reading, reading, hkind, (Prod.mk.inj htail).1]

namespace Context

variable (source : String) (privateNames : Bool) (options : Options)

/-- Number of tokens of a source, the one for the end of the text included. -/
theorem tokens_length_pos : 0 < (Lexer.ofString source privateNames).tokens.length := by
  have htile : Lexer.Tiles 0 source.toList (Lexer.ofString source privateNames).tokens :=
    Lexer.tokens_tile (Lexer.ofString source privateNames)
  obtain ⟨inner, newline, htokens, -⟩ := htile.ends
  rw [htokens, List.length_append]
  exact Nat.lt_of_lt_of_le Nat.zero_lt_one (Nat.le_add_left _ _)

/-- Behind the last token the text ends at the place where the last token stands. -/
theorem token_start (i : Nat) :
    ((ofSource source privateNames options).token i).span.start
      = ((ofSource source privateNames options).token
          (min i ((Lexer.ofString source privateNames).tokens.length - 1))).span.start := by
  have htile : Lexer.Tiles 0 source.toList (Lexer.ofString source privateNames).tokens :=
    Lexer.tokens_tile (Lexer.ofString source privateNames)
  obtain ⟨inner, newline, htokens, -⟩ := htile.ends
  rcases Nat.lt_or_ge i (Lexer.ofString source privateNames).tokens.length with hi | hi
  · rw [Nat.min_eq_left (by omega)]
  · rw [Nat.min_eq_right (by omega), token_ofSource_eq, token_ofSource_eq,
      List.getD_eq_default _ _ hi, htokens]
    simp [Token.endOfText, Span.point, Lexer.byteLength_toList]

/-- Tokens begin in the order of their indices. -/
theorem start_lt_start {i j : Nat} (hij : i < j)
    (hj : j < (Lexer.ofString source privateNames).tokens.length) :
    ((ofSource source privateNames options).token i).span.start
      < ((ofSource source privateNames options).token j).span.start := by
  have htile : Lexer.Tiles 0 source.toList (Lexer.ofString source privateNames).tokens :=
    Lexer.tokens_tile (Lexer.ofString source privateNames)
  rw [token_ofSource_eq, token_ofSource_eq, List.getD_eq_getElem _ _ (hij.trans hj),
    List.getD_eq_getElem _ _ hj]
  exact (List.pairwise_iff_getElem.1 htile.pairwise i j (hij.trans hj) hj hij).2

theorem start_le_start_iff (i j : Nat) :
    ((ofSource source privateNames options).token i).span.start
        ≤ ((ofSource source privateNames options).token j).span.start
      ↔ min i ((Lexer.ofString source privateNames).tokens.length - 1)
        ≤ min j ((Lexer.ofString source privateNames).tokens.length - 1) := by
  have hpos := tokens_length_pos source privateNames
  rw [token_start source privateNames options i, token_start source privateNames options j]
  generalize hi : min i ((Lexer.ofString source privateNames).tokens.length - 1) = i'
  generalize hj : min j ((Lexer.ofString source privateNames).tokens.length - 1) = j'
  rcases Nat.lt_trichotomy i' j' with hlt | rfl | hgt
  · have := start_lt_start source privateNames options hlt (by omega)
    omega
  · exact ⟨fun _ => Nat.le_refl _, fun _ => Nat.le_refl _⟩
  · have := start_lt_start source privateNames options hgt (by omega)
    omega

/-- A token covers its own text. -/
theorem token_length (i : Nat) :
    ((ofSource source privateNames options).token i).span.length
      = ((ofSource source privateNames options).token i).text.utf8ByteSize := by
  have htile : Lexer.Tiles 0 source.toList (Lexer.ofString source privateNames).tokens :=
    Lexer.tokens_tile (Lexer.ofString source privateNames)
  rw [token_ofSource_eq]
  rcases Nat.lt_or_ge i (Lexer.ofString source privateNames).tokens.length with hi | hi
  · rw [List.getD_eq_getElem _ _ hi]
    obtain ⟨before, after, -, hspan⟩ := htile.slice (List.getElem_mem hi)
    rw [Span.length, hspan, Lexer.byteLength_toList]
    exact Nat.add_sub_cancel_left _ _
  · rw [List.getD_eq_default _ _ hi]
    exact Nat.sub_self _

variable {source privateNames options}

/-- What the tokens of two sources agree in one by one, they agree in behind the end as well. -/
theorem map_token {source' : String} {α : Type} {f : Token → α}
    (hend : ∀ m n, f (.endOfText m) = f (.endOfText n))
    (h : (Lexer.ofString source privateNames).tokens.map f
      = (Lexer.ofString source' privateNames).tokens.map f) (i : Nat) :
    f ((ofSource source' privateNames options).token i)
      = f ((ofSource source privateNames options).token i) := by
  have hlength := congrArg List.length h
  rw [List.length_map, List.length_map] at hlength
  rw [token_ofSource_eq, token_ofSource_eq]
  rcases Nat.lt_or_ge i (Lexer.ofString source privateNames).tokens.length with hi | hi
  · have hi' := hlength ▸ hi
    have hmap := congrArg (fun shapes => shapes[i]?) h
    simp only [List.getElem?_map, List.getElem?_eq_getElem hi, List.getElem?_eq_getElem hi',
      Option.map_some] at hmap
    rw [List.getD_eq_getElem _ _ hi, List.getD_eq_getElem _ _ hi']
    exact (Option.some.inj hmap).symm
  · rw [List.getD_eq_default _ _ hi, List.getD_eq_default _ _ (hlength ▸ hi)]
    exact hend _ _

theorem token_shape {source' : String}
    (h : (Lexer.ofString source privateNames).tokens.map Token.shape
      = (Lexer.ofString source' privateNames).tokens.map Token.shape) (i : Nat) :
    ((ofSource source' privateNames options).token i).shape
      = ((ofSource source privateNames options).token i).shape :=
  map_token (fun _ _ => rfl) h i

end Context

/-- Two sources whose tokens have the same shapes. -/
def Respacing.ofSources {source source' : String} {options : Options}
    (h : (Lexer.ofString source options.classFields).tokens.map Token.shape
      = (Lexer.ofString source' options.classFields).tokens.map Token.shape) : Respacing where
  token := (Context.ofSource source options.classFields options).token
  token' := (Context.ofSource source' options.classFields options).token
  shift := 0
  kind i := congrArg Prod.fst (Context.token_shape h i)
  reading i := Token.reading_eq_of_shape (Context.token_shape h i)
  definition i _ := congrArg (fun shape => shape.2.1) (Context.token_shape h (i + 1))
  newlineBefore {i} _ := congrArg (fun shape => shape.2.2) (Context.token_shape h i)
  sigil i _ := by
    have htext : ((Context.ofSource source' options.classFields options).token i).text
        = ((Context.ofSource source options.classFields options).token i).text :=
      congrArg (fun shape => shape.2.1) (Context.token_shape h i)
    rw [Context.token_length, Context.token_length, htext]
  start_le_iff i j := by
    have hlength := congrArg List.length h
    rw [List.length_map, List.length_map] at hlength
    rw [Context.start_le_start_iff, Context.start_le_start_iff, hlength]

/-- The tree of a source is that of its script. -/
theorem parse_eq_script (source : String) (options : Options) :
    parse source options =
      match Grammar.script
        (.within (Context.ofSource source options.classFields options).budget)
        (.ofSource source options.classFields options)
        (Context.ofSource source options.classFields options).begun with
      | .ok p _ => .ok p
      | .error e _ => .error e := by
  rw [parse, parseTraced, runScript_run]
  cases Grammar.script _ _ _ with
  | ok p t => rfl
  | error e t => cases e <;> rfl

/-- Both sources are given a tree, and the trees are the same but for their places; or both are
refused for the same cause and the same kind of token, at the tokens of one index. -/
def ParsedAlike (source source' : String) (options : Options) : Prop :=
  (∃ p p', parse source options = .ok p ∧ parse source' options = .ok p' ∧ p.bare = p'.bare)
    ∨ ∃ e e', parse source options = .error (.error e) ∧ parse source' options = .error (.error e')
      ∧ e.cause = e'.cause ∧ e.token = e'.token
      ∧ ∃ (i : Nat) (t t' : Token), (Lexer.ofString source options.classFields).tokens[i]? = some t
        ∧ (Lexer.ofString source' options.classFields).tokens[i]? = some t'
        ∧ e.span.start = t.span.start ∧ e'.span.start = t'.span.start

/-- Two sources with as many tokens, none of them in front of the others, which differ in their
places and in the spelling of names only, are parsed alike. -/
theorem Respacing.parsedAlike {source source' : String} {options : Options} (w : Respacing)
    (htoken : w.token = (Context.ofSource source options.classFields options).token)
    (htoken' : w.token' = (Context.ofSource source' options.classFields options).token)
    (hlength : (Lexer.ofString source options.classFields).tokens.length
      = (Lexer.ofString source' options.classFields).tokens.length)
    (hshift : w.shift = 0) : ParsedAlike source source' options := by
  set c := Context.ofSource source options.classFields options with hc
  set c' := Context.ofSource source' options.classFields options with hc'
  have hbudget : c'.budget = c.budget := by
    simp only [Context.budget, hc, hc', Context.ofSource, List.size_toArray, hlength]
  have hcontexts : w.Contexts c c' := by
    refine ⟨fun i => by rw [htoken], fun i => ?_, rfl, rfl, rfl⟩
    rw [htoken', hshift]
    rfl
  have hstates : w.States c.begun c'.begun := ⟨by rw [hshift]; rfl, .nil, rfl⟩
  have hscript := Respacing.Parallel.script (Rules.within_uniform w c.budget) hcontexts hstates
    (Nat.zero_le _)
  have hparse := parse_eq_script source options
  have hparse' := parse_eq_script source' options
  rw [← hc] at hparse
  rw [← hc', hbudget] at hparse'
  generalize Grammar.script (.within c.budget) c c.begun = r at hscript hparse
  generalize Grammar.script (.within c.budget) c' c'.begun = r' at hscript hparse'
  cases hscript with
  | ok hp _ _ => exact .inl ⟨_, _, hparse, hparse', hp⟩
  | @error e e' _ _ he _ =>
    obtain ⟨hcause, hkind, -, i, hstart, hstart'⟩ := he
    have hpos := Context.tokens_length_pos source options.classFields
    -- Behind the end of the text the error is at the last token.
    have hi : min i ((Lexer.ofString source options.classFields).tokens.length - 1)
        < (Lexer.ofString source options.classFields).tokens.length := by omega
    have hi' := hi.trans_eq hlength
    refine .inr ⟨e, e', hparse, hparse', hcause, hkind, _, _, _, List.getElem?_eq_getElem hi,
      List.getElem?_eq_getElem hi', ?_, ?_⟩
    · rw [hstart, htoken]
      refine (Context.token_start source options.classFields options i).trans ?_
      rw [Context.token_ofSource_eq, List.getD_eq_getElem _ _ hi]
    · rw [hstart', htoken']
      refine (Context.token_start source' options.classFields options i).trans ?_
      simp only [← hlength]
      rw [Context.token_ofSource_eq, List.getD_eq_getElem _ _ hi']
  | exhausted _ _ => exact absurd hparse (parse_ne_exhausted source options)

/-- **Parsing depends on the tokens only.** Two sources whose tokens agree in kind, text and line
breaks are both given a tree, and the trees are the same but for their places; or both are refused
for the same cause and the same kind of token, at the tokens of one index. -/
theorem parse_sameTokens {source source' : String} {options : Options}
    (h : (Lexer.ofString source options.classFields).tokens.map Token.shape
      = (Lexer.ofString source' options.classFields).tokens.map Token.shape) :
    (∃ p p', parse source options = .ok p ∧ parse source' options = .ok p' ∧ p.bare = p'.bare)
    ∨ ∃ e e', parse source options = .error (.error e) ∧ parse source' options = .error (.error e')
      ∧ e.cause = e'.cause ∧ e.token = e'.token
      ∧ ∃ (i : Nat) (t t' : Token), (Lexer.ofString source options.classFields).tokens[i]? = some t
        ∧ (Lexer.ofString source' options.classFields).tokens[i]? = some t'
        ∧ e.span.start = t.span.start ∧ e'.span.start = t'.span.start := by
  have hlength := congrArg List.length h
  rw [List.length_map, List.length_map] at hlength
  exact (Respacing.ofSources h).parsedAlike rfl rfl hlength rfl

set_option maxRecDepth 100000 in
/-- A class with a private name, once with comments and spaces and once with as few as possible. -/
theorem parse_sameTokens_spaces :
    (Lexer.ofString "class A { #x; m() { return this . #x /* sum */ + 1; } }" true).tokens.map
        Token.shape
      = (Lexer.ofString "class A{#x;m(){return this.#x+1;}}" true).tokens.map Token.shape
    ∧ ∃ p p', parse "class A { #x; m() { return this . #x /* sum */ + 1; } }" ⟨9, true⟩ = .ok p
      ∧ parse "class A{#x;m(){return this.#x+1;}}" ⟨9, true⟩ = .ok p' ∧ p.bare = p'.bare := by
  have hshape : (Lexer.ofString "class A { #x; m() { return this . #x /* sum */ + 1; } }"
        true).tokens.map Token.shape
      = (Lexer.ofString "class A{#x;m(){return this.#x+1;}}" true).tokens.map Token.shape := by
    decide +kernel
  have hsome : (parse "class A { #x; m() { return this . #x /* sum */ + 1; } }" ⟨9, true⟩).isOk = true
      := by decide +kernel
  refine ⟨hshape, ?_⟩
  have hoptions : (⟨9, true⟩ : Options).classFields = true := rfl
  rw [← hoptions] at hshape
  rcases parse_sameTokens hshape with hparse | ⟨e, _, hparse, -⟩
  · exact hparse
  · rw [hparse] at hsome
    cases hsome

end EcmaScript
