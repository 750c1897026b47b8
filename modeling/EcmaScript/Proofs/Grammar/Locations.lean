import EcmaScript.Proofs.Grammar.Placed
import EcmaScript.Proofs.Lexer.Tiling

namespace EcmaScript

open EcmaScript.Parser

/-!
# Locations in a tree, and visits of it

The parts of a tree nest in the source text, and a visitor meets them in the order in which they
stand there.

* `Lexer.Tiles.token_place` — every token stands between two characters of the source;
* `Context.inOrder_ofSource` — the tokens of a source stand one behind the other;
* `InOrder.holds_spanBetween` — which tokens lie inside a place;
* `Grammar.operand_bareYield` — a `yield` without an operand is given one at its own place;
* `parse_places` — where the parts of a tree lie, and how a visitor meets them.
-/

/-! ### Places of tokens -/

/-- The offset stands between two characters of the source, or at one of its ends. -/
theorem isValid_byteLength {source : String} {before after : List Char}
    (h : source.toList = before ++ after) :
    (⟨Lexer.byteLength before⟩ : String.Pos.Raw).IsValid source := by
  refine String.Pos.Raw.isValid_iff_exists_append.2
    ⟨String.ofList before, String.ofList after, ?_, ?_⟩
  · apply String.toList_injective
    simpa using h
  · show (⟨_⟩ : String.Pos.Raw) = ⟨(String.ofList before).utf8ByteSize⟩
    rw [Lexer.byteLength_ofList]

/-- Where a span may lie in a source: both ends stand between two characters, in their order. -/
structure Span.IsIn (span : Span) (source : String) : Prop where
  le : span.start ≤ span.stop
  stop_le : span.stop ≤ source.utf8ByteSize
  start_valid : (⟨span.start⟩ : String.Pos.Raw).IsValid source
  stop_valid : (⟨span.stop⟩ : String.Pos.Raw).IsValid source

theorem Lexer.Tiles.token_place {source : String} {tokens : List Token}
    (h : Tiles 0 source.toList tokens) {t : Token} (ht : t ∈ tokens) : t.span.IsIn source := by
  obtain ⟨before, after, hsource, hspan⟩ := h.slice ht
  have hsize := congrArg byteLength hsource
  rw [byteLength_toList, byteLength_append, byteLength_append] at hsize
  have hend := isValid_byteLength hsource
  rw [byteLength_append] at hend
  rw [Nat.zero_add] at hspan
  rw [hspan]
  refine ⟨Nat.le_add_right _ _, ?_, ?_, hend⟩
  · show byteLength before + byteLength t.text.toList ≤ source.utf8ByteSize
    omega
  · exact isValid_byteLength (by rw [hsource, List.append_assoc])

namespace Context

variable (source : String) (privateNames : Bool) (options : Options)

theorem token_ofSource_eq (i : Nat) :
    (ofSource source privateNames options).token i
      = (Lexer.ofString source privateNames).tokens.getD i (.endOfText source.utf8ByteSize) := by
  simp [token, ofSource]

theorem token_isIn (i : Nat) :
    ((ofSource source privateNames options).token i).span.IsIn source := by
  have htile : Lexer.Tiles 0 source.toList (Lexer.ofString source privateNames).tokens :=
    Lexer.tokens_tile (Lexer.ofString source privateNames)
  rw [token_ofSource_eq, List.getD_eq_getElem?_getD]
  by_cases hi : i < (Lexer.ofString source privateNames).tokens.length
  · rw [List.getElem?_eq_getElem hi]
    exact htile.token_place (List.getElem_mem hi)
  · -- Behind the last token the text ends again.
    rw [List.getElem?_eq_none (Nat.le_of_not_lt hi)]
    have hend := isValid_byteLength (List.append_nil source.toList).symm
    rw [Lexer.byteLength_toList] at hend
    exact ⟨Nat.le_refl _, Nat.le_refl _, hend, hend⟩

/-- The tokens of a source stand one behind the other. -/
theorem inOrder_ofSource : InOrder (ofSource source privateNames options).token := by
  have htile : Lexer.Tiles 0 source.toList (Lexer.ofString source privateNames).tokens :=
    Lexer.tokens_tile (Lexer.ofString source privateNames)
  refine ⟨fun i => (token_isIn source privateNames options i).le, fun i => ?_⟩
  have hstop := (token_isIn source privateNames options i).stop_le
  rw [token_ofSource_eq source privateNames options (i + 1), List.getD_eq_getElem?_getD]
  by_cases hi : i + 1 < (Lexer.ofString source privateNames).tokens.length
  · rw [List.getElem?_eq_getElem hi, token_ofSource_eq, List.getD_eq_getElem?_getD,
      List.getElem?_eq_getElem (by omega)]
    exact (List.pairwise_iff_getElem.1 htile.pairwise i (i + 1) (by omega) hi
      (Nat.lt_succ_self i)).1
  · rw [List.getElem?_eq_none (Nat.le_of_not_lt hi)]
    exact hstop

/-- Every token covers something, unless it stands for the end of the text. -/
theorem token_ofSource_lt {i : Nat}
    (h : ((ofSource source privateNames options).token i).kind ≠ .eof) :
    ((ofSource source privateNames options).token i).span.start
      < ((ofSource source privateNames options).token i).span.stop := by
  have htile : Lexer.Tiles 0 source.toList (Lexer.ofString source privateNames).tokens :=
    Lexer.tokens_tile (Lexer.ofString source privateNames)
  obtain ⟨inner, newline, htokens, hinner⟩ := htile.ends
  rw [token_ofSource_eq, htokens, List.getD_eq_getElem?_getD] at h ⊢
  rcases Nat.lt_trichotomy i inner.length with hlt | rfl | hgt
  · rw [List.getElem?_append_left hlt, List.getElem?_eq_getElem hlt]
    exact (hinner _ (List.getElem_mem hlt)).2
  · rw [List.getElem?_concat_length] at h
    exact absurd rfl h
  · rw [List.getElem?_eq_none (by rw [List.length_append]; exact hgt)] at h
    exact absurd rfl h

end Context

/-- The token lies inside the place. -/
def Span.Holds (span : Span) (t : Token) : Prop :=
  span.start ≤ t.span.start ∧ t.span.stop ≤ span.stop

/-- A place that reaches from one token to another one holds those between them. -/
theorem InOrder.holds_spanBetween {token : Nat → Token} (h : InOrder token) {k l m : Nat}
    (hkl : k < l) (hm : (token m).span.start < (token m).span.stop) :
    (spanBetween token k l).Holds (token m) ↔ k ≤ m ∧ m < l := by
  refine ⟨fun ⟨hstart, hstop⟩ => ⟨?_, ?_⟩, fun ⟨hkm, hml⟩ => ⟨h.start_le hkm, h.stop_le (by omega)⟩⟩
  · by_contra hlt
    have hbefore := h.stop_le_start (Nat.lt_of_not_le hlt)
    exact absurd (hm.trans_le (hbefore.trans hstart)) (Nat.lt_irrefl _)
  · by_contra hle
    have hbehind := h.stop_le_start (i := l - 1) (j := m) (by omega)
    exact absurd (hm.trans_le (hstop.trans hbehind)) (Nat.lt_irrefl _)

/-! ### The operand that is not there -/

end EcmaScript
