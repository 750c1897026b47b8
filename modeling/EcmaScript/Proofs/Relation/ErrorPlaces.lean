import EcmaScript.Proofs.Grammar.Locations
import EcmaScript.Proofs.Relation.SameTokens

namespace EcmaScript

open EcmaScript.Parser

/-!
# Places of errors

An error is about a token, or about a part that reaches from one token to a later one, so its place
lies in the source. Names that wait in the classes around keep their places until they are
reported. A run is compared with itself, so that what is known of places goes wherever they go.

* `Respacing.itself` — a source beside itself, with the places that lie in it;
* `parse_error_isIn` — the place of an error lies in the source.
-/

/-- What covers two places in a source lies in it. -/
theorem Span.IsIn.union {source : String} {a b : Span} (ha : a.IsIn source) (hb : b.IsIn source) :
    (a ∪ b).IsIn source := by
  refine ⟨?_, ?_, ?_, ?_⟩
  · rw [Span.union_start, Span.union_stop]
    exact (Nat.min_le_left _ _).trans (ha.le.trans (Nat.le_max_left _ _))
  · rw [Span.union_stop]
    exact Nat.max_le.2 ⟨ha.stop_le, hb.stop_le⟩
  · rw [Span.union_start]
    rcases Nat.le_total a.start b.start with h | h
    · rw [Nat.min_eq_left h]
      exact ha.start_valid
    · rw [Nat.min_eq_right h]
      exact hb.start_valid
  · rw [Span.union_stop]
    rcases Nat.le_total a.stop b.stop with h | h
    · rw [Nat.max_eq_right h]
      exact hb.stop_valid
    · rw [Nat.max_eq_left h]
      exact ha.stop_valid

/-- From a token to the same one or a later one is a place in the source. -/
theorem Context.between_isIn (source : String) (privateNames : Bool) (options : Options) {i j : Nat}
    (h : i ≤ j) :
    Span.IsIn ⟨((ofSource source privateNames options).token i).span.start,
      ((ofSource source privateNames options).token j).span.stop⟩ source := by
  have hi := token_isIn source privateNames options i
  have hj := token_isIn source privateNames options j
  have horder := inOrder_ofSource source privateNames options
  exact ⟨(horder.start_le h).trans hj.le, hj.stop_le, hi.start_valid, hj.stop_valid⟩

/-- A source beside itself. -/
def Respacing.itself (source : String) (privateNames : Bool) (options : Options) : Respacing where
  token := (Context.ofSource source privateNames options).token
  token' := (Context.ofSource source privateNames options).token
  shift := 0
  kind _ := rfl
  reading _ := rfl
  definition _ _ := rfl
  newlineBefore _ := rfl
  sigil _ _ := Iff.rfl
  start_le_iff _ _ := Iff.rfl
  Fits span := span.IsIn source
  fits := Context.between_isIn source privateNames options
  fits_union := Span.IsIn.union

/-- The place of an error lies in the source. -/
theorem parse_error_isIn {source : String} {options : Options} {e : SyntaxError}
    (h : parse source options = .error (.error e)) : e.span.IsIn source := by
  have hcontexts : (Respacing.itself source options.classFields options).Contexts
      (.ofSource source options.classFields options)
      (.ofSource source options.classFields options) :=
    ⟨fun _ => rfl, fun _ => rfl, rfl, rfl, rfl⟩
  have hstates : (Respacing.itself source options.classFields options).States
      (Context.ofSource source options.classFields options).begun
      (Context.ofSource source options.classFields options).begun := ⟨rfl, .nil, rfl⟩
  have hscript := Respacing.Parallel.script
    (Rules.within_uniform _ (Context.ofSource source options.classFields options).budget)
    hcontexts hstates (Nat.zero_le _)
  rw [parse_eq_script] at h
  generalize Grammar.script _ _ _ = r at h hscript
  cases hscript with
  | ok _ _ _ => cases h
  | error he _ =>
    obtain rfl : _ = e := by
      injection h with h
      injection h
    exact he.2.2.fits
  | exhausted _ _ => cases h

end EcmaScript
