import EcmaScript.SyntaxError

namespace EcmaScript

/-!
# Scopes of private names

Every class that is being read has a scope. A private name may be used before its class declares it,
so a use that no declaration so far resolves waits in the innermost scope; when the class ends, the
uses that still wait move to the class around it, and at the outermost class they are errors.

* `ClassScopes.enter`, `ClassScopes.exit` — the beginning and the end of a class;
* `ClassScopes.declare` — a declaration in the innermost class;
* `ClassScopes.use` — a use in the innermost class;
* `ClassScopes.depth_declare`, `ClassScopes.depth_use` — neither changes how many classes there are.
-/

/-- What is known of the private names of one class. -/
structure ClassScope where
  declared : List String
  /-- The names that wait for a declaration, with their first use, in the order of first use. -/
  waiting : List (String × Span)
deriving DecidableEq, Repr, Inhabited

namespace ClassScope

/-- A class of which nothing has been read. -/
def empty : ClassScope := ⟨[], []⟩

/-- Has the class declared the name so far? -/
def declares (s : ClassScope) (name : String) : Bool := s.declared.contains name

/-- The uses that the class itself does not resolve. -/
def unresolved (s : ClassScope) : List (String × Span) :=
  s.waiting.filter fun entry => !s.declares entry.1

/-- Lets a name wait, unless it waits already. -/
def await (s : ClassScope) (name : String) (span : Span) : ClassScope :=
  if s.waiting.any fun entry => entry.1 == name then s
  else { s with waiting := s.waiting ++ [(name, span)] }

/-- Declares a name, which no longer waits then. -/
def declare (s : ClassScope) (name : String) : ClassScope :=
  ⟨name :: s.declared, s.waiting.filter fun entry => entry.1 != name⟩

end ClassScope

/-- The use that starts first; of several that start at one place, the one that stands first in the
list. -/
def earliest? : List (String × Span) → Option Span
  | [] => none
  | (_, span) :: rest =>
    match earliest? rest with
    | some other => if other.start < span.start then some other else some span
    | none => some span

/-- The scopes of the classes around a place, the innermost first. -/
structure ClassScopes where
  scopes : List ClassScope
deriving DecidableEq, Repr, Inhabited

namespace ClassScopes

/-- Outside of any class. -/
def outside : ClassScopes := ⟨[]⟩

/-- Number of classes around the place. -/
def depth (s : ClassScopes) : Nat := s.scopes.length

/-- Is there a class around the place? -/
def isInside (s : ClassScopes) : Bool := !s.scopes.isEmpty

/-- An error about a private name. -/
def nameError (cause : SyntaxError.Cause) (span : Span) : SyntaxError :=
  ⟨cause, span, some .privateName⟩

/-- The beginning of a class inside the innermost one. -/
def enter (s : ClassScopes) : ClassScopes := ⟨.empty :: s.scopes⟩

/-- Ends the innermost class. Its unresolved uses move outward, behind those that wait there
already, and their number is given back; at the outermost class the earliest of them is an
error. -/
def exit (s : ClassScopes) : Except SyntaxError Nat × ClassScopes :=
  match s.scopes with
  | [] => (.ok 0, s)
  | [last] =>
    -- No class is left that could still declare what waits here.
    match earliest? last.unresolved with
    | some span => (.error (nameError .undeclaredPrivateName span), outside)
    | none => (.ok 0, outside)
  | inner :: outer :: rest =>
    let moved := inner.unresolved
    -- A name that waits outside already keeps its place and its first use there.
    (.ok moved.length, ⟨moved.foldl (fun o entry => o.await entry.1 entry.2) outer :: rest⟩)

/-- Declares a name in the innermost class. A name can be declared once in a class, and outside of
classes a declaration says nothing. -/
def declare (s : ClassScopes) (name : String) (span : Span) : Except SyntaxError ClassScopes :=
  match s.scopes with
  | [] => .ok s
  | inner :: rest =>
    if inner.declares name then .error (nameError .duplicatePrivateElement span)
    else .ok ⟨inner.declare name :: rest⟩

/-- Uses a name. A class around the place may have declared it already; otherwise it waits, and
outside of classes it can never be declared. -/
def use (s : ClassScopes) (name : String) (span : Span) : Except SyntaxError ClassScopes :=
  if s.scopes.any fun scope => scope.declares name then .ok s
  else
    match s.scopes with
    | [] => .error (nameError .undeclaredPrivateName span)
    | inner :: rest => .ok ⟨inner.await name span :: rest⟩

/-! ### Depth -/

@[simp] theorem depth_enter (s : ClassScopes) : s.enter.depth = s.depth + 1 := rfl

@[simp] theorem depth_exit (s : ClassScopes) : s.exit.2.depth = s.depth - 1 := by
  unfold exit
  split
  next h => simp [depth, h]
  next last h =>
    split <;> simp [depth, outside, h]
  next inner outer rest h => simp [depth, h]

theorem depth_declare {s t : ClassScopes} {name : String} {span : Span}
    (h : s.declare name span = .ok t) : t.depth = s.depth := by
  unfold declare at h
  split at h
  next => rw [Except.ok.inj h]
  next inner rest hs =>
    split at h
    · cases h
    · rw [← Except.ok.inj h, depth, depth, hs]
      rfl

theorem depth_use {s t : ClassScopes} {name : String} {span : Span}
    (h : s.use name span = .ok t) : t.depth = s.depth := by
  unfold use at h
  split at h
  · rw [Except.ok.inj h]
  · split at h
    next => cases h
    next inner rest hs =>
      rw [← Except.ok.inj h, depth, depth, hs]
      rfl

end ClassScopes

end EcmaScript
