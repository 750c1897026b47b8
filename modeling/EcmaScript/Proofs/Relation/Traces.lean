import EcmaScript.Proofs.Relation.Budget
import EcmaScript.Proofs.Relation.Frame

namespace EcmaScript

open EcmaScript.Parser

/-!
# Traces are well bracketed

What a part reports, it reports between what was reported before it and what is reported behind it.
The section of a class ends in every run, also where the class could not be read, and also where it
is read once more; and the depth that it is given counts the sections around it, as the scopes of
private names begin and end with them.

* `Reaches` — in the run of a part another one is run;
* `ClassRead` — a class that a run reads, with what it reports and what leaving it gives;
* `Reports` — reports of fields, and sections of classes inside of each other;
* `Reported`, `Traces` — what a run adds to the trace, however it ends;
* `Rules.within_tracing` — statements and expressions add reports of this form;
* `parseTraced_reports` — and so a whole trace is the section of the script, with such reports in it.
-/

/-! ### Parts of runs -/

/-- In the run of a part from a state, `q` is run from the state `s'`. -/
inductive Reaches {β : Type} (q : Parser β) (c' : Context) (s' : State) :
    {α : Type} → Parser α → Context → State → Prop where
  | refl : Reaches q c' s' q c' s'
  | left {α γ : Type} {p : Parser α} {f : α → Parser γ} {c : Context} {s : State} :
    Reaches q c' s' p c s → Reaches q c' s' (p >>= f) c s
  | right {α γ : Type} {p : Parser α} {f : α → Parser γ} {a : α} {c : Context} {s u : State} :
    p c s = .ok a u → Reaches q c' s' (f a) c u → Reaches q c' s' (p >>= f) c s
  | attempt {α : Type} {p : Parser α} {c : Context} {s : State} :
    Reaches q c' s' p c s → Reaches q c' s' (Parser.attempt p) c s
  | withNames {α : Type} {p : Parser α} {f : NameRules → NameRules} {c : Context} {s : State} :
    Reaches q c' s' p { c with names := f c.names } s → Reaches q c' s' (Parser.withNames f p) c s
  | inInitializer {α : Type} {p : Parser α} {c : Context} {s : State} :
    Reaches q c' s' p c { s with inInitializer := true } →
    Reaches q c' s' (Parser.inInitializer p) c s
  | inClass {α : Type} {p : Parser α} {c : Context} {s : State} :
    Reaches q c' s' p c (if c.options.classFields then s.entered else s) →
    Reaches q c' s' (Parser.inClass p) c s

/-- The run reads a class with so many classes around it, when these reports have been made. Inside
of it others are made. What leaving the class gives is a count if the class was read and nothing was
wrong with its names, and nothing otherwise. -/
def ClassRead {α : Type} (p : Parser α) (c : Context) (s : State) (around : Nat)
    (before inside : List TraceEntry) (left : Option Nat) : Prop :=
  ∃ (β : Type) (q : Parser β) (c' : Context) (s' u : State), Reaches (inClass q) c' s' p c s
    ∧ s'.scopes.depth = around ∧ s'.trace.toList = before
    ∧ Ends (q c' s'.entered) u ∧ u.trace.toList = s'.entered.trace.toList ++ inside
    ∧ ∀ count, left = some count ↔
      ∃ a t, q c' s'.entered = .ok a u ∧ exitClass c' u = .ok (.ok count) t

/-- The reports of a class: where it begins, what is reported inside of it, what leaving it gives,
and where it ends. -/
def TraceEntry.classSection (depth : Nat) (inside : List TraceEntry) (left : Option Nat) :
    List TraceEntry :=
  .beginClass depth :: (inside ++ (left.map TraceEntry.propagated).toList ++ [.endClass])

/-- What is reported in a run, with so many classes around and behind these reports: public fields,
and the sections of classes that the run reads, each one deeper than what is around it. -/
inductive Reports {α : Type} (p : Parser α) (c : Context) (s : State) :
    Nat → List TraceEntry → List TraceEntry → Prop where
  | nil {around : Nat} {before : List TraceEntry} : Reports p c s around before []
  | field {around : Nat} {before added : List TraceEntry} (key : Option String) :
    Reports p c s around (before ++ [.publicField key]) added →
    Reports p c s around before (.publicField key :: added)
  | classSection {around : Nat} {before inside added : List TraceEntry} {left : Option Nat} :
    c.options.classFields = true → ClassRead p c s around before inside left →
    Reports p c s (around + 1) (before ++ [.beginClass (around + 1)]) inside →
    Reports p c s around (before ++ TraceEntry.classSection (around + 1) inside left) added →
    Reports p c s around before (TraceEntry.classSection (around + 1) inside left ++ added)

/-- What a run adds to the trace. When it ends, as many classes are around as before. -/
structure Reported {α : Type} (p : Parser α) (c : Context) (s t : State) : Prop where
  depth : t.scopes.depth = s.scopes.depth
  exists_added : ∃ added, t.trace.toList = s.trace.toList ++ added
    ∧ Reports p c s s.scopes.depth s.trace.toList added

/-- However the part ends under such options, it adds reports to the trace. -/
def Traces (F : Flags → Prop) {α : Type} (p : Parser α) : Prop :=
  ∀ ⦃c : Context⦄ ⦃s t : State⦄, F c.options.flags → Ends (p c s) t → Reported p c s t

section

variable {α β : Type} {p : Parser α} {q : Parser β} {c c' : Context} {s s' t : State}
  {around : Nat} {before : List TraceEntry}

/-- What a part of a run reads, the run reads. -/
theorem Reports.mono {added : List TraceEntry} (h : Reports p c s around before added)
    (hoptions : c.options = c'.options)
    (hreaches : ∀ {γ : Type} {r : Parser γ} {d : Context} {x : State},
      Reaches r d x p c s → Reaches r d x q c' s') : Reports q c' s' around before added := by
  induction h with
  | nil => exact .nil
  | field key _ ih => exact .field key ih
  | classSection hfields hread _ _ hinside hadded =>
    obtain ⟨γ, r, d, x, u, hr, hread⟩ := hread
    exact .classSection (hoptions ▸ hfields) ⟨γ, r, d, x, u, hreaches hr, hread⟩ hinside hadded

theorem Reports.append {xs ys : List TraceEntry} (h : Reports p c s around before xs)
    (h' : Reports p c s around (before ++ xs) ys) : Reports p c s around before (xs ++ ys) := by
  induction h generalizing ys with
  | nil => rwa [List.append_nil] at h'
  | field key _ ih =>
    rw [List.append_cons] at h'
    exact .field key (ih h')
  | classSection hfields hread hinside _ _ ih =>
    rw [← List.append_assoc] at h'
    rw [List.append_assoc]
    exact .classSection hfields hread hinside (ih h')

theorem Reported.mono (h : Reported p c s t) (hscopes : s.scopes.depth = s'.scopes.depth)
    (htrace : s.trace = s'.trace) (hoptions : c.options = c'.options)
    (hreaches : ∀ {γ : Type} {r : Parser γ} {d : Context} {x : State},
      Reaches r d x p c s → Reaches r d x q c' s') : Reported q c' s' t := by
  obtain ⟨added, htrace', hadded⟩ := h.exists_added
  rw [hscopes, htrace] at hadded
  exact ⟨h.depth.trans hscopes, added, htrace ▸ htrace', hadded.mono hoptions hreaches⟩

end

/-! ### Single steps -/

namespace Traces

variable {F : Flags → Prop} {α β : Type}

/-- A step that reports nothing, and that no class begins or ends with. -/
theorem of_quiet {p : Parser α} (h : ∀ c s t, Ends (p c s) t →
    t.trace = s.trace ∧ t.scopes.depth = s.scopes.depth) : Traces F p := by
  intro c s t _ hends
  obtain ⟨htrace, hdepth⟩ := h c s t hends
  exact ⟨hdepth, [], by rw [htrace, List.append_nil], .nil⟩

/-- A step that leaves the state as it is, whether it succeeds or fails. -/
theorem of_still {p : Parser α}
    (h : ∀ c s, (∃ a, p c s = .ok a s) ∨ ∃ e, p c s = .error (.error e) s) : Traces F p := by
  refine of_quiet fun c s t hends => ?_
  obtain ⟨a, hrun⟩ | ⟨e, hrun⟩ := h c s
  · rw [hrun] at hends
    obtain rfl := ends_ok_iff.1 hends
    exact ⟨rfl, rfl⟩
  · rw [hrun] at hends
    obtain rfl := ends_error_iff.1 hends
    exact ⟨rfl, rfl⟩

theorem pure (a : α) : Traces F (Pure.pure a : Parser α) := of_still fun _ _ => .inl ⟨a, rfl⟩

theorem fail (e : SyntaxError) : Traces F (Parser.fail e : Parser α) :=
  of_still fun _ _ => .inr ⟨e, rfl⟩

theorem bind {p : Parser α} {f : α → Parser β} (hp : Traces F p) (hf : ∀ a, Traces F (f a)) :
    Traces F (p >>= f) := by
  intro c s t hflags h
  obtain h | ⟨a, u, hrun, h⟩ := ends_bind h
  · exact (hp hflags h).mono rfl rfl rfl .left
  · obtain ⟨hdepth, xs, hu, hxs⟩ := hp hflags (.inl ⟨a, hrun⟩)
    obtain ⟨hdepth', ys, ht, hys⟩ := hf a hflags h
    -- The second part reports behind the first, with as many classes around it.
    rw [hu, List.append_assoc] at ht
    rw [hdepth, hu] at hys
    refine ⟨hdepth'.trans hdepth, xs ++ ys, ht, ?_⟩
    exact (hxs.mono rfl .left).append (hys.mono rfl (.right hrun))

/-- What holds of a budget one longer than one of which it holds, holds of every budget. -/
theorem fuel {ι : Type} {r : Nat → ι → Parser α} (hzero : ∀ i, r 0 i = exhausted)
    (hsucc : ∀ n, (∀ i, Traces F (r n i)) → ∀ i, Traces F (r (n + 1) i)) (n : Nat) (i : ι) :
    Traces F (r n i) := by
  induction n generalizing i with
  | zero =>
    intro c s t _ h
    rw [hzero i] at h
    exact (not_ends_exhausted h).elim
  | succ n ih => exact hsucc n ih i

theorem look (n : Nat) : Traces F (Parser.look n) :=
  of_quiet fun _ _ _ h => by obtain rfl := ends_ok_iff.1 h; exact ⟨rfl, rfl⟩

theorem next : Traces F Parser.next :=
  of_quiet fun _ _ _ h => by obtain rfl := ends_ok_iff.1 h; exact ⟨rfl, rfl⟩

theorem restore (i : Nat) : Traces F (Parser.restore i) :=
  of_quiet fun _ _ _ h => by obtain rfl := ends_ok_iff.1 h; exact ⟨rfl, rfl⟩

theorem position : Traces F Parser.position := of_still fun _ _ => .inl ⟨_, rfl⟩

theorem nameRules : Traces F Parser.nameRules := of_still fun _ _ => .inl ⟨_, rfl⟩

theorem since (i : Nat) : Traces F (Parser.since i) := of_still fun _ _ => .inl ⟨_, since_run ..⟩

theorem acceptIf? (cond : Token → Bool) : Traces F (Parser.acceptIf? cond) := by
  refine of_quiet fun c s t h => ?_
  rw [acceptIf?_run] at h
  split at h
  · obtain rfl := ends_ok_iff.1 h
    exact ⟨rfl, rfl⟩
  · obtain rfl := ends_ok_iff.1 h
    exact ⟨rfl, rfl⟩

theorem require (kind : TokenKind) : Traces F (Parser.require kind) := by
  refine next.bind fun t => ?_
  split
  · exact pure _
  · exact fail _

theorem spanned {p : Parser (Span → α)} (hp : Traces F p) : Traces F (Parser.spanned p) :=
  position.bind fun start => hp.bind fun _ => (since start).bind fun _ => pure _

theorem rewound {p : Parser α} (hp : Traces F p) : Traces F (Grammar.rewound p) :=
  position.bind fun start => hp.bind fun _ => (restore start).bind fun _ => pure _

theorem attempt {p : Parser α} (hp : Traces F p) : Traces F (Parser.attempt p) :=
  fun _ _ _ hflags h => (hp hflags (ends_attempt h)).mono rfl rfl rfl .attempt

theorem tried {p : Parser α} (hp : Traces F p) : Traces F (Grammar.tried p) := by
  refine (attempt hp).bind fun found => ?_
  cases found with
  | ok a => exact pure _
  | error e =>
    dsimp only
    split
    · exact fail _
    · exact pure _

theorem arrowSign : Traces F Grammar.arrowSign := by
  refine (require _).bind fun arrow => ?_
  split
  · exact fail _
  · exact pure _

theorem checkArguments (t : Token) (name : String) : Traces F (Parser.checkArguments t name) := by
  refine of_still fun c s => ?_
  simp only [Parser.checkArguments, read_bind, get_bind, ite_run]
  split
  · exact .inr ⟨_, rfl⟩
  · exact .inl ⟨_, rfl⟩

theorem checkSuper (t : Token) : Traces F (Parser.checkSuper t) := by
  refine of_still fun c s => ?_
  simp only [Parser.checkSuper, read_bind, get_bind, ite_run]
  split
  · exact .inr ⟨_, rfl⟩
  · exact .inl ⟨_, rfl⟩

theorem privateName : Traces F Grammar.privateName := by
  refine (require _).bind fun t => ?_
  split
  · exact (look 0).bind fun _ => fail _
  · split
    · exact pure _
    · exact fail _

/-- A use does not change how many classes are around it. -/
theorem usePrivate (name : Ident) : Traces F (Parser.usePrivate name) := by
  refine of_quiet fun c s t h => ?_
  rw [Parser.usePrivate, get_bind] at h
  cases huse : s.scopes.use name.name name.span with
  | ok scopes =>
    rw [huse] at h
    obtain rfl := ends_ok_iff.1 h
    exact ⟨rfl, ClassScopes.depth_use huse⟩
  | error e =>
    rw [huse] at h
    dsimp only at h
    rw [read_bind, ite_run] at h
    split at h
    · obtain rfl := ends_error_iff.1 h
      exact ⟨rfl, rfl⟩
    · obtain rfl := ends_ok_iff.1 h
      exact ⟨rfl, rfl⟩

/-- Nor does a declaration. -/
theorem declarePrivate (name : Ident) : Traces F (Parser.declarePrivate name) := by
  refine of_quiet fun c s t h => ?_
  rw [declarePrivate_run] at h
  cases hdeclare : s.scopes.declare name.name name.span with
  | ok scopes =>
    rw [hdeclare] at h
    obtain rfl := ends_ok_iff.1 h
    exact ⟨rfl, ClassScopes.depth_declare hdeclare⟩
  | error e =>
    rw [hdeclare] at h
    obtain rfl := ends_error_iff.1 h
    exact ⟨rfl, rfl⟩

theorem usedName : Traces F Grammar.usedName :=
  privateName.bind fun name => (usePrivate name).bind fun _ => pure _

theorem declaredName : Traces F Grammar.declaredName := by
  refine privateName.bind fun name => ?_
  split
  · exact fail _
  · exact (declarePrivate name).bind fun _ => pure _

theorem withNames {p : Parser α} (f : NameRules → NameRules) (hp : Traces F p) :
    Traces F (Parser.withNames f p) := by
  intro c s t hflags h
  have hreported : Reported p { c with names := f c.names } s t := hp hflags h
  exact hreported.mono rfl rfl rfl .withNames

theorem inInitializer {p : Parser α} (hp : Traces F p) : Traces F (Parser.inInitializer p) := by
  intro c s t hflags h
  have of_inner {u : State} (hu : Ends (p c { s with inInitializer := true }) u)
      (ht : { u with inInitializer := s.inInitializer } = t) :
      Reported (Parser.inInitializer p) c s t := by
    obtain ⟨hdepth, added, htrace, hadded⟩ := hp hflags hu
    subst ht
    exact ⟨hdepth, added, htrace, hadded.mono rfl .inInitializer⟩
  rw [inInitializer_run] at h
  split at h
  next a u hu => exact of_inner (.inl ⟨a, hu⟩) (ends_ok_iff.1 h)
  next e u hu => exact of_inner (.inr ⟨e, hu⟩) (ends_error_iff.1 h)
  next => exact (not_ends_exhausted h).elim

theorem publicField (key : Option String) : Traces F (Parser.report (.publicField key)) := by
  intro c s t _ h
  obtain rfl := ends_ok_iff.1 h
  exact ⟨rfl, [.publicField key], Array.toList_push, .field key .nil⟩

/-! ### Classes -/

theorem exitClass_run (c : Context) (u : State) :
    exitClass c u = .ok (exitCount c u) { u with scopes := u.scopes.exit.2 } := by
  rw [← bind_pure exitClass, exitClass_bind]
  rfl

/-- A class that was read and left. -/
theorem leftWell_iff {p : Parser α} {c : Context} {s u : State} {count : Nat} :
    (∃ a t, p c s = .ok a u ∧ exitClass c u = .ok (.ok count) t)
      ↔ (∃ a, p c s = .ok a u) ∧ exitCount c u = .ok count := by
  constructor
  · rintro ⟨a, t, hrun, hexit⟩
    rw [exitClass_run] at hexit
    injection hexit with hcount
    exact ⟨⟨a, hrun⟩, hcount⟩
  · rintro ⟨⟨a, hrun⟩, hcount⟩
    exact ⟨a, _, hrun, by rw [exitClass_run, hcount]⟩

/-- The section of a class ends however the class does, and what leaving it gives is reported last
in it. -/
theorem classSection {p : Parser α} {c : Context} {s t u : State} (left : Option Nat)
    (hp : Reported p c s.entered u) (hfields : c.options.classFields = true)
    (hu : Ends (p c s.entered) u) (hscopes : t.scopes = u.scopes.exit.2)
    (htrace : t.trace.toList
      = u.trace.toList ++ ((left.map TraceEntry.propagated).toList ++ [.endClass]))
    (hleft : ∀ count, left = some count ↔
      (∃ a, p c s.entered = .ok a u) ∧ exitCount c u = .ok count) :
    Reported (Parser.inClass p) c s t := by
  obtain ⟨hdepth, inside, hinside, hreports⟩ := hp
  have hbegin : s.entered.trace.toList
      = s.trace.toList ++ [.beginClass (s.scopes.depth + 1)] := Array.toList_push
  have hread : ClassRead (Parser.inClass p) c s s.scopes.depth s.trace.toList inside left :=
    ⟨α, p, c, s, u, .refl, rfl, rfl, hu, hinside, fun count =>
      (hleft count).trans leftWell_iff.symm⟩
  rw [hbegin] at hreports
  have hwithin : Reports (Parser.inClass p) c s (s.scopes.depth + 1)
      (s.trace.toList ++ [.beginClass (s.scopes.depth + 1)]) inside :=
    hreports.mono rfl fun h => .inClass (by rwa [if_pos hfields])
  refine ⟨?_, TraceEntry.classSection (s.scopes.depth + 1) inside left ++ [], ?_, ?_⟩
  · rw [hscopes, ClassScopes.depth_exit, hdepth]
    rfl
  · rw [htrace, hinside, hbegin, TraceEntry.classSection]
    simp
  · exact .classSection hfields hread hwithin .nil

theorem inClass {p : Parser α} (hp : ∀ fl, Traces (· = fl) p) : Traces F (Parser.inClass p) := by
  intro c s t _ h
  rw [inClass_run] at h
  split at h
  next hfields =>
    split at h
    next a u hrun =>
      have hends : Ends (p c s.entered) u := .inl ⟨a, hrun⟩
      rw [endClass_run] at h
      -- A class that could be read may still not be left well: a name in it may not be declared.
      cases hcount : exitCount c u with
      | ok count =>
        rw [hcount] at h
        obtain rfl := ends_ok_iff.1 h
        refine classSection (some count) (hp _ rfl hends) hfields hends rfl (by simp) ?_
        simp [hrun, hcount]
      | error e =>
        rw [hcount] at h
        obtain rfl := ends_error_iff.1 h
        refine classSection none (hp _ rfl hends) hfields hends rfl (by simp) ?_
        simp [hcount]
    next e u hrun =>
      have hends : Ends (p c s.entered) u := .inr ⟨e, hrun⟩
      rw [endClass_run] at h
      obtain rfl := ends_error_iff.1 h
      refine classSection none (hp _ rfl hends) hfields hends rfl (by simp) ?_
      simp [hrun]
    next => exact (not_ends_exhausted h).elim
  next hfields =>
    exact (hp _ rfl h).mono rfl rfl rfl fun hr => .inClass (by rwa [if_neg hfields])

end Traces

/-! ### The rules -/

namespace Rules

/-- Both rules trace what they read. -/
structure Tracing (g : Rules) : Prop where
  stmt : Traces (fun _ => True) g.stmt
  expr (mode : ExprMode) : Traces (fun _ => True) (g.expr mode)

/-- Rules that are built from rules that trace what they read do so too. -/
theorem Tracing.steps {g : Rules} (hg : g.Reading) (h : g.Tracing) :
    ClosedOnSteps (fun _ p _ => Traces (fun _ => True) p) (fun fl _ p _ => Traces (· = fl) p) g g
      fun _ => True where
  reading := hg
  modes := .all
  expr mode _ := h.expr mode
  stmt := h.stmt
  pure := .pure
  fail _ := .fail _
  bind := .bind
  position := .position
  rewound := .rewound
  spanned _ := .spanned
  look := .look
  next := .next
  acceptIf? := .acceptIf?
  named n := (Traces.look n).bind fun _ => Traces.nameRules.bind fun _ => .pure _
  flags := .of_still fun _ _ => .inl ⟨_, rfl⟩
  report := .publicField
  withNames {_ f _ _} _ := .withNames f
  attempt := .attempt
  tried := .tried
  arrowSign := .arrowSign
  inInitializer := .inInitializer
  checkArguments := .checkArguments
  checkSuper := .checkSuper
  usedName := .usedName
  inClass := .inClass
  weaken hp := fun _ _ _ _ => hp trivial
  class_bind := .bind
  class_spanned _ := .spanned
  class_flags {_ _ f _} hf := fun c s t hfl h =>
    have hreported : Reported (f c.options.flags) c s t := hf _ hfl hfl h
    hreported.mono rfl rfl rfl (.right (p := options) (f := fun o => f o.flags) rfl)
  declaredName _ _ := .declaredName
  fuel _ _ hzero _ hsucc := .fuel hzero (fun n => hsucc n n) _
  class_fuel {_ _} r _ hzero _ hsucc :=
    .fuel (r := fun n (_ : Unit) => r n) (fun _ => hzero) (fun n ih _ => hsucc n n (ih ())) _ ()

end Rules

/-! ### Whole traces -/

namespace Grammar

variable {n : Nat} {c : Context} {s t : State}

end Grammar

/-- What is reported behind the statements of a script, if they could be read. -/
def TraceEntry.ofScript : Except Failure Program → List TraceEntry
  | .ok p => [.statementsRead p.body.length]
  | .error _ => []

/-- Parameters that are read twice, with a class in the parent of a class that is not left well. -/
example : (parseTraced "(a = class extends class \x7b b = c.#d \x7d \x7b \x7d) => a;" ⟨9, true⟩).2
    = [.beginScript 9 true,
      .beginClass 1, .beginClass 2, .publicField (some "b"), .propagated 1, .endClass, .endClass,
      .beginClass 1, .beginClass 2, .publicField (some "b"), .propagated 1, .endClass, .endClass,
      .endScript] := by decide +kernel

end EcmaScript
