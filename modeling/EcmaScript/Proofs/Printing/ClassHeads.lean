import EcmaScript.Proofs.Grammar.MemberHeads
import EcmaScript.Proofs.Printing.ClassParts

namespace EcmaScript

open EcmaScript.Parser EcmaScript.Grammar
open Word (sign)

/-!
# Heads of printed members are read again

The modifiers and the key that a member begins with. A word that could be a modifier is one before
the next word of the head, and the key before what stands behind the head.

* `ClassText.Key.yields` — a key is read;
* `ClassText.Modifier.yields` — the modifiers of a method are those that are printed;
* `ClassText.HeadAt` — a head stands at a token, with nothing behind it that would make its key a
  modifier;
* `ClassText.HeadAt.classMemberHead_yields` — such a head is read.
-/

namespace ClassText

variable {c : Context} {x : Spot}

/-! ### Keys -/

theorem KeyWord.directKeyText_yields {k : KeyWord} (hword : (c.token x.index).IsWord k.word)
    (houtside : x.inInitializer = false) :
    Yields c x (directKeyText (c.token x.index)) (· = k.text) (x.step 1) := by
  have hspells := k.spells
  rw [keyText?, ← hword.kind, ← hword.text] at hspells
  unfold directKeyText
  split at hspells
  next hkind =>
    rw [hkind]
    refine .next ?_
    rw [identifierText_eq hspells, pure_bind]
    exact .checkArguments (x := x.step 1) _ (Spot.outside houtside) (.pure rfl)
  next hkind =>
    rw [hkind]
    exact .next (.pure (Option.some.inj hspells))
  next hkind =>
    obtain ⟨value, hvalue, htext⟩ := Option.map_eq_some_iff.1 hspells
    rw [hkind]
    dsimp only
    rw [stringValue]
    refine .require hkind ?_
    rw [hvalue]
    exact .pure htext
  next hkind =>
    obtain ⟨value, hvalue, htext⟩ := Option.map_eq_some_iff.1 hspells
    rw [hkind]
    dsimp only
    refine Yields.bind (P := (· = value)) (y := x.step 1) ?_ fun v hv => .pure (hv ▸ htext)
    rw [numberValue]
    refine .require hkind ?_
    rw [hvalue]
    exact .pure rfl
  next => cases hspells

theorem KeyWord.directKey_yields {k : KeyWord} (hword : (c.token x.index).IsWord k.word)
    (houtside : x.inInitializer = false) :
    Yields c x directKey (fun d => d.bare = k.tree) (x.step 1) := by
  refine .spanned (.peek ((k.directKeyText_yields hword houtside).bind fun text htext => ?_))
  refine .pure fun span => ?_
  rw [htext, hword.kind]
  rfl

/-- A word that is a key is one with which keys begin, and no bracket. -/
theorem KeyWord.startsKey (k : KeyWord) :
    startsKey k.word.kind = true ∧ k.word.kind ≠ .punctuator .bracketOpen := by
  have hspells := k.spells
  unfold keyText? at hspells
  split at hspells
  case h_5 => cases hspells
  all_goals
    rename_i hkind
    rw [hkind]
    exact ⟨rfl, nofun⟩

namespace Key

/-- A key begins with a word with which keys begin; it is this word if the word is a keyword. -/
theorem exists_words (key : Key) : ∃ w ws, key.words = w :: ws ∧ startsKey w.kind = true
    ∧ ∀ word, w.kind = .keyword word → key.isKeyword word = true ∧ ws = [] := by
  cases key with
  | spelled k => exact ⟨_, _, rfl, k.startsKey.1, fun word hkind => ⟨decide_eq_true hkind, rfl⟩⟩
  | computed n => exact ⟨_, _, rfl, rfl, nofun⟩

/-- A key is read. -/
theorem yields {key : Key} (hnames : c.names = .script) (hwords : c.HasWords x.index key.words)
    (houtside : x.inInitializer = false) (n : Nat) :
    Yields c x (memberKey (.within (n + 2))) (fun k => k.bare = key.tree)
      (x.step key.words.length) := by
  rw [memberKey]
  cases key with
  | spelled k =>
    refine .acceptNot (hwords.1.kind ▸ k.startsKey.2) ?_
    refine (k.directKey_yields hwords.1 houtside).bind fun d hd => .pure ?_
    rw [Key.tree, EcmaScript.Key.bare, hd]
  | computed name =>
    obtain ⟨hopen, hname, hclose, -⟩ := hwords
    refine .accept hopen.kind ?_
    have hends : EndsValue (.whole [.punctuator .bracketClose]) (c.token (x.index + 1 + 1)) :=
      .closing (by rw [hclose.kind]; rfl) (by rw [hclose.kind]; rfl)
    refine ((Value.name name).whole_yields (x := x.step 1) hnames hname (Spot.outside houtside)
      hends n).bind fun value hvalue => ?_
    refine .discard (.require (x := (x.step 1).step 1) hclose.kind (.pure ?_))
    rw [EcmaScript.Key.bare, hvalue]
    rfl

/-- The key makes a method the constructor exactly if it does so in the tree. -/
theorem constructorKey?_isSome {key : Key} {k : EcmaScript.Key} (h : k.bare = key.tree) :
    (constructorKey? k).isSome = key.isConstructor := by
  cases key with
  | spelled word =>
    cases k with
    | direct d =>
      rw [EcmaScript.Key.bare, tree, EcmaScript.Key.direct.injEq, DirectKey.bare, KeyWord.tree,
        DirectKey.mk.injEq] at h
      rw [constructorKey?, isConstructor, h.2.1, h.2.2]
      split
      next htrue => rw [htrue]; rfl
      next hfalse => rw [Bool.eq_false_iff.2 hfalse]; rfl
    | computed value =>
      rw [EcmaScript.Key.bare, tree] at h
      cases h
    | privateName name =>
      rw [EcmaScript.Key.bare, tree] at h
      cases h
  | computed name =>
    cases k with
    | direct d =>
      rw [EcmaScript.Key.bare, tree] at h
      cases h
    | computed value => rfl
    | privateName name => rfl

end Key

/-! ### Heads -/

/-- A modifier of methods that is taken. -/
theorem methodModifiers_of_taken (word : Keyword) (hword : isMethodWord c.options word = true)
    (hkind : (c.token x.index).kind = .keyword word)
    (htaken : takenBefore word (c.token (x.index + 1)) = true) {y : Spot}
    {P : Bool × Bool × MethodKind → Prop} (h : Yields c (x.step 1) (methodFlags word) P y) :
    Yields c x methodModifiers P y := by
  rintro s rfl
  rw [methodModifiers_taken hword hkind htaken]
  exact h rfl

/-- A word is taken before what may follow it on its line. -/
theorem takenBefore_of_mayFollow {word : Keyword} {t : Token} (h : mayFollow word t.kind = true)
    (hline : word = .kAsync → t.newlineBefore = false) : takenBefore word t = true := by
  rw [takenBefore, endsKey_eq_false_of_mayFollow h]
  by_cases hword : word = .kAsync
  · rw [hline hword]
    simp
  · simp [hword]

namespace Modifier

/-- Where the key is no word that is taken for a modifier, the modifiers are those that are
printed. -/
theorem yields {m : Modifier} {key : Key} (hedition : 8 ≤ c.options.edition)
    (hwords : c.HasWords x.index (m.words ++ key.words))
    (hline : m.isAsync = true → (c.token (x.index + 1)).newlineBefore = false)
    (hpass : m = .none → ∀ word, isMethodWord c.options word = true → key.isKeyword word = true →
      takenBefore word (c.token (x.index + 1)) = false) :
    Yields c x methodModifiers (· = (m.isAsync, m.isGenerator, m.kind))
      (x.step m.words.length) := by
  obtain ⟨w, ws, hcons, hstarts, hkeyword⟩ := key.exists_words
  rw [hcons] at hwords
  have hasync : c.options.supportsAsyncMembers = true := decide_eq_true hedition
  -- The key goes on with every modifier, and cannot be taken for the star of a generator.
  have hnostar : w.kind ≠ .punctuator .asterisk := by
    intro hkind
    rw [hkind] at hstarts
    cases hstarts
  have hfollows (word : Keyword) : mayFollow word w.kind = true := by
    rw [mayFollow, hstarts]
    rfl
  cases m with
  | none =>
    rintro s rfl
    have hw : (c.token s.position).kind = w.kind := hwords.1.kind
    refine ⟨_, s.looked 1, methodModifiers_plain (hw ▸ hnostar) ?_, rfl, rfl⟩
    intro word hword hkind
    exact hpass rfl word hword (hkeyword word (hw ▸ hkind)).1
  | generator =>
    rw [methodModifiers_eq]
    exact .accept hwords.1.kind (.pure rfl)
  | async =>
    have hbehind := hwords.2.1
    refine methodModifiers_of_taken .kAsync hasync hwords.1.kind
      (takenBefore_of_mayFollow (hbehind.kind ▸ hfollows _) fun _ => hline rfl) ?_
    exact .acceptNot (x := x.step 1) (hbehind.kind ▸ hnostar) (.pure rfl)
  | asyncGenerator =>
    have hstar := hwords.2.1
    refine methodModifiers_of_taken .kAsync hasync hwords.1.kind
      (takenBefore_of_mayFollow (hstar.kind ▸ rfl) fun _ => hline rfl) ?_
    exact .accept (x := x.step 1) hstar.kind (.pure rfl)
  | get =>
    refine methodModifiers_of_taken .kGet rfl hwords.1.kind
      (takenBefore_of_mayFollow (hwords.2.1.kind ▸ hfollows _) (absurd · (by decide))) ?_
    exact .pure rfl
  | set =>
    refine methodModifiers_of_taken .kSet rfl hwords.1.kind
      (takenBefore_of_mayFollow (hwords.2.1.kind ▸ hfollows _) (absurd · (by decide))) ?_
    exact .pure rfl

/-- What stands behind `static` may stand there; it is that word only where it is the key. -/
theorem exists_words (m : Modifier) (key : Key) : ∃ w ws, m.words ++ key.words = w :: ws
    ∧ mayFollow .kStatic w.kind = true
    ∧ (w.kind = .keyword .kStatic → m = .none ∧ key.isKeyword .kStatic = true ∧ ws = []) := by
  cases m with
  | none =>
    obtain ⟨w, ws, hcons, hstarts, hkeyword⟩ := key.exists_words
    refine ⟨w, ws, hcons, ?_, fun hkind => ⟨rfl, hkeyword _ hkind⟩⟩
    rw [mayFollow, hstarts]
    rfl
  | _ => exact ⟨_, _, rfl, rfl, fun hkind => absurd hkind (by decide)⟩

end Modifier

/-- The head is that of a member with these modifiers and this key. -/
structure IsHead (static : Bool) (m : Modifier) (kind : MethodKind) (key : Key) (h : MemberHead) :
    Prop where
  static : h.static = static
  async : h.async = m.isAsync
  generator : h.generator = m.isGenerator
  kind : h.kind = kind
  key : h.key.bare = key.tree

/-- The words of a head stand on one line from an index on. What follows them leaves its key a key
where that could be a modifier. -/
structure HeadAt (c : Context) (i : Nat) (static : Bool) (m : Modifier) (key : Key) : Prop where
  hasWords : c.HasWords i (headWords static m key)
  newlineBefore {k : Nat} : 0 < k → k < (headWords static m key).length →
    (c.token (i + k)).newlineBefore = false
  passed {word : Keyword} : word = .kStatic ∨ isMethodWord c.options word = true →
    key.isKeyword word = true →
      takenBefore word (c.token (i + (headWords static m key).length)) = false

namespace HeadAt

variable {static : Bool} {m : Modifier} {key : Key}

theorem staticMark_yields (h : HeadAt c x.index static m key) :
    Yields c x (staticMark true) (· = static)
      (x.step (optional static (sign (.keyword .kStatic))).length) := by
  obtain ⟨w, ws, hcons, hfollows, hstatic⟩ := m.exists_words key
  have hwords := h.hasWords
  rw [headWords, hcons] at hwords
  rintro s rfl
  cases static with
  | true =>
    have htaken : takenBefore .kStatic (c.token (s.position + 1)) = true :=
      takenBefore_of_mayFollow (hwords.2.1.kind ▸ hfollows) nofun
    refine ⟨true, (s.looked 1).advanced, ?_, rfl, rfl⟩
    rw [staticMark, if_pos rfl, modifier_of_eq hwords.1.kind false rfl, if_pos htaken]
  | false =>
    refine ⟨false, s.looked 1, ?_, rfl, rfl⟩
    rw [staticMark, if_pos rfl]
    refine modifier_passed (fun hkind => ?_) false rfl
    have hw : (c.token s.position).kind = w.kind := hwords.1.kind
    -- The word stands here only as the key, and is then the whole head.
    obtain ⟨rfl, hkey, rfl⟩ := hstatic (hw ▸ hkind)
    have hlength : (headWords false .none key).length = 1 := congrArg List.length hcons
    have hpassed := h.passed (.inl rfl) hkey
    rwa [hlength] at hpassed

theorem memberHead_yields (h : HeadAt c x.index static m key) (hedition : 8 ≤ c.options.edition)
    (hnames : c.names = .script) (houtside : x.inInitializer = false) (n : Nat) :
    Yields c x (memberHead (.within (n + 2)) true) (IsHead static m m.kind key)
      (x.step (headWords static m key).length) := by
  have hlength : (headWords static m key).length
      = (optional static (sign (.keyword .kStatic))).length
        + (m.words.length + key.words.length) := by
    rw [headWords, List.length_append, List.length_append]
  obtain ⟨-, hrest⟩ := Context.hasWords_append.1 h.hasWords
  obtain ⟨-, hkey⟩ := Context.hasWords_append.1 hrest
  have hpos : 0 < key.words.length := by
    obtain ⟨w, ws, hcons, -⟩ := key.exists_words
    rw [hcons]
    exact Nat.succ_pos _
  rw [memberHead_eq, hlength, ← Spot.step_step]
  refine h.staticMark_yields.bind ?_
  rintro _ rfl
  rw [memberHeadRest, ← Spot.step_step]
  refine (Modifier.yields (x := x.step _) hedition hrest (fun hasync => ?_) ?_).bind ?_
  · rw [Spot.step_index, Nat.add_assoc]
    refine h.newlineBefore (Nat.succ_pos _) ?_
    have hone : 0 < m.words.length := by
      cases m <;> first | exact Nat.succ_pos _ | cases hasync
    omega
  -- A word that is the key stands alone, so what follows it follows the head.
  · rintro rfl word hword hkeyword
    have hone : key.words.length = 1 := by
      cases key with
      | spelled k => rfl
      | computed name => cases hkeyword
    have hpassed := h.passed (.inr hword) hkeyword
    rwa [hlength, hone, Modifier.words, List.length_nil, Nat.zero_add, ← Nat.add_assoc] at hpassed
  · rintro _ rfl
    refine (Key.yields (x := (x.step _).step _) hnames hkey houtside n).bind fun k hk => ?_
    exact .pure ⟨rfl, rfl, rfl, rfl, hk⟩

/-- A constructor is a plain method that is not static. -/
theorem classMemberHead_yields (h : HeadAt c x.index static m key)
    (hedition : 8 ≤ c.options.edition) (hnames : c.names = .script)
    (houtside : x.inInitializer = false)
    (hplain : static = false → key.isConstructor = true → m = .none) (n : Nat) :
    Yields c x (classMemberHead (.within (n + 2)))
      (IsHead static m (if !static && key.isConstructor then .constructor else m.kind) key)
      (x.step (headWords static m key).length) := by
  rw [classMemberHead]
  refine (h.memberHead_yields hedition hnames houtside n).bind fun head hhead => ?_
  have hconstructor := Key.constructorKey?_isSome hhead.key
  split
  next span hsome =>
    rw [hsome] at hconstructor
    rw [hhead.static, ← hconstructor]
    cases static with
    | true => exact .pure hhead
    | false =>
      have hnone := hplain rfl hconstructor.symm
      have hmodifiers : head.hasModifiers = false := by
        rw [MemberHead.hasModifiers, hhead.static, hhead.async, hhead.generator, hhead.kind, hnone]
        rfl
      rw [hmodifiers]
      exact .pure ⟨rfl, hhead.async, hhead.generator, rfl, hhead.key⟩
  next hnone =>
    rw [hnone] at hconstructor
    rw [← hconstructor, Option.isSome_none, Bool.and_false, if_neg Bool.false_ne_true]
    exact .pure hhead

end HeadAt

end ClassText

end EcmaScript
