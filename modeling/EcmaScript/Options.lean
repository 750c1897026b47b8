namespace EcmaScript

/-!
# Options

* `Options.edition` — the edition of the language, whether it is given as a number or as a year.
-/

/-- What language a source is read as. -/
structure Options where
  /-- An edition number such as 8, or its year such as 2017. -/
  ecmaVersion : Nat
  /-- Whether classes may have fields and private names. -/
  classFields : Bool
deriving DecidableEq, Repr

namespace Options

instance : Inhabited Options := ⟨⟨9, false⟩⟩

/-- The edition number. Edition 6 came out in 2015, and one a year since then. -/
def edition (o : Options) : Nat :=
  if 2015 ≤ o.ecmaVersion then o.ecmaVersion - 2009 else o.ecmaVersion

/-- From edition 8 on, members may be fields and names may be private, where the switch is on. -/
def supportsFields (o : Options) : Bool := 8 ≤ o.edition

/-- From edition 8 on, members may be async. -/
def supportsAsyncMembers (o : Options) : Bool := 8 ≤ o.edition

end Options

end EcmaScript
