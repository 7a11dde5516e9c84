import FeatureFlags.Path

/-!
# Entries

An entry is a feature flag as a description declares it: a name, a default and the other entries
it depends on, each of which must be on, or, written with a `!`, off.
-/

namespace FeatureFlags

/-- The characters of a name: ASCII letters and digits and the underscore. -/
def isNameChar (c : Char) : Bool := c.isAlphanum || c = '_'

theorem toNat_of_isNameChar {c : Char} (h : isNameChar c = true) :
    48 ≤ c.toNat ∧ c.toNat ≤ 122 := by
  have halphanum : c.isAlphanum = ((c.isUpper || c.isLower) || c.isDigit) := rfl
  have hupper : c.isUpper = decide (65 ≤ c.val ∧ c.val ≤ 90) := rfl
  have hlower : c.isLower = (decide (97 ≤ c.val) && decide (c.val ≤ 122)) := rfl
  have hdigit : c.isDigit = (decide (48 ≤ c.val) && decide (c.val ≤ 57)) := rfl
  simp only [isNameChar, halphanum, hupper, hlower, hdigit, Bool.or_eq_true, Bool.and_eq_true,
    decide_eq_true_eq, UInt32.le_iff_toNat_le, UInt32.reduceToNat] at h
  show 48 ≤ c.val.toNat ∧ c.val.toNat ≤ 122
  rcases h with ((h | h) | h) | rfl
  · omega
  · omega
  · omega
  · decide

/-- A name is not empty and holds name characters only. -/
def isName (text : String) : Bool :=
  text.toList ≠ [] && text.toList.all isNameChar

/-- The declared value of an entry. -/
inductive Toggle where
  | yes
  | no
deriving DecidableEq, Repr, Inhabited

namespace Toggle

def text : Toggle → String
  | yes => "yes"
  | no => "no"

def isYes (toggle : Toggle) : Bool := toggle = yes

/-- Reads `yes` or `no` in any mix of upper and lower case. -/
def ofWord? (word : String) : Option Toggle :=
  let folded := word.toList.map Char.toLower
  if folded = ['y', 'e', 's'] then some yes
  else if folded = ['n', 'o'] then some no
  else none

@[simp] theorem ofWord?_text (toggle : Toggle) : ofWord? toggle.text = some toggle := by
  cases toggle <;> rfl

end Toggle

/-- A name that an entry depends on; a negated one must be off. -/
structure Dependency where
  name : String
  negated : Bool
deriving DecidableEq, Repr, Inhabited

namespace Dependency

def text (dependency : Dependency) : String :=
  if dependency.negated then "!" ++ dependency.name else dependency.name

/-- Reads `NAME` or `!NAME`. -/
def ofToken? (token : String) : Option Dependency :=
  let dependency : Dependency :=
    match token.toList with
    | '!' :: name => ⟨String.ofList name, true⟩
    | _ => ⟨token, false⟩
  if isName dependency.name then some dependency else none

end Dependency

/-- An entry as declared, before its dependencies are looked up. -/
structure Entry where
  name : String
  default : Toggle
  /-- In the order of the declaration. -/
  dependencies : List Dependency
  /-- Where the entry was declared. -/
  origin : Origin
deriving DecidableEq, Repr, Inhabited

namespace Entry

/-- The names that must be on. -/
def positive (entry : Entry) : List String :=
  (entry.dependencies.filter (! ·.negated)).map (·.name)

/-- The names that must be off. -/
def negative (entry : Entry) : List String :=
  (entry.dependencies.filter (·.negated)).map (·.name)

end Entry

end FeatureFlags
