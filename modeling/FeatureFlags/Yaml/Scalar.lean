import FeatureFlags.Yaml.Character

/-!
# Scalars

A scalar is a text together with the style that it is written in and its tag.
-/

namespace FeatureFlags.Yaml

inductive Style where
  | plain
  | singleQuoted
  | doubleQuoted
  | literal
  | folded
deriving DecidableEq, Repr, Inhabited

/-- A tag, octet by octet. -/
abbrev Tag := List UInt8

structure Scalar where
  style : Style
  tag : Option Tag
  text : String
deriving DecidableEq, Repr, Inhabited

/-- What stands where a value is left out. -/
def Scalar.empty : Scalar := ⟨.plain, none, ""⟩

/-- The tag of a core type. -/
def coreTag (name : String) : Tag := ("tag:yaml.org,2002:" ++ name).toUTF8.data.toList

end FeatureFlags.Yaml
