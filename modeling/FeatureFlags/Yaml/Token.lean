import FeatureFlags.Yaml.Tag

/-!
# Tokens

What a YAML text consists of, once its indentation is told by tokens of their own.
-/

namespace FeatureFlags.Yaml

inductive Token where
  | versionDirective (major minor : Nat)
  | tagDirective (handle : List Char) (lead : Tag)
  | documentStart
  | documentEnd
  | blockSequenceStart
  | blockMappingStart
  | blockEnd
  | flowSequenceStart
  | flowSequenceEnd
  | flowMappingStart
  | flowMappingEnd
  | blockEntry
  | flowEntry
  | key
  | value
  | alias (name : List Char)
  | anchor (name : List Char)
  | tag (tag : WrittenTag)
  | scalar (style : Style) (text : List Char)
deriving DecidableEq, Repr

end FeatureFlags.Yaml
