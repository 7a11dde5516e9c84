import FeatureFlags.Decimal

/-!
# Numbers in plain scalars

Which plain texts are numbers: integers of up to 128 bits in four bases, decimal numbers within the
range of a double, and the words for infinity and for no number. A decimal integer has no leading
zero. A text that is one of these is quoted when it is written.
-/

namespace FeatureFlags.Yaml

/-- Digits that start with a zero which is not all of them. -/
def hasLeadingZero : List Char → Bool
  | '0' :: digit :: rest => (digit :: rest).all Char.isDigit
  | _ => false

def magnitude? : List Char → Option Nat
  | '0' :: 'x' :: digits => Text.digitsValue? 16 digits
  | '0' :: 'o' :: digits => Text.digitsValue? 8 digits
  | '0' :: 'b' :: digits => Text.digitsValue? 2 digits
  | text => if hasLeadingZero text then none else Text.digitsValue? 10 text

/-- A non-negative integer, which may have a plus sign. -/
def natural? (text : List Char) : Option Nat := magnitude? (Text.dropSign (· = '+') text)

/-- An integer that a minus sign makes negative or zero, without the sign. -/
def negative? : List Char → Option Nat
  | '-' :: text => magnitude? text
  | _ => none

def isInteger (text : List Char) : Bool :=
  (natural? text).any (· < Nat.pow 2 128) || (negative? text).any (· ≤ Nat.pow 2 127)

def infinityWords : List String := [".inf", ".Inf", ".INF"]

def nanWords : List String := [".nan", ".NaN", ".NAN"]

def isDecimal (text : List Char) : Bool :=
  let unsigned := Text.dropSign Text.isSign text
  infinityWords.contains (String.ofList unsigned) || nanWords.contains (String.ofList text) ||
    (Decimal.read? unsigned).any Decimal.isFinite

/-- The text is a number as it stands, or would be one but for its leading zeros. -/
def isNumeric (text : List Char) : Bool :=
  isInteger text || hasLeadingZero (Text.dropSign Text.isSign text) || isDecimal text

end FeatureFlags.Yaml
