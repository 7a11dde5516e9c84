import FeatureFlags.Text.Digits

/-!
# Decimal numbers

Numbers written with digits, a point and an exponent, and the range of them that a double holds.
-/

namespace FeatureFlags

/-- `digits * 10 ^ exponent`, without the sign. -/
structure Decimal where
  digits : Nat
  exponent : Int
deriving DecidableEq, Repr

namespace Decimal

def exponent? : List Char → Option Int
  | [] => some 0
  | c :: rest =>
    if c = 'e' ∨ c = 'E' then
      match rest with
      | '-' :: digits => (Text.digitsValue? 10 digits).map fun value => -(value : Int)
      | _ => (Text.digitsValue? 10 (Text.dropSign (· = '+') rest)).map fun value => (value : Int)
    else none

def read? (text : List Char) : Option Decimal :=
  let whole := text.takeWhile Char.isDigit
  let rest := text.drop whole.length
  let afterPoint := rest.drop 1
  let fraction := if rest.head? = some '.' then afterPoint.takeWhile Char.isDigit else []
  let tail := if rest.head? = some '.' then afterPoint.drop fraction.length else rest
  match Text.digitsValue? 10 (whole ++ fraction), exponent? tail with
  | some digits, some exponent => some ⟨digits, exponent - fraction.length⟩
  | _, _ => none

/-- The first value that is rounded to infinity: half a unit above the largest finite double. -/
def overflow : Nat := Nat.pow 2 1024 - Nat.pow 2 970

/-- A double can hold the number. Its order of magnitude decides that, but in one case. -/
def isFinite (decimal : Decimal) : Bool :=
  let order := (Nat.toDigits 10 decimal.digits).length + decimal.exponent
  decimal.digits = 0 || order ≤ 308 ||
    (order = 309 &&
      decimal.digits * Nat.pow 10 decimal.exponent.toNat <
        overflow * Nat.pow 10 (-decimal.exponent).toNat)

end Decimal

end FeatureFlags
