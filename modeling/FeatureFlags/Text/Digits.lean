/-!
# Digits

Numbers written in a base up to 16, read and written, and the signs before them.
-/

namespace FeatureFlags.Text

def digitValue? (c : Char) : Option Nat :=
  if c.isDigit then some (c.toNat - '0'.toNat)
  else if 'a' ≤ c ∧ c ≤ 'f' then some (c.toNat - 'a'.toNat + 10)
  else if 'A' ≤ c ∧ c ≤ 'F' then some (c.toNat - 'A'.toNat + 10)
  else none

/-- The value of digits in `base` after digits of value `value`. -/
def digitsValueFrom? (base value : Nat) : List Char → Option Nat
  | [] => some value
  | c :: rest =>
    match digitValue? c with
    | some digit =>
      if digit < base then digitsValueFrom? base (value * base + digit) rest else none
    | none => none

/-- The number that one or more digits in `base` write. -/
def digitsValue? (base : Nat) : List Char → Option Nat
  | [] => none
  | digits => digitsValueFrom? base 0 digits

/-- The text without a leading `sign`. -/
def dropSign (sign : Char → Bool) : List Char → List Char
  | c :: rest => if sign c then rest else c :: rest
  | [] => []

def isSign (c : Char) : Bool := c = '+' || c = '-'

/-- The upper-case digit of a value below 16. -/
def hexDigit (value : Nat) : Char :=
  if value < 10 then Char.ofNat ('0'.toNat + value) else Char.ofNat ('A'.toNat + (value - 10))

def hexDigits : Nat → Nat → List Char
  | 0, _ => []
  | count + 1, value => hexDigits count (value / 16) ++ [hexDigit (value % 16)]

theorem length_hexDigits (count value : Nat) : (hexDigits count value).length = count := by
  induction count generalizing value with
  | zero => rfl
  | succ count ih => simp [hexDigits, ih]

end FeatureFlags.Text
