import FeatureFlags.Text.Digits
import FeatureFlags.Yaml.Folding

/-!
# Quoted scalars

Between single quotes every character stands for itself and a quote is written twice. Between
double quotes a backslash starts an escape. Both may run over several lines, which are folded.
Reading a quoted scalar starts after the opening quote and gives its pieces and what follows the
closing one. Writing keeps a text on one line, except that a break is kept as it is between
single quotes, with an indentation before the word after it.
-/

namespace FeatureFlags.Yaml

/-- Puts a piece before those that the rest of a scalar gave. -/
def Piece.before (piece : Piece) :
    Option (List Piece × List Char) → Option (List Piece × List Char)
  | some (pieces, rest) => some (piece :: pieces, rest)
  | none => none

def Piece.ofChar (c : Char) : Piece := if isGap c then .gap c else .char c

/-! ## Between single quotes -/

/-- The pieces up to the closing quote. A mark between documents must not come first. -/
def readSingleQuoted : List Char → Option (List Piece × List Char)
  | [] => none
  | '\'' :: '\'' :: rest => (Piece.char '\'').before (readSingleQuoted rest)
  | c :: rest =>
    if c = '\'' then some ([], rest)
    else if isBreak c && startsDocument rest then none
    else (Piece.ofChar c).before (readSingleQuoted rest)

/-- What stands before a word: the indentation, if the word is first on its line. -/
def indentation (afterBreak : Bool) : List Char := if afterBreak then [' ', ' '] else []

/-- The text between the quotes and the closing one. -/
def writeSingleQuotedAfter (afterBreak : Bool) : List Char → List Char
  | [] => indentation afterBreak ++ ['\'']
  | c :: rest =>
    if isBreak c then c :: writeSingleQuotedAfter true rest
    else if c = ' ' then c :: writeSingleQuotedAfter afterBreak rest
    else indentation afterBreak ++ (if c = '\'' then ['\'', '\''] else [c]) ++
      writeSingleQuotedAfter false rest

def writeSingleQuoted (text : List Char) : List Char :=
  '\'' :: writeSingleQuotedAfter false text

/-! ## Between double quotes -/

/-- The escapes that are written, each with the character that it stands for. -/
def writtenEscapes : List (Char × Char) :=
  [('0', '\x00'), ('a', '\x07'), ('b', '\x08'), ('t', '\t'), ('n', '\n'), ('v', '\x0b'),
    ('f', '\x0c'), ('r', '\r'), ('e', '\x1b'), ('"', '"'), ('\\', '\\'), ('N', '\u0085'),
    ('L', '\u2028'), ('P', '\u2029')]

def readEscapes : List (Char × Char) :=
  writtenEscapes ++ [('\t', '\t'), (' ', ' '), ('/', '/'), ('_', '\u00a0')]

def escapeLength? : Char → Option Nat
  | 'x' => some 2
  | 'u' => some 4
  | 'U' => some 8
  | _ => none

/-- The character that the first `count` hexadecimal digits of a text give. -/
def hexChar? (count : Nat) (text : List Char) : Option Char :=
  if text.length < count then none
  else
    match Text.digitsValue? 16 (text.take count) with
    | some value => if value.isValidChar then some (Char.ofNat value) else none
    | none => none

/-- The character that an escape stands for, and how many characters after its first it takes. -/
def escaped? (c : Char) (rest : List Char) : Option (Char × Nat) :=
  match readEscapes.lookup c with
  | some meant => some (meant, 0)
  | none => (escapeLength? c).bind fun count => (hexChar? count rest).map (·, count)

/-- The pieces up to the closing quote. A mark between documents must not come first. -/
def readDoubleQuoted (text : List Char) : Option (List Piece × List Char) :=
  match text with
  | [] => none
  | '"' :: rest => some ([], rest)
  | ['\\'] => none
  | '\\' :: c :: rest =>
    if isBreak c then
      if startsDocument rest then none else Piece.joint.before (readDoubleQuoted rest)
    else
      match escaped? c rest with
      | some (meant, count) => (Piece.char meant).before (readDoubleQuoted (rest.drop count))
      | none => none
  | c :: rest =>
    if isBreak c && startsDocument rest then none
    else (Piece.ofChar c).before (readDoubleQuoted rest)
termination_by text.length

def isPrintable (c : Char) : Bool :=
  let n := c.toNat
  n == 0x0A || (0x20 ≤ n && n ≤ 0x7E) || (0xA0 ≤ n && n ≤ 0xD7FF) ||
    (0xE000 ≤ n && n ≤ 0xFFFD && n != 0xFEFF) || 0x10000 ≤ n

/-- An escape by number, of the shortest form that holds it. -/
def escapeByNumber (c : Char) : List Char :=
  let n := c.toNat
  if n ≤ 0xFF then 'x' :: Text.hexDigits 2 n
  else if n ≤ 0xFFFF then 'u' :: Text.hexDigits 4 n
  else 'U' :: Text.hexDigits 8 n

def writeDoubleQuotedChar (c : Char) : List Char :=
  match writtenEscapes.find? (·.2 = c) with
  | some (letter, _) => ['\\', letter]
  | none => if isPrintable c then [c] else '\\' :: escapeByNumber c

def writeDoubleQuoted (text : List Char) : List Char :=
  '"' :: text.flatMap writeDoubleQuotedChar ++ ['"']

end FeatureFlags.Yaml
