import FeatureFlags.Decimal
import FeatureFlags.Text
import FeatureFlags.Text.Alphanumeric

/-!
# Patterns

Regular expressions, of which a log filter asks only whether they can be used. A pattern stands
between braces, so it holds no `}`, and a `{` outside a class is never closed.

A pattern is read item by item. What is known between two items is a `Reading`: how characters are
taken, which groups and classes are open, and whether something stands before that can be repeated.
Texts are matched octet by octet, which leaves out what has to look at whole characters: the edges
of words, and any set that holds an octet of no character.
-/

namespace FeatureFlags.Pattern

/-- How the characters of a pattern are taken. -/
structure Mode where
  /-- Sets are of Unicode characters; otherwise they are of octets, and may hold ASCII only. -/
  unicode : Bool
  /-- White space and comments between items are passed over. -/
  spaced : Bool
deriving DecidableEq, Repr

namespace Mode

/-- The text behind white space and comments, which start with `#` and run to the end of a line. -/
def skipSpace (inComment : Bool) : List Char → List Char
  | [] => []
  | c :: rest =>
    if inComment then skipSpace (c ≠ '\n') rest
    else if c = '#' then skipSpace true rest
    else if Text.isSpace c then skipSpace false rest
    else c :: rest

def skip (mode : Mode) (text : List Char) : List Char :=
  if mode.spaced then skipSpace false text else text

def flagLetters : List Char := ['i', 'm', 's', 'U', 'R', 'u', 'x', '-']

def areFlags (flags : List Char) : Bool :=
  flags.all flagLetters.contains && decide flags.Nodup && flags.getLast? ≠ some '-'

/-- What flags make of a setting. -/
def setting (flags : List Char) (letter : Char) (before : Bool) : Bool :=
  if flags.contains letter then !(flags.takeWhile (· ≠ letter)).contains '-' else before

def withFlags (mode : Mode) (flags : List Char) : Mode :=
  ⟨setting flags 'u' mode.unicode, setting flags 'x' mode.spaced⟩

end Mode

/-! ## Escapes -/

inductive Escape where
  | literal (c : Char)
  /-- A set of characters. -/
  | set
  /-- A place between characters. -/
  | place
deriving DecidableEq, Repr

namespace Escape

def controls : List (Char × Char) :=
  [('a', '\x07'), ('f', '\x0c'), ('t', '\t'), ('n', '\n'), ('r', '\r'), ('v', '\x0b')]

def categories : List Char := ['C', 'L', 'M', 'N', 'P', 'S', 'Z']

/-- The value of `count` hexadecimal digits after others of value `value`. -/
def readDigits (mode : Mode) (count value : Nat) (text : List Char) : Option (Nat × List Char) :=
  match count with
  | 0 => some (value, text)
  | count + 1 =>
    match mode.skip text with
    | [] => none
    | c :: rest =>
      (Text.digitValue? c).bind fun digit => readDigits mode count (value * 16 + digit) rest

/-- A character written by `count` digits of its code. Two digits may write an octet instead. -/
def readCode (mode : Mode) (count : Nat) (text : List Char) : Option (Escape × List Char) :=
  (readDigits mode count 0 text).bind fun (code, rest) =>
    if !decide code.isValidChar || (!mode.unicode && count = 2 && 0x7F < code) then none
    else some (literal (Char.ofNat code), rest)

def read (mode : Mode) : List Char → Option (Escape × List Char)
  | [] => none
  | c :: rest =>
    if c = 'x' then readCode mode 2 rest
    else if c = 'u' then readCode mode 4 rest
    else if c = 'U' then readCode mode 8 rest
    else if c = 'p' ∨ c = 'P' then
      match mode.skip rest with
      | [] => none
      | letter :: rest =>
        if mode.unicode && categories.contains letter.toUpper then some (set, rest) else none
    else if ['d', 's', 'w'].contains c then some (set, rest)
    else if ['D', 'S', 'W'].contains c then if mode.unicode then some (set, rest) else none
    else if ['A', 'z'].contains c then some (place, rest)
    else if ['b', 'B', '<', '>'].contains c then if mode.unicode then none else some (place, rest)
    else
      match controls.lookup c with
      | some control => some (literal control, rest)
      | none => if c.isAlphanum || 0x80 ≤ c.toNat then none else some (literal c, rest)

end Escape

/-! ## Items -/

/-- What is known between two items. -/
structure Reading where
  mode : Mode
  /-- The modes outside the open groups, the innermost first. -/
  outer : List Mode
  /-- How many brackets of a class are open. -/
  brackets : Nat
  /-- What stands before can be repeated. -/
  repeatable : Bool
  /-- The names of groups. -/
  names : List (List Char)
deriving Repr

namespace Reading

def start : Reading := ⟨⟨true, false⟩, [], 0, false, []⟩

def isComplete (reading : Reading) : Bool := reading.outer = [] && reading.brackets = 0

def afterItem (reading : Reading) : Reading := { reading with repeatable := true }

/-! ### Classes -/

def asciiClasses : List String :=
  ["alnum", "alpha", "ascii", "blank", "cntrl", "digit", "graph", "lower", "print", "punct",
    "space", "upper", "word", "xdigit"]

/-- Reads `:name:]` or `:^name:]`, and says whether it has the `^`. -/
def readAsciiClass : List Char → Option (Bool × List Char)
  | ':' :: rest =>
    let complemented := rest.head? = some '^'
    let rest := if complemented then rest.tail else rest
    let name := rest.takeWhile (· ≠ ':')
    match rest.drop name.length with
    | ':' :: ']' :: rest =>
      if asciiClasses.contains (String.ofList name) then some (complemented, rest) else none
    | _ => none
  | _ => none

/-- The text behind the dashes that a class starts with, or behind a `]` there. -/
def skipFirst (mode : Mode) : List Char → List Char
  | ']' :: rest => rest
  | text => text.dropWhile fun c => c = '-' || (mode.spaced && Text.isSpace c)

def openClass (reading : Reading) (text : List Char) : Option (Reading × List Char) :=
  let inside := { reading with brackets := reading.brackets + 1 }
  match reading.mode.skip text with
  | '^' :: rest =>
    if reading.mode.unicode then
      some (inside, skipFirst reading.mode (reading.mode.skip rest))
    else none
  | rest => some (inside, skipFirst reading.mode rest)

def readMember (mode : Mode) (text : List Char) : Option (Escape × List Char) :=
  let found :=
    match text with
    | [] => none
    | '\\' :: rest => Escape.read mode rest
    | c :: rest => some (.literal c, rest)
  match found with
  | some (.literal c, rest) =>
    if mode.unicode || c.toNat < 0x80 then some (.literal c, rest) else none
  | some (.set, rest) => some (.set, rest)
  | _ => none

/-- Reads a member of a class or a range of them. A dash before a `]` or a dash makes no range. -/
def readRange (mode : Mode) (text : List Char) : Option (List Char) :=
  match readMember mode text with
  | none => none
  | some (first, rest) =>
    match mode.skip rest with
    | '-' :: afterDash =>
      let afterDash := mode.skip afterDash
      if afterDash.head?.any fun c => c = ']' || c = '-' then some (mode.skip rest)
      else
        match first, readMember mode afterDash with
        | .literal first, some (.literal last, rest) => if first ≤ last then some rest else none
        | _, _ => none
    | rest => some rest

/-- Reads an item of a class: a class inside it, its end, an operator or a range. -/
def readInClass (reading : Reading) (text : List Char) : Option (Reading × List Char) :=
  match text with
  | '[' :: rest =>
    match readAsciiClass rest with
    | some (complemented, rest) =>
      if complemented && !reading.mode.unicode then none else some (reading, rest)
    | none => reading.openClass rest
  | ']' :: rest => some ({ reading with brackets := reading.brackets - 1 }.afterItem, rest)
  | '&' :: '&' :: rest => some (reading, rest)
  | '-' :: '-' :: rest => some (reading, rest)
  | '~' :: '~' :: rest => some (reading, rest)
  | text => (readRange reading.mode text).map (reading, ·)

/-! ### Groups -/

def openGroup (reading : Reading) (mode : Mode) : Reading :=
  { reading with mode := mode, outer := reading.mode :: reading.outer, repeatable := false }

def isGroupName : List Char → Bool
  | [] => false
  | first :: rest =>
    (first = '_' || Text.isAlphabetic first) &&
      rest.all fun c => ['_', '.', '[', ']'].contains c || Text.isAlphanumeric c

/-- Reads the name of a group and its `>`. No two groups have the same name. -/
def readName (reading : Reading) (text : List Char) : Option (Reading × List Char) :=
  let name := text.takeWhile (· ≠ '>')
  match text.drop name.length with
  | [] => none
  | _ :: rest =>
    if isGroupName name && !reading.names.contains name then
      some ({ reading with names := name :: reading.names }.openGroup reading.mode, rest)
    else none

/-- Reads flags, for what follows them before a `)` and for a group before a `:`. -/
def readFlags (reading : Reading) (text : List Char) : Option (Reading × List Char) :=
  let flags := text.takeWhile fun c => c ≠ ':' && c ≠ ')'
  let mode := reading.mode.withFlags flags
  if !Mode.areFlags flags then none
  else
    match text.drop flags.length with
    | ':' :: rest => some (reading.openGroup mode, rest)
    | ')' :: rest =>
      if flags = [] then none else some ({ reading with mode := mode, repeatable := false }, rest)
    | _ => none

def readGroup (reading : Reading) (text : List Char) : Option (Reading × List Char) :=
  match reading.mode.skip text with
  | '?' :: 'P' :: '<' :: rest => reading.readName rest
  | '?' :: '<' :: rest => reading.readName rest
  | '?' :: rest => reading.readFlags rest
  | rest => some (reading.openGroup reading.mode, rest)

def closeGroup (reading : Reading) : Option Reading :=
  match reading.outer with
  | [] => none
  | mode :: outer => some { reading with mode := mode, outer := outer, repeatable := true }

def readOutside (reading : Reading) (text : List Char) : Option (Reading × List Char) :=
  match text with
  | [] => none
  | '(' :: rest => reading.readGroup rest
  | ')' :: rest => reading.closeGroup.map (·, rest)
  | '[' :: rest => reading.openClass rest
  | '|' :: rest => some ({ reading with repeatable := false }, rest)
  | '\\' :: rest => (Escape.read reading.mode rest).map fun (_, rest) => (reading.afterItem, rest)
  | c :: rest =>
    if ['?', '*', '+'].contains c then
      if reading.repeatable then some (reading, if rest.head? = some '?' then rest.tail else rest)
      else none
    else if c = '\x7b' ∨ (c = '.' ∧ reading.mode.unicode = false) then none
    else some (reading.afterItem, rest)

/-- Reads at most `count` items, up to the end of the text. -/
def readItems : Nat → Reading → List Char → Bool
  | 0, _, _ => false
  | count + 1, reading, text =>
    match reading.mode.skip text with
    | [] => reading.isComplete
    | c :: rest =>
      let item :=
        if reading.brackets = 0 then reading.readOutside (c :: rest)
        else reading.readInClass (c :: rest)
      match item with
      | some (reading, rest) => readItems count reading rest
      | none => false

end Reading

/-- The text is a pattern. Each of its items takes a character at least. -/
def isPattern (text : List Char) : Bool := Reading.readItems (text.length + 1) .start text

def numberWords : List String := ["inf", "infinity", "nan"]

def isNumber (text : List Char) : Bool :=
  numberWords.contains (String.ofList (text.map Char.toLower)) || (Decimal.read? text).isSome

/--
What a field may be asked to be: `true`, `false`, a number or a match of a pattern. Of the first
three, only a number that starts with `+` is no pattern itself.
-/
def isValue : List Char → Bool
  | '+' :: number => isNumber number
  | text => isPattern text

end FeatureFlags.Pattern
