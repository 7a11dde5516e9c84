import FeatureFlags.Yaml.Cursor
import FeatureFlags.Yaml.Folding

/-!
# Block scalars

After `|` or `>` and the end of its line, a scalar is the lines that are indented alike, each
without its indentation. Lines of the literal style keep their breaks, those of the folded style
are folded. What is kept of the breaks at the end is a matter of chomping.
-/

namespace FeatureFlags.Yaml

/-- Which of the breaks after the last line are kept: none, one, or all. -/
inductive Chomping where
  | strip
  | clip
  | keep
deriving DecidableEq, Repr, Inhabited

/-- What stands after the mark of a block scalar: its chomping and how deep it is indented. -/
structure BlockHeader where
  chomping : Chomping
  indent : Option Nat
deriving DecidableEq, Repr

namespace BlockHeader

def chomping? : Char → Option Chomping
  | '-' => some .strip
  | '+' => some .keep
  | _ => none

def indent? (c : Char) : Option Nat :=
  if c.isDigit then some (c.toNat - '0'.toNat) else none

/-- What the first character of a text says, if it says anything, and what follows it. -/
def takeMark {Mark : Type} (mark? : Char → Option Mark) : List Char → Option Mark × List Char
  | [] => (none, [])
  | c :: rest =>
    match mark? c with
    | some mark => (some mark, rest)
    | none => (none, c :: rest)

/-- The header that a text starts with, its two parts in either order, and what follows it. -/
def read (text : List Char) : BlockHeader × List Char :=
  let (before, rest) := takeMark chomping? text
  let (indent, rest) := takeMark indent? rest
  let (after, rest) := if before.isSome then (none, rest) else takeMark chomping? rest
  (⟨(before <|> after).getD .clip, indent⟩, rest)

end BlockHeader

/-- Where the spaces and empty lines before a line end. -/
structure Indentation where
  breaks : List Char
  rest : List Char
  column : Nat
  /-- The largest column that the spaces of a line reached. -/
  widest : Nat
deriving Repr

/--
Skips the empty lines and the spaces before column `limit`, or all spaces if there is no limit yet.
A tab among them is refused.
-/
def skipIndentation (limit : Option Nat) (breaks : List Char) (column widest : Nat) :
    List Char → Option Indentation
  | [] => some ⟨breaks, [], column, max widest column⟩
  | c :: rest =>
    let inside := limit.all fun limit => column < limit
    if inside && c = ' ' then skipIndentation limit breaks (column + 1) widest rest
    else if inside && c = '\t' then none
    else if isBreak c then
      skipIndentation limit (breaks ++ [c]) 0 (max widest column) rest
    else some ⟨breaks, c :: rest, column, max widest column⟩

theorem length_rest_le {limit : Option Nat} {breaks text : List Char} {column widest : Nat}
    {found : Indentation} (h : skipIndentation limit breaks column widest text = some found) :
    found.rest.length ≤ text.length := by
  fun_induction skipIndentation limit breaks column widest text with
  | case1 => cases h; simp
  | case2 _ _ _ _ _ _ _ ih => exact Nat.le_succ_of_le (ih h)
  | case3 => cases h
  | case4 _ _ _ _ _ _ _ _ _ ih => exact Nat.le_succ_of_le (ih h)
  | case5 => cases h; simp

/-- A line of a block scalar, its break, if it has one, and the breaks of empty lines after it. -/
structure BlockLine where
  text : List Char
  ending : Option Char
  later : List Char
deriving DecidableEq, Repr

namespace BlockLine

def isIndented (line : BlockLine) : Bool := line.text.head?.any isBlank

/--
What stands for the breaks between two lines. The folded style replaces a `\n` by a space, or by
nothing before further breaks, unless it is next to a line that starts with a blank.
-/
def between (folded : Bool) (line next : BlockLine) : List Char :=
  if folded && line.ending = some '\n' && !line.isIndented && !next.isIndented then
    if line.later = [] then [' '] else line.later
  else line.ending.toList ++ line.later

def atEnd (chomping : Chomping) (ending later : List Char) : List Char :=
  match chomping with
  | .strip => []
  | .clip => ending
  | .keep => ending ++ later

def join (folded : Bool) (chomping : Chomping) : List BlockLine → List Char
  | [] => []
  | [line] => line.text ++ atEnd chomping line.ending.toList line.later
  | line :: next :: rest =>
    line.text ++ between folded line next ++ join folded chomping (next :: rest)

end BlockLine

/-- Reads the lines from one on whose text starts in column `indent`. -/
def readBlockLines (indent : Nat) (text : List Char) (column : Nat) :
    Option (List BlockLine × List Char) :=
  if column = indent ∧ text ≠ [] then
    let line := text.takeWhile (!isBreak ·)
    match _hline : text.drop line.length with
    | [] => some ([⟨line, none, []⟩], [])
    | c :: rest =>
      match _hfound : skipIndentation (some indent) [] 0 0 rest with
      | none => none
      | some found =>
        match readBlockLines indent found.rest found.column with
        | some (lines, rest) => some (⟨line, some c, found.breaks⟩ :: lines, rest)
        | none => none
  else some ([], text)
termination_by text.length
decreasing_by
  have hle := length_rest_le _hfound
  have hlength := congrArg List.length _hline
  simp only [List.length_drop, List.length_cons] at hlength
  omega

/-- The text of a block scalar whose mark was just read, and what follows it. -/
def readBlock (folded : Bool) (margin : Nat) (text : List Char) :
    Option (List Char × List Char) :=
  let (header, rest) := BlockHeader.read text
  if header.indent = some 0 then none
  else do
    let rest ← nextLine? rest
    let limit := header.indent.map fun indent => margin - 1 + indent
    let first ← skipIndentation limit [] 0 0 rest
    let indent := limit.getD (max (max first.widest margin) 1)
    let (lines, rest) ← readBlockLines indent first.rest first.column
    match lines with
    | [] => some (BlockLine.atEnd header.chomping [] first.breaks, rest)
    | _ => some (first.breaks ++ BlockLine.join folded header.chomping lines, rest)

/-! ## Writing -/

def chompingOf (text : List Char) : Chomping :=
  match text.reverse with
  | [] => .strip
  | [c] => if isBreak c then .keep else .strip
  | c :: d :: _ => if !isBreak c then .strip else if isBreak d then .keep else .clip

def Chomping.text : Chomping → List Char
  | strip => ['-']
  | clip => []
  | keep => ['+']

/-- Lines with two spaces before each that is not empty. -/
def indentLines (atStart : Bool) : List Char → List Char
  | [] => []
  | c :: rest =>
    if isBreak c then c :: indentLines true rest
    else if atStart then ' ' :: ' ' :: c :: indentLines false rest
    else c :: indentLines false rest

/-- A literal scalar, with its depth in the header if the text itself starts with a space. -/
def writeLiteral (text : List Char) : List Char :=
  '|' :: (if text.head?.any (fun c => c = ' ' || isBreak c) then ['2'] else []) ++
    (chompingOf text).text ++ '\n' :: indentLines true text

end FeatureFlags.Yaml
