import FeatureFlags.Yaml.Block
import FeatureFlags.Yaml.Number
import FeatureFlags.Yaml.Plain
import FeatureFlags.Yaml.Quoted
import FeatureFlags.Yaml.Scalar

/-!
# Writing texts

A text is written in the plainest style that reads back as the same text: plain, between single
quotes if plain would be taken for something else, as a literal block if it has lines, and between
double quotes if nothing else keeps it. Lines are never folded.
-/

namespace FeatureFlags.Yaml

def reservedWords : List String :=
  ["null", "Null", "NULL", "~", "true", "True", "TRUE", "false", "False", "FALSE"]

/-- A plain scalar of this text would not be a text. -/
def isAmbiguous (text : List Char) : Bool :=
  text = [] || reservedWords.contains (String.ofList text) || isNumeric text

/-- A colon at the end of a word, or a number sign at the start of one, is in the text. -/
def hasIndicator (afterGap : Bool) : List Char → Bool
  | [] => false
  | c :: rest =>
    (c = ':' && atGap rest) || (c = '#' && afterGap) || hasIndicator (isGap c) rest

/-- The start of the text would be read as something else than a plain scalar. -/
def startsIndicated (text : List Char) : Bool :=
  "---".toList.isPrefixOf text || "...".toList.isPrefixOf text ||
    match text with
    | [] => false
    | c :: rest => if c = '-' || c = '?' || c = ':' then atGap rest else isIndicator c

def hasAdjacent (first second : Char → Bool) : List Char → Bool
  | c :: d :: rest => (first c && second d) || hasAdjacent first second (d :: rest)
  | _ => false

def hasTrailingSpace (text : List Char) : Bool := hasAdjacent (· = ' ') isBreak text

def hasLeadingSpace (text : List Char) : Bool := hasAdjacent isBreak (· = ' ') text

/-- No quotes are needed around the text. -/
def isPlain (text : List Char) : Bool :=
  !isAmbiguous text && !startsIndicated text && !hasIndicator true text &&
    text.all (fun c => isPrintable c && !isBreak c) &&
    text.head? ≠ some ' ' && text.getLast? ≠ some ' '

def styleOf (text : List Char) : Style :=
  if !text.all isPrintable || hasTrailingSpace text then .doubleQuoted
  else if text.contains '\n' then
    if text.getLast? = some ' ' then .doubleQuoted else .literal
  else if hasLeadingSpace text then .doubleQuoted
  else if isPlain text then .plain
  else .singleQuoted

def writeText (text : List Char) : List Char :=
  match styleOf text with
  | .plain => text
  | .literal => writeLiteral text
  | .doubleQuoted => writeDoubleQuoted text
  | _ => writeSingleQuoted text

/-- A key and its written value, up to the end of the line. -/
def writePair (key : String) (written : List Char) : List Char :=
  let line := key.toList ++ ':' :: ' ' :: written
  if line.getLast?.any isBreak then line else line ++ ['\n']

end FeatureFlags.Yaml
