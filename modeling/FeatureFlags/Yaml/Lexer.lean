import FeatureFlags.Yaml.Block
import FeatureFlags.Yaml.Plain
import FeatureFlags.Yaml.Quoted
import FeatureFlags.Yaml.Token

/-!
# From text to tokens

Two things are not told by the characters at hand. Indentation opens and closes blocks: each open
block has a margin, one more than the column it starts in, and a token that stands before the
margin closes the block. And a key is known as one only by the `:` after it: a token that may turn
out to be a key is kept as a candidate, and the tokens that make it a key are put before it when
its `:` is met.
-/

namespace FeatureFlags.Yaml

/-- A place where a key may have started. -/
structure Candidate where
  /-- How many tokens are before it. -/
  index : Nat
  line : Nat
  column : Nat
  /-- The bytes of the line before it. -/
  bytes : Nat
  /-- Nothing else than a key can stand here. -/
  required : Bool
deriving DecidableEq, Repr

/-- How many bytes a key without a `?` may have, up to its `:`. -/
def Candidate.maxBytes : Nat := 1024

/-- A key and its `:` are on one line, and not too far apart. -/
def Candidate.isStale (cursor : Cursor) (candidate : Candidate) : Bool :=
  candidate.line < cursor.line || candidate.bytes + maxBytes < cursor.bytes

structure Lexer where
  cursor : Cursor
  tokens : Array Token
  /-- The margins of the open blocks, the innermost first. -/
  margins : List Nat
  /-- A key, or an entry of a block, may start here. -/
  keyAllowed : Bool
  candidate : Option Candidate
  /-- The candidates outside each open bracket, the innermost first. -/
  outer : List (Option Candidate)
deriving Repr

namespace Lexer

def start (text : List Char) : Lexer := ⟨.start text, #[], [], true, none, []⟩

def inFlow (lexer : Lexer) : Bool := lexer.outer ≠ []

def margin (lexer : Lexer) : Nat := lexer.margins.headD 0

def rest (lexer : Lexer) : List Char := lexer.cursor.rest

def push (lexer : Lexer) (token : Token) : Lexer :=
  { lexer with tokens := lexer.tokens.push token }

/-- Goes on behind a token that was read up to `rest`. -/
def pushUpTo (lexer : Lexer) (token : Token) (rest : List Char) : Lexer :=
  { lexer.push token with cursor := lexer.cursor.moveTo rest }

/-- Goes on behind a token of `count` characters. -/
def pushMark (lexer : Lexer) (token : Token) (count : Nat) : Lexer :=
  { lexer.push token with cursor := lexer.cursor.skip count }

def allowKey (lexer : Lexer) (allowed : Bool) : Lexer := { lexer with keyAllowed := allowed }

/-! ## Blocks -/

/-- Closes the open blocks whose margin is beyond `limit`. In flow no indentation counts. -/
def closeBlocks (lexer : Lexer) (limit : Nat) : Lexer :=
  if lexer.inFlow then lexer
  else
    let closed := lexer.margins.takeWhile (limit < ·)
    { lexer with
      tokens := lexer.tokens ++ closed.map fun _ => Token.blockEnd
      margins := lexer.margins.drop closed.length }

/-- Opens a block that starts in `column` if none is open there, with its token at `index`. -/
def openBlock (lexer : Lexer) (column index : Nat) (token : Token) : Lexer :=
  if lexer.inFlow || column < lexer.margin then lexer
  else
    { lexer with
      tokens := lexer.tokens.insertIdxIfInBounds index token
      margins := (column + 1) :: lexer.margins }

/-- Opens a block at the cursor. -/
def openBlockHere (lexer : Lexer) (token : Token) : Lexer :=
  lexer.openBlock lexer.cursor.column lexer.tokens.size token

/-! ## Candidates for keys -/

/-- Gives up the candidate, unless a key is required there. -/
def dropCandidate (lexer : Lexer) : Option Lexer :=
  if lexer.candidate.any (·.required) then none else some { lexer with candidate := none }

/-- Makes the next token a candidate. -/
def saveCandidate (lexer : Lexer) : Option Lexer :=
  if lexer.keyAllowed then
    (dropCandidate lexer).map fun lexer =>
      { lexer with
        candidate := some {
          index := lexer.tokens.size
          line := lexer.cursor.line
          column := lexer.cursor.column
          bytes := lexer.cursor.bytes
          required := !lexer.inFlow && lexer.margin = lexer.cursor.column + 1 } }
  else some lexer

/-- Gives up the candidates that are too far behind. -/
def dropStale (lexer : Lexer) : Option Lexer :=
  let stale (candidate : Option Candidate) := candidate.any (Candidate.isStale lexer.cursor)
  if (lexer.candidate :: lexer.outer).any fun candidate =>
      stale candidate && candidate.any (·.required) then none
  else
    some { lexer with
      candidate := if stale lexer.candidate then none else lexer.candidate
      outer := lexer.outer.map fun candidate => if stale candidate then none else candidate }

/-! ## Between tokens -/

/--
Skips blanks, comments and breaks, and says whether a key may start after them. A break lets one
start; where one may start, no tab may stand. A line may start with a byte order mark, which is
skipped too.
-/
def skipGap (inFlow : Bool) (atLineStart inComment keyAllowed : Bool) :
    List Char → Bool × List Char
  | [] => (keyAllowed, [])
  | c :: rest =>
    if isBreak c then skipGap inFlow true false (keyAllowed || !inFlow) rest
    else if inComment || c = ' ' || (c = '\t' && (inFlow || !keyAllowed)) ||
        (c = '\ufeff' && atLineStart) then
      skipGap inFlow false inComment keyAllowed rest
    else if c = '#' then skipGap inFlow false true keyAllowed rest
    else (keyAllowed, c :: rest)

/-- Goes on to where the next token starts. -/
def advance (lexer : Lexer) : Option Lexer :=
  let (keyAllowed, rest) :=
    skipGap lexer.inFlow (lexer.cursor.column = 0) false lexer.keyAllowed lexer.rest
  let lexer := { lexer with cursor := lexer.cursor.moveTo rest, keyAllowed := keyAllowed }
  (dropStale lexer).map fun lexer => lexer.closeBlocks (lexer.cursor.column + 1)

/-! ## Tokens -/

/-- A run of one to nine digits and what follows it. -/
def takeNumber (text : List Char) : Option (Nat × List Char) :=
  let digits := text.takeWhile Char.isDigit
  if 9 < digits.length then none
  else (Text.digitsValue? 10 digits).map (·, text.drop digits.length)

/-- A directive after its `%`. -/
def takeDirective (text : List Char) : Option (Token × List Char) :=
  let name := text.takeWhile isWordChar
  let rest := text.drop name.length
  if !atGap rest then none
  else if name = "YAML".toList then
    match takeNumber (rest.dropWhile isBlank) with
    | some (major, '.' :: rest) =>
      (takeNumber rest).map fun (minor, rest) => (.versionDirective major minor, rest)
    | _ => none
  else if name = "TAG".toList then
    (readTagDirective rest).map fun (handle, lead, rest) => (.tagDirective handle lead, rest)
  else none

def readDirective (lexer : Lexer) (text : List Char) : Option Lexer := do
  let lexer ← (lexer.closeBlocks 0).dropCandidate
  let (token, rest) ← takeDirective text
  let rest ← nextLine? rest
  some ((lexer.allowKey false).pushUpTo token rest)

/-- A mark between documents, of three characters. -/
def readDocumentMark (lexer : Lexer) (token : Token) : Option Lexer :=
  (lexer.closeBlocks 0).dropCandidate.map fun lexer => (lexer.allowKey false).pushMark token 3

/-- An opening bracket. -/
def openFlow (lexer : Lexer) (token : Token) : Option Lexer :=
  lexer.saveCandidate.map fun lexer =>
    { (lexer.allowKey true).pushMark token 1 with
      candidate := none
      outer := lexer.candidate :: lexer.outer }

/-- A closing bracket, which may have none to close. -/
def closeFlow (lexer : Lexer) (token : Token) : Option Lexer :=
  lexer.dropCandidate.map fun lexer =>
    let lexer := (lexer.allowKey false).pushMark token 1
    match lexer.outer with
    | [] => lexer
    | candidate :: outer => { lexer with candidate := candidate, outer := outer }

/-- The comma in flow. -/
def readFlowEntry (lexer : Lexer) : Option Lexer :=
  lexer.dropCandidate.map fun lexer => (lexer.allowKey true).pushMark .flowEntry 1

/-- The dash before an entry of a sequence. -/
def readBlockEntry (lexer : Lexer) : Option Lexer :=
  if !lexer.inFlow && !lexer.keyAllowed then none
  else
    (lexer.openBlockHere .blockSequenceStart).dropCandidate.map fun lexer =>
      (lexer.allowKey true).pushMark .blockEntry 1

/-- The question mark before a key. -/
def readKey (lexer : Lexer) : Option Lexer :=
  if !lexer.inFlow && !lexer.keyAllowed then none
  else
    (lexer.openBlockHere .blockMappingStart).dropCandidate.map fun lexer =>
      (lexer.allowKey (!lexer.inFlow)).pushMark .key 1

/-- The colon between a key and its value. It makes a candidate a key. -/
def readValue (lexer : Lexer) : Option Lexer :=
  match lexer.candidate with
  | some candidate =>
    let lexer :=
      { lexer with tokens := lexer.tokens.insertIdxIfInBounds candidate.index .key }.openBlock
        candidate.column candidate.index .blockMappingStart
    some (({ lexer with candidate := none }.allowKey false).pushMark .value 1)
  | none =>
    if !lexer.inFlow && !lexer.keyAllowed then none
    else
      some (((lexer.openBlockHere .blockMappingStart).allowKey (!lexer.inFlow)).pushMark .value 1)

/-- A character that may follow the name of an anchor or alias. -/
def endsName : List Char → Bool
  | [] => true
  | c :: _ => isGap c || ['?', ':', ',', ']', '\x7d', '%', '@', '\x60'].contains c

/-- The name of an anchor or alias after its mark. -/
def readName (lexer : Lexer) (token : List Char → Token) (text : List Char) : Option Lexer := do
  let lexer ← lexer.saveCandidate
  let name := text.takeWhile isWordChar
  let rest := text.drop name.length
  if name = [] || !endsName rest then none
  else some ((lexer.allowKey false).pushUpTo (token name) rest)

def readTag (lexer : Lexer) (text : List Char) : Option Lexer := do
  let lexer ← lexer.saveCandidate
  let (tag, rest) ← WrittenTag.read text
  if atGap rest || (lexer.inFlow && rest.head? = some ',') then
    some ((lexer.allowKey false).pushUpTo (.tag tag) rest)
  else none

def readBlockScalar (lexer : Lexer) (style : Style) (text : List Char) : Option Lexer := do
  let lexer ← lexer.dropCandidate
  let (content, rest) ← readBlock (style = .folded) lexer.margin text
  some ((lexer.allowKey true).pushUpTo (.scalar style content) rest)

def readQuotedScalar (lexer : Lexer) (style : Style)
    (read : Option (List Piece × List Char)) : Option Lexer := do
  let lexer ← lexer.saveCandidate
  let (pieces, rest) ← read
  some ((lexer.allowKey false).pushUpTo (.scalar style (fold pieces)) rest)

/-- A plain scalar. A key may start behind it if a break was read. -/
def readPlainScalar (lexer : Lexer) : Option Lexer := do
  let lexer ← lexer.saveCandidate
  let found ← readPlain lexer.inFlow lexer.margin lexer.cursor
  some { (lexer.allowKey found.broken).push (.scalar .plain found.text) with
    cursor := found.cursor }

/-- Reads the token at the cursor. -/
def readToken (lexer : Lexer) : Option Lexer :=
  match lexer.rest with
  | [] => none
  | c :: rest =>
    if lexer.cursor.column = 0 ∧ c = '%' then lexer.readDirective rest
    else if lexer.cursor.column = 0 ∧ startsWithMark '-' lexer.rest = true then
      lexer.readDocumentMark .documentStart
    else if lexer.cursor.column = 0 ∧ startsWithMark '.' lexer.rest = true then
      lexer.readDocumentMark .documentEnd
    else if c = '[' then lexer.openFlow .flowSequenceStart
    else if c = '\x7b' then lexer.openFlow .flowMappingStart
    else if c = ']' then lexer.closeFlow .flowSequenceEnd
    else if c = '\x7d' then lexer.closeFlow .flowMappingEnd
    else if c = ',' then lexer.readFlowEntry
    else if c = '-' ∧ atGap rest = true then lexer.readBlockEntry
    else if c = '?' ∧ (lexer.inFlow || atGap rest) = true then lexer.readKey
    else if c = ':' ∧ (lexer.inFlow || atGap rest) = true then lexer.readValue
    else if c = '*' then lexer.readName .alias rest
    else if c = '&' then lexer.readName .anchor rest
    else if c = '!' then lexer.readTag rest
    else if c = '|' ∧ lexer.inFlow = false then lexer.readBlockScalar .literal rest
    else if c = '>' ∧ lexer.inFlow = false then lexer.readBlockScalar .folded rest
    else if c = '\'' then lexer.readQuotedScalar .singleQuoted (readSingleQuoted rest)
    else if c = '"' then lexer.readQuotedScalar .doubleQuoted (readDoubleQuoted rest)
    else if startsPlain lexer.inFlow lexer.rest then lexer.readPlainScalar
    else none

/-- The tokens when the text is at its end. -/
def finish (lexer : Lexer) : Option (List Token) :=
  (lexer.closeBlocks 0).dropCandidate.map (·.tokens.toList)

/-- Reads at most `count` tokens, up to the end of the text. -/
def readTokens : Nat → Lexer → Option (List Token)
  | 0, _ => none
  | count + 1, lexer =>
    match lexer.advance with
    | none => none
    | some lexer =>
      if lexer.rest = [] then lexer.finish
      else
        match lexer.readToken with
        | none => none
        | some lexer => readTokens count lexer

end Lexer

/-- The tokens of a text. Each of them takes a character at least. -/
def tokens? (text : String) : Option (List Token) :=
  let chars := text.toList
  if chars.all isPermitted then
    Lexer.readTokens (chars.length + 1) (.start (unifyBreaks chars))
  else none

end FeatureFlags.Yaml
