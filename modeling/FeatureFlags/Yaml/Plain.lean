import FeatureFlags.Yaml.Cursor
import FeatureFlags.Yaml.Folding

/-!
# Plain scalars

A plain scalar has no mark around it: it runs to a character that means something where it
stands, over as many lines as are indented by the margin. In flow, between brackets, no margin
counts, and the brackets and the comma end it as well.
-/

namespace FeatureFlags.Yaml

def isIndicator (c : Char) : Bool :=
  ['-', '?', ':', ',', '[', ']', '\x7b', '\x7d', '#', '&', '*', '!', '|', '>', '\'', '"', '%',
    '@', '\x60'].contains c

/-- A plain scalar starts here. -/
def startsPlain (inFlow : Bool) : List Char → Bool
  | [] => false
  | c :: rest =>
    (!isGap c && !isIndicator c) || (c = '-' && !(rest.head?.any isBlank)) ||
      (!inFlow && (c = '?' || c = ':') && !atGap rest)

/-- A word of a plain scalar ends here. -/
def endsWord (inFlow : Bool) : List Char → Bool
  | [] => true
  | c :: rest =>
    isGap c || (inFlow && isFlowIndicator c) ||
      (c = ':' && (atGap rest || (inFlow && rest.head?.any fun d => isFlowIndicator d || d = '?')))

/-- In flow, a colon may not be right before a bracket, a comma or a question mark. -/
def misplacedColon (inFlow : Bool) : List Char → Bool
  | ':' :: c :: _ => inFlow && (isFlowIndicator c || c = '?')
  | _ => false

def takeWord (inFlow : Bool) : List Char → List Char
  | [] => []
  | c :: rest => if endsWord inFlow (c :: rest) then [] else c :: takeWord inFlow rest

theorem length_takeWord_le (inFlow : Bool) (text : List Char) :
    (takeWord inFlow text).length ≤ text.length := by
  induction text with
  | nil => simp [takeWord]
  | cons c rest ih =>
    rw [takeWord]
    split
    · simp
    · simpa using ih

/-- After the first break of a gap, a tab stands before the margin. -/
def hasTabInMargin (margin : Nat) (gap : List Char) : Bool :=
  ((gap.dropWhile (!isBreak ·)).foldl
    (fun (column, found) c =>
      if isBreak c then (0, found) else (column + 1, found || (c = '\t' && column < margin)))
    (0, false)).2

structure PlainReading where
  text : List Char
  cursor : Cursor
  /-- The scalar was followed by a break. -/
  broken : Bool
deriving Repr

/-- The word is the mark between documents or starts a comment, so that it is not read. -/
def endsPlain (cursor : Cursor) : Bool :=
  (cursor.column = 0 && startsDocument cursor.rest) || cursor.rest.head? = some '#'

/--
Reads on after `text` and the gap `gap`. The scalar ends after a gap that leads before the margin,
to a mark between documents or to a comment, and at the end of a word that no gap follows.
-/
def readPlainFrom (inFlow : Bool) (margin : Nat) (text : List Char) (gap : Gap)
    (cursor : Cursor) : Option PlainReading :=
  let word := takeWord inFlow cursor.rest
  if _hword : word = [] ∨ endsPlain cursor = true then
    if endsPlain cursor || !misplacedColon inFlow cursor.rest then
      some ⟨text, cursor, gap.isBroken⟩
    else none
  else
    let read := text ++ gap.text ++ word
    let spaces := (cursor.rest.drop word.length).takeWhile isGap
    let found := Gap.ofList spaces
    let next := (cursor.skip word.length).skip spaces.length
    if misplacedColon inFlow (cursor.rest.drop word.length) || hasTabInMargin margin spaces then
      none
    else if spaces = [] ∨ (!inFlow && next.column < margin) = true then
      some ⟨read, next, found.isBroken⟩
    else readPlainFrom inFlow margin read found next
termination_by cursor.rest.length
decreasing_by
  have hpos : (takeWord inFlow cursor.rest).length ≠ 0 := fun h =>
    _hword (.inl (List.length_eq_zero_iff.mp h))
  have hle := length_takeWord_le inFlow cursor.rest
  simp only [Cursor.skip, Cursor.after, List.length_drop]
  omega

def readPlain (inFlow : Bool) (margin : Nat) (cursor : Cursor) : Option PlainReading :=
  readPlainFrom inFlow margin [] .empty cursor

end FeatureFlags.Yaml
