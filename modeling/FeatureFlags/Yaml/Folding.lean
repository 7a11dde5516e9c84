import FeatureFlags.Yaml.Character

/-!
# Folding

What stands between the words of a plain or quoted scalar. Blanks within a line are kept. Around a
line break they are dropped, and the break itself counts as a space, or as nothing if more breaks
follow, which are kept. A break that is neither `\n` nor escaped is kept as well.
-/

namespace FeatureFlags.Yaml

/-- What was read since the last word. -/
inductive Gap where
  /-- Blanks within a line. -/
  | blanks (text : List Char)
  /-- A break, which is left out if it is escaped, and the breaks after it. -/
  | broken (first : Option Char) (later : List Char)
deriving DecidableEq, Repr, Inhabited

namespace Gap

def empty : Gap := blanks []

/-- The gap with one more character between words. -/
def add (gap : Gap) (c : Char) : Gap :=
  match gap with
  | blanks text => if isBreak c then broken (some c) [] else blanks (text ++ [c])
  | broken first later => if isBreak c then broken first (later ++ [c]) else gap

def ofList (text : List Char) : Gap := text.foldl add empty

/-- What the gap stands for. -/
def text : Gap → List Char
  | blanks text => text
  | broken (some '\n') [] => [' ']
  | broken (some '\n') later => later
  | broken (some first) later => first :: later
  | broken .none later => later

def isBroken : Gap → Bool
  | blanks _ => false
  | broken .. => true

end Gap

/-- A piece of a scalar that may run over several lines. -/
inductive Piece where
  /-- A character that stands for itself. -/
  | char (c : Char)
  /-- A character between words. -/
  | gap (c : Char)
  /-- An escaped break. -/
  | joint
deriving DecidableEq, Repr

/-- The text of pieces that follow a gap. -/
def foldAfter (gap : Gap) : List Piece → List Char
  | [] => gap.text
  | .char c :: rest => gap.text ++ c :: foldAfter .empty rest
  | .gap c :: rest => foldAfter (gap.add c) rest
  | .joint :: rest => gap.text ++ foldAfter (.broken .none []) rest

/-- The text that pieces stand for. -/
def fold (pieces : List Piece) : List Char := foldAfter .empty pieces

end FeatureFlags.Yaml
