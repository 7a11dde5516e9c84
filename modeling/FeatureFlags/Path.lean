/-!
# Paths

A path is the text the user or a file spelled. Joining, the parent and the file name are rules on
that text alone: no file is looked at, and nothing is normalised that the rule does not drop.
-/

namespace FeatureFlags

/-- A path as spelled, with `/` between its names. -/
structure Path where
  text : String
deriving DecidableEq, Repr, Inhabited

namespace Path

def isAbsolute (path : Path) : Bool := path.text.toList.head? = some '/'

def endsInSlash (path : Path) : Bool := path.text.toList.getLast? = some '/'

/--
The path of `name` seen from `base`. An absolute `name` stands for itself; otherwise a `/` goes
between the two, unless `base` is empty or ends in one.
-/
def join (base name : Path) : Path :=
  if name.isAbsolute then name
  else if base.text = "" || base.endsInSlash then ⟨base.text ++ name.text⟩
  else ⟨base.text ++ "/" ++ name.text⟩

/-- What a path starts from: the root, the current directory spelled as `.`, or nothing spelled. -/
def anchor (path : Path) : List Char :=
  match path.text.toList with
  | '/' :: _ => ['/']
  | ['.'] => ['.']
  | '.' :: '/' :: _ => ['.']
  | _ => []

/-- The pieces between the slashes after the anchor; some may be empty or `.`. -/
def pieces (path : Path) : List (List Char) :=
  (path.text.toList.drop path.anchor.length).splitOn '/'

/-- An empty piece and a `.` after the start of a path name nothing. -/
def isFiller (piece : List Char) : Bool := piece = [] || piece = ['.']

/-- The pieces from the last name backwards. -/
def namesFromLast (path : Path) : List (List Char) :=
  path.pieces.reverse.dropWhile isFiller

/--
The path without its last name, and without the fillers that this leaves at its end. A lone `.`
has the empty path as parent; the root and the empty path have none.
-/
def parent? (path : Path) : Option Path :=
  match path.namesFromLast with
  | [] => if path.anchor = ['.'] then some ⟨""⟩ else none
  | _ :: before =>
    let kept := (before.dropWhile isFiller).reverse
    some ⟨String.ofList (path.anchor ++ ['/'].intercalate kept)⟩

def fileName? (path : Path) : Option String :=
  match path.namesFromLast with
  | [] => none
  | last :: _ => if last = ['.', '.'] then none else some (String.ofList last)

/-- The path itself, its parent, that one's parent and so on, at most `count` of them. -/
def firstAncestors : Nat → Path → List Path
  | 0, _ => []
  | count + 1, path =>
    path :: match path.parent? with
      | some above => firstAncestors count above
      | none => []

def ancestors (path : Path) : List Path := firstAncestors (path.text.length + 1) path

/-- The names that a walk along the path meets, `.` and `..` among them. -/
def steps (path : Path) : List String :=
  ((path.text.toList.splitOn '/').filter (· ≠ [])).map String.ofList

end Path

structure Origin where
  file : Path
  line : Nat
deriving DecidableEq, Repr, Inhabited

def Origin.text (origin : Origin) : String :=
  origin.file.text ++ ":" ++ toString origin.line

end FeatureFlags
