import FeatureFlags.Entry
import FeatureFlags.Error
import FeatureFlags.Text

/-!
# Lines of description and override files

Both formats share their lexical rule: `#` starts a comment that runs to the end of the line, and
what stands before it is words between white space. A description line declares an entry or
includes another file; an override line is a name and a value. Which of several faults is
reported is part of the format.
-/

namespace FeatureFlags

theorem isSpace_of_isNameChar {c : Char} (h : isNameChar c = true) : Text.isSpace c = false := by
  have hbounds := toNat_of_isNameChar h
  simp only [Text.isSpace, Bool.or_eq_false_iff, Bool.and_eq_false_iff, decide_eq_false_iff_not,
    beq_eq_false_iff_ne]
  omega

def tokens (line : String) : List String :=
  (Text.words (line.toList.takeWhile (· ≠ '#'))).map String.ofList

/-- The name and the value that a declaration or an override starts with. -/
def checkNameAndValue (origin : Origin) (name value : String) : Except Error Toggle :=
  if isName name then
    match Toggle.ofWord? value with
    | some toggle => .ok toggle
    | none => .error (.badLine origin (.invalidDefault value))
  else .error (.badLine origin (.invalidName name))

/-- What a line of a description says. -/
inductive Declaration where
  /-- `include FILE`, where `FILE` is relative to the directory of the including file. -/
  | inclusion (file : String)
  /-- `NAME DEFAULT DEPENDENCY ...` -/
  | entry (entry : Entry)
deriving DecidableEq, Repr

namespace Declaration

/-- The word that makes a line an include line, whatever follows it. -/
def includeWord : String := "include"

def readDependencies (origin : Origin) (words : List String) :
    Except Error (List Dependency) :=
  words.mapM fun word =>
    match Dependency.ofToken? word with
    | some dependency => .ok dependency
    | none => .error (.badLine origin (.invalidDependency word))

/--
Reads one line of a description; nothing stands on a blank or comment line. A dependency that is
repeated counts once, at its first place.
-/
def parse (origin : Origin) (line : String) : Except Error (Option Declaration) :=
  match tokens line with
  | [] => .ok none
  | [name] => .error (.badLine origin (.missingDefault name))
  | name :: value :: words =>
    if name = includeWord then
      if words = [] then .ok (some (.inclusion value))
      else .error (.badLine origin (.tokenCount 2 (words.length + 2)))
    else do
      let toggle ← checkNameAndValue origin name value
      let dependencies ← readDependencies origin words
      return some (.entry ⟨name, toggle, dependencies.eraseDups, origin⟩)

end Declaration

/-- Reads one line of an override file: a name and its value, or nothing on a blank line. -/
def parseOverride (origin : Origin) (line : String) : Except Error (Option (String × Toggle)) :=
  match tokens line with
  | [] => .ok none
  | [name, value] => do
    let toggle ← checkNameAndValue origin name value
    return some (name, toggle)
  | words => .error (.badLine origin (.tokenCount 2 words.length))

end FeatureFlags
