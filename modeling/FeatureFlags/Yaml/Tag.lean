import FeatureFlags.Text.Digits
import FeatureFlags.Yaml.Scalar

/-!
# Tags

A tag is written in full, as `!<...>`, or as a handle and a suffix. A handle is `!`, `!!` or
`!name!`; a directive says what the tags of a handle start with.
-/

namespace FeatureFlags.Yaml

def isUriChar (c : Char) : Bool := isWordChar c || ";/?:@&=+$.%!~*'()".toList.contains c

def isFullUriChar (c : Char) : Bool := isUriChar c || [',', '[', ']'].contains c

/-- How many octets follow the first one of a character, if that may come first. -/
def followingOctets? (octet : Nat) : Option Nat :=
  if octet < 0x80 then some 0
  else if octet < 0xC0 then none
  else if octet < 0xE0 then some 1
  else if octet < 0xF0 then some 2
  else if octet < 0xF8 then some 3
  else none

/-- The octets that `%` and two digits write, `pending` of which must go on with a character. -/
def decodeOctets (pending : Nat) : List Char → Option Tag
  | '%' :: high :: low :: rest =>
    match Text.digitsValue? 16 [high, low] with
    | none => none
    | some octet =>
      let next :=
        match pending with
        | 0 => followingOctets? octet
        | pending + 1 => if 0x80 ≤ octet ∧ octet < 0xC0 then some pending else none
      match next with
      | some pending => (decodeOctets pending rest).map (UInt8.ofNat octet :: ·)
      | none => none
  | c :: rest =>
    if c = '%' ∨ pending ≠ 0 then none
    else (decodeOctets 0 rest).map (UInt8.ofNat c.toNat :: ·)
  | [] => if pending = 0 then some [] else none

/--
The octets that a text starts with, as far as its characters are in the class. A zero octet ends
the tag: what is written after it is read and left out.
-/
def takeOctets (inClass : Char → Bool) (text : List Char) : Option (Tag × List Char) :=
  (decodeOctets 0 (text.takeWhile inClass)).map fun octets =>
    (octets.takeWhile (· ≠ 0), text.dropWhile inClass)

/-- The octets of at least one character. -/
def takeSomeOctets (inClass : Char → Bool) (text : List Char) : Option (Tag × List Char) :=
  if text.head?.any inClass then takeOctets inClass text else none

/-- A tag before its handle is looked up; one written in full has no handle. -/
structure WrittenTag where
  handle : List Char
  suffix : Tag
deriving DecidableEq, Repr

namespace WrittenTag

def unspecific : WrittenTag := ⟨[], [UInt8.ofNat '!'.toNat]⟩

def readFull (text : List Char) : Option (WrittenTag × List Char) :=
  match takeSomeOctets isFullUriChar text with
  | some (suffix, '>' :: rest) => some (⟨[], suffix⟩, rest)
  | _ => none

/-- Reads a handle and a suffix after their first `!`. -/
def readShort (text : List Char) : Option (WrittenTag × List Char) :=
  let name := text.takeWhile isWordChar
  match text.dropWhile isWordChar with
  | '!' :: rest =>
    match takeSomeOctets isUriChar rest with
    | some (suffix, rest) => some (⟨'!' :: name ++ ['!'], suffix⟩, rest)
    | none => none
  | _ =>
    match takeOctets isUriChar text with
    | some (suffix, rest) => some (if suffix = [] then unspecific else ⟨['!'], suffix⟩, rest)
    | none => none

/-- Reads a tag after its first `!`. -/
def read (text : List Char) : Option (WrittenTag × List Char) :=
  match text with
  | '<' :: rest => readFull rest
  | _ => readShort text

end WrittenTag

/-- What the tags of each handle start with. -/
abbrev TagHandles := List (List Char × Tag)

def TagHandles.default : TagHandles := [(['!'], [UInt8.ofNat '!'.toNat]), (['!', '!'], coreTag "")]

def WrittenTag.resolve (handles : TagHandles) (tag : WrittenTag) : Option Tag :=
  if tag.handle = [] then some tag.suffix
  else (handles.lookup tag.handle).map (· ++ tag.suffix)

/-- Reads the value of a tag directive: a handle, blanks, and what its tags start with. -/
def readTagDirective (text : List Char) : Option (List Char × Tag × List Char) :=
  match text.dropWhile isBlank with
  | '!' :: afterMark =>
    let name := afterMark.takeWhile isWordChar
    let handle? : Option (List Char × List Char) :=
      match afterMark.dropWhile isWordChar with
      | '!' :: rest => some ('!' :: name ++ ['!'], rest)
      | rest => if name = [] then some (['!'], rest) else none
    match handle? with
    | some (handle, blank :: rest) =>
      if !isBlank blank then none
      else
        match takeSomeOctets isFullUriChar (rest.dropWhile isBlank) with
        | some (lead, rest) => if atGap rest then some (handle, lead, rest) else none
        | none => none
    | _ => none
  | _ => none

end FeatureFlags.Yaml
