import FeatureFlags.Yaml.Lexer

/-!
# From tokens to nodes

A document is a tree of scalars, sequences and mappings. A node may have an anchor, and an alias
stands for the node of an anchor before it. Which one that is, is settled by a number: an anchor
gets as its number how many names of anchors there were before it, and where two anchors have the
same number the later one counts.
-/

namespace FeatureFlags.Yaml

inductive Node where
  | scalar (scalar : Scalar)
  /-- An alias, with the number of its anchor. -/
  | alias (number : Nat)
  | sequence (items : List Node)
  | mapping (pairs : List (Node × Node))
deriving Inhabited

def Node.empty : Node := .scalar .empty

structure Anchors where
  /-- The number of each name. -/
  numbers : List (List Char × Nat)
  /-- What each number stands for, if that is a scalar; the latest comes first. -/
  targets : List (Nat × Option Scalar)
deriving Repr, Inhabited

namespace Anchors

def empty : Anchors := ⟨[], []⟩

def define (anchors : Anchors) (name : List Char) (target : Option Scalar) : Anchors :=
  let number := anchors.numbers.length
  ⟨(name, number) :: anchors.numbers.filter (·.1 ≠ name), (number, target) :: anchors.targets⟩

def number? (anchors : Anchors) (name : List Char) : Option Nat := anchors.numbers.lookup name

/-- The scalar that an alias stands for. -/
def scalar? (anchors : Anchors) (number : Nat) : Option Scalar :=
  (anchors.targets.lookup number).join

end Anchors

/-- A document: its root, unless it is empty, and what its aliases stand for. -/
structure Document where
  root : Option Node
  anchors : Anchors
deriving Inhabited

namespace Document

/-- The scalar that a node is, directly or by an alias. -/
def scalar? (document : Document) : Node → Option Scalar
  | .scalar scalar => some scalar
  | .alias number => document.anchors.scalar? number
  | _ => none

end Document

/-- What reading nodes goes on with. -/
structure NodeReader where
  tokens : List Token
  anchors : Anchors
  handles : TagHandles

namespace NodeReader

abbrev M := StateT NodeReader Option

def peek : M (Option Token) := return (← get).tokens.head?

def skip : M Unit := modify fun reader => { reader with tokens := reader.tokens.tail }

def expect (token : Token) : M Unit := do
  if (← peek) = some token then skip else failure

/-- Skips a token of the given kind if it is next, and says whether it was. -/
def accept (token : Token) : M Bool := do
  if (← peek) = some token then
    skip
    return true
  else return false

def define (anchor : Option (List Char)) (target : Option Scalar) : M Unit :=
  match anchor with
  | some name => modify fun reader => { reader with anchors := reader.anchors.define name target }
  | none => return

def anchor? : M (Option (List Char)) := do
  match ← peek with
  | some (.anchor name) =>
    skip
    return some name
  | _ => return none

/-- A tag if one is next. Its handle must be known. -/
def tag? : M (Option Tag) := do
  match ← peek with
  | some (.tag written) =>
    skip
    match written.resolve (← get).handles with
    | some tag => return some tag
    | none => failure
  | _ => return none

/-- An anchor and a tag, in either order, as far as they are there. -/
def properties : M (Option (List Char) × Option Tag) := do
  match ← anchor? with
  | some name => return (some name, ← tag?)
  | none =>
    let tag ← tag?
    if tag.isSome then return (← anchor?, tag) else return (none, none)

def atAny (tokens : List Token) : M Bool :=
  return (← peek).any tokens.contains

/-- A node that has an anchor or a tag but no content. -/
def withoutContent (anchor : Option (List Char)) (tag : Option Tag) : M Node :=
  if anchor.isSome || tag.isSome then do
    let scalar : Scalar := ⟨.plain, tag, ""⟩
    define anchor (some scalar)
    return .scalar scalar
  else failure

mutual

/--
A node. `inBlock` admits sequences and mappings that are told by their indentation, and
`indentless` a sequence that is not indented beyond its key.
-/
def node (depth : Nat) (inBlock indentless : Bool) : M Node :=
  match depth with
  | 0 => failure
  | depth + 1 => do
    if let some (.alias name) ← peek then
      skip
      match (← get).anchors.number? name with
      | some number => return .alias number
      | none => failure
    else
      let (anchor, tag) ← properties
      match ← peek with
      | some (.scalar style text) =>
        skip
        let scalar : Scalar := ⟨style, tag, String.ofList text⟩
        define anchor (some scalar)
        return .scalar scalar
      | some .flowSequenceStart =>
        skip
        define anchor none
        return .sequence (← flowSequence depth true)
      | some .flowMappingStart =>
        skip
        define anchor none
        return .mapping (← flowMapping depth true)
      | some .blockSequenceStart =>
        if inBlock then
          skip
          define anchor none
          return .sequence (← blockSequence depth)
        else withoutContent anchor tag
      | some .blockMappingStart =>
        if inBlock then
          skip
          define anchor none
          return .mapping (← blockMapping depth)
        else withoutContent anchor tag
      | some .blockEntry =>
        if indentless then
          define anchor none
          return .sequence (← indentlessSequence depth)
        else withoutContent anchor tag
      | _ => withoutContent anchor tag

/-- The items of an indented sequence after its start. -/
def blockSequence (depth : Nat) : M (List Node) :=
  match depth with
  | 0 => failure
  | depth + 1 => do
    if ← accept .blockEntry then
      let item ← if ← atAny [.blockEntry, .blockEnd] then pure .empty else node depth true false
      return item :: (← blockSequence depth)
    else
      expect .blockEnd
      return []

/-- The items of a sequence that ends with its mapping. -/
def indentlessSequence (depth : Nat) : M (List Node) :=
  match depth with
  | 0 => failure
  | depth + 1 => do
    if ← accept .blockEntry then
      let item ←
        if ← atAny [.blockEntry, .key, .value, .blockEnd] then pure .empty
        else node depth true false
      return item :: (← indentlessSequence depth)
    else return []

/-- A key or a value of an indented mapping, which may be left out. -/
def blockMember (depth : Nat) : M Node :=
  match depth with
  | 0 => failure
  | depth + 1 => do
    if ← atAny [.key, .value, .blockEnd] then return .empty else node depth true true

/-- The pairs of an indented mapping after its start. -/
def blockMapping (depth : Nat) : M (List (Node × Node)) :=
  match depth with
  | 0 => failure
  | depth + 1 => do
    if ← accept .key then
      let key ← blockMember depth
      let value ← if ← accept .value then blockMember depth else pure .empty
      return (key, value) :: (← blockMapping depth)
    else
      expect .blockEnd
      return []

/-- The value of a key in flow, before the comma or the bracket `closing`. -/
def flowValue (depth : Nat) (closing : Token) : M Node :=
  match depth with
  | 0 => failure
  | depth + 1 => do
    if ← accept .value then
      if ← atAny [.flowEntry, closing] then return .empty else node depth false false
    else return .empty

/-- The items between brackets. A key among them makes its item a mapping of one pair. -/
def flowSequence (depth : Nat) (first : Bool) : M (List Node) :=
  match depth with
  | 0 => failure
  | depth + 1 => do
    if ← accept .flowSequenceEnd then return []
    else
      if !first then expect .flowEntry
      if ← accept .key then
        -- A key that is left out takes the mark after it along.
        let key ←
          if ← atAny [.value, .flowEntry, .flowSequenceEnd] then
            skip
            pure .empty
          else node depth false false
        let value ← flowValue depth .flowSequenceEnd
        return .mapping [(key, value)] :: (← flowSequence depth false)
      else if ← accept .flowSequenceEnd then return []
      else
        let item ← node depth false false
        return item :: (← flowSequence depth false)

/-- The pairs between braces. A key without a mark has no value. -/
def flowMapping (depth : Nat) (first : Bool) : M (List (Node × Node)) :=
  match depth with
  | 0 => failure
  | depth + 1 => do
    if ← accept .flowMappingEnd then return []
    else
      if !first then expect .flowEntry
      if ← accept .key then
        let key ←
          if ← atAny [.value, .flowEntry, .flowMappingEnd] then pure .empty
          else node depth false false
        let value ← flowValue depth .flowMappingEnd
        return (key, value) :: (← flowMapping depth false)
      else if ← accept .flowMappingEnd then return []
      else
        let key ← node depth false false
        return (key, .empty) :: (← flowMapping depth false)

end

/-- Skips the directives, of which none may be given twice, and notes the handles. -/
def directives (versionSeen : Bool) (handles : TagHandles) :
    List Token → Option (TagHandles × List Token)
  | .versionDirective major minor :: rest =>
    if versionSeen || major ≠ 1 || (minor ≠ 1 && minor ≠ 2) then none
    else directives true handles rest
  | .tagDirective handle lead :: rest =>
    if (handles.lookup handle).isSome then none
    else directives versionSeen (handles ++ [(handle, lead)]) rest
  | rest => some (handles, rest)

/-- How deep reading these tokens can go: no level of a tree is without a token of its own. -/
def maxDepth (tokens : List Token) : Nat := 3 * (tokens.length + 2)

/-- The root of a document, which nothing but marks of its end may follow. -/
def document (explicit : Bool) : M Node := do
  let tokens := (← get).tokens
  let root ←
    if explicit && tokens.head?.all (· = .documentEnd) then pure .empty
    else node (maxDepth tokens) true false
  if (← get).tokens.all (· = .documentEnd) then return root else failure

end NodeReader

/-- Directives or a mark start a document, and not its content. -/
def startsExplicitly : List Token → Bool
  | .versionDirective .. :: _ => true
  | .tagDirective .. :: _ => true
  | .documentStart :: _ => true
  | _ => false

def Document.ofContent? (explicit : Bool) (handles : TagHandles) (tokens : List Token) :
    Option Document :=
  (NodeReader.document explicit ⟨tokens, .empty, handles ++ TagHandles.default⟩).map
    fun (root, reader) => ⟨some root, reader.anchors⟩

def Document.ofTokens? (tokens : List Token) : Option Document :=
  if tokens = [] then some ⟨none, .empty⟩
  else if startsExplicitly tokens then
    match NodeReader.directives false [] tokens with
    | some (handles, .documentStart :: rest) => ofContent? true handles rest
    | _ => none
  else ofContent? false [] tokens

def Document.ofText? (text : String) : Option Document :=
  (tokens? text).bind Document.ofTokens?

end FeatureFlags.Yaml
