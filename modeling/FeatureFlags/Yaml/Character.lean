/-!
# Characters of YAML texts

The classes of characters that reading and writing YAML go by. Reading first gives all line breaks
of one kind the same form (`unifyBreaks`), so that three characters are left that end a line.
-/

namespace FeatureFlags.Yaml

def isPermitted (c : Char) : Bool :=
  let n := c.toNat
  n == 0x09 || n == 0x0A || n == 0x0D || (0x20 ≤ n && n ≤ 0x7E) || n == 0x85 ||
    (0xA0 ≤ n && n ≤ 0xD7FF) || (0xE000 ≤ n && n ≤ 0xFFFD) || 0x10000 ≤ n

def isBreak (c : Char) : Bool := c = '\n' || c = '\u2028' || c = '\u2029'

def isBlank (c : Char) : Bool := c = ' ' || c = '\t'

/-- A character between words. -/
def isGap (c : Char) : Bool := isBlank c || isBreak c

/-- A character of an anchor or of a tag handle. -/
def isWordChar (c : Char) : Bool := c.isAlphanum || c = '_' || c = '-'

def isFlowIndicator (c : Char) : Bool :=
  c = ',' || c = '[' || c = ']' || c = '\x7b' || c = '\x7d'

/-- The text is at its end or between words. -/
def atGap : List Char → Bool
  | [] => true
  | c :: _ => isGap c

/-- The text starts with the mark between documents that is made of three times `mark`. -/
def startsWithMark (mark : Char) : List Char → Bool
  | a :: b :: c :: rest => a = mark && b = mark && c = mark && atGap rest
  | _ => false

def startsDocument (text : List Char) : Bool :=
  startsWithMark '-' text || startsWithMark '.' text

/-- What follows a line of which only blanks and a comment are left. -/
def nextLine? (text : List Char) : Option (List Char) :=
  let rest := text.dropWhile isBlank
  let rest := if rest.head? = some '#' then rest.dropWhile (!isBreak ·) else rest
  match rest with
  | [] => some []
  | c :: rest => if isBreak c then some rest else none

/-- Writes the breaks `\r\n`, `\r` and U+0085 as `\n`. -/
def unifyBreaks : List Char → List Char
  | [] => []
  | '\r' :: '\n' :: rest => '\n' :: unifyBreaks rest
  | c :: rest => (if c = '\r' || c = '\u0085' then '\n' else c) :: unifyBreaks rest

theorem unifyBreaks_eq_self {text : List Char} (h : ∀ c ∈ text, c ≠ '\r' ∧ c ≠ '\u0085') :
    unifyBreaks text = text := by
  induction text with
  | nil => rfl
  | cons c rest ih =>
    obtain ⟨hc, hrest⟩ := List.forall_mem_cons.mp h
    rw [unifyBreaks, ih hrest]
    · simp [hc]
    · exact fun _ hreturn _ => absurd hreturn hc.1

end FeatureFlags.Yaml
