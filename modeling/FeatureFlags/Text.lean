/-!
# Lines, words and columns

What a description file, an override file and a generated listing are made of: lines, words
between white space, columns padded with spaces, and the bytes that characters take. All of it
works on lists of characters, so that a statement about a text is a statement about a list.
-/

namespace FeatureFlags.Text

/-- The Unicode property `White_Space`. -/
def isSpace (c : Char) : Bool :=
  let n := c.toNat
  (0x09 ≤ n && n ≤ 0x0D) || n == 0x20 || n == 0x85 || n == 0xA0 || n == 0x1680 ||
    (0x2000 ≤ n && n ≤ 0x200A) || n == 0x2028 || n == 0x2029 || n == 0x202F || n == 0x205F ||
    n == 0x3000

/-- The words of a text: its maximal runs without white space, in order. -/
def words (text : List Char) : List (List Char) :=
  (text.splitOnP isSpace).filter (· ≠ [])

@[simp] theorem words_nil : words [] = [] := rfl

/-- The text without the white space around it. -/
def trim (text : List Char) : List Char :=
  ((text.dropWhile isSpace).reverse.dropWhile isSpace).reverse

/-- How many bytes a text takes. -/
def byteCount : List Char → Nat
  | [] => 0
  | c :: rest => c.utf8Size + byteCount rest

/-- The text without its first `count` bytes, if they are whole characters. -/
def dropBytes? (count : Nat) : List Char → Option (List Char)
  | [] => if count = 0 then some [] else none
  | c :: rest =>
    if count = 0 then some (c :: rest)
    else if count < c.utf8Size then none
    else dropBytes? (count - c.utf8Size) rest

/-- A line that ends in `\r\n` is the text before the `\r`. -/
def dropReturn (line : List Char) : List Char :=
  if line.getLast? = some '\r' then line.dropLast else line

/--
The lines of a text. Each `\n` ends a line and takes a `\r` before it along; what stands after the
last `\n` is a line of its own, kept as it is, unless it is empty.
-/
def lines (text : List Char) : List (List Char) :=
  let pieces := text.splitOn '\n'
  let rest := pieces.getLast?.getD []
  pieces.dropLast.map dropReturn ++ if rest = [] then [] else [rest]

@[simp] theorem lines_nil : lines [] = [] := rfl

/-- A word followed by as many spaces as bring it to `width` characters; a longer word stays. -/
def padRight (width : Nat) (word : String) : String :=
  word ++ String.ofList (List.replicate (width - word.length) ' ')

theorem toList_padRight (width : Nat) (word : String) :
    (padRight width word).toList = word.toList ++ List.replicate (width - word.length) ' ' := by
  simp [padRight]

end FeatureFlags.Text
