import Mathlib.Data.List.Infix

/-!
# Comments of C

How a compiler reads a text before anything else: a line that ends in a `\` is joined to the next
one, and each comment becomes a space, but not within a literal. Where the reader is back in code
after a text, what follows is read by itself (`Mode.strip_append`), and plain text stays as it is
(`strip_of_plain`). A block comment goes on until the first `*/` (`strip_blockComment`).
-/

namespace FeatureFlags

namespace Text

/-- The two marks that a literal can stand between. -/
inductive Quote where
  | single
  | double
deriving DecidableEq, Repr

def Quote.char : Quote → Char
  | single => '\''
  | double => '"'

/-- What a compiler is in the middle of. -/
inductive Mode where
  | code
  /-- After a `/` that may start a comment. -/
  | slash
  | blockComment
  /-- In a block comment, after a `*` that may end it. -/
  | star
  | lineComment
  | literal (quote : Quote)
  /-- In a literal, after a `\`. -/
  | escape (quote : Quote)
deriving DecidableEq, Repr

namespace Mode

/-- The mode after a character of code other than `/`. -/
def ofCode (c : Char) : Mode :=
  if c = '\'' then literal .single else if c = '"' then literal .double else code

/--
The mode after a character, and what stands in the place of what was read. A comment becomes a
space; a line break ends a literal, which has no second mark then.
-/
def step : Mode → Char → Mode × List Char
  | code, c => if c = '/' then (slash, []) else (ofCode c, [c])
  | slash, c =>
    if c = '*' then (blockComment, [' '])
    else if c = '/' then (lineComment, [' '])
    else (ofCode c, ['/', c])
  | blockComment, c => (if c = '*' then star else blockComment, [])
  | star, c => (if c = '/' then code else if c = '*' then star else blockComment, [])
  | lineComment, c => if c = '\n' then (code, [c]) else (lineComment, [])
  | literal quote, c =>
    (if c = quote.char ∨ c = '\n' then code else if c = '\\' then escape quote else literal quote,
      [c])
  | escape quote, c => (if c = '\n' then code else literal quote, [c])

/-- The mode after a text. -/
def after (mode : Mode) (text : List Char) : Mode := text.foldl (fun mode c => (mode.step c).1) mode

/-- What is left of a text without its comments. -/
def strip : Mode → List Char → List Char
  | slash, [] => ['/']
  | _, [] => []
  | mode, c :: rest => (mode.step c).2 ++ strip (mode.step c).1 rest

theorem strip_cons (mode : Mode) (c : Char) (rest : List Char) :
    mode.strip (c :: rest) = (mode.step c).2 ++ (mode.step c).1.strip rest := by
  cases mode <;> rfl

theorem after_append (mode : Mode) (before rest : List Char) :
    mode.after (before ++ rest) = (mode.after before).after rest :=
  List.foldl_append

/-- Where code goes on after a text, the rest is read by itself. -/
theorem strip_append {mode : Mode} {before : List Char} (h : mode.after before = code)
    (rest : List Char) : mode.strip (before ++ rest) = mode.strip before ++ code.strip rest := by
  induction before generalizing mode with
  | nil =>
      obtain rfl : mode = code := h
      rfl
  | cons c before ih => rw [List.cons_append, strip_cons, strip_cons, ih h, List.append_assoc]

end Mode

/-- The text with each line that ends in a `\` joined to the next one. -/
def splice : List Char → List Char
  | '\\' :: '\n' :: rest => splice rest
  | c :: rest => c :: splice rest
  | [] => []

/-- The text without its comments, as a compiler reads it. -/
def stripComments (text : List Char) : List Char := Mode.code.strip (splice text)

/-- No line is joined at the place where two texts meet. -/
theorem splice_append {before rest : List Char}
    (h : before.getLast? = some '\\' → rest.head? ≠ some '\n') :
    splice (before ++ rest) = splice before ++ splice rest := by
  fun_induction splice before with
  | case1 before ih =>
      have htail : before.getLast? = some '\\' → rest.head? ≠ some '\n' := by
        intro hlast
        apply h
        simp [List.getLast?_cons, hlast]
      simpa [splice] using ih htail
  | case2 c before hcut ih =>
      have htail : before.getLast? = some '\\' → rest.head? ≠ some '\n' := by
        intro hlast
        apply h
        simp [List.getLast?_cons, hlast]
      rw [List.cons_append, splice, ih htail, List.cons_append]
      rintro tail rfl hjoined
      cases before with
      | nil => simp_all
      | cons d before =>
          obtain ⟨rfl, -⟩ := List.cons.inj hjoined
          exact hcut before rfl rfl
  | case3 => rfl

/-- No comment, literal or joined line starts with such a character. -/
def isPlain (c : Char) : Bool := c ≠ '/' && c ≠ '\\' && c ≠ '\'' && c ≠ '"'

theorem splice_of_plain {text : List Char} (h : ∀ c ∈ text, isPlain c = true) :
    splice text = text := by
  induction text with
  | nil => rfl
  | cons c text ih =>
      obtain ⟨hc, htext⟩ := List.forall_mem_cons.mp h
      rw [splice, ih htext]
      rintro rest rfl
      simp [isPlain] at hc

theorem strip_of_plain {text : List Char} (h : ∀ c ∈ text, isPlain c = true) :
    Mode.code.strip text = text := by
  induction text with
  | nil => rfl
  | cons c text ih =>
      obtain ⟨hc, htext⟩ := List.forall_mem_cons.mp h
      simp only [isPlain, Bool.and_eq_true, decide_eq_true_eq] at hc
      have hstep : Mode.code.step c = (.code, [c]) := by
        simp [Mode.step, Mode.ofCode, hc]
      rw [Mode.strip_cons, hstep, ih htext]
      rfl

theorem strip_blockComment_of_notMem {text : List Char} (h : '*' ∉ text) (rest : List Char) :
    Mode.blockComment.strip (text ++ rest) = Mode.blockComment.strip rest := by
  induction text with
  | nil => rfl
  | cons c text ih =>
      rw [List.mem_cons, not_or] at h
      rw [List.cons_append, Mode.strip_cons, Mode.step, if_neg (Ne.symm h.1), ih h.2]
      rfl

/-- What stands in a block comment up to a full stop is gone, if it holds no end of the comment. -/
theorem strip_blockComment {text : List Char} (h : ¬ ['*', '/'] <:+: text) (rest : List Char) :
    Mode.blockComment.strip (text ++ '.' :: rest) = Mode.blockComment.strip rest ∧
      (text.head? ≠ some '/' →
        Mode.star.strip (text ++ '.' :: rest) = Mode.blockComment.strip rest) := by
  induction text with
  | nil => exact ⟨rfl, fun _ => rfl⟩
  | cons c text ih =>
      rw [List.infix_cons_iff, not_or] at h
      obtain ⟨hblock, hstar⟩ := ih h.2
      have hnext : c = '*' → text.head? ≠ some '/' := by
        rintro rfl hhead
        obtain ⟨tail, rfl⟩ := List.head?_eq_some_iff.mp hhead
        exact h.1 ⟨tail, rfl⟩
      have hgoes : (if c = '*' then Mode.star else Mode.blockComment).strip (text ++ '.' :: rest) =
          Mode.blockComment.strip rest := by
        split
        · next hc => exact hstar (hnext hc)
        · exact hblock
      constructor
      · exact hgoes
      · intro hhead
        have hc : c ≠ '/' := by simpa using hhead
        rw [List.cons_append, Mode.strip_cons, Mode.step, if_neg hc]
        exact hgoes

end Text

end FeatureFlags
