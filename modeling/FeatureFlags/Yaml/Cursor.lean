import FeatureFlags.Yaml.Character

/-!
# Cursors

Where reading stands in a text: what is left of it, the line of the next character, and what of
that line is before it, in characters and in bytes. All are counted from 0.
-/

namespace FeatureFlags.Yaml

structure Cursor where
  rest : List Char
  line : Nat
  column : Nat
  /-- The bytes of the line before the next character. -/
  bytes : Nat
deriving Repr, Inhabited

namespace Cursor

def start (text : List Char) : Cursor := ⟨text, 0, 0, 0⟩

/--
How much of a line is read after `taken`, when `before` was read of the line it starts in and `size`
says how much a character is.
-/
def ofLineAfter (size : Char → Nat) (before : Nat) (taken : List Char) : Nat :=
  taken.foldl (fun before c => if isBreak c then 0 else before + size c) before

/-- The cursor after `taken` is read and `rest` is left. -/
def after (cursor : Cursor) (taken rest : List Char) : Cursor :=
  ⟨rest, cursor.line + taken.countP isBreak, ofLineAfter (fun _ => 1) cursor.column taken,
    ofLineAfter Char.utf8Size cursor.bytes taken⟩

/-- The cursor after `count` more characters. -/
def skip (cursor : Cursor) (count : Nat) : Cursor :=
  cursor.after (cursor.rest.take count) (cursor.rest.drop count)

/-- The cursor when only `rest` is left, an end of what is left now. -/
def moveTo (cursor : Cursor) (rest : List Char) : Cursor :=
  cursor.skip (cursor.rest.length - rest.length)

theorem ofLineAfter_of_unbroken {size : Char → Nat} {before : Nat} {taken : List Char}
    (h : ∀ c ∈ taken, isBreak c = false) :
    ofLineAfter size before taken =
      before + taken.foldr (fun c rest => size c + rest) 0 := by
  induction taken generalizing before with
  | nil => rfl
  | cons c rest ih =>
    obtain ⟨hc, hrest⟩ := List.forall_mem_cons.mp h
    have := @ih (before + size c) hrest
    simp only [ofLineAfter, List.foldl_cons, hc] at this ⊢
    simp only [Bool.false_eq_true, ↓reduceIte, this, List.foldr_cons]
    omega

/-- Moving to what is left after `taken` reads `taken`. -/
theorem moveTo_append (taken rest : List Char) (line column bytes : Nat) :
    (Cursor.mk (taken ++ rest) line column bytes).moveTo rest =
      ⟨rest, line + taken.countP isBreak, ofLineAfter (fun _ => 1) column taken,
        ofLineAfter Char.utf8Size bytes taken⟩ := by
  simp [moveTo, skip, after]

end Cursor

end FeatureFlags.Yaml
