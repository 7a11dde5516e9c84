import Mathlib.Data.List.Lex
import Mathlib.Data.List.Flatten

/-!
# The order of texts by bytes

Texts are compared character by character. This is also the order of the bytes that they are
stored as (`bytes_lt_bytes`): of two characters the smaller one has the smaller bytes, and neither
starts with the bytes of the other.
-/

namespace FeatureFlags.Text

/-- The bytes that a text is stored as. -/
def bytes (text : String) : List UInt8 := text.toUTF8.data.toList

theorem bytes_eq_flatMap (text : String) :
    bytes text = text.toList.flatMap String.utf8EncodeChar := by
  unfold bytes
  rw [String.toUTF8_eq_toByteArray, ← String.utf8Encode_toList, List.utf8Encode,
    List.data_toByteArray]

/-- The bytes of two characters differ before either of them ends, in the same direction. -/
theorem utf8EncodeChar_append_lt {c d : Char} (h : c < d) (rest rest' : List UInt8) :
    String.utf8EncodeChar c ++ rest < String.utf8EncodeChar d ++ rest' := by
  have hlt : c.val.toNat < d.val.toNat := h
  have hmax : d.val.toNat < 1114112 := by
    rcases d.valid with hvalid | ⟨-, hvalid⟩ <;> omega
  unfold String.utf8EncodeChar
  generalize c.val.toNat = v at hlt
  generalize d.val.toNat = w at hlt hmax
  -- One goal for each pair of lengths; a shorter encoding has the smaller first byte.
  dsimp only
  split_ifs <;>
    simp (disch := omega) only [List.cons_append, List.nil_append, List.cons_lt_cons_iff,
      UInt8.lt_iff_toNat_lt, ← UInt8.toNat_inj, UInt8.toNat_ofNat', Nat.mod_eq_of_lt] <;>
    omega

theorem flatMap_utf8EncodeChar_lt {text text' : List Char} (h : text < text') :
    text.flatMap String.utf8EncodeChar < text'.flatMap String.utf8EncodeChar := by
  induction text generalizing text' with
  | nil =>
      cases text' with
      | nil => exact absurd h (List.not_lt_nil _)
      | cons d rest' =>
          rw [List.flatMap_cons]
          obtain ⟨first, others, hbytes⟩ :=
            List.exists_cons_of_ne_nil (@String.utf8EncodeChar_ne_nil d)
          rw [hbytes]
          exact List.nil_lt_cons _ _
  | cons c rest ih =>
      cases text' with
      | nil => exact absurd h (List.not_lt_nil _)
      | cons d rest' =>
          rw [List.flatMap_cons, List.flatMap_cons]
          rcases List.cons_lt_cons_iff.mp h with hlt | ⟨rfl, hlt⟩
          · exact utf8EncodeChar_append_lt hlt _ _
          · exact List.append_left_lt (ih hlt)

theorem bytes_lt_bytes {text text' : String} (h : text < text') : bytes text < bytes text' := by
  rw [bytes_eq_flatMap, bytes_eq_flatMap]
  exact flatMap_utf8EncodeChar_lt h

end FeatureFlags.Text
