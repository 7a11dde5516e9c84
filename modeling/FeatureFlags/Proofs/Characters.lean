import Mathlib
import FeatureFlags.Yaml.Writer

/-!
# Digits and characters

Numbers are read back from their digits, hexadecimal (`digitsValue?_hexDigits`) and decimal
(`digitsValue?_toDigits`). Of the characters, those that are written as they are may stand in a
text, and the only gaps among them are the space and the breaks; a letter, a digit or an underscore
means nothing but itself anywhere.
-/

namespace FeatureFlags

namespace Text

/-! ## Digits -/

theorem digitsValueFrom?_append (base value : Nat) (first second : List Char) :
    digitsValueFrom? base value (first ++ second) =
      (digitsValueFrom? base value first).bind (digitsValueFrom? base · second) := by
  induction first generalizing value with
  | nil => rfl
  | cons c first ih =>
      rw [List.cons_append, digitsValueFrom?, digitsValueFrom?]
      split
      · split
        · exact ih _
        · rfl
      · rfl

theorem digitValue?_hexDigit {value : Nat} (h : value < 16) :
    digitValue? (hexDigit value) = some value := by
  revert h
  revert value
  decide

theorem digitsValueFrom?_hexDigits {count value : Nat} (h : value < 16 ^ count) (before : Nat) :
    digitsValueFrom? 16 before (hexDigits count value) = some (before * 16 ^ count + value) := by
  induction count generalizing value with
  | zero =>
      rw [pow_zero, Nat.lt_one_iff] at h
      rw [h, hexDigits, digitsValueFrom?]
      simp
  | succ count ih =>
      have hlast : value % 16 < 16 := Nat.mod_lt _ (by decide)
      have hrest : value / 16 < 16 ^ count := by
        rw [Nat.div_lt_iff_lt_mul (by decide)]
        rwa [pow_succ] at h
      rw [hexDigits, digitsValueFrom?_append, ih hrest, Option.bind_some, digitsValueFrom?,
        digitValue?_hexDigit hlast]
      simp only [if_pos hlast, digitsValueFrom?, pow_succ, Option.some.injEq]
      have hsplit := Nat.div_add_mod value 16
      linarith

theorem digitsValue?_hexDigits {count value : Nat} (h : value < 16 ^ (count + 1)) :
    digitsValue? 16 (hexDigits (count + 1) value) = some value := by
  have hlength := length_hexDigits (count + 1) value
  have hvalue := digitsValueFrom?_hexDigits h 0
  unfold digitsValue?
  split
  · next hnil =>
      rw [hnil] at hlength
      cases hlength
  · rw [hvalue, Nat.zero_mul, Nat.zero_add]

theorem digitValue?_of_isDigit {c : Char} (h : c.isDigit = true) :
    digitValue? c = some (c.toNat - '0'.toNat) ∧ c.toNat - '0'.toNat < 10 := by
  refine ⟨if_pos h, ?_⟩
  have hle : c.toNat ≤ '9'.toNat := by
    simp only [Char.isDigit, Bool.and_eq_true, decide_eq_true_eq] at h
    exact h.2
  have hnine : '9'.toNat = 57 := rfl
  have hzero : '0'.toNat = 48 := rfl
  omega

theorem digitsValueFrom?_of_isDigit {digits : List Char} (h : ∀ c ∈ digits, c.isDigit = true)
    (value : Nat) : digitsValueFrom? 10 value digits = some (Nat.ofDigitChars 10 digits value) := by
  induction digits generalizing value with
  | nil => rw [digitsValueFrom?, Nat.ofDigitChars_nil]
  | cons c digits ih =>
      obtain ⟨hc, hdigits⟩ := List.forall_mem_cons.mp h
      obtain ⟨hvalue, hlt⟩ := digitValue?_of_isDigit hc
      rw [digitsValueFrom?, hvalue]
      simp only [if_pos hlt, ih hdigits, Nat.ofDigitChars_cons, Nat.mul_comm]

theorem isDigit_of_mem_toDigits {value : Nat} {c : Char} (h : c ∈ Nat.toDigits 10 value) :
    c.isDigit = true :=
  Nat.isDigit_of_mem_toDigits (by decide) (by decide) h

theorem digitsValue?_toDigits (value : Nat) :
    digitsValue? 10 (Nat.toDigits 10 value) = some value := by
  have hdigits : ∀ c ∈ Nat.toDigits 10 value, c.isDigit = true :=
    fun _ hc => isDigit_of_mem_toDigits hc
  have hvalue := digitsValueFrom?_of_isDigit hdigits 0
  rw [Nat.ofDigitChars_toDigits (by decide) (by decide)] at hvalue
  unfold digitsValue?
  split
  · next hnil => exact absurd hnil Nat.toDigits_ne_nil
  · exact hvalue

/-- A number other than zero does not start with one. -/
theorem head?_toDigits {value : Nat} (h : 0 < value) :
    (Nat.toDigits 10 value).head? ≠ some '0' := by
  induction value using Nat.strong_induction_on with
  | h value ih =>
      rw [Nat.toDigits_eq_if (by decide)]
      split
      · next hlt =>
          have hdigit : ∀ value < 10, 0 < value → Nat.digitChar value ≠ '0' := by decide
          simpa using hdigit value hlt h
      · next hle =>
          have hlt : value / 10 < value := Nat.div_lt_self h (by decide)
          have hpos : 0 < value / 10 := Nat.div_pos (Nat.le_of_not_lt hle) (by decide)
          rw [List.head?_append_of_ne_nil _ Nat.toDigits_ne_nil]
          exact ih _ hlt hpos

end Text

namespace Yaml

/-! ## Numbers -/

theorem natural?_toDigits (value : Nat) : natural? (Nat.toDigits 10 value) = some value := by
  obtain ⟨digit, digits, hdigits⟩ := List.exists_cons_of_ne_nil (Nat.toDigits_ne_nil (n := value))
  have hmem : digit ∈ Nat.toDigits 10 value := by
    rw [hdigits]
    exact List.mem_cons_self
  have hdigit := Text.isDigit_of_mem_toDigits hmem
  have hplus : digit ≠ '+' := by
    rintro rfl
    cases hdigit
  have hvalue := Text.digitsValue?_toDigits value
  unfold natural?
  rw [hdigits, Text.dropSign, if_neg (by simpa using hplus)]
  rcases Nat.eq_zero_or_pos value with rfl | hpos
  · cases hdigits
    rfl
  · have hhead := Text.head?_toDigits hpos
    rw [hdigits] at hhead hvalue
    have hzero : digit ≠ '0' := by simpa using hhead
    have hleading : hasLeadingZero (digit :: digits) = false := by
      unfold hasLeadingZero
      split
      · next hsame =>
          cases hsame
          exact absurd rfl hzero
      · rfl
    rw [magnitude?, hleading, if_neg Bool.false_ne_true, hvalue]
    · rintro _ hsame
      cases hsame
      exact hzero rfl
    · rintro _ hsame
      cases hsame
      exact hzero rfl
    · rintro _ hsame
      cases hsame
      exact hzero rfl

/-! ## Printable characters -/

theorem isPermitted_of_isPrintable {c : Char} (h : isPrintable c = true) : isPermitted c = true := by
  simp only [isPrintable, isPermitted, Bool.or_eq_true, Bool.and_eq_true, beq_iff_eq,
    decide_eq_true_eq, bne_iff_ne, ne_eq] at h ⊢
  omega

/-- A printable character is not one of those that only look like a space or a break. -/
theorem ne_of_isPrintable {c : Char} (h : isPrintable c = true) :
    c ≠ '\t' ∧ c ≠ '\r' ∧ c ≠ '\u0085' := by
  refine ⟨?_, ?_, ?_⟩
  · rintro rfl
    cases h
  · rintro rfl
    cases h
  · rintro rfl
    cases h

theorem isGap_eq_false_iff {c : Char} :
    isGap c = false ↔ c ≠ ' ' ∧ c ≠ '\t' ∧ isBreak c = false := by
  simp [isGap, isBlank, and_assoc]

/-- A mark between documents is made of dashes or of points. -/
theorem startsDocument_of_ne {c : Char} (hdash : c ≠ '-') (hpoint : c ≠ '.') (rest : List Char) :
    startsDocument (c :: rest) = false := by
  unfold startsDocument
  match rest with
  | [] => rfl
  | [_] => rfl
  | _ :: _ :: _ => simp [startsWithMark, hdash, hpoint]

/-! ## Letters, digits and underscores -/

theorem isWordChar_of_isDigit {c : Char} (h : c.isDigit = true) : isWordChar c = true ∧ c ≠ '-' := by
  refine ⟨by simp [isWordChar, Char.isAlphanum, h], ?_⟩
  rintro rfl
  cases h

theorem toNat_of_isWordChar {c : Char} (h : isWordChar c = true) : 45 ≤ c.toNat ∧ c.toNat ≤ 122 := by
  simp only [isWordChar, Char.isAlphanum, Char.isAlpha, Char.isUpper, Char.isLower, Char.isDigit,
    Bool.or_eq_true, Bool.and_eq_true, decide_eq_true_eq] at h
  have hbounds {low high : UInt32} (hlow : 45 ≤ low.toNat) (hhigh : high.toNat ≤ 122)
      (h : low ≤ c.val ∧ c.val ≤ high) : 45 ≤ c.toNat ∧ c.toNat ≤ 122 :=
    ⟨Nat.le_trans hlow h.1, Nat.le_trans h.2 hhigh⟩
  rcases h with (((hupper | hlower) | hdigit) | rfl) | rfl
  · exact hbounds (by decide) (by decide) hupper
  · exact hbounds (by decide) (by decide) hlower
  · exact hbounds (by decide) (by decide) hdigit
  · decide
  · decide

theorem isPrintable_of_isWordChar {c : Char} (h : isWordChar c = true) : isPrintable c = true := by
  obtain ⟨hge, hle⟩ := toNat_of_isWordChar h
  simp only [isPrintable, Bool.or_eq_true, Bool.and_eq_true, beq_iff_eq, decide_eq_true_eq]
  omega

theorem utf8Size_of_isWordChar {c : Char} (h : isWordChar c = true) : c.utf8Size = 1 := by
  obtain ⟨-, hle⟩ := toNat_of_isWordChar h
  rw [Char.utf8Size_eq_one_iff]
  exact Nat.le_trans hle (by decide)

theorem ne_of_isWordChar {c d : Char} (hc : isWordChar c = true) (hd : isWordChar d = false) :
    c ≠ d := by
  rintro rfl
  cases hc.symm.trans hd

theorem isGap_of_isWordChar {c : Char} (h : isWordChar c = true) : isGap c = false := by
  refine isGap_eq_false_iff.mpr ⟨ne_of_isWordChar h rfl, ne_of_isWordChar h rfl, ?_⟩
  rw [← Bool.not_eq_true]
  intro hbreak
  simp only [isBreak, Bool.or_eq_true, decide_eq_true_eq] at hbreak
  rcases hbreak with (hbreak | hbreak) | hbreak
  · exact ne_of_isWordChar h rfl hbreak
  · exact ne_of_isWordChar h rfl hbreak
  · exact ne_of_isWordChar h rfl hbreak

theorem isIndicator_of_isWordChar {c : Char} (h : isWordChar c = true) (hdash : c ≠ '-') :
    isIndicator c = false := by
  have hall : ∀ d ∈ ['?', ':', ',', '[', ']', '\x7b', '\x7d', '#', '&', '*', '!', '|', '>', '\'',
      '"', '%', '@', '\x60'], isWordChar d = false := by
    simp [isWordChar, Char.isAlphanum, Char.isAlpha, Char.isUpper, Char.isLower, Char.isDigit]
  rw [← Bool.not_eq_true]
  intro hindicator
  rcases List.mem_cons.mp (List.contains_iff_mem.mp hindicator) with rfl | hmem
  · exact hdash rfl
  · exact ne_of_isWordChar h (hall c hmem) rfl

/-! ## Spans -/

/-- A text is its first characters with a property, and what follows the last of them. -/
theorem exists_span (p : Char → Bool) (text : List Char) :
    ∃ first rest, text = first ++ rest ∧ (∀ c ∈ first, p c = true) ∧
      (rest = [] ∨ ∃ c later, rest = c :: later ∧ p c = false) := by
  refine ⟨text.takeWhile p, text.dropWhile p, List.takeWhile_append_dropWhile.symm,
    fun c hc => List.mem_takeWhile_imp hc, ?_⟩
  cases hrest : text.dropWhile p with
  | nil => exact .inl rfl
  | cons c later =>
      right
      refine ⟨c, later, rfl, ?_⟩
      have hhead := List.head?_dropWhile_not p text
      rw [hrest] at hhead
      simpa using hhead

end Yaml

end FeatureFlags
