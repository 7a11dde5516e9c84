import FeatureFlags.Proofs.Characters

/-!
# Quoted texts

A text between single or double quotes is read back as it was. Between double quotes each
character is written in a way of its own, and no break is left (`readDoubleQuoted_write`). Between
single quotes a break is kept, and what folding drops is the indentation that was written after it
(`readSingleQuoted_write`).
-/

namespace FeatureFlags.Yaml

/-! ## Folding -/

/-- A piece within a line that stands for its character. -/
def Piece.Shows (piece : Piece) (c : Char) : Prop :=
  piece = .char c ∨ piece = .gap c ∧ isBreak c = false

/-- Where no line ends, nothing is folded. -/
theorem foldAfter_of_shows {pieces : List Piece} {text : List Char}
    (h : List.Forall₂ Piece.Shows pieces text) (before : List Char) :
    foldAfter (.blanks before) pieces = before ++ text := by
  induction h generalizing before with
  | nil =>
      rw [foldAfter, Gap.text, List.append_nil]
  | @cons piece c pieces text hpiece _ ih =>
      rcases hpiece with rfl | ⟨rfl, hbreak⟩
      · rw [foldAfter, Gap.empty, ih, Gap.text]
        rfl
      · have hadd : (Gap.blanks before).add c = .blanks (before ++ [c]) := by
          simp [Gap.add, hbreak]
        rw [foldAfter, hadd, ih, List.append_assoc]
        rfl

/-! ## Between double quotes -/

/-- Each escape that is written is read as the character that it stands for. -/
theorem escaped?_of_mem {letter meant : Char} (h : (letter, meant) ∈ writtenEscapes)
    (rest : List Char) : isBreak letter = false ∧ escaped? letter rest = some (meant, 0) := by
  have hall : ∀ escape ∈ writtenEscapes, isBreak escape.1 = false ∧
      readEscapes.lookup escape.1 = some escape.2 := by decide
  obtain ⟨hbreak, hlookup⟩ := hall _ h
  refine ⟨hbreak, ?_⟩
  unfold escaped?
  rw [hlookup]

theorem hexChar?_hexDigits (c : Char) {count : Nat} (h : c.toNat < 16 ^ (count + 1))
    (rest : List Char) :
    hexChar? (count + 1) (Text.hexDigits (count + 1) c.toNat ++ rest) = some c := by
  have hlength := Text.length_hexDigits (count + 1) c.toNat
  have htake : (Text.hexDigits (count + 1) c.toNat ++ rest).take (count + 1) =
      Text.hexDigits (count + 1) c.toNat := by
    rw [List.take_append_of_le_length (by omega), List.take_of_length_le (by omega)]
  have hvalid : c.toNat.isValidChar := c.valid
  unfold hexChar?
  rw [htake, Text.digitsValue?_hexDigits h, if_neg (by rw [List.length_append]; omega)]
  simp only [if_pos hvalid, Char.ofNat_toNat]

/-- An escape by number takes all its digits. -/
theorem escaped?_hexDigits {letter : Char} {count : Nat} (hlookup : readEscapes.lookup letter = none)
    (hcount : escapeLength? letter = some (count + 1)) (c : Char)
    (h : c.toNat < 16 ^ (count + 1)) (rest : List Char) :
    escaped? letter (Text.hexDigits (count + 1) c.toNat ++ rest) = some (c, count + 1) := by
  unfold escaped?
  rw [hlookup, hcount]
  simp only [Option.bind_some, hexChar?_hexDigits c h rest]
  rfl

theorem escaped?_escapeByNumber (c : Char) (rest : List Char) :
    ∃ letter digits, escapeByNumber c = letter :: digits ∧ isBreak letter = false ∧
      escaped? letter (digits ++ rest) = some (c, digits.length) := by
  unfold escapeByNumber
  simp only
  split
  · next hle =>
      refine ⟨'x', Text.hexDigits 2 c.toNat, rfl, by decide, ?_⟩
      rw [Text.length_hexDigits]
      exact escaped?_hexDigits (by decide) rfl c (by omega) rest
  · split
    · next hle =>
        refine ⟨'u', Text.hexDigits 4 c.toNat, rfl, by decide, ?_⟩
        rw [Text.length_hexDigits]
        exact escaped?_hexDigits (by decide) rfl c (by omega) rest
    · have hsize : c.toNat < 16 ^ 8 := by
        unfold Char.toNat
        rcases c.valid with hvalid | hvalid
        · omega
        · omega
      refine ⟨'U', Text.hexDigits 8 c.toNat, rfl, by decide, ?_⟩
      rw [Text.length_hexDigits]
      exact escaped?_hexDigits (by decide) rfl c hsize rest

/-- A character is read back in whichever way it is written. -/
theorem readDoubleQuoted_char (c : Char) (rest : List Char) :
    ∃ piece, Piece.Shows piece c ∧ readDoubleQuoted (writeDoubleQuotedChar c ++ rest) =
      piece.before (readDoubleQuoted rest) := by
  unfold writeDoubleQuotedChar
  split
  · next letter meant hfind =>
      obtain rfl : meant = c := by simpa using List.find?_some hfind
      obtain ⟨hbreak, hescaped⟩ := escaped?_of_mem (List.mem_of_find?_eq_some hfind) rest
      refine ⟨.char meant, .inl rfl, ?_⟩
      rw [List.cons_append, List.cons_append, List.nil_append, readDoubleQuoted]
      simp [hbreak, hescaped]
  · next hfind =>
      have hnone : ∀ escape ∈ writtenEscapes, escape.2 ≠ c := by simpa using hfind
      have hquote : c ≠ '"' := (hnone ('"', '"') (by decide)).symm
      have hbackslash : c ≠ '\\' := (hnone ('\\', '\\') (by decide)).symm
      split
      · have hbreak : isBreak c = false := by
          have hline : c ≠ '\n' := (hnone ('n', '\n') (by decide)).symm
          have hseparator : c ≠ '\u2028' := (hnone ('L', '\u2028') (by decide)).symm
          have hparagraph : c ≠ '\u2029' := (hnone ('P', '\u2029') (by decide)).symm
          simp [isBreak, hline, hseparator, hparagraph]
        refine ⟨Piece.ofChar c, ?_, ?_⟩
        · unfold Piece.ofChar
          split
          · exact .inr ⟨rfl, hbreak⟩
          · exact .inl rfl
        · rw [List.cons_append, List.nil_append, readDoubleQuoted]
          · simp [hbreak]
          · exact hquote
          · exact fun h => absurd h hbackslash
          · exact fun _ _ h => absurd h hbackslash
      · obtain ⟨letter, digits, hwritten, hbreak, hescaped⟩ := escaped?_escapeByNumber c rest
        refine ⟨.char c, .inl rfl, ?_⟩
        rw [hwritten, List.cons_append, List.cons_append, readDoubleQuoted]
        simp [hbreak, hescaped]

theorem readDoubleQuoted_write (text rest : List Char) :
    ∃ pieces, readDoubleQuoted (text.flatMap writeDoubleQuotedChar ++ '"' :: rest) =
      some (pieces, rest) ∧ fold pieces = text := by
  suffices h : ∃ pieces, readDoubleQuoted (text.flatMap writeDoubleQuotedChar ++ '"' :: rest) =
      some (pieces, rest) ∧ List.Forall₂ Piece.Shows pieces text by
    obtain ⟨pieces, hread, hshows⟩ := h
    exact ⟨pieces, hread, foldAfter_of_shows hshows []⟩
  induction text with
  | nil => exact ⟨[], by rw [List.flatMap_nil, List.nil_append, readDoubleQuoted], .nil⟩
  | cons c text ih =>
      obtain ⟨pieces, hread, hshows⟩ := ih
      obtain ⟨piece, hpiece, hchar⟩ :=
        readDoubleQuoted_char c (text.flatMap writeDoubleQuotedChar ++ '"' :: rest)
      refine ⟨piece :: pieces, ?_, .cons hpiece hshows⟩
      rw [List.flatMap_cons, List.append_assoc, hchar, hread]
      rfl

/-! ## Between single quotes -/

/-- A line that starts with a space or a break is no mark between documents. -/
theorem startsDocument_of_isGap {c : Char} (h : isGap c = true) (rest : List Char) :
    startsDocument (c :: rest) = false := by
  have hdash : c ≠ '-' := by
    rintro rfl
    cases h
  have hpoint : c ≠ '.' := by
    rintro rfl
    cases h
  exact startsDocument_of_ne hdash hpoint rest

/-- After a break comes a break, a space or the indentation. -/
theorem startsDocument_writeSingleQuotedAfter (text rest : List Char) :
    startsDocument (writeSingleQuotedAfter true text ++ rest) = false := by
  cases text with
  | nil => exact startsDocument_of_isGap rfl _
  | cons c text =>
      rw [writeSingleQuotedAfter]
      split
      · next hbreak =>
          exact startsDocument_of_isGap (by simp [isGap, hbreak]) _
      · split
        · next hspace => exact startsDocument_of_isGap (by rw [hspace]; rfl) _
        · exact startsDocument_of_isGap rfl _

theorem readSingleQuoted_of_ne {c : Char} (hquote : c ≠ '\'') (rest : List Char) :
    readSingleQuoted (c :: rest) =
      if isBreak c && startsDocument rest then none
      else (Piece.ofChar c).before (readSingleQuoted rest) := by
  rw [readSingleQuoted]
  · rw [if_neg hquote]
  · exact fun _ h => absurd h hquote

/-- The indentation adds two spaces to the gap before it. -/
theorem readSingleQuoted_indentation (afterBreak : Bool) (rest : List Char) :
    readSingleQuoted (indentation afterBreak ++ rest) =
      if afterBreak then (Piece.gap ' ').before ((Piece.gap ' ').before (readSingleQuoted rest))
      else readSingleQuoted rest := by
  cases afterBreak with
  | false => rfl
  | true =>
      have hspace : (' ' : Char) ≠ '\'' := by decide
      have hindentation : indentation true ++ rest = ' ' :: ' ' :: rest := rfl
      rw [hindentation, readSingleQuoted_of_ne hspace, readSingleQuoted_of_ne hspace]
      rfl

/--
The gap before `text` is one that folding keeps: its break is no `\n`, no space follows a break, and
no break follows a space.
-/
def Gap.Kept (gap : Gap) (text : List Char) : Prop :=
  match gap with
  | .blanks spaces => spaces = [] ∨ text.head?.any isBreak = false
  | .broken (some first) _ => first ≠ '\n' ∧ text.head? ≠ some ' '
  | .broken .none _ => False

theorem Gap.text_broken {first : Char} (h : first ≠ '\n') (later : List Char) :
    (Gap.broken (some first) later).text = first :: later := by
  unfold Gap.text
  split <;> simp_all

theorem Gap.Kept.add_break {gap : Gap} {c : Char} {text : List Char} (h : gap.Kept (c :: text))
    (hbreak : isBreak c = true) (hline : c ≠ '\n') (hhead : text.head? ≠ some ' ') :
    (gap.add c).Kept text ∧ (gap.add c).isBroken = true ∧ (gap.add c).text = gap.text ++ [c] := by
  cases gap with
  | blanks spaces =>
      have hnone : spaces = [] := h.resolve_right (by simp [hbreak])
      have hadd : (Gap.blanks spaces).add c = .broken (some c) [] := by simp [Gap.add, hbreak]
      rw [hadd, Gap.text_broken hline, hnone]
      exact ⟨⟨hline, hhead⟩, rfl, rfl⟩
  | broken first later =>
      cases first with
      | none => exact h.elim
      | some first =>
          have hadd : (Gap.broken (some first) later).add c =
              .broken (some first) (later ++ [c]) := by simp [Gap.add, hbreak]
          rw [hadd, Gap.text_broken h.1, Gap.text_broken h.1]
          exact ⟨⟨h.1, hhead⟩, rfl, rfl⟩

theorem Gap.Kept.add_space {gap : Gap} {text : List Char} (h : gap.Kept (' ' :: text))
    (hhead : text.head?.any isBreak = false) :
    (gap.add ' ').Kept text ∧ (gap.add ' ').isBroken = gap.isBroken ∧
      (gap.add ' ').text = gap.text ++ [' '] := by
  cases gap with
  | blanks spaces => exact ⟨.inr hhead, rfl, rfl⟩
  | broken first later =>
      cases first with
      | none => exact h.elim
      | some first => exact absurd rfl h.2

/-- Folding drops the indentation. -/
theorem exists_indented (gap : Gap) {source rest : List Char} {pieces : List Piece}
    (h : readSingleQuoted source = some (pieces, rest)) :
    ∃ pieces', readSingleQuoted (indentation gap.isBroken ++ source) = some (pieces', rest) ∧
      foldAfter gap pieces' = foldAfter gap pieces := by
  rw [readSingleQuoted_indentation, h]
  cases gap with
  | blanks spaces => exact ⟨pieces, rfl, rfl⟩
  | broken first later => exact ⟨.gap ' ' :: .gap ' ' :: pieces, rfl, rfl⟩

/-- A quote is written twice, and any other character between words once. -/
theorem readSingleQuoted_word {c : Char} (hgap : isGap c = false) {source rest : List Char}
    {pieces : List Piece} (h : readSingleQuoted source = some (pieces, rest)) :
    readSingleQuoted ((if c = '\'' then ['\'', '\''] else [c]) ++ source) =
      some (.char c :: pieces, rest) := by
  split
  · next hquote =>
      rw [List.cons_append, List.cons_append, List.nil_append, readSingleQuoted, h, hquote]
      rfl
  · next hquote =>
      have hbreak : isBreak c = false := (isGap_eq_false_iff.mp hgap).2.2
      rw [List.cons_append, List.nil_append, readSingleQuoted_of_ne hquote, h, hbreak,
        Piece.ofChar, hgap]
      rfl

theorem readSingleQuoted_close {rest : List Char} (hrest : rest.head? ≠ some '\'') :
    readSingleQuoted ('\'' :: rest) = some ([], rest) := by
  rw [readSingleQuoted]
  · rw [if_pos rfl]
  · rintro rest' - rfl
    exact hrest rfl

theorem hasAdjacent_cons {first second : Char → Bool} {c : Char} {text : List Char}
    (h : hasAdjacent first second (c :: text) = false) :
    hasAdjacent first second text = false ∧ (first c = true → text.head?.any second = false) := by
  cases text with
  | nil => exact ⟨rfl, fun _ => rfl⟩
  | cons d text =>
      rw [hasAdjacent, Bool.or_eq_false_iff, Bool.and_eq_false_iff] at h
      refine ⟨h.2, fun hfirst => ?_⟩
      simpa [hfirst] using h.1

/-- A blank or break is one more of the gap before it. -/
theorem exists_gap {gap : Gap} {c : Char} (hgap : isGap c = true) {source rest text : List Char}
    (hdocument : (isBreak c && startsDocument source) = false)
    (hkept : (gap.add c).text = gap.text ++ [c])
    (h : ∃ pieces, readSingleQuoted source = some (pieces, rest) ∧
      foldAfter (gap.add c) pieces = (gap.add c).text ++ text) :
    ∃ pieces, readSingleQuoted (c :: source) = some (pieces, rest) ∧
      foldAfter gap pieces = gap.text ++ c :: text := by
  obtain ⟨pieces, hread, hfold⟩ := h
  have hquote : c ≠ '\'' := by
    rintro rfl
    cases hgap
  refine ⟨.gap c :: pieces, ?_, ?_⟩
  · rw [readSingleQuoted_of_ne hquote, hdocument, hread, Piece.ofChar, hgap]
    rfl
  · rw [foldAfter, hfold, hkept, List.append_assoc]
    rfl

theorem readSingleQuotedAfter_write {text : List Char} (hprintable : ∀ c ∈ text, isPrintable c)
    (hline : '\n' ∉ text) (htrailing : hasTrailingSpace text = false)
    (hleading : hasLeadingSpace text = false) {rest : List Char} (hrest : rest.head? ≠ some '\'')
    {gap : Gap} (hgap : gap.Kept text) :
    ∃ pieces, readSingleQuoted (writeSingleQuotedAfter gap.isBroken text ++ rest) =
      some (pieces, rest) ∧ foldAfter gap pieces = gap.text ++ text := by
  induction text generalizing gap with
  | nil =>
      obtain ⟨pieces, hread, hfold⟩ := exists_indented gap (readSingleQuoted_close hrest)
      refine ⟨pieces, ?_, ?_⟩
      · rw [writeSingleQuotedAfter, List.append_assoc]
        exact hread
      · rw [hfold, foldAfter, List.append_nil]
  | cons c text ih =>
      obtain ⟨hc, hprintable⟩ := List.forall_mem_cons.mp hprintable
      obtain ⟨hnot, hline⟩ := not_or.mp (List.mem_cons.not.mp hline)
      obtain ⟨htrailing, hafterSpace⟩ := hasAdjacent_cons htrailing
      obtain ⟨hleading, hafterBreak⟩ := hasAdjacent_cons hleading
      have ih := @ih hprintable hline htrailing hleading
      rw [writeSingleQuotedAfter]
      split
      · next hbreak =>
          have hhead : text.head? ≠ some ' ' := by
            intro hhead
            have := hafterBreak hbreak
            rw [hhead] at this
            cases this
          obtain ⟨hkept, hbroken, htext⟩ := hgap.add_break hbreak (Ne.symm hnot) hhead
          have hread := ih hkept
          rw [hbroken] at hread
          have hdocument := startsDocument_writeSingleQuotedAfter text rest
          exact exists_gap (by simp [isGap, hbreak])
            (Bool.and_eq_false_iff.mpr (.inr hdocument)) htext hread
      · next hbreak =>
          split
          · next hspace =>
              rw [hspace] at hgap ⊢
              obtain ⟨hkept, hbroken, htext⟩ := hgap.add_space (hafterSpace (by simpa using hspace))
              have hread := ih hkept
              rw [hbroken] at hread
              exact exists_gap rfl rfl htext hread
          · next hspace =>
              have hword : isGap c = false :=
                isGap_eq_false_iff.mpr ⟨hspace, (ne_of_isPrintable hc).1, by simpa using hbreak⟩
              have hempty : Gap.empty.Kept text := .inl rfl
              obtain ⟨pieces, hread, hfold⟩ := ih hempty
              obtain ⟨pieces', hread', hfold'⟩ :=
                exists_indented gap (readSingleQuoted_word hword hread)
              refine ⟨pieces', ?_, ?_⟩
              · rw [List.append_assoc, List.append_assoc]
                exact hread'
              · rw [hfold', foldAfter, hfold]
                rfl

theorem readSingleQuoted_write {text : List Char} (hprintable : ∀ c ∈ text, isPrintable c)
    (hline : '\n' ∉ text) (htrailing : hasTrailingSpace text = false)
    (hleading : hasLeadingSpace text = false) {rest : List Char} (hrest : rest.head? ≠ some '\'') :
    ∃ pieces, readSingleQuoted (writeSingleQuotedAfter false text ++ rest) =
      some (pieces, rest) ∧ fold pieces = text := by
  have hgap : Gap.empty.Kept text := .inl rfl
  exact readSingleQuotedAfter_write hprintable hline htrailing hleading hrest hgap

/-! ## What is written -/

theorem isPrintable_hexDigits (count value : Nat) :
    ∀ c ∈ Text.hexDigits count value, isPrintable c = true := by
  induction count generalizing value with
  | zero => simp [Text.hexDigits]
  | succ count ih =>
      have hdigit : ∀ digit < 16, isPrintable (Text.hexDigit digit) = true := by decide
      rw [Text.hexDigits]
      refine List.forall_mem_append.mpr ⟨ih _, List.forall_mem_singleton.mpr ?_⟩
      exact hdigit _ (Nat.mod_lt _ (by decide))

theorem isPrintable_escapeByNumber (c : Char) : ∀ d ∈ escapeByNumber c, isPrintable d = true := by
  unfold escapeByNumber
  simp only
  split
  · exact List.forall_mem_cons.mpr ⟨by decide, isPrintable_hexDigits _ _⟩
  · split
    · exact List.forall_mem_cons.mpr ⟨by decide, isPrintable_hexDigits _ _⟩
    · exact List.forall_mem_cons.mpr ⟨by decide, isPrintable_hexDigits _ _⟩

theorem isPrintable_writeDoubleQuoted (text : List Char) :
    ∀ c ∈ writeDoubleQuoted text, isPrintable c = true := by
  have hchar (c : Char) : ∀ d ∈ writeDoubleQuotedChar c, isPrintable d = true := by
    unfold writeDoubleQuotedChar
    split
    · next letter meant hfind =>
        have hall : ∀ escape ∈ writtenEscapes, isPrintable escape.1 = true := by decide
        have hletter := hall _ (List.mem_of_find?_eq_some hfind)
        exact List.forall_mem_cons.mpr ⟨by decide, List.forall_mem_singleton.mpr hletter⟩
    · split
      · next hprintable => exact List.forall_mem_singleton.mpr hprintable
      · exact List.forall_mem_cons.mpr ⟨by decide, isPrintable_escapeByNumber c⟩
  unfold writeDoubleQuoted
  refine List.forall_mem_append.mpr ⟨List.forall_mem_cons.mpr ⟨by decide, ?_⟩, ?_⟩
  · intro d hd
    obtain ⟨c, -, hc⟩ := List.mem_flatMap.mp hd
    exact hchar c d hc
  · exact List.forall_mem_singleton.mpr (by decide)

theorem isPrintable_indentation (afterBreak : Bool) :
    ∀ c ∈ indentation afterBreak, isPrintable c = true := by
  cases afterBreak <;> simp [indentation, isPrintable]

theorem isPrintable_writeSingleQuotedAfter {text : List Char}
    (hprintable : ∀ c ∈ text, isPrintable c) (afterBreak : Bool) :
    ∀ c ∈ writeSingleQuotedAfter afterBreak text, isPrintable c = true := by
  induction text generalizing afterBreak with
  | nil =>
      rw [writeSingleQuotedAfter]
      exact List.forall_mem_append.mpr
        ⟨isPrintable_indentation _, List.forall_mem_singleton.mpr (by decide)⟩
  | cons c text ih =>
      obtain ⟨hc, hprintable⟩ := List.forall_mem_cons.mp hprintable
      have hword : ∀ d ∈ (if c = '\'' then ['\'', '\''] else [c]), isPrintable d = true := by
        split
        · simp [isPrintable]
        · exact List.forall_mem_singleton.mpr hc
      rw [writeSingleQuotedAfter]
      split
      · exact List.forall_mem_cons.mpr ⟨hc, ih hprintable _⟩
      · split
        · exact List.forall_mem_cons.mpr ⟨hc, ih hprintable _⟩
        · exact List.forall_mem_append.mpr ⟨List.forall_mem_append.mpr
            ⟨isPrintable_indentation _, hword⟩, ih hprintable _⟩

theorem getLast?_writeSingleQuotedAfter (text : List Char) (afterBreak : Bool) :
    (writeSingleQuotedAfter afterBreak text).getLast? = some '\'' := by
  induction text generalizing afterBreak with
  | nil => rw [writeSingleQuotedAfter, List.getLast?_concat]
  | cons c text ih =>
      have hne (afterBreak : Bool) : writeSingleQuotedAfter afterBreak text ≠ [] := by
        intro hnil
        have := ih afterBreak
        rw [hnil] at this
        cases this
      rw [writeSingleQuotedAfter]
      split
      · rw [List.getLast?_cons_of_ne_nil (hne _), ih]
      · split
        · rw [List.getLast?_cons_of_ne_nil (hne _), ih]
        · rw [List.getLast?_append_of_ne_nil _ (hne _), ih]

end FeatureFlags.Yaml
