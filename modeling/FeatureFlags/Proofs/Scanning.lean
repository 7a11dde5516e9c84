import FeatureFlags.Proofs.Literals
import FeatureFlags.Proofs.PlainTexts
import FeatureFlags.Proofs.Quoting
import FeatureFlags.Yaml.Lexer

/-!
# Scanning written pairs

A written pair is a key, a colon, a space and a value, up to the end of its line. Scanning it gives
four tokens, and the block of the mapping starts before the first key. What a value needs for that
is said once for all styles (`Written`), and every text is written so (`written_writeText`).
-/

namespace FeatureFlags.Yaml

/-! ## Arrays of tokens -/

theorem insertIdxIfInBounds_append (tokens later : Array Token) (token : Token) :
    (tokens ++ later).insertIdxIfInBounds tokens.size token = tokens ++ #[token] ++ later := by
  have hlist (before after : List Token) :
      (before ++ after).insertIdx before.length token = before ++ token :: after := by
    induction before with
    | nil => rfl
    | cons first before ih => simpa using ih
  apply Array.toList_inj.mp
  rw [Array.insertIdxIfInBounds, dif_pos (by simp)]
  simpa using hlist tokens.toList later.toList

namespace Lexer

variable {tokens : Array Token} {margins : List Nat} {more : List Char} {line column bytes : Nat}

/-! ## Between pairs -/

/-- A pair may start here, or the text ends. -/
def StartsPair (more : List Char) : Prop :=
  more.head?.any (fun c => isGap c || c = '#' || c = '\ufeff') = false

theorem StartsPair.head?_gap (h : StartsPair more) : more.head?.any isGap = false := by
  cases more with
  | nil => rfl
  | cons c more =>
      have hc : (isGap c || decide (c = '#') || decide (c = '\ufeff')) = false := h
      rw [Bool.or_eq_false_iff, Bool.or_eq_false_iff] at hc
      exact hc.1.1

/-- At the start of a line, with nothing open but the mapping. -/
def atPair (tokens : Array Token) (margins : List Nat) (more : List Char) (line : Nat) : Lexer :=
  ⟨⟨more, line, 0, 0⟩, tokens, margins, true, none, []⟩

/-- The next pair is skipped to from here. -/
def Between (tokens : Array Token) (margins : List Nat) (more : List Char) (lexer : Lexer) : Prop :=
  ∃ line, lexer.advance = some (atPair tokens margins more line)

theorem skipGap_startsPair (h : StartsPair more) (atLineStart : Bool) :
    skipGap false atLineStart false true more = (true, more) := by
  cases more with
  | nil => rfl
  | cons c more =>
      have hc : (isGap c || decide (c = '#') || decide (c = '\ufeff')) = false := h
      simp only [Bool.or_eq_false_iff, decide_eq_false_iff_not] at hc
      obtain ⟨⟨hgap, hcomment⟩, hmark⟩ := hc
      obtain ⟨hspace, htab, hbreak⟩ := isGap_eq_false_iff.mp hgap
      simp [skipGap, hspace, hbreak, hcomment, hmark]

/-- Where no candidate is too far behind and no block ends, going on is skipping a gap. -/
theorem advance_eq {cursor next : Cursor} {keyAllowed allowed : Bool} {candidate : Option Candidate}
    (hskip : skipGap false (cursor.column = 0) false keyAllowed cursor.rest = (allowed, next.rest))
    (hnext : cursor.moveTo next.rest = next)
    (hcandidate : candidate.any (Candidate.isStale next) = false)
    (hmargins : ∀ margin ∈ margins, margin ≤ next.column + 1) :
    advance ⟨cursor, tokens, margins, keyAllowed, candidate, []⟩ =
      some ⟨next, tokens, margins, allowed, candidate, []⟩ := by
  have hclosed : margins.takeWhile (next.column + 1 < ·) = [] := by
    cases margins with
    | nil => rfl
    | cons margin margins =>
        have hle := hmargins margin List.mem_cons_self
        rw [List.takeWhile_cons, if_neg (by simpa using hle)]
  unfold advance
  simp only [inFlow, rest, ne_eq, not_true_eq_false, decide_false, hskip, hnext]
  simp [dropStale, closeBlocks, inFlow, hcandidate, hclosed]

theorem moveTo_self (cursor : Cursor) : cursor.moveTo cursor.rest = cursor := by
  simp [Cursor.moveTo, Cursor.skip, Cursor.after, Cursor.ofLineAfter]

theorem between_atPair (hmargins : ∀ margin ∈ margins, margin ≤ 1) (hmore : StartsPair more)
    (line : Nat) : Between tokens margins more (atPair tokens margins more line) :=
  ⟨line, advance_eq (skipGap_startsPair hmore true) (moveTo_self _) rfl hmargins⟩

/-- A break after a value leads to the next pair. -/
theorem between_break (hmargins : ∀ margin ∈ margins, margin ≤ 1) (hmore : StartsPair more)
    (line column bytes : Nat) :
    Between tokens margins more
      ⟨⟨'\n' :: more, line, column, bytes⟩, tokens, margins, false, none, []⟩ := by
  have hskip : skipGap false (column = 0) false false ('\n' :: more) = (true, more) :=
    skipGap_startsPair hmore true
  have hnext : (Cursor.mk ('\n' :: more) line column bytes).moveTo more =
      ⟨more, line + 1, 0, 0⟩ := Cursor.moveTo_append ['\n'] more line column bytes
  exact ⟨line + 1, advance_eq hskip hnext rfl hmargins⟩

/-- A value starts behind the space after its colon. -/
theorem advance_value {c : Char} {later : List Char} (hgap : isGap c = false) (hcomment : c ≠ '#')
    (line column bytes : Nat) :
    advance ⟨⟨' ' :: c :: later, line, column, bytes⟩, tokens, [1], false, none, []⟩ =
      some ⟨⟨c :: later, line, column + 1, bytes + 1⟩, tokens, [1], false, none, []⟩ := by
  obtain ⟨hspace, htab, hbreak⟩ := isGap_eq_false_iff.mp hgap
  have hskip : skipGap false (column = 0) false false (' ' :: c :: later) =
      (false, c :: later) := by
    have hbreakSpace : isBreak ' ' = false := rfl
    simp [skipGap, hbreakSpace, hspace, htab, hbreak, hcomment]
  have hnext : (Cursor.mk (' ' :: c :: later) line column bytes).moveTo (c :: later) =
      ⟨c :: later, line, column + 1, bytes + 1⟩ :=
    Cursor.moveTo_append [' '] (c :: later) line column bytes
  exact advance_eq hskip hnext rfl (by simp)

/-! ## Scalars by their start -/

section

variable {lexer : Lexer} {later : List Char}

theorem readToken_singleQuote (hrest : lexer.rest = '\'' :: later)
    (hcolumn : 0 < lexer.cursor.column) :
    lexer.readToken = lexer.readQuotedScalar .singleQuoted (readSingleQuoted later) := by
  unfold readToken
  rw [hrest]
  simp [Nat.ne_of_gt hcolumn]

theorem readToken_doubleQuote (hrest : lexer.rest = '"' :: later)
    (hcolumn : 0 < lexer.cursor.column) :
    lexer.readToken = lexer.readQuotedScalar .doubleQuoted (readDoubleQuoted later) := by
  unfold readToken
  rw [hrest]
  simp [Nat.ne_of_gt hcolumn]

theorem readToken_bar (hrest : lexer.rest = '|' :: later) (hcolumn : 0 < lexer.cursor.column)
    (hflow : lexer.outer = []) : lexer.readToken = lexer.readBlockScalar .literal later := by
  unfold readToken
  rw [hrest]
  simp [Nat.ne_of_gt hcolumn, inFlow, hflow]

/-- A dash, a question mark or a colon that starts a word is part of it. -/
theorem startsIndicated_eq_false {c : Char} {word : List Char}
    (h : startsIndicated (c :: word) = false) :
    isIndicator c = false ∨ (c = '-' ∨ c = '?' ∨ c = ':') ∧ ∃ d later, word = d :: later ∧
      isGap d = false := by
  simp only [startsIndicated, Bool.or_eq_false_iff] at h
  obtain ⟨-, h⟩ := h
  split at h
  · next hmark =>
      refine .inr ⟨by simpa [or_assoc] using hmark, ?_⟩
      cases word with
      | nil => cases h
      | cons d later => exact ⟨d, later, rfl, h⟩
  · exact .inl h

/-- What starts plainly is read as a plain scalar. -/
theorem readToken_plain {text : List Char} (hbare : Bare text)
    (hstart : startsIndicated text = false)
    (hrest : lexer.rest = text ++ later) (hflow : lexer.outer = [])
    (hmark : lexer.cursor.column = 0 → startsDocument lexer.rest = false) :
    lexer.readToken = lexer.readPlainScalar := by
  obtain ⟨⟨c, word, rfl, hgap⟩, -, -, -⟩ := hbare
  have hmarks : ∀ mark ∈ ['-', '.'],
      ¬ (lexer.cursor.column = 0 ∧ startsWithMark mark lexer.rest = true) := by
    rintro mark hmem ⟨hcolumn, htrue⟩
    have hboth := hmark hcolumn
    rw [startsDocument, Bool.or_eq_false_iff] at hboth
    rcases List.mem_pair.mp hmem with rfl | rfl
    · cases htrue.symm.trans hboth.1
    · cases htrue.symm.trans hboth.2
  have hdashes := hmarks '-' (by simp)
  have hpoints := hmarks '.' (by simp)
  rw [List.cons_append] at hrest
  unfold readToken
  rw [hrest] at hdashes hpoints ⊢
  simp only [if_neg hdashes, if_neg hpoints]
  rcases startsIndicated_eq_false hstart with hindicator | ⟨hmark, d, word, rfl, hd⟩
  · have hne := hindicator
    simp [isIndicator] at hne
    simp [startsPlain, hne, hgap, hindicator]
  · have hblank : isBlank d = false := by
      rw [isGap, Bool.or_eq_false_iff] at hd
      exact hd.1
    rcases hmark with rfl | rfl | rfl
    · simp [startsPlain, atGap, hd, hblank]
    · simp [startsPlain, atGap, hd, inFlow, hflow]
    · simp [startsPlain, atGap, hd, inFlow, hflow]

end

/-! ## Tokens of a pair -/

/-- A key is read up to its colon, and is a candidate then. -/
theorem readToken_key {key : List Char} (hkey : KeyWord key) (line : Nat) (later : List Char) :
    readToken (atPair tokens margins (key ++ ':' :: ' ' :: later) line) =
      some ⟨⟨':' :: ' ' :: later, line, key.length, Cursor.ofLineAfter Char.utf8Size 0 key⟩,
        tokens.push (.scalar .plain key), margins, false,
        some ⟨tokens.size, line, 0, 0, margins.headD 0 = 1⟩, []⟩ := by
  rw [readToken_plain hkey.bare hkey.notIndicated rfl rfl fun _ => hkey.noMark _]
  unfold readPlainScalar
  simp [atPair, saveCandidate, dropCandidate, inFlow, margin, push, allowKey, readPlain_key hkey]

/-- The candidate is not too far behind at its colon. -/
theorem advance_colon {key : List Char} (hkey : KeyWord key)
    (hmargins : margins = [] ∨ margins = [1])
    (line : Nat) (later : List Char) (required : Bool) (index : Nat) :
    advance ⟨⟨':' :: ' ' :: later, line, key.length, Cursor.ofLineAfter Char.utf8Size 0 key⟩,
        tokens, margins, false, some ⟨index, line, 0, 0, required⟩, []⟩ =
      some ⟨⟨':' :: ' ' :: later, line, key.length, Cursor.ofLineAfter Char.utf8Size 0 key⟩,
        tokens, margins, false, some ⟨index, line, 0, 0, required⟩, []⟩ := by
  have hshort := hkey.short
  refine advance_eq rfl (moveTo_self _) ?_ ?_
  · simp [Candidate.isStale, Candidate.maxBytes, hshort]
  · rcases hmargins with rfl | rfl
    · simp
    · simp

theorem readToken_of_colon {lexer : Lexer} {later : List Char}
    (hrest : lexer.rest = ':' :: ' ' :: later) (hcolumn : lexer.cursor.column ≠ 0) :
    lexer.readToken = lexer.readValue := by
  have hgap : atGap (' ' :: later) = true := rfl
  unfold readToken
  rw [hrest]
  simp [hcolumn, hgap]

/-- The colon makes the candidate a key, and the first one opens the mapping. -/
theorem readToken_colon {key : List Char} (hkey : KeyWord key)
    (hmargins : margins = [] ∨ margins = [1]) (line bytes : Nat) (later : List Char)
    (required : Bool) :
    readToken ⟨⟨':' :: ' ' :: later, line, key.length, bytes⟩,
        tokens.push (.scalar .plain key), margins, false,
        some ⟨tokens.size, line, 0, 0, required⟩, []⟩ =
      some ⟨⟨' ' :: later, line, key.length + 1, bytes + 1⟩,
        tokens ++ (if margins = [] then #[.blockMappingStart] else #[]) ++
          #[.key, .scalar .plain key, .value], [1], false, none, []⟩ := by
  have hcolumn : key.length ≠ 0 := by
    obtain ⟨c, word, hword, -⟩ := hkey.bare.head
    simp [hword]
  have hskip : (Cursor.mk (':' :: ' ' :: later) line key.length bytes).skip 1 =
      ⟨' ' :: later, line, key.length + 1, bytes + 1⟩ :=
    Cursor.skip_append [':'] (' ' :: later) line key.length bytes
  have hkeyToken := insertIdxIfInBounds_append tokens #[.scalar .plain key] .key
  have hstart := insertIdxIfInBounds_append tokens (#[.key] ++ #[.scalar .plain key])
    .blockMappingStart
  rw [← Array.append_assoc] at hstart
  rw [readToken_of_colon rfl hcolumn]
  unfold readValue
  simp only [Array.push_eq_append, hkeyToken, openBlock, inFlow, margin, push, pushMark, allowKey]
  rcases hmargins with rfl | rfl
  · simp only [hstart]
    simpa using hskip
  · have hpair : ((tokens.push .key).push (.scalar .plain key)).push .value =
        tokens ++ #[.key, .scalar .plain key, .value] := by
      apply Array.toList_inj.mp
      simp
    simpa using ⟨hskip, hpair⟩

end Lexer

/-! ## Written values -/

theorem Cursor.ofLineAfter_break {size : Char → Nat} {before : Nat} {taken : List Char}
    (h : taken.getLast?.any isBreak = true) : ofLineAfter size before taken = 0 := by
  rcases List.eq_nil_or_concat' taken with rfl | ⟨front, last, rfl⟩
  · cases h
  · have hlast : isBreak last = true := by simpa using h
    simp [ofLineAfter, hlast]

/--
`written` is read back as a scalar: scanned as the value of a key, with the end of its line, it
gives the token of the scalar, and the next pair follows.
-/
structure Written (written : List Char) (style : Style) (text : List Char) : Prop where
  head : ∃ c later, written = c :: later ∧ isGap c = false ∧ c ≠ '#'
  printable : ∀ c ∈ written, isPrintable c = true
  readToken : ∀ {tokens : Array Token} {more : List Char} (line column bytes : Nat),
    Lexer.StartsPair more → 0 < column → ∃ after,
      Lexer.readToken ⟨⟨written ++ (endingOf written ++ more), line, column, bytes⟩, tokens, [1],
        false, none, []⟩ = some after ∧
      Lexer.Between (tokens.push (.scalar style text)) [1] more after

variable {text : List Char}

theorem any_getLast?_endingOf (written : List Char) :
    (written ++ endingOf written).getLast?.any isBreak = true := by
  rw [endingOf]
  split
  · next hbreak => rwa [List.append_nil]
  · rw [List.getLast?_concat]
    rfl

theorem endingOf_writeLiteral (hne : text ≠ []) : endingOf (writeLiteral text) = endingOf text := by
  rw [endingOf, getLast?_writeLiteral hne, endingOf]

theorem endingOf_of_last {written : List Char} {c : Char} (hlast : written.getLast? = some c)
    (hc : isBreak c = false) : endingOf written = ['\n'] := by
  rw [endingOf, hlast]
  simp [hc]

theorem endingOf_of_unbroken (h : ∀ c ∈ text, isBreak c = false) : endingOf text = ['\n'] := by
  rcases List.eq_nil_or_concat' text with rfl | ⟨front, last, rfl⟩
  · rfl
  · have hlast : isBreak last = false := h last (by simp)
    simp [endingOf, hlast]

theorem Bare.isBreak (h : Bare text) : ∀ c ∈ text, isBreak c = false := by
  intro c hc
  rw [← Bool.not_eq_true]
  intro hbreak
  have hspace := h.gap c hc (by simp [isGap, hbreak])
  rw [hspace] at hbreak
  cases hbreak

theorem written_plain (hbare : Bare text) (hstart : startsIndicated text = false)
    (hprintable : ∀ c ∈ text, isPrintable c = true) : Written text .plain text := by
  refine ⟨?_, hprintable, ?_⟩
  · obtain ⟨c, later, rfl, hc⟩ := hbare.head
    have hcomment := hbare.head?_ne_comment []
    exact ⟨c, later, rfl, hc, by simpa using hcomment⟩
  · intro tokens more line column bytes hmore hcolumn
    rw [endingOf_of_unbroken hbare.isBreak, List.singleton_append]
    obtain ⟨line', hread⟩ : ∃ line',
        readPlain false 1 ⟨text ++ '\n' :: more, line, column, bytes⟩ =
          some ⟨text, ⟨more, line', 0, 0⟩, true⟩ := readPlain_value hbare hmore.head?_gap hcolumn
    rw [Lexer.readToken_plain hbare hstart rfl rfl
      (fun hzero => absurd hzero (Nat.ne_of_gt hcolumn))]
    refine ⟨_, ?_, Lexer.between_atPair (by simp) hmore line'⟩
    unfold Lexer.readPlainScalar
    simp [Lexer.saveCandidate, Lexer.inFlow, Lexer.margin, Lexer.push, Lexer.allowKey, hread,
      Lexer.atPair]

/-- Between quotes a text is written if it is read up to the closing one. -/
theorem written_quoted {quote : Char} {body : List Char} {style : Style}
    {read : List Char → Option (List Piece × List Char)}
    (hgap : isGap quote = false) (hcomment : quote ≠ '#')
    (hprintable : ∀ c ∈ quote :: body, isPrintable c = true)
    (hlast : (quote :: body).getLast? = some quote)
    (htoken : ∀ {lexer : Lexer} {later : List Char}, lexer.rest = quote :: later →
      0 < lexer.cursor.column → lexer.readToken = lexer.readQuotedScalar style (read later))
    (hread : ∀ {rest : List Char}, rest.head? ≠ some '\'' →
      ∃ pieces, read (body ++ rest) = some (pieces, rest) ∧ fold pieces = text) :
    Written (quote :: body) style text := by
  have hbreak : isBreak quote = false := (isGap_eq_false_iff.mp hgap).2.2
  refine ⟨⟨quote, body, rfl, hgap, hcomment⟩, hprintable, ?_⟩
  intro tokens more line column bytes hmore hcolumn
  have hend : ('\n' :: more).head? ≠ some '\'' := by simp
  obtain ⟨pieces, hpieces, hfold⟩ := hread hend
  rw [endingOf_of_last hlast hbreak, List.singleton_append, List.cons_append,
    htoken rfl hcolumn, hpieces]
  have hnext := Cursor.moveTo_append (quote :: body) ('\n' :: more) line column bytes
  rw [List.cons_append] at hnext
  unfold Lexer.readQuotedScalar
  simp only [Lexer.saveCandidate, Bool.false_eq_true, if_false, Option.bind_some, bind, hfold,
    Lexer.pushUpTo, Lexer.allowKey, Lexer.push, hnext]
  exact ⟨_, rfl, Lexer.between_break (by simp) hmore _ _ _⟩

theorem written_singleQuoted (hprintable : ∀ c ∈ text, isPrintable c = true) (hline : '\n' ∉ text)
    (htrailing : hasTrailingSpace text = false) (hleading : hasLeadingSpace text = false) :
    Written (writeSingleQuoted text) .singleQuoted text := by
  have hbody := getLast?_writeSingleQuotedAfter text false
  refine written_quoted rfl (by decide) ?_ ?_ Lexer.readToken_singleQuote
    (readSingleQuoted_write hprintable hline htrailing hleading)
  · exact List.forall_mem_cons.mpr ⟨by decide, isPrintable_writeSingleQuotedAfter hprintable false⟩
  · rw [List.getLast?_cons, hbody]
    rfl

theorem written_doubleQuoted (text : List Char) :
    Written (writeDoubleQuoted text) .doubleQuoted text := by
  have hprintable := isPrintable_writeDoubleQuoted text
  rw [writeDoubleQuoted, List.cons_append] at hprintable ⊢
  refine written_quoted rfl (by decide) hprintable ?_ Lexer.readToken_doubleQuote ?_
  · rw [← List.cons_append, List.getLast?_concat]
  · intro rest _
    rw [List.append_assoc]
    exact readDoubleQuoted_write text rest

theorem written_literal (hne : text ≠ []) (hprintable : ∀ c ∈ text, isPrintable c = true) :
    Written (writeLiteral text) .literal text := by
  refine ⟨⟨'|', _, writeLiteral_eq text, rfl, by decide⟩, isPrintable_writeLiteral hprintable, ?_⟩
  intro tokens more line column bytes hmore hcolumn
  have htab : text.head? ≠ some '\t' := by
    intro hhead
    exact (ne_of_isPrintable (hprintable _ (List.mem_of_head? hhead))).1 rfl
  have hread := readBlock_write hne htab hmore.head?_gap
  have hending := endingOf_writeLiteral hne
  have hsource : writeLiteral text ++ (endingOf text ++ more) =
      '|' :: (headerOf text ++ '\n' :: (indentLines true text ++ (endingOf text ++ more))) := by
    rw [writeLiteral_eq]
    simp
  have hbreak := any_getLast?_endingOf (writeLiteral text)
  have hnext := Cursor.moveTo_append (writeLiteral text ++ endingOf (writeLiteral text)) more line
    column bytes
  rw [Cursor.ofLineAfter_break hbreak, Cursor.ofLineAfter_break hbreak, hending, List.append_assoc,
    hsource] at hnext
  have hstyle : decide (Style.literal = Style.folded) = false := rfl
  rw [hending, hsource, Lexer.readToken_bar rfl hcolumn rfl]
  unfold Lexer.readBlockScalar
  simp only [Lexer.dropCandidate, Option.any_none, Bool.false_eq_true, if_false, Option.bind_some,
    bind, Lexer.margin, List.headD_cons, hstyle, hread, Lexer.pushUpTo,
    Lexer.allowKey, Lexer.push, hnext]
  exact ⟨_, rfl, Lexer.between_atPair (by simp) hmore _⟩

/-! ## Written texts -/

theorem written_writeText (text : List Char) : Written (writeText text) (styleOf text) text := by
  have hkept (h : ¬ (!text.all isPrintable || hasTrailingSpace text) = true) :
      (∀ c ∈ text, isPrintable c = true) ∧ hasTrailingSpace text = false := by
    simpa using h
  unfold writeText
  fun_cases styleOf text with
  | case1 => exact written_doubleQuoted text
  | case2 => exact written_doubleQuoted text
  | case3 hquoted hlines =>
      have hne : text ≠ [] := by
        rintro rfl
        cases hlines
      exact written_literal hne (hkept hquoted).1
  | case4 => exact written_doubleQuoted text
  | case5 hquoted _ _ hplain =>
      obtain ⟨hbare, hstart⟩ := bare_of_isPlain hplain
      exact written_plain hbare hstart (hkept hquoted).1
  | case6 hquoted hlines hleading =>
      obtain ⟨hprintable, htrailing⟩ := hkept hquoted
      exact written_singleQuoted hprintable (by simpa using hlines) htrailing
        (Bool.eq_false_iff.mpr hleading)

theorem written_toDigits (value : Nat) :
    Written (Nat.toDigits 10 value) .plain (Nat.toDigits 10 value) := by
  have hdigits : ∀ c ∈ Nat.toDigits 10 value, isWordChar c = true ∧ c ≠ '-' :=
    fun _ hc => isWordChar_of_isDigit (Text.isDigit_of_mem_toDigits hc)
  obtain ⟨hbare, hstart⟩ := bare_of_isWordChar Nat.toDigits_ne_nil hdigits
  exact written_plain hbare hstart fun c hc => isPrintable_of_isWordChar (hdigits c hc).1

end FeatureFlags.Yaml
