import FeatureFlags.Proofs.Characters
import FeatureFlags.Proofs.Lines

/-!
# Plain texts

A text without quotes is read word by word. No word of it starts a comment or ends in a colon, so
that it ends only with its line (`readPlain_value`), or before the colon of a key
(`readPlain_key`).
-/

namespace FeatureFlags.Yaml

variable {text rest : List Char}

/-! ## Words -/

theorem misplacedColon_eq_false (text : List Char) : misplacedColon false text = false := by
  unfold misplacedColon
  split <;> rfl

/-- A text without indicators is cut into words by its gaps alone. -/
theorem takeWord_append {afterGap : Bool} (h : hasIndicator afterGap text = false)
    (hrest : endsWord false rest = true) :
    takeWord false (text ++ rest) = text.takeWhile (!isGap ·) := by
  induction text generalizing afterGap with
  | nil =>
      cases rest with
      | nil => rfl
      | cons c rest => rw [List.nil_append, takeWord, if_pos hrest, List.takeWhile_nil]
  | cons c text ih =>
      rw [hasIndicator, Bool.or_eq_false_iff, Bool.or_eq_false_iff] at h
      obtain ⟨⟨hcolon, -⟩, htext⟩ := h
      rw [List.cons_append, takeWord, List.takeWhile_cons]
      by_cases hc : isGap c = true
      · simp [endsWord, hc]
      · have hnot : endsWord false (c :: (text ++ rest)) = false := by
          have hgap : (c = ':' && atGap (text ++ rest)) = false := by
            cases text with
            | nil => simp_all [atGap]
            | cons d text => exact hcolon
          simpa [endsWord, hc] using hgap
        rw [hnot, if_neg Bool.false_ne_true, ih htext]
        simp [hc]

/-- What follows gaps is at the start of a word. -/
theorem hasIndicator_of_append {before : List Char} {afterGap : Bool}
    (h : hasIndicator afterGap (before ++ text) = false) :
    ∃ afterGap', hasIndicator afterGap' text = false := by
  induction before generalizing afterGap with
  | nil => exact ⟨afterGap, h⟩
  | cons c before ih =>
      rw [List.cons_append, hasIndicator, Bool.or_eq_false_iff] at h
      exact ih h.2

theorem hasIndicator_of_spaces {spaces : List Char} (hne : spaces ≠ [])
    (hspaces : ∀ c ∈ spaces, isGap c = true) {afterGap : Bool}
    (h : hasIndicator afterGap (spaces ++ text) = false) : hasIndicator true text = false := by
  induction spaces generalizing afterGap with
  | nil => exact absurd rfl hne
  | cons c spaces ih =>
      obtain ⟨hc, hspaces⟩ := List.forall_mem_cons.mp hspaces
      rw [List.cons_append, hasIndicator, Bool.or_eq_false_iff, hc] at h
      cases spaces with
      | nil => exact h.2
      | cons d spaces => exact ih (List.cons_ne_nil d spaces) hspaces h.2

/-! ## Gaps -/

theorem ofList_of_unbroken {spaces : List Char} (h : ∀ c ∈ spaces, isBreak c = false) :
    Gap.ofList spaces = .blanks spaces := by
  suffices hfold : ∀ before, spaces.foldl Gap.add (.blanks before) = .blanks (before ++ spaces) from
    hfold []
  intro before
  induction spaces generalizing before with
  | nil => rw [List.foldl_nil, List.append_nil]
  | cons c spaces ih =>
      obtain ⟨hc, hspaces⟩ := List.forall_mem_cons.mp h
      rw [List.foldl_cons, Gap.add, hc, if_neg Bool.false_ne_true, ih hspaces, List.append_assoc,
        List.singleton_append]

theorem hasTabInMargin_of_unbroken {spaces : List Char} (h : ∀ c ∈ spaces, isBreak c = false)
    (margin : Nat) : hasTabInMargin margin spaces = false := by
  have hdrop : spaces.dropWhile (!isBreak ·) = [] := by simpa using h
  unfold hasTabInMargin
  rw [hdrop]
  rfl

/-! ## Reading a word -/

namespace Cursor

theorem skip_append (taken rest : List Char) (line column bytes : Nat) :
    (Cursor.mk (taken ++ rest) line column bytes).skip taken.length =
      ⟨rest, line + taken.countP isBreak, ofLineAfter (fun _ => 1) column taken,
        ofLineAfter Char.utf8Size bytes taken⟩ := by
  simp [skip, after]

end Cursor

variable {margin line column bytes : Nat}

/-- A word is read with the gap before it, and the gap after it decides how reading goes on. -/
theorem readPlainFrom_word {word spaces : List Char} {cursor next : Cursor}
    (hcursor : cursor = ⟨word ++ (spaces ++ rest), line, column, bytes⟩)
    (hword : takeWord false cursor.rest = word) (hne : word ≠ [])
    (hstart : endsPlain cursor = false) (hspaces : ∀ c ∈ spaces, isGap c = true)
    (hrest : rest.head?.any isGap = false) (htab : hasTabInMargin margin spaces = false)
    (hnext : (cursor.skip word.length).skip spaces.length = next) (read : List Char) (gap : Gap) :
    readPlainFrom false margin read gap cursor =
      if spaces = [] ∨ next.column < margin then
        some ⟨read ++ gap.text ++ word, next, (Gap.ofList spaces).isBroken⟩
      else readPlainFrom false margin (read ++ gap.text ++ word) (Gap.ofList spaces) next := by
  have hdrop : cursor.rest.drop word.length = spaces ++ rest := by
    rw [hcursor]
    exact List.drop_left
  have htake := Text.takeWhile_append_of_head? hspaces hrest
  rw [readPlainFrom]
  simp only [hword, hdrop, htake, hnext, misplacedColon_eq_false, htab, hne, hstart]
  simp

theorem ofLineAfter_pos {size : Char → Nat} {before : Nat} {taken : List Char}
    (h : ∀ c ∈ taken, isBreak c = false) (hpos : 0 < before) :
    0 < Cursor.ofLineAfter size before taken := by
  rw [Cursor.ofLineAfter_of_unbroken h]
  omega

theorem ofLineAfter_ones {size : Char → Nat} {before : Nat} {taken : List Char}
    (h : ∀ c ∈ taken, isBreak c = false) (hsize : ∀ c ∈ taken, size c = 1) :
    Cursor.ofLineAfter size before taken = before + taken.length := by
  rw [Cursor.ofLineAfter_of_unbroken h]
  congr 1
  clear h
  induction taken with
  | nil => rfl
  | cons c taken ih =>
      obtain ⟨hc, hsize⟩ := List.forall_mem_cons.mp hsize
      rw [List.foldr_cons, hc, ih hsize, List.length_cons, Nat.add_comm]

/-! ## Reading a value -/

/-- A text of words, none of which means anything, with single spaces or more between them. -/
structure Bare (text : List Char) : Prop where
  head : ∃ c later, text = c :: later ∧ isGap c = false
  indicator : hasIndicator true text = false
  gap : ∀ c ∈ text, isGap c = true → c = ' '
  last : text.getLast? ≠ some ' '

theorem Bare.head?_ne_comment (h : Bare text) (rest : List Char) :
    (text ++ rest).head? ≠ some '#' := by
  obtain ⟨⟨c, later, rfl, -⟩, hindicator, -, -⟩ := h
  rw [hasIndicator, Bool.or_eq_false_iff, Bool.or_eq_false_iff] at hindicator
  simpa using hindicator.1.2

theorem Bare.head?_gap (h : Bare text) (rest : List Char) :
    (text ++ rest).head?.any isGap = false := by
  obtain ⟨⟨c, later, rfl, hc⟩, -, -, -⟩ := h
  exact hc

/-- A bare text is a word, or a word, spaces and a bare text. -/
theorem Bare.exists_word (h : Bare text) :
    ∃ word after, text = word ++ after ∧ word ≠ [] ∧ (∀ c ∈ word, isGap c = false) ∧
      (after = [] ∨ ∃ spaces later, after = spaces ++ later ∧ spaces ≠ [] ∧
        (∀ c ∈ spaces, c = ' ') ∧ Bare later) := by
  obtain ⟨⟨c, later, htext, hc⟩, hindicator, hgap, hlast⟩ := h
  obtain ⟨word, after, rfl, hword, hafter⟩ := exists_span (!isGap ·) text
  have hne : word ≠ [] := by
    rintro rfl
    rcases hafter with rfl | ⟨d, after, rfl, hd⟩
    · cases htext
    · cases htext
      simp [hc] at hd
  refine ⟨word, after, rfl, hne, by simpa using hword, ?_⟩
  rcases hafter with rfl | ⟨d, after, rfl, hd⟩
  · exact .inl rfl
  · right
    obtain ⟨spaces, later, hsplit, hspaces, hlater⟩ := exists_span isGap (d :: after)
    rw [hsplit] at hindicator hgap hlast
    have hspacesNe : spaces ≠ [] := by
      rintro rfl
      rcases hlater with rfl | ⟨e, later, rfl, he⟩
      · cases hsplit
      · cases hsplit
        simp [he] at hd
    have honly : ∀ c ∈ spaces, c = ' ' := fun c hc =>
      hgap c (List.mem_append_right _ (List.mem_append_left _ hc)) (hspaces c hc)
    refine ⟨spaces, later, hsplit, hspacesNe, honly, ?_⟩
    rcases hlater with rfl | ⟨e, later, rfl, he⟩
    · rw [List.append_nil, List.getLast?_append_of_ne_nil _ hspacesNe,
        List.getLast?_eq_some_getLast hspacesNe] at hlast
      exact absurd (congrArg some (honly _ (List.getLast_mem hspacesNe))) hlast
    · obtain ⟨afterGap, hlaterIndicator⟩ := hasIndicator_of_append hindicator
      refine ⟨⟨e, later, rfl, he⟩, hasIndicator_of_spaces hspacesNe hspaces hlaterIndicator,
        fun c hc => hgap c (List.mem_append_right _ (List.mem_append_right _ hc)), ?_⟩
      rwa [← List.append_assoc, List.getLast?_append_of_ne_nil _ (List.cons_ne_nil e later)]
        at hlast

theorem endsPlain_of_bare (h : Bare text) (hcolumn : 0 < column) (rest : List Char) :
    endsPlain ⟨text ++ rest, line, column, bytes⟩ = false := by
  unfold endsPlain
  rw [Bool.or_eq_false_iff, decide_eq_false_iff_not]
  exact ⟨by simp [Nat.ne_of_gt hcolumn], h.head?_ne_comment rest⟩

/-- The first word of a bare text is read before what follows it. -/
theorem Bare.takeWord {word after : List Char} (h : Bare (word ++ after))
    (hword : ∀ c ∈ word, isGap c = false) (hafter : after.head?.any (!isGap ·) = false)
    (hrest : endsWord false rest = true) : takeWord false (word ++ after ++ rest) = word := by
  rw [takeWord_append h.indicator hrest]
  exact Text.takeWhile_append_of_head? (by simpa using hword) hafter

/-- The last word ends the scalar with its line, since the margin is beyond the next line's start. -/
theorem readPlainFrom_last {word more : List Char} (h : Bare word)
    (hword : ∀ c ∈ word, isGap c = false) (hmore : more.head?.any isGap = false)
    (hcolumn : 0 < column) (read : List Char) (gap : Gap) :
    ∃ line', readPlainFrom false 1 read gap ⟨word ++ '\n' :: more, line, column, bytes⟩ =
      some ⟨read ++ gap.text ++ word, ⟨more, line', 0, 0⟩, true⟩ := by
  have hne : word ≠ [] := by
    obtain ⟨c, later, rfl, -⟩ := h.head
    exact List.cons_ne_nil c later
  have htake : takeWord false (word ++ '\n' :: more) = word := by
    have hbare : Bare (word ++ []) := by rwa [List.append_nil]
    have htake : takeWord false (word ++ [] ++ '\n' :: more) = word := hbare.takeWord hword rfl rfl
    rwa [List.append_nil] at htake
  obtain ⟨line', hnext⟩ : ∃ line', ((Cursor.mk (word ++ (['\n'] ++ more)) line column
      bytes).skip word.length).skip ['\n'].length = ⟨more, line', 0, 0⟩ := by
    rw [Cursor.skip_append, Cursor.skip_append]
    exact ⟨_, rfl⟩
  have htab : hasTabInMargin 1 ['\n'] = false := rfl
  have hread := readPlainFrom_word rfl htake hne (endsPlain_of_bare h hcolumn _)
    (by simp [isGap, isBreak]) hmore htab hnext read gap
  refine ⟨line', hread.trans ?_⟩
  rw [if_pos (.inr Nat.one_pos)]
  rfl

/-- Behind a word and spaces, the words after them are read. -/
theorem readPlainFrom_next {word spaces later : List Char} (h : Bare (word ++ (spaces ++ later)))
    (hne : word ≠ []) (hword : ∀ c ∈ word, isGap c = false) (hspacesNe : spaces ≠ [])
    (hspaces : ∀ c ∈ spaces, c = ' ') (hlater : Bare later) (more : List Char)
    (hcolumn : 0 < column) (read : List Char) (gap : Gap) :
    ∃ line' column' bytes', 0 < column' ∧
      readPlainFrom false 1 read gap
          ⟨word ++ (spaces ++ later) ++ '\n' :: more, line, column, bytes⟩ =
        readPlainFrom false 1 (read ++ gap.text ++ word) (.blanks spaces)
          ⟨later ++ '\n' :: more, line', column', bytes'⟩ := by
  have hunbroken : ∀ c ∈ word, isBreak c = false := fun c hc =>
    (isGap_eq_false_iff.mp (hword c hc)).2.2
  have hgaps : ∀ c ∈ spaces, isGap c = true := by
    intro c hc
    rw [hspaces c hc]
    rfl
  have hspacesUnbroken : ∀ c ∈ spaces, isBreak c = false := by
    intro c hc
    rw [hspaces c hc]
    rfl
  have hafter : (spaces ++ later).head?.any (!isGap ·) = false := by
    obtain ⟨c, spaces, rfl⟩ := List.exists_cons_of_ne_nil hspacesNe
    rw [hspaces c List.mem_cons_self]
    rfl
  have htake : takeWord false (word ++ (spaces ++ later) ++ '\n' :: more) = word :=
    h.takeWord hword hafter rfl
  have hstart : endsPlain ⟨word ++ (spaces ++ later) ++ '\n' :: more, line, column, bytes⟩ = false :=
    endsPlain_of_bare h hcolumn _
  have hsource : word ++ (spaces ++ later) ++ '\n' :: more =
      word ++ (spaces ++ (later ++ '\n' :: more)) := by simp
  rw [hsource] at htake hstart ⊢
  obtain ⟨line', bytes', hnext⟩ : ∃ line' bytes', ((Cursor.mk (word ++ (spaces ++ (later ++
      '\n' :: more))) line column bytes).skip word.length).skip spaces.length =
        ⟨later ++ '\n' :: more, line', Cursor.ofLineAfter (fun _ => 1)
          (Cursor.ofLineAfter (fun _ => 1) column word) spaces, bytes'⟩ := by
    rw [Cursor.skip_append, Cursor.skip_append]
    exact ⟨_, _, rfl⟩
  have hpos : 0 < Cursor.ofLineAfter (fun _ => 1)
      (Cursor.ofLineAfter (fun _ => 1) column word) spaces :=
    ofLineAfter_pos hspacesUnbroken (ofLineAfter_pos hunbroken hcolumn)
  refine ⟨line', _, bytes', hpos, ?_⟩
  rw [readPlainFrom_word rfl htake hne hstart hgaps (hlater.head?_gap _)
    (hasTabInMargin_of_unbroken hspacesUnbroken 1) hnext read gap,
    if_neg (not_or.mpr ⟨hspacesNe, Nat.not_lt.mpr hpos⟩), ofList_of_unbroken hspacesUnbroken]

theorem readPlainFrom_value (h : Bare text) {more : List Char}
    (hmore : more.head?.any isGap = false) (hcolumn : 0 < column) (read : List Char) (gap : Gap) :
    ∃ line', readPlainFrom false 1 read gap ⟨text ++ '\n' :: more, line, column, bytes⟩ =
      some ⟨read ++ gap.text ++ text, ⟨more, line', 0, 0⟩, true⟩ := by
  induction hlength : text.length using Nat.strong_induction_on
    generalizing text line column bytes read gap with
  | h length ih =>
      obtain ⟨word, after, rfl, hne, hword, hafter⟩ := h.exists_word
      rcases hafter with rfl | ⟨spaces, later, rfl, hspacesNe, hspaces, hlater⟩
      · rw [List.append_nil] at h ⊢
        exact readPlainFrom_last h hword hmore hcolumn read gap
      · obtain ⟨line', column', bytes', hcolumn', hnext⟩ :=
          readPlainFrom_next h hne hword hspacesNe hspaces hlater more hcolumn read gap
        have hlt : later.length < length := by
          simp only [List.length_append] at hlength
          have := List.length_pos_of_ne_nil hspacesNe
          omega
        obtain ⟨line'', hrest⟩ := ih _ hlt hlater hcolumn' (read ++ gap.text ++ word)
          (.blanks spaces) rfl
        refine ⟨line'', (hnext.trans hrest).trans ?_⟩
        simp [Gap.text]

theorem readPlain_value (h : Bare text) {more : List Char} (hmore : more.head?.any isGap = false)
    (hcolumn : 0 < column) :
    ∃ line', readPlain false 1 ⟨text ++ '\n' :: more, line, column, bytes⟩ =
      some ⟨text, ⟨more, line', 0, 0⟩, true⟩ :=
  readPlainFrom_value h hmore hcolumn [] .empty

/-! ## Reading a key -/

/-- A single word that is read before its colon, at the start of a line as well. -/
structure KeyWord (key : List Char) : Prop where
  bare : Bare key
  word : ∀ c ∈ key, isGap c = false
  printable : ∀ c ∈ key, isPrintable c = true
  noMark : ∀ rest, startsDocument (key ++ rest) = false
  notIndicated : startsIndicated key = false
  short : Cursor.ofLineAfter Char.utf8Size 0 key ≤ 1024

theorem readPlain_key {key : List Char} (h : KeyWord key) (margin line : Nat) (more : List Char) :
    readPlain false margin ⟨key ++ ':' :: ' ' :: more, line, 0, 0⟩ =
      some ⟨key, ⟨':' :: ' ' :: more, line, key.length,
        Cursor.ofLineAfter Char.utf8Size 0 key⟩, false⟩ := by
  have hunbroken : ∀ c ∈ key, isBreak c = false := fun c hc =>
    (isGap_eq_false_iff.mp (h.word c hc)).2.2
  obtain ⟨c, later, hkey, -⟩ := h.bare.head
  have hne : key ≠ [] := by
    rw [hkey]
    exact List.cons_ne_nil c later
  have htake : takeWord false (key ++ ':' :: ' ' :: more) = key := by
    rw [takeWord_append h.bare.indicator rfl]
    exact List.takeWhile_eq_self_iff.mpr (by simpa using h.word)
  have hstart : endsPlain ⟨key ++ ':' :: ' ' :: more, line, 0, 0⟩ = false := by
    unfold endsPlain
    rw [Bool.or_eq_false_iff, decide_eq_false_iff_not]
    exact ⟨by simp [h.noMark], h.bare.head?_ne_comment _⟩
  have hline : key.countP isBreak = 0 := List.countP_eq_zero.mpr (by simpa using hunbroken)
  have hcolumn : Cursor.ofLineAfter (fun _ => 1) 0 key = key.length := by
    rw [ofLineAfter_ones hunbroken fun _ _ => rfl, Nat.zero_add]
  have hnext : ((Cursor.mk (key ++ ':' :: ' ' :: more) line 0 0).skip key.length).skip 0 =
      ⟨':' :: ' ' :: more, line, key.length, Cursor.ofLineAfter Char.utf8Size 0 key⟩ := by
    rw [Cursor.skip_append, hline, hcolumn]
    rfl
  have htab : hasTabInMargin margin [] = false := rfl
  have hread := readPlainFrom_word rfl htake hne hstart (List.forall_mem_nil _) rfl htab hnext
    [] .empty
  rw [if_pos (.inl rfl)] at hread
  exact hread

/-! ## Which texts are read plainly -/

theorem bare_of_isPlain (h : isPlain text = true) : Bare text ∧ startsIndicated text = false := by
  simp only [isPlain, Bool.and_eq_true, Bool.not_eq_true', List.all_eq_true, decide_eq_true_eq] at h
  obtain ⟨⟨⟨⟨⟨hambiguous, hstart⟩, hindicator⟩, hchars⟩, hhead⟩, hlast⟩ := h
  have hgap : ∀ c ∈ text, isGap c = true → c = ' ' := by
    intro c hc hgap
    obtain ⟨hprintable, hbreak⟩ := hchars c hc
    by_contra hspace
    rw [isGap_eq_false_iff.mpr ⟨hspace, (ne_of_isPrintable hprintable).1, hbreak⟩] at hgap
    cases hgap
  refine ⟨⟨?_, hindicator, hgap, hlast⟩, hstart⟩
  cases text with
  | nil => cases hambiguous
  | cons c later =>
      refine ⟨c, later, rfl, ?_⟩
      rw [← Bool.not_eq_true]
      intro hc
      exact hhead (congrArg some (hgap c List.mem_cons_self hc))

theorem hasIndicator_eq_false (h : ∀ c ∈ text, c ≠ ':' ∧ c ≠ '#') (afterGap : Bool) :
    hasIndicator afterGap text = false := by
  induction text generalizing afterGap with
  | nil => rfl
  | cons c text ih =>
      obtain ⟨⟨hcolon, hcomment⟩, htext⟩ := List.forall_mem_cons.mp h
      rw [hasIndicator, ih htext]
      simp [hcolon, hcomment]

/-- A text of such characters is a word. -/
theorem bare_of_word (hne : text ≠ []) (hgap : ∀ c ∈ text, isGap c = false)
    (h : ∀ c ∈ text, c ≠ ':' ∧ c ≠ '#') : Bare text := by
  obtain ⟨c, later, rfl⟩ := List.exists_cons_of_ne_nil hne
  refine ⟨⟨c, later, rfl, hgap c List.mem_cons_self⟩, hasIndicator_eq_false h true, ?_, ?_⟩
  · intro d hd htrue
    cases (hgap d hd).symm.trans htrue
  · rw [List.getLast?_eq_some_getLast hne]
    intro hspace
    have hlast := hgap _ (List.getLast_mem hne)
    rw [Option.some.inj hspace] at hlast
    cases hlast

theorem startsIndicated_cons {c : Char} {later : List Char} (hdash : c ≠ '-') (hpoint : c ≠ '.')
    (hquestion : c ≠ '?') (hcolon : c ≠ ':') (h : isIndicator c = false) :
    startsIndicated (c :: later) = false := by
  have hdashes : "---".toList = ['-', '-', '-'] := rfl
  have hpoints : "...".toList = ['.', '.', '.'] := rfl
  unfold startsIndicated
  rw [hdashes, hpoints]
  simp [List.isPrefixOf, hdash.symm, hpoint.symm, hdash, hquestion, hcolon, h]

/-- Letters, digits and underscores are read plainly. -/
theorem bare_of_isWordChar (hne : text ≠ []) (h : ∀ c ∈ text, isWordChar c = true ∧ c ≠ '-') :
    Bare text ∧ startsIndicated text = false := by
  constructor
  · exact bare_of_word hne (fun c hc => isGap_of_isWordChar (h c hc).1)
      fun c hc => ⟨ne_of_isWordChar (h c hc).1 rfl, ne_of_isWordChar (h c hc).1 rfl⟩
  · obtain ⟨c, later, rfl⟩ := List.exists_cons_of_ne_nil hne
    obtain ⟨hc, hdash⟩ := h c List.mem_cons_self
    exact startsIndicated_cons hdash (ne_of_isWordChar hc rfl) (ne_of_isWordChar hc rfl)
      (ne_of_isWordChar hc rfl) (isIndicator_of_isWordChar hc hdash)

theorem keyWord_of_isWordChar {key : List Char} (hne : key ≠ []) (hlength : key.length ≤ 1024)
    (h : ∀ c ∈ key, isWordChar c = true ∧ c ≠ '-') : KeyWord key := by
  obtain ⟨hbare, hstart⟩ := bare_of_isWordChar hne h
  have hword : ∀ c ∈ key, isGap c = false := fun c hc => isGap_of_isWordChar (h c hc).1
  refine ⟨hbare, hword, fun c hc => isPrintable_of_isWordChar (h c hc).1, ?_, hstart, ?_⟩
  · intro rest
    obtain ⟨c, later, rfl⟩ := List.exists_cons_of_ne_nil hne
    obtain ⟨hc, hdash⟩ := h c List.mem_cons_self
    exact startsDocument_of_ne hdash (ne_of_isWordChar hc rfl) _
  · have hunbroken : ∀ c ∈ key, isBreak c = false := fun c hc =>
      (isGap_eq_false_iff.mp (hword c hc)).2.2
    rw [ofLineAfter_ones hunbroken fun c hc => utf8Size_of_isWordChar (h c hc).1, Nat.zero_add]
    exact hlength

end FeatureFlags.Yaml
