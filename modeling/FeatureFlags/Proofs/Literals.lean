import FeatureFlags.Proofs.Quoting

/-!
# Literal blocks

A text with lines is written as these lines, indented by two spaces, and its header says what
reading could not tell: how deep the lines are indented if the text starts with a space or a break,
and how many of its breaks at the end are its own. Reading gives the text back (`readBlock_write`).
-/

namespace FeatureFlags.Yaml

variable {text more : List Char}

/-! ## Lines -/

theorem indentLines_breaks {breaks : List Char} (h : ∀ c ∈ breaks, isBreak c = true)
    (text : List Char) : indentLines true (breaks ++ text) = breaks ++ indentLines true text := by
  induction breaks with
  | nil => rfl
  | cons c breaks ih =>
      obtain ⟨hc, hbreaks⟩ := List.forall_mem_cons.mp h
      rw [List.cons_append, indentLines, if_pos hc, ih hbreaks, List.cons_append]

theorem indentLines_line {line : List Char} (h : ∀ c ∈ line, isBreak c = false)
    (text : List Char) : indentLines false (line ++ text) = line ++ indentLines false text := by
  induction line with
  | nil => rfl
  | cons c line ih =>
      obtain ⟨hc, hline⟩ := List.forall_mem_cons.mp h
      rw [List.cons_append, indentLines, hc, if_neg Bool.false_ne_true, if_neg Bool.false_ne_true,
        ih hline, List.cons_append]

theorem indentLines_start {c : Char} (hc : isBreak c = false) (text : List Char) :
    indentLines true (c :: text) = ' ' :: ' ' :: indentLines false (c :: text) := by
  simp [indentLines, hc]

/-! ## Indentation -/

theorem skipIndentation_breaks {breaks : List Char} (h : ∀ c ∈ breaks, isBreak c = true)
    (limit : Option Nat) (before : List Char) (widest : Nat) (text : List Char) :
    skipIndentation limit before 0 widest (breaks ++ text) =
      skipIndentation limit (before ++ breaks) 0 widest text := by
  induction breaks generalizing before with
  | nil => rw [List.nil_append, List.append_nil]
  | cons c breaks ih =>
      obtain ⟨hc, hbreaks⟩ := List.forall_mem_cons.mp h
      have hspace : c ≠ ' ' := by
        rintro rfl
        cases hc
      have htab : c ≠ '\t' := by
        rintro rfl
        cases hc
      rw [List.cons_append, skipIndentation]
      simp only [hspace, htab, hc, decide_false, Bool.and_false, Bool.false_eq_true, if_false,
        if_true, Nat.max_zero]
      rw [ih hbreaks, List.append_assoc, List.singleton_append]

/-- Nothing is skipped before a word, nor at the end. -/
theorem skipIndentation_stop (hmore : more.head?.any isGap = false) (limit : Option Nat)
    (breaks : List Char) (column widest : Nat) :
    skipIndentation limit breaks column widest more =
      some ⟨breaks, more, column, max widest column⟩ := by
  cases more with
  | nil => rfl
  | cons c more =>
      have hgap : isGap c = false := hmore
      obtain ⟨hspace, htab, hbreak⟩ := isGap_eq_false_iff.mp hgap
      simp [skipIndentation, hspace, htab, hbreak]

/-- Where the depth is known, a line is found behind its two spaces, whatever it starts with. -/
theorem skipIndentation_line {breaks : List Char} (h : ∀ c ∈ breaks, isBreak c = true) {c : Char}
    (hc : isBreak c = false) (text rest : List Char) :
    skipIndentation (some 2) [] 0 0 (indentLines true (breaks ++ c :: text) ++ rest) =
      some ⟨breaks, indentLines false (c :: text) ++ rest, 2, 2⟩ := by
  rw [indentLines_breaks h, indentLines_start hc, List.append_assoc, skipIndentation_breaks h]
  simp [skipIndentation, indentLines, hc]

/-- Where it is not, the line must start with a word. -/
theorem skipIndentation_first {c : Char} (hc : isGap c = false) (text rest : List Char) :
    skipIndentation none [] 0 0 (indentLines true (c :: text) ++ rest) =
      some ⟨[], indentLines false (c :: text) ++ rest, 2, 2⟩ := by
  obtain ⟨hspace, htab, hbreak⟩ := isGap_eq_false_iff.mp hc
  rw [indentLines_start hbreak]
  simp [skipIndentation, indentLines, hspace, htab, hbreak]

/-! ## Reading lines -/

theorem takeWhile_line {line : List Char} (h : ∀ c ∈ line, isBreak c = false) {d : Char}
    (hd : isBreak d = true) (after : List Char) :
    (line ++ d :: after).takeWhile (!isBreak ·) = line := by
  rw [List.takeWhile_append_of_pos (by simpa using h)]
  simp [hd]

/-- A line is read up to its break, and then what follows. -/
theorem readBlockLines_cons {line : List Char} (h : ∀ c ∈ line, isBreak c = false) {d : Char}
    (hd : isBreak d = true) {after : List Char}
    {found : Indentation} (hfound : skipIndentation (some 2) [] 0 0 after = some found)
    {lines : List BlockLine} {rest : List Char}
    (hrest : readBlockLines 2 found.rest found.column = some (lines, rest)) :
    readBlockLines 2 (line ++ d :: after) 2 =
      some (⟨line, some d, found.breaks⟩ :: lines, rest) := by
  have hdrop : (line ++ d :: after).drop line.length = d :: after := List.drop_left
  rw [readBlockLines, if_pos ⟨rfl, by simp⟩]
  simp only
  rw [takeWhile_line h hd]
  split
  · next hnil => cases hnil.symm.trans hdrop
  · next d' after' hcons =>
      cases hcons.symm.trans hdrop
      split
      · next hnone => cases hnone.symm.trans hfound
      · next found' hfound' =>
          cases hfound'.symm.trans hfound
          rw [hrest]

/-- Where no line starts, none is read. -/
theorem readBlockLines_stop (text : List Char) : readBlockLines 2 text 0 = some ([], text) := by
  rw [readBlockLines, if_neg (by simp)]

/-! ## Chomping -/

/--
`chomping` keeps the breaks at the end of `text` if `ending` is written after it: the text has none
there, or all are kept, or one is, and before it there is none.
-/
def Chomping.Ends (chomping : Chomping) (text ending : List Char) : Prop :=
  (text.getLast?.any isBreak = false ∧ ending = ['\n'] ∧ chomping = .strip) ∨
    (text.getLast?.any isBreak = true ∧ ending = [] ∧ (chomping = .keep ∨
      chomping = .clip ∧ text.dropLast.getLast?.any isBreak = false))

theorem Chomping.Ends.of_append {chomping : Chomping} {before text ending : List Char}
    (h : chomping.Ends (before ++ text) ending) (hne : text ≠ []) : chomping.Ends text ending := by
  unfold Ends at h ⊢
  rw [List.getLast?_append_of_ne_nil _ hne, List.dropLast_append_of_ne_nil hne] at h
  refine h.imp_right ?_
  rintro ⟨hlast, hending, hchomping⟩
  refine ⟨hlast, hending, hchomping.imp_right ?_⟩
  rintro ⟨hclip, hone⟩
  refine ⟨hclip, ?_⟩
  by_cases hnil : text.dropLast = []
  · rw [hnil]
    rfl
  · rwa [List.getLast?_append_of_ne_nil _ hnil] at hone

theorem chompingOf_concat (before : List Char) (c d : Char) :
    chompingOf (before ++ [c, d]) =
      if !isBreak d then .strip else if isBreak c then .keep else .clip := by
  unfold chompingOf
  rw [List.reverse_append]
  rfl

/-- What is written after a text so that a line ends there. -/
def endingOf (text : List Char) : List Char := if text.getLast?.any isBreak then [] else ['\n']

theorem chompingOf_ends (hne : text ≠ []) : (chompingOf text).Ends text (endingOf text) := by
  unfold Chomping.Ends endingOf
  obtain ⟨front, d, rfl⟩ := (List.eq_nil_or_concat' text).resolve_left hne
  rw [List.getLast?_concat, List.dropLast_concat]
  rcases List.eq_nil_or_concat' front with rfl | ⟨before, c, rfl⟩
  · by_cases hd : isBreak d = true
    · right
      simp [hd, chompingOf]
    · left
      simp [hd, chompingOf]
  · rw [List.append_assoc, List.cons_append, List.nil_append, chompingOf_concat,
      List.getLast?_concat]
    by_cases hd : isBreak d = true
    · right
      by_cases hc : isBreak c = true
      · simp [hd, hc]
      · simp [hd, hc]
    · left
      simp [hd]

theorem chompingOf_breaks (hne : text ≠ []) (h : ∀ c ∈ text, isBreak c = true) :
    chompingOf text = .keep := by
  obtain ⟨front, d, rfl⟩ := (List.eq_nil_or_concat' text).resolve_left hne
  have hd : isBreak d = true := h d (by simp)
  rcases List.eq_nil_or_concat' front with rfl | ⟨before, c, rfl⟩
  · simp [chompingOf, hd]
  · have hc : isBreak c = true := h c (by simp)
    rw [List.append_assoc, List.cons_append, List.nil_append, chompingOf_concat]
    simp [hd, hc]

theorem any_getLast?_append {breaks : List Char} (hne : breaks ≠ [])
    (h : ∀ c ∈ breaks, isBreak c = true) (before : List Char) :
    (before ++ breaks).getLast?.any isBreak = true := by
  rw [List.getLast?_append_of_ne_nil _ hne, List.getLast?_eq_some_getLast hne]
  exact h _ (List.getLast_mem hne)

/-- Breaks at the end are kept after the line before them. -/
theorem Chomping.Ends.atEnd {chomping : Chomping} {line breaks ending : List Char} {d : Char}
    (h : chomping.Ends (line ++ d :: breaks) ending) (hd : isBreak d = true)
    (hbreaks : ∀ c ∈ breaks, isBreak c = true) :
    ending = [] ∧ BlockLine.atEnd chomping [d] breaks = d :: breaks := by
  have hlast := any_getLast?_append (List.cons_ne_nil d breaks)
    (List.forall_mem_cons.mpr ⟨hd, hbreaks⟩) line
  rcases h with ⟨hnot, -⟩ | ⟨-, hending, rfl | ⟨rfl, hone⟩⟩
  · cases hlast.symm.trans hnot
  · exact ⟨hending, rfl⟩
  · refine ⟨hending, ?_⟩
    rcases List.eq_nil_or_concat' breaks with rfl | ⟨before, last, rfl⟩
    · rfl
    · have hbefore := any_getLast?_append (List.cons_ne_nil d before)
        (List.forall_mem_cons.mpr ⟨hd, fun c hc => hbreaks c (List.mem_append_left _ hc)⟩) line
      rw [← List.cons_append, ← List.append_assoc, List.dropLast_concat] at hone
      cases hbefore.symm.trans hone

/-! ## Reading what is written -/

/-- A text that ends within a line: a break is written after it, and chomping strips it. -/
theorem readBlockLines_unended {chomping : Chomping} {line ending : List Char}
    (hmore : more.head?.any isGap = false) (hne : line ≠ []) (hline : ∀ c ∈ line, isBreak c = false)
    (hends : chomping.Ends line ending) :
    readBlockLines 2 (line ++ (ending ++ more)) 2 = some ([⟨line, some '\n', []⟩], more) ∧
      BlockLine.join false chomping [⟨line, some '\n', []⟩] = line := by
  obtain ⟨rfl, rfl⟩ : ending = ['\n'] ∧ chomping = .strip := by
    rcases hends with ⟨-, hending, hstrip⟩ | ⟨hlast, -⟩
    · exact ⟨hending, hstrip⟩
    · rw [List.getLast?_eq_some_getLast hne] at hlast
      cases (hline _ (List.getLast_mem hne)).symm.trans hlast
  exact ⟨readBlockLines_cons (d := '\n') hline rfl (skipIndentation_stop hmore (some 2) [] 0 0)
    (readBlockLines_stop more), List.append_nil line⟩

/-- A text that ends with the breaks after a line: chomping keeps them. -/
theorem readBlockLines_ended {chomping : Chomping} {line breaks ending : List Char} {d : Char}
    (hmore : more.head?.any isGap = false) (hline : ∀ c ∈ line, isBreak c = false)
    (hd : isBreak d = true) (hbreaks : ∀ c ∈ breaks, isBreak c = true)
    (hends : chomping.Ends (line ++ d :: breaks) ending) :
    readBlockLines 2 (line ++ d :: (breaks ++ (ending ++ more))) 2 =
        some ([⟨line, some d, breaks⟩], more) ∧
      BlockLine.join false chomping [⟨line, some d, breaks⟩] = line ++ d :: breaks := by
  obtain ⟨rfl, hkept⟩ := hends.atEnd hd hbreaks
  have hfound : skipIndentation (some 2) [] 0 0 (breaks ++ more) = some ⟨breaks, more, 0, 0⟩ := by
    rw [skipIndentation_breaks hbreaks, skipIndentation_stop hmore]
    rfl
  exact ⟨readBlockLines_cons hline hd hfound (readBlockLines_stop more),
    congrArg (line ++ ·) hkept⟩

theorem readBlockLines_write {chomping : Chomping} {ending : List Char}
    (hmore : more.head?.any isGap = false) {c : Char} (hc : isBreak c = false) {text : List Char}
    (hends : chomping.Ends (c :: text) ending) :
    ∃ line lines, readBlockLines 2 (indentLines false (c :: text) ++ (ending ++ more)) 2 =
        some (line :: lines, more) ∧ BlockLine.join false chomping (line :: lines) = c :: text := by
  induction hlength : text.length using Nat.strong_induction_on generalizing c text with
  | h length ih =>
      obtain ⟨line, after, hsplit, hline, hafter⟩ := exists_span (!isBreak ·) (c :: text)
      have hline : ∀ c ∈ line, isBreak c = false := by simpa using hline
      rw [hsplit] at hends ⊢
      rw [indentLines_line hline]
      rcases hafter with rfl | ⟨d, after, rfl, hd⟩
      · rw [List.append_nil] at hsplit hends ⊢
        have hne : line ≠ [] := by
          rintro rfl
          cases hsplit
        rw [indentLines, List.append_nil]
        exact ⟨_, [], readBlockLines_unended hmore hne hline hends⟩
      · have hd : isBreak d = true := by simpa using hd
        have hindent (after : List Char) :
            indentLines false (d :: after) = d :: indentLines true after := by
          rw [indentLines, if_pos hd]
        obtain ⟨breaks, later, rfl, hbreaks, hlater⟩ := exists_span isBreak after
        rcases hlater with rfl | ⟨e, later, rfl, he⟩
        · rw [List.append_nil] at hends ⊢
          have hbreaksOnly := indentLines_breaks hbreaks []
          rw [List.append_nil, indentLines, List.append_nil] at hbreaksOnly
          rw [hindent, hbreaksOnly, List.append_assoc]
          exact ⟨_, [], readBlockLines_ended hmore hline hd hbreaks hends⟩
        · have hends' : chomping.Ends (e :: later) ending := by
            have hall : line ++ d :: (breaks ++ e :: later) =
                (line ++ d :: breaks) ++ e :: later := by simp
            rw [hall] at hends
            exact hends.of_append (List.cons_ne_nil e later)
          have hlt : later.length < length := by
            have := congrArg List.length hsplit
            simp only [List.length_cons, List.length_append] at this
            omega
          obtain ⟨next, lines, hread, hjoin⟩ := ih later.length hlt he hends' rfl
          have hread := readBlockLines_cons hline hd
            (skipIndentation_line hbreaks he later (ending ++ more)) hread
          refine ⟨⟨line, some d, breaks⟩, next :: lines, ?_, ?_⟩
          · rw [hindent, List.append_assoc]
            exact hread
          · rw [BlockLine.join, hjoin]
            simp [BlockLine.between]

/-! ## The header -/

/-- How deep the lines are indented, as far as the header says it. -/
def depth? (text : List Char) : Option Nat :=
  if text.head?.any (fun c => c = ' ' || isBreak c) then some 2 else none

/-- The header of a literal block after its mark. -/
def headerOf (text : List Char) : List Char :=
  (if text.head?.any (fun c => c = ' ' || isBreak c) then ['2'] else []) ++ (chompingOf text).text

theorem read_headerOf (text rest : List Char) :
    BlockHeader.read (headerOf text ++ '\n' :: rest) =
      (⟨chompingOf text, depth? text⟩, '\n' :: rest) := by
  unfold headerOf depth?
  split
  · cases chompingOf text <;> rfl
  · cases chompingOf text <;> rfl

theorem depth?_cases (text : List Char) : depth? text = some 2 ∨ depth? text = none := by
  unfold depth?
  split
  · exact .inl rfl
  · exact .inr rfl

theorem depth?_of_isBreak {c : Char} (hc : isBreak c = true) (text : List Char) :
    depth? (c :: text) = some 2 := by
  simp [depth?, hc]

/-- The first line is found as deep as it is, whether or not the header says so. -/
theorem skipIndentation_depth {c : Char} (hc : isBreak c = false) {breaks later : List Char}
    (hbreaks : ∀ d ∈ breaks, isBreak d = true) (htab : (breaks ++ c :: later).head? ≠ some '\t')
    (rest : List Char) :
    skipIndentation (depth? (breaks ++ c :: later)) [] 0 0
        (indentLines true (breaks ++ c :: later) ++ rest) =
      some ⟨breaks, indentLines false (c :: later) ++ rest, 2, 2⟩ := by
  unfold depth?
  split
  · exact skipIndentation_line hbreaks hc later rest
  · next hword =>
      cases breaks with
      | nil =>
          have htab : c ≠ '\t' := by simpa using htab
          have hspace : c ≠ ' ' := by
            rintro rfl
            exact hword rfl
          exact skipIndentation_first (isGap_eq_false_iff.mpr ⟨hspace, htab, hc⟩) later rest
      | cons d breaks =>
          have hd : isBreak d = true := hbreaks d List.mem_cons_self
          simp [hd] at hword

theorem readBlock_write (hne : text ≠ []) (htab : text.head? ≠ some '\t')
    (hmore : more.head?.any isGap = false) :
    readBlock false 1
        (headerOf text ++ '\n' :: (indentLines true text ++ (endingOf text ++ more))) =
      some (text, more) := by
  have hends := chompingOf_ends hne
  have hnext (rest : List Char) : nextLine? ('\n' :: rest) = some rest := rfl
  have hlimit : (depth? text).map (fun indent => 1 - 1 + indent) = depth? text := by
    cases depth? text <;> simp
  have hzero : depth? text ≠ some 0 := by
    rcases depth?_cases text with h | h <;> rw [h] <;> decide
  unfold readBlock
  simp only [read_headerOf, if_neg hzero, hnext, Option.bind_some, hlimit, bind]
  obtain ⟨breaks, later, rfl, hbreaks, hlater⟩ := exists_span isBreak text
  rcases hlater with rfl | ⟨c, later, rfl, hc⟩
  · rw [List.append_nil] at hne ⊢
    obtain ⟨d, breaks, rfl⟩ := List.exists_cons_of_ne_nil hne
    have hending : endingOf (d :: breaks) = [] :=
      if_pos (any_getLast?_append hne hbreaks [])
    have hlines := indentLines_breaks hbreaks []
    rw [List.append_nil, indentLines, List.append_nil] at hlines
    have hfound : skipIndentation (some 2) [] 0 0 (d :: breaks ++ more) =
        some ⟨d :: breaks, more, 0, 0⟩ := by
      rw [skipIndentation_breaks hbreaks, skipIndentation_stop hmore]
      rfl
    rw [depth?_of_isBreak (hbreaks d List.mem_cons_self), hlines, hending, List.nil_append, hfound,
      chompingOf_breaks hne hbreaks]
    simp only [Option.bind_some, Option.getD_some, readBlockLines_stop]
    rfl
  · have hindent : (depth? (breaks ++ c :: later)).getD (max (max 2 1) 1) = 2 := by
      rcases depth?_cases (breaks ++ c :: later) with h | h <;> rw [h] <;> rfl
    obtain ⟨line, lines, hread, hjoin⟩ :=
      readBlockLines_write hmore hc (hends.of_append (List.cons_ne_nil c later))
    rw [skipIndentation_depth hc hbreaks htab]
    simp only [Option.bind_some, hindent, hread, hjoin]

/-! ## What is written -/

theorem writeLiteral_eq (text : List Char) :
    writeLiteral text = '|' :: headerOf text ++ '\n' :: indentLines true text := by
  simp [writeLiteral, headerOf]

theorem isPrintable_indentLines (hprintable : ∀ c ∈ text, isPrintable c) (atStart : Bool) :
    ∀ c ∈ indentLines atStart text, isPrintable c = true := by
  induction text generalizing atStart with
  | nil => simp [indentLines]
  | cons c text ih =>
      obtain ⟨hc, hprintable⟩ := List.forall_mem_cons.mp hprintable
      have hspace : isPrintable ' ' = true := by decide
      rw [indentLines]
      split
      · exact List.forall_mem_cons.mpr ⟨hc, ih hprintable _⟩
      · split
        · simp only [List.forall_mem_cons]
          exact ⟨hspace, hspace, hc, ih hprintable _⟩
        · exact List.forall_mem_cons.mpr ⟨hc, ih hprintable _⟩

theorem isPrintable_writeLiteral (hprintable : ∀ c ∈ text, isPrintable c) :
    ∀ c ∈ writeLiteral text, isPrintable c = true := by
  have hheader : ∀ c ∈ headerOf text, isPrintable c = true := by
    unfold headerOf
    split
    · cases chompingOf text <;> simp [Chomping.text, isPrintable]
    · cases chompingOf text <;> simp [Chomping.text, isPrintable]
  rw [writeLiteral_eq]
  refine List.forall_mem_append.mpr ⟨List.forall_mem_cons.mpr ⟨by decide, hheader⟩, ?_⟩
  exact List.forall_mem_cons.mpr ⟨by decide, isPrintable_indentLines hprintable true⟩

theorem getLast?_indentLines (text : List Char) (atStart : Bool) :
    (indentLines atStart text).getLast? = text.getLast? := by
  induction text generalizing atStart with
  | nil => rfl
  | cons c text ih =>
      rw [indentLines]
      split
      · rw [List.getLast?_cons, List.getLast?_cons, ih]
      · split
        · rw [List.getLast?_cons, List.getLast?_cons, List.getLast?_cons, List.getLast?_cons, ih]
          rfl
        · rw [List.getLast?_cons, List.getLast?_cons, ih]

theorem getLast?_writeLiteral (hne : text ≠ []) : (writeLiteral text).getLast? = text.getLast? := by
  have hlast := getLast?_indentLines text true
  have hlines : indentLines true text ≠ [] := by
    intro hnil
    rw [hnil, List.getLast?_nil] at hlast
    exact hne (List.getLast?_eq_none_iff.mp hlast.symm)
  rw [writeLiteral_eq, List.getLast?_append_of_ne_nil _ (List.cons_ne_nil _ _),
    List.getLast?_cons_of_ne_nil hlines, hlast]

end FeatureFlags.Yaml
