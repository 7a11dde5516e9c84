import FeatureFlags.Line
import Mathlib.Data.List.Basic
import Mathlib.Data.List.Forall2
import Mathlib.Data.List.Nodup

/-!
# Lines and their words

How words are spelled on a line: with gaps of white space between and around them, and a comment at
the end. The words of such a line are read back (`tokens_of_spells`). What a line declares is a
relation between its words and a declaration (`Declares`), which the parser decides
(`parse_eq_ok_iff`). An entry that is declared is well formed, and each well formed entry is what
its words declare.
-/

namespace FeatureFlags

namespace Text

/-! ## Gaps and words -/

/-- White space within a line. -/
def IsGap (text : List Char) : Prop := ∀ c ∈ text, isSpace c = true ∧ c ≠ '\n'

/-- What is read as one word. -/
def IsWord (word : List Char) : Prop := word ≠ [] ∧ ∀ c ∈ word, isSpace c = false ∧ c ≠ '#'

theorem words_append_cons {c : Char} (hc : isSpace c = true) (text rest : List Char) :
    words (text ++ c :: rest) = words text ++ words rest := by
  unfold words
  rw [List.splitOnP_append_cons text rest hc, List.filter_append]

theorem words_append_of_isSpace {gap : List Char} (h : ∀ c ∈ gap, isSpace c = true)
    (text : List Char) : words (gap ++ text) = words text := by
  induction gap with
  | nil => rfl
  | cons c gap ih =>
      obtain ⟨hc, hgap⟩ := List.forall_mem_cons.mp h
      exact (words_append_cons hc [] (gap ++ text)).trans (ih hgap)

theorem words_gap_append {gap : List Char} (h : IsGap gap) (text : List Char) :
    words (gap ++ text) = words text :=
  words_append_of_isSpace (fun c hc => (h c hc).1) text

theorem words_eq_singleton {word : List Char} (hne : word ≠ [])
    (hsolid : ∀ c ∈ word, isSpace c = false) : words word = [word] := by
  unfold words
  rw [List.splitOnP_eq_singleton hsolid, List.filter_cons_of_pos (by simpa using hne),
    List.filter_nil]

theorem words_of_isWord {word : List Char} (h : IsWord word) : words word = [word] :=
  words_eq_singleton h.1 fun c hc => (h.2 c hc).1

theorem isWord_of_isName {text : String} (h : isName text = true) : IsWord text.toList := by
  unfold isName at h
  rw [Bool.and_eq_true, decide_eq_true_eq, List.all_eq_true] at h
  refine ⟨h.1, fun c hc => ⟨isSpace_of_isNameChar (h.2 c hc), ?_⟩⟩
  rintro rfl
  cases h.2 '#' hc

/-! ## Spans -/

theorem takeWhile_append_of_head? {p : Char → Bool} {first rest : List Char}
    (hfirst : ∀ c ∈ first, p c = true) (hrest : rest.head?.any p = false) :
    (first ++ rest).takeWhile p = first := by
  rw [List.takeWhile_append_of_pos hfirst]
  cases rest with
  | nil => simp
  | cons c rest =>
      have hc : p c = false := hrest
      simp [hc]

/-- A text without a sign is all that stands before the sign, if the sign or nothing follows. -/
theorem span_append_of_notMem {first rest : List Char} {sign : Char} (hfirst : sign ∉ first)
    (hrest : rest.head?.any (· ≠ sign) = false) :
    (first ++ rest).takeWhile (· ≠ sign) = first ∧
      (first ++ rest).dropWhile (· ≠ sign) = rest := by
  have hall : ∀ c ∈ first, decide (c ≠ sign) = true := by
    intro c hc
    rw [decide_eq_true_eq]
    rintro rfl
    exact hfirst hc
  have htake := takeWhile_append_of_head? hall hrest
  refine ⟨htake, (List.append_right_inj first).mp ?_⟩
  have hwhole := List.takeWhile_append_dropWhile (p := (· ≠ sign)) (l := first ++ rest)
  rwa [htake] at hwhole

/-! ## Spelling -/

/-- Nothing, or a `#` and what follows it on the line. -/
def IsComment (text : List Char) : Prop := text = [] ∨ ∃ rest, text = '#' :: rest ∧ '\n' ∉ rest

/--
What stands after a word: more words, each of them after a gap that is not empty, and a gap at the
end.
-/
inductive Continues : List String → List Char → Prop where
  | done {gap : List Char} (hgap : IsGap gap) : Continues [] gap
  | word {gap rest : List Char} {word : String} {words : List String} (hgap : IsGap gap)
      (hne : gap ≠ []) (hrest : Continues words rest) :
      Continues (word :: words) (gap ++ (word.toList ++ rest))

/-- The line holds the words in order, with white space between and around, and maybe a comment. -/
inductive Spells : List String → List Char → Prop where
  | blank {gap comment : List Char} (hgap : IsGap gap) (hcomment : IsComment comment) :
      Spells [] (gap ++ comment)
  | words {gap rest comment : List Char} {word : String} {words : List String} (hgap : IsGap gap)
      (hrest : Continues words rest) (hcomment : IsComment comment) :
      Spells (word :: words) (gap ++ (word.toList ++ rest) ++ comment)

theorem Continues.words_append {words : List String} {rest : List Char}
    (h : Continues words rest) (hwords : ∀ word ∈ words, IsWord word.toList) {word : List Char}
    (hword : IsWord word) : Text.words (word ++ rest) = word :: words.map String.toList := by
  induction h generalizing word with
  | @done gap hgap =>
      cases gap with
      | nil =>
          rw [List.append_nil, words_of_isWord hword]
          rfl
      | cons c gap =>
          obtain ⟨⟨hc, -⟩, hgap⟩ := List.forall_mem_cons.mp hgap
          have hnone := words_gap_append hgap []
          rw [List.append_nil] at hnone
          rw [words_append_cons hc, words_of_isWord hword, hnone]
          rfl
  | @word gap rest next words hgap hne _ ih =>
      obtain ⟨hnext, hwords⟩ := List.forall_mem_cons.mp hwords
      obtain ⟨c, gap, rfl⟩ := List.exists_cons_of_ne_nil hne
      obtain ⟨⟨hc, -⟩, hgap⟩ := List.forall_mem_cons.mp hgap
      rw [List.cons_append, words_append_cons hc, words_of_isWord hword, words_gap_append hgap,
        ih hwords hnext]
      rfl

/-- A character of neither gaps nor words is not in a line before its comment. -/
theorem Continues.notMem {c : Char} (hgap : ∀ gap, IsGap gap → c ∉ gap)
    (hword : ∀ word, IsWord word → c ∉ word) {words : List String} {rest : List Char}
    (h : Continues words rest) (hwords : ∀ word ∈ words, IsWord word.toList) : c ∉ rest := by
  induction h with
  | done hdone => exact hgap _ hdone
  | word hbetween _ _ ih =>
      obtain ⟨hnext, hwords⟩ := List.forall_mem_cons.mp hwords
      rw [List.mem_append, List.mem_append, not_or, not_or]
      exact ⟨hgap _ hbetween, hword _ hnext, ih hwords⟩

theorem IsGap.hash_notMem {gap : List Char} (h : IsGap gap) : '#' ∉ gap := by
  intro hmem
  cases (h '#' hmem).1

theorem IsGap.newline_notMem {gap : List Char} (h : IsGap gap) : '\n' ∉ gap := by
  intro hmem
  exact (h '\n' hmem).2 rfl

theorem IsWord.hash_notMem {word : List Char} (h : IsWord word) : '#' ∉ word := by
  intro hmem
  exact (h.2 '#' hmem).2 rfl

theorem IsWord.newline_notMem {word : List Char} (h : IsWord word) : '\n' ∉ word := by
  intro hmem
  cases (h.2 '\n' hmem).1

theorem IsComment.newline_notMem {comment : List Char} (h : IsComment comment) :
    '\n' ∉ comment := by
  rcases h with rfl | ⟨rest, rfl, hrest⟩
  · exact List.not_mem_nil
  · simp [hrest]

/-- A spelled line is one line. -/
theorem Spells.unbroken {words : List String} {line : List Char} (h : Spells words line)
    (hwords : ∀ word ∈ words, IsWord word.toList) : '\n' ∉ line := by
  cases h with
  | blank hgap hcomment =>
      rw [List.mem_append, not_or]
      exact ⟨hgap.newline_notMem, hcomment.newline_notMem⟩
  | words hgap hrest hcomment =>
      obtain ⟨hword, hwords⟩ := List.forall_mem_cons.mp hwords
      have hafter := hrest.notMem (fun _ => IsGap.newline_notMem)
        (fun _ => IsWord.newline_notMem) hwords
      simp [hgap.newline_notMem, hword.newline_notMem, hafter, hcomment.newline_notMem]

theorem takeWhile_append_comment {text comment : List Char} (htext : '#' ∉ text)
    (hcomment : IsComment comment) : (text ++ comment).takeWhile (· ≠ '#') = text := by
  apply (span_append_of_notMem htext _).1
  rcases hcomment with rfl | ⟨rest, rfl, -⟩ <;> rfl

theorem tokens_of_spells {words : List String} {line : List Char} (h : Spells words line)
    (hwords : ∀ word ∈ words, IsWord word.toList) : tokens (String.ofList line) = words := by
  unfold tokens
  rw [String.toList_ofList]
  cases h with
  | blank hgap hcomment =>
      have hnone := words_gap_append hgap []
      rw [List.append_nil] at hnone
      rw [takeWhile_append_comment hgap.hash_notMem hcomment, hnone]
      rfl
  | @words gap rest comment word words hgap hrest hcomment =>
      obtain ⟨hword, hwords⟩ := List.forall_mem_cons.mp hwords
      have hafter := hrest.notMem (fun _ => IsGap.hash_notMem) (fun _ => IsWord.hash_notMem) hwords
      have hhash : '#' ∉ gap ++ (word.toList ++ rest) := by
        simp [hgap.hash_notMem, hword.hash_notMem, hafter]
      rw [takeWhile_append_comment hhash hcomment, words_gap_append hgap,
        hrest.words_append hwords hword, List.map_cons, List.map_map, String.ofList_toList]
      have hkept : String.ofList ∘ String.toList = id := funext fun _ => String.ofList_toList
      rw [hkept, List.map_id]

end Text

open Text

/-! ## Defaults and dependencies -/

/-- The word of a default, each letter small or capital. -/
def Toggle.Spelled (toggle : Toggle) (value : String) : Prop :=
  List.Forall₂ (fun c letter => c = letter ∨ c = letter.toUpper) value.toList toggle.text.toList

namespace Toggle

variable {toggle : Toggle} {value : String}

theorem folded_of_spelled (h : toggle.Spelled value) :
    value.toList.map Char.toLower = toggle.text.toList ∧
      ∀ c ∈ value.toList, isNameChar c = true := by
  have hletters : ∀ letter ∈ toggle.text.toList,
      (letter.toLower = letter ∧ isNameChar letter = true) ∧
        letter.toUpper.toLower = letter ∧ isNameChar letter.toUpper = true := by
    cases toggle <;> simp [text] <;> decide
  unfold Spelled at h
  generalize value.toList = text, toggle.text.toList = letters at *
  induction h with
  | nil => exact ⟨rfl, List.forall_mem_nil _⟩
  | cons hc _ ih =>
      obtain ⟨⟨hsmall, hcapital⟩, hletters⟩ := List.forall_mem_cons.mp hletters
      obtain ⟨hfolded, hnames⟩ := ih hletters
      rw [List.map_cons, hfolded, List.forall_mem_cons]
      rcases hc with rfl | rfl
      · exact ⟨by rw [hsmall.1], hsmall.2, hnames⟩
      · exact ⟨by rw [hcapital.1], hcapital.2, hnames⟩

theorem ofWord?_of_spelled (h : toggle.Spelled value) : ofWord? value = some toggle := by
  unfold ofWord?
  rw [(folded_of_spelled h).1]
  cases toggle <;> rfl

theorem isName_of_spelled (h : toggle.Spelled value) : isName value = true := by
  obtain ⟨hfolded, hnames⟩ := folded_of_spelled h
  have hne : value.toList ≠ [] := by
    intro hnil
    rw [hnil] at hfolded
    cases toggle <;> simp [text] at hfolded
  unfold isName
  rw [Bool.and_eq_true, decide_eq_true_eq, List.all_eq_true]
  exact ⟨hne, hnames⟩

theorem spelled_text (toggle : Toggle) : toggle.Spelled toggle.text :=
  List.forall₂_same.mpr fun _ _ => .inl rfl

end Toggle

namespace Dependency

variable {dependency : Dependency}

theorem toList_text_negated (name : String) :
    (text ⟨name, true⟩).toList = '!' :: name.toList := by
  simp [text]

theorem ofToken?_text (h : isName dependency.name = true) :
    ofToken? dependency.text = some dependency := by
  obtain ⟨name, negated⟩ := dependency
  cases negated with
  | true =>
      simp only [ofToken?, toList_text_negated, String.ofList_toList]
      exact if_pos h
  | false =>
      have hmark : ∀ rest, name.toList ≠ '!' :: rest := by
        intro rest hname
        unfold isName at h
        rw [hname, Bool.and_eq_true, List.all_cons, Bool.and_eq_true] at h
        cases h.2.1
      simp only [ofToken?, text, Bool.false_eq_true, if_false]
      exact if_pos h

theorem isName_of_ofToken? {token : String} (h : ofToken? token = some dependency) :
    isName dependency.name = true := by
  have hkept : ∀ found : Dependency,
      (if isName found.name = true then some found else none) = some dependency →
      isName dependency.name = true := by
    intro found hfound
    split at hfound
    · next hname =>
        cases hfound
        exact hname
    · cases hfound
  exact hkept _ h

theorem isWord_text (h : isName dependency.name = true) : IsWord dependency.text.toList := by
  obtain ⟨name, negated⟩ := dependency
  have hword := isWord_of_isName h
  cases negated with
  | true =>
      rw [toList_text_negated]
      exact ⟨List.cons_ne_nil _ _, List.forall_mem_cons.mpr ⟨by decide, hword.2⟩⟩
  | false => exact hword

end Dependency

namespace Declaration

variable {origin : Origin} {line : String}

theorem readDependencies_cons {word : String} {words : List String} {first : Dependency}
    (hword : Dependency.ofToken? word = some first) :
    readDependencies origin (word :: words) = (readDependencies origin words).map (first :: ·) := by
  unfold readDependencies
  rw [List.mapM_cons, hword]
  simp only [bind, Except.bind]
  split
  · next error hrest => rw [hrest, Except.map]
  · next rest hrest =>
      rw [hrest]
      rfl

theorem readDependencies_eq_ok_iff {words : List String} {dependencies : List Dependency} :
    readDependencies origin words = .ok dependencies ↔
      words.map Dependency.ofToken? = dependencies.map some := by
  induction words generalizing dependencies with
  | nil => cases dependencies <;> simp [readDependencies, pure, Except.pure]
  | cons word words ih =>
      cases hword : Dependency.ofToken? word with
      | none =>
          cases dependencies <;> simp [readDependencies, List.mapM_cons, hword, bind, Except.bind]
      | some first =>
          rw [readDependencies_cons hword, List.map_cons, hword]
          cases dependencies with
          | nil => cases readDependencies origin words <;> simp [Except.map]
          | cons dependency dependencies =>
              rw [List.map_cons, List.cons.injEq, Option.some.injEq, ← ih]
              cases readDependencies origin words <;> simp [Except.map]

/-! ## What words declare -/

/-- What the words of a line declare. -/
inductive Declares (origin : Origin) : List String → Option Declaration → Prop where
  | blank : Declares origin [] none
  | inclusion (target : String) :
      Declares origin [includeWord, target] (some (.inclusion target))
  | entry {name value : String} {toggle : Toggle} {words : List String}
      {dependencies : List Dependency} (hname : isName name = true) (hkey : name ≠ includeWord)
      (hvalue : Toggle.ofWord? value = some toggle)
      (hwords : words.map Dependency.ofToken? = dependencies.map some) :
      Declares origin (name :: value :: words)
        (some (.entry ⟨name, toggle, dependencies.eraseDups, origin⟩))

theorem checkNameAndValue_eq_ok_iff {name value : String} {toggle : Toggle} :
    checkNameAndValue origin name value = .ok toggle ↔
      isName name = true ∧ Toggle.ofWord? value = some toggle := by
  unfold checkNameAndValue
  split
  · next hname =>
      split
      · next found hfound => simp [hname, hfound]
      · next hfound => simp [hfound]
  · next hname => simp [hname]

theorem parse_eq_ok_iff {declaration : Option Declaration} :
    parse origin line = .ok declaration ↔ Declares origin (tokens line) declaration := by
  constructor
  · intro h
    unfold parse at h
    split at h
    · next htokens =>
        cases h
        rw [htokens]
        exact .blank
    · cases h
    · next name value words htokens =>
        rw [htokens]
        split at h
        · next hkey =>
            split at h
            · next hwords =>
                cases h
                rw [hkey, hwords]
                exact .inclusion value
            · cases h
        · next hkey =>
            cases htoggle : checkNameAndValue origin name value with
            | error error => simp [htoggle, bind, Except.bind] at h
            | ok toggle =>
                cases hdependencies : readDependencies origin words with
                | error error => simp [htoggle, hdependencies, bind, Except.bind] at h
                | ok dependencies =>
                    rw [htoggle, hdependencies] at h
                    cases h
                    obtain ⟨hname, hvalue⟩ := checkNameAndValue_eq_ok_iff.mp htoggle
                    exact .entry hname hkey hvalue (readDependencies_eq_ok_iff.mp hdependencies)
  · intro h
    unfold parse
    generalize tokens line = words at h
    cases h with
    | blank => rfl
    | inclusion target => rfl
    | @entry name value toggle words dependencies hname hkey hvalue hwords =>
        have hcheck : checkNameAndValue origin name value = .ok toggle :=
          checkNameAndValue_eq_ok_iff.mpr ⟨hname, hvalue⟩
        have hread : readDependencies origin words = .ok dependencies :=
          readDependencies_eq_ok_iff.mpr hwords
        simp only [if_neg hkey, hcheck, hread]
        rfl

theorem Declares.eq_of_inclusion {words : List String} {target : String}
    (h : Declares origin words (some (.inclusion target))) : words = [includeWord, target] := by
  cases h
  rfl

theorem Declares.origin_eq {words : List String} {found : Entry}
    (h : Declares origin words (some (.entry found))) : found.origin = origin := by
  cases h
  rfl

end Declaration

/-! ## Well formed entries -/

section EraseDups

variable {α : Type} [BEq α] [LawfulBEq α]

theorem eraseDups_of_nodup {list : List α} (h : list.Nodup) : list.eraseDups = list := by
  induction list with
  | nil => rfl
  | cons a list ih =>
      obtain ⟨ha, hlist⟩ := List.nodup_cons.mp h
      have hothers : list.filter (fun b => !b == a) = list := by
        rw [List.filter_eq_self]
        intro b hb
        rw [Bool.not_eq_true', beq_eq_false_iff_ne]
        rintro rfl
        exact ha hb
      rw [List.eraseDups_cons, hothers, ih hlist]

theorem nodup_eraseDups (list : List α) : list.eraseDups.Nodup := by
  match list with
  | [] => exact List.nodup_nil
  | a :: list =>
      rw [List.eraseDups_cons, List.nodup_cons, List.mem_eraseDups]
      exact ⟨by simp, nodup_eraseDups _⟩
termination_by list.length
decreasing_by exact Nat.lt_succ_of_le (List.length_filter_le _ _)

end EraseDups

/-- What a description can say of a name. -/
structure Entry.WellFormed (entry : Entry) : Prop where
  name : isName entry.name = true
  notInclude : entry.name ≠ Declaration.includeWord
  nodup : entry.dependencies.Nodup
  names : ∀ dependency ∈ entry.dependencies, isName dependency.name = true

namespace Entry

/-- The words that declare an entry, with `value` for its default. -/
def words (entry : Entry) (value : String) : List String :=
  entry.name :: value :: entry.dependencies.map Dependency.text

variable {entry : Entry} {value : String}

theorem WellFormed.isWord (h : entry.WellFormed) (hvalue : entry.default.Spelled value) :
    ∀ word ∈ entry.words value, IsWord word.toList := by
  unfold words
  simp only [List.forall_mem_cons, List.forall_mem_map]
  refine ⟨isWord_of_isName h.name, isWord_of_isName (Toggle.isName_of_spelled hvalue), ?_⟩
  intro dependency hdependency
  exact Dependency.isWord_text (h.names dependency hdependency)

end Entry

namespace Declaration

variable {origin : Origin}

theorem declares_words {entry : Entry} {value : String} (h : entry.WellFormed)
    (hvalue : entry.default.Spelled value) :
    Declares entry.origin (entry.words value) (some (.entry entry)) := by
  have hwords : (entry.dependencies.map Dependency.text).map Dependency.ofToken? =
      entry.dependencies.map some := by
    rw [List.map_map]
    apply List.map_congr_left
    intro dependency hdependency
    exact Dependency.ofToken?_text (h.names dependency hdependency)
  have hdeclares : Declares entry.origin (entry.words value) (some (.entry
      ⟨entry.name, entry.default, entry.dependencies.eraseDups, entry.origin⟩)) :=
    .entry h.name h.notInclude (Toggle.ofWord?_of_spelled hvalue) hwords
  rw [eraseDups_of_nodup h.nodup] at hdeclares
  exact hdeclares

theorem Declares.wellFormed {words : List String} {found : Entry}
    (h : Declares origin words (some (.entry found))) : found.WellFormed := by
  cases h with
  | @entry name value toggle words dependencies hname hkey hvalue hwords =>
      refine ⟨hname, hkey, nodup_eraseDups dependencies, fun dependency hdependency => ?_⟩
      have hread : some dependency ∈ words.map Dependency.ofToken? := by
        rw [hwords]
        exact List.mem_map_of_mem (List.mem_eraseDups.mp hdependency)
      obtain ⟨word, -, hword⟩ := List.mem_map.mp hread
      exact Dependency.isName_of_ofToken? hword

end Declaration

end FeatureFlags
