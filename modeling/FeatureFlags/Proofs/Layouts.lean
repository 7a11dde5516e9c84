import FeatureFlags.Proofs.Contents
import FeatureFlags.Proofs.Expansions

/-!
# Laying out a description

A list of entries can be written down in many ways: with any gaps, with comments and blank lines,
with defaults in capital or small letters, and with either kind of line break (`Layout`). Each of
them is read back as these entries, at the lines that they stand on. What any text leaves in the
table, whether it is read to its end or not, can be written down, and it is read back as what it
was (`layouts_read_back`).
-/

namespace FeatureFlags

open Text

namespace Description

/-! ## Lines of a text -/

/--
A text begins with a line, which a line break of either kind ends. The last line need not have one
if it is not empty.
-/
inductive Begins (line : List Char) : List Char → List Char → Prop where
  | lineFeed (rest : List Char) : Begins line rest (line ++ '\n' :: rest)
  | carriageReturn (rest : List Char) : Begins line rest (line ++ '\r' :: '\n' :: rest)
  | last (h : line ≠ []) : Begins line [] line

/-- Up to a line feed and after it a text has its lines each for themselves. -/
theorem lines_append_cons (text rest : List Char) :
    Text.lines (text ++ '\n' :: rest) =
      (text.splitOn '\n').map dropReturn ++ Text.lines rest := by
  have hne := List.splitOn_ne_nil '\n' rest
  unfold Text.lines
  simp only [List.splitOn_append_cons_self, List.dropLast_append_of_ne_nil hne,
    List.getLast?_append_of_ne_nil _ hne, List.map_append, List.append_assoc]

theorem lines_append_newline {line : List Char} (h : '\n' ∉ line) (rest : List Char) :
    Text.lines (line ++ '\n' :: rest) = dropReturn line :: Text.lines rest := by
  rw [lines_append_cons, List.splitOn_eq_singleton h]
  rfl

theorem dropReturn_append_return (line : List Char) : dropReturn (line ++ ['\r']) = line := by
  simp [dropReturn]

theorem tokens_dropReturn (line : List Char) :
    tokens (String.ofList (dropReturn line)) = tokens (String.ofList line) := by
  unfold dropReturn
  split
  · next hlast =>
      obtain ⟨before, rfl⟩ := List.getLast?_eq_some_iff.mp hlast
      rw [List.dropLast_concat]
      unfold tokens
      rw [String.toList_ofList, String.toList_ofList, List.takeWhile_append]
      split
      · next hlength =>
          have hwhole := (List.takeWhile_prefix _).eq_of_length hlength
          have hreturn : ['\r'].takeWhile (· ≠ '#') = ['\r'] := rfl
          rw [hwhole, hreturn, words_append_cons rfl, words_nil, List.append_nil]
      · rfl
  · rfl

theorem exists_lines_of_begins {line rest text : List Char} (h : Begins line rest text)
    (hline : '\n' ∉ line) : ∃ kept, Text.lines text = kept :: Text.lines rest ∧
      tokens (String.ofList kept) = tokens (String.ofList line) := by
  cases h with
  | lineFeed => exact ⟨dropReturn line, lines_append_newline hline rest, tokens_dropReturn line⟩
  | carriageReturn =>
      have hreturn : '\n' ∉ line ++ ['\r'] := by simp [hline]
      refine ⟨line, ?_, rfl⟩
      have hlines := lines_append_newline hreturn rest
      rw [dropReturn_append_return, List.append_assoc] at hlines
      exact hlines
  | last hne =>
      refine ⟨line, ?_, rfl⟩
      unfold Text.lines
      simp [List.splitOn_eq_singleton hline, hne]

/-! ## Layouts -/

/--
`Layout file number entries text`: from line `number` of `file` on, `text` has the lines of
`entries` in order, and blank and comment lines between them.
-/
inductive Layout (file : Path) : Nat → List Entry → List Char → Prop where
  | done {number : Nat} : Layout file number [] []
  | idle {number : Nat} {entries : List Entry} {line rest text : List Char}
      (hline : Spells [] line) (hbegins : Begins line rest text)
      (hrest : Layout file (number + 1) entries rest) : Layout file number entries text
  | entry {number : Nat} {entry : Entry} {entries : List Entry} {value : String}
      {line rest text : List Char} (horigin : entry.origin = ⟨file, number⟩)
      (hvalue : entry.default.Spelled value) (hline : Spells (entry.words value) line)
      (hbegins : Begins line rest text) (hrest : Layout file (number + 1) entries rest) :
      Layout file number (entry :: entries) text

variable {files : FileSystem} {chain : List Location} {file : Path} {number : Nat}
  {entries : List Entry} {text : List Char}

/-- A layout says the entries that it lays out. -/
theorem Layout.expands (h : Layout file number entries text)
    (hwell : ∀ entry ∈ entries, entry.WellFormed) :
    Expands files chain file ((Text.lines text).zipIdx number) entries none := by
  induction h with
  | done => exact .done
  | idle hline hbegins _ ih =>
      obtain ⟨kept, hlines, htokens⟩ :=
        exists_lines_of_begins hbegins (hline.unbroken (List.forall_mem_nil _))
      rw [tokens_of_spells hline (List.forall_mem_nil _)] at htokens
      rw [hlines, List.zipIdx_cons]
      exact .blank (Declaration.parse_eq_ok_iff.mpr (htokens ▸ .blank)) (ih hwell)
  | @entry number entry entries value line rest text horigin hvalue hline hbegins _ ih =>
      obtain ⟨hentry, hwell⟩ := List.forall_mem_cons.mp hwell
      have hwords := hentry.isWord hvalue
      obtain ⟨kept, hlines, htokens⟩ := exists_lines_of_begins hbegins (hline.unbroken hwords)
      rw [tokens_of_spells hline hwords] at htokens
      have hdeclares := Declaration.declares_words hentry hvalue
      rw [horigin, ← htokens] at hdeclares
      rw [hlines, List.zipIdx_cons]
      exact .entry (Declaration.parse_eq_ok_iff.mpr hdeclares) horigin (ih hwell)

/-- Nothing but the entries is put into the table. -/
theorem Layout.inserts {text : String} (h : Layout file 1 entries text.toList)
    (hwell : ∀ entry ∈ entries, entry.WellFormed) (files : FileSystem) (table : Table) :
    Inserts table entries none (readText files file text table) := by
  obtain ⟨entries', stop, hexpands, hinserts⟩ :=
    exists_expands files [] file (numbered text) (.start table)
  obtain ⟨rfl, rfl⟩ := hexpands.unique (h.expands hwell)
  exact hinserts

/-! ## What texts can say -/

theorem Expands.wellFormed {lines : List (List Char × Nat)} {stop : Option Error}
    (h : Expands files chain file lines entries stop) : ∀ entry ∈ entries, entry.WellFormed := by
  induction h with
  | done | bad | refused => exact List.forall_mem_nil _
  | blank _ _ ih => exact ih
  | entry hline _ _ ih =>
      exact List.forall_mem_cons.mpr ⟨(Declaration.parse_eq_ok_iff.mp hline).wellFormed, ih⟩
  | stopped _ _ _ ih => exact ih
  | included _ _ _ _ ihinside ihrest => exact List.forall_mem_append.mpr ⟨ihinside, ihrest⟩

theorem wellFormed_readText (files : FileSystem) (file : Path) (text : String) :
    ∀ entry ∈ (readText files file text .empty).1.table.entries, entry.WellFormed := by
  obtain ⟨entries, stop, hexpands, htable, -⟩ :=
    exists_expands files [] file (numbered text) (.start .empty)
  intro entry hentry
  unfold readText at hentry
  rw [htable] at hentry
  exact hexpands.wellFormed entry (Table.mem_of_mem_foldl_insert hentry)

end Description

/-! ## Printing a table -/

theorem Entry.WellFormed.congr {entry other : Entry} (h : entry.WellFormed)
    (hcontent : entry.content = other.content) : other.WellFormed := by
  simp only [Entry.content, Prod.mk.injEq] at hcontent
  obtain ⟨hname, -, hdependencies⟩ := hcontent
  exact ⟨hname ▸ h.name, hname ▸ h.notInclude, hdependencies ▸ h.nodup, hdependencies ▸ h.names⟩

/-- The line that declares an entry. -/
def Entry.line (entry : Entry) : List Char :=
  entry.name.toList ++
    (entry.default.text :: entry.dependencies.map Dependency.text).flatMap (' ' :: ·.toList)

/-- A description of the table, one line for each entry. -/
def Table.description (table : Table) : String :=
  String.ofList (table.entries.flatMap (·.line ++ ['\n']))

namespace Description

theorem continues_flatMap (words : List String) :
    Continues words (words.flatMap (' ' :: ·.toList)) := by
  induction words with
  | nil => exact .done (List.forall_mem_nil _)
  | cons word words ih =>
      have hgap : IsGap [' '] := List.forall_mem_singleton.mpr ⟨rfl, by decide⟩
      exact .word hgap (List.cons_ne_nil _ _) ih

theorem spells_line (entry : Entry) : Spells (entry.words entry.default.text) entry.line := by
  have hspells : Spells (entry.words entry.default.text) ([] ++ entry.line ++ []) :=
    .words (List.forall_mem_nil _) (continues_flatMap _) (.inl rfl)
  rw [List.nil_append, List.append_nil] at hspells
  exact hspells

/-- The entries as they are numbered when each of them has a line. -/
def renumbered (file : Path) : Nat → List Entry → List Entry
  | _, [] => []
  | number, entry :: entries =>
    { entry with origin := ⟨file, number⟩ } :: renumbered file (number + 1) entries

theorem map_content_renumbered (number : Nat) (entries : List Entry) :
    (renumbered file number entries).map Entry.content = entries.map Entry.content := by
  induction entries generalizing number with
  | nil => rfl
  | cons entry entries ih =>
      rw [renumbered, List.map_cons, ih]
      rfl

theorem layout_renumbered (number : Nat) (entries : List Entry) :
    Layout file number (renumbered file number entries) (entries.flatMap (·.line ++ ['\n'])) := by
  induction entries generalizing number with
  | nil => exact .done
  | cons entry entries ih =>
      rw [renumbered, List.flatMap_cons, List.append_assoc]
      exact .entry rfl entry.default.spelled_text (spells_line entry) (.lineFeed _) (ih _)

/-! ## Reading back -/

theorem readText_layout {text : String} (hnodup : (entries.map (·.name)).Nodup)
    (hwell : ∀ entry ∈ entries, entry.WellFormed) (hlayout : Layout file 1 entries text.toList)
    (files : FileSystem) : (readText files file text .empty).2 = .ok () ∧
      (readText files file text .empty).1.table.entries.Perm entries := by
  obtain ⟨htable, hresult⟩ := hlayout.inserts hwell files .empty
  rw [htable]
  exact ⟨hresult, Table.entries_foldl_insert_perm hnodup⟩

/-- Only the lines on which the entries stand are other than in the table. -/
theorem readText_description {table : Table} (hwell : ∀ entry ∈ table.entries, entry.WellFormed)
    (files : FileSystem) (file : Path) :
    (readText files file table.description .empty).2 = .ok () ∧
      (readText files file table.description .empty).1.table.entries.map Entry.content =
        table.entries.map Entry.content := by
  have hlayout : Layout file 1 (renumbered file 1 table.entries) table.description.toList := by
    unfold Table.description
    rw [String.toList_ofList]
    exact layout_renumbered 1 table.entries
  have hcontents : (renumbered file 1 table.entries).map Entry.content =
      table.entries.map Entry.content := map_content_renumbered 1 table.entries
  have hnodup : ((renumbered file 1 table.entries).map (·.name)).Nodup := by
    have hnames := congrArg (List.map Prod.fst) hcontents
    rw [List.map_map, List.map_map] at hnames
    exact hnames ▸ table.nodup_names
  have hnumbered : ∀ entry ∈ renumbered file 1 table.entries, entry.WellFormed := by
    intro entry hentry
    have hmem := List.mem_map_of_mem (f := Entry.content) hentry
    rw [hcontents] at hmem
    obtain ⟨declared, hdeclared, hcontent⟩ := List.mem_map.mp hmem
    exact (hwell declared hdeclared).congr hcontent
  obtain ⟨hok, hperm⟩ := readText_layout hnodup hnumbered hlayout files
  refine ⟨hok, Table.map_content_entries_of_perm ?_⟩
  rw [← hcontents]
  exact hperm.map Entry.content

/--
**Descriptions are read back.** Well formed entries of different names, laid out in any way, are
read without an error, and the table holds these entries and no others, each with the line that it
stands on. What any text leaves in the table are well formed entries of different names, and
reading the description of that table works and says the same of the same names.
-/
theorem layouts_read_back (files : FileSystem) (file : Path) :
    (∀ (entries : List Entry) (text : String), (entries.map (·.name)).Nodup →
      (∀ entry ∈ entries, entry.WellFormed) → Layout file 1 entries text.toList →
      (readText files file text .empty).2 = .ok () ∧
        (readText files file text .empty).1.table.entries.Perm entries) ∧
    ∀ (text : String) (table : Table), (readText files file text .empty).1.table = table →
      (table.entries.map (·.name)).Nodup ∧ (∀ entry ∈ table.entries, entry.WellFormed) ∧
      (readText files file table.description .empty).2 = .ok () ∧
        (readText files file table.description .empty).1.table.entries.map Entry.content =
          table.entries.map Entry.content := by
  constructor
  · intro entries text hnodup hwell hlayout
    exact readText_layout hnodup hwell hlayout files
  · rintro text table rfl
    have hwell := wellFormed_readText files file text
    exact ⟨Table.nodup_names _, hwell, readText_description hwell files file⟩

/-- Both kinds of line breaks, a blank line, comments and gaps of different white space. -/
def flagsText : String := "# flags\r\n\n  UART\tYes  USB !DMA # console\r\nUSB no\n DMA nO"

def flags : List Entry :=
  [⟨"UART", .yes, [⟨"USB", false⟩, ⟨"DMA", true⟩], ⟨⟨"Kconfig"⟩, 3⟩⟩,
    ⟨"USB", .no, [], ⟨⟨"Kconfig"⟩, 4⟩⟩, ⟨"DMA", .no, [], ⟨⟨"Kconfig"⟩, 5⟩⟩]

theorem layout_flags : Layout ⟨"Kconfig"⟩ 1 flags flagsText.toList := by
  have hnothing : IsGap [] := List.forall_mem_nil _
  have hspace : IsGap " ".toList := by simp [IsGap, isSpace]
  have hspaces : IsGap "  ".toList := by simp [IsGap, isSpace]
  have htab : IsGap "\t".toList := by simp [IsGap, isSpace]
  have hcomment : Spells [] ([] ++ "# flags".toList) :=
    .blank hnothing (.inr ⟨" flags".toList, by decide, by simp⟩)
  have hblank : Spells [] ([] ++ []) := .blank hnothing (.inl rfl)
  have huart : Spells ["UART", "Yes", "USB", "!DMA"]
      ("  ".toList ++ ("UART".toList ++ ("\t".toList ++ ("Yes".toList ++ ("  ".toList ++
        ("USB".toList ++ (" ".toList ++ ("!DMA".toList ++ " ".toList))))))) ++
        "# console".toList) :=
    .words hspaces (.word htab (by simp) (.word hspaces (by simp)
      (.word hspace (by simp) (.done hspace)))) (.inr ⟨" console".toList, by decide, by simp⟩)
  have husb : Spells ["USB", "no"]
      ([] ++ ("USB".toList ++ (" ".toList ++ ("no".toList ++ []))) ++ []) :=
    .words hnothing (.word hspace (by simp) (.done hnothing)) (.inl rfl)
  have hdma : Spells ["DMA", "nO"]
      (" ".toList ++ ("DMA".toList ++ (" ".toList ++ ("nO".toList ++ []))) ++ []) :=
    .words hspace (.word hspace (by simp) (.done hnothing)) (.inl rfl)
  have hyes : Toggle.yes.Spelled "Yes" := .cons (.inr rfl) (.cons (.inl rfl) (.cons (.inl rfl) .nil))
  have hno : Toggle.no.Spelled "nO" := .cons (.inl rfl) (.cons (.inr rfl) .nil)
  exact .idle hcomment (.carriageReturn _) (.idle hblank (.lineFeed _)
    (.entry rfl hyes huart (.carriageReturn _) (.entry rfl (Toggle.spelled_text .no) husb
      (.lineFeed _) (.entry rfl hno hdma (.last (by simp)) .done))))

theorem layouts_read_back_flags :
    (flags.map (·.name)).Nodup ∧ (∀ entry ∈ flags, entry.WellFormed) ∧
      Layout ⟨"Kconfig"⟩ 1 flags flagsText.toList ∧
      (readText (.ofRoot (.directory [])) ⟨"Kconfig"⟩ flagsText .empty).2 = .ok () ∧
      (readText (.ofRoot (.directory [])) ⟨"Kconfig"⟩ flagsText .empty).1.table.entries.Perm flags ∧
      ∃ table, (readText (.ofRoot (.directory [])) ⟨"Kconfig"⟩ flagsText .empty).1.table = table ∧
        (readText (.ofRoot (.directory [])) ⟨"Kconfig"⟩ table.description .empty).2 = .ok () ∧
        (readText (.ofRoot (.directory [])) ⟨"Kconfig"⟩ table.description
          .empty).1.table.entries.map Entry.content = table.entries.map Entry.content := by
  have hnames : (flags.map (·.name)).Nodup := by decide
  have hwell : ∀ entry ∈ flags, entry.WellFormed := by
    simp only [flags, List.forall_mem_cons]
    refine ⟨?_, ?_, ?_, List.forall_mem_nil _⟩ <;>
      exact ⟨by decide, by decide, by decide, by decide⟩
  obtain ⟨hread, hback⟩ := layouts_read_back (.ofRoot (.directory [])) ⟨"Kconfig"⟩
  obtain ⟨hok, hperm⟩ := hread flags flagsText hnames hwell layout_flags
  obtain ⟨-, -, hdescription⟩ := hback flagsText _ rfl
  exact ⟨hnames, hwell, layout_flags, hok, hperm, _, rfl, hdescription⟩

end Description

end FeatureFlags
