import FeatureFlags.Fragments
import FeatureFlags.Proofs.ByteOrder
import FeatureFlags.Proofs.Equations
import FeatureFlags.Proofs.Lines

/-!
# Reading the fragments back

A fragment is an opening, one line for each entry that is on, and in the header a closing. The name
on a line stands between what every line starts with and the next space. Names hold no space and
no line break, so that reading the lines gives back the names, all of them and in order, however
wide the column is that they are padded to (`render_reads_back`).
-/

namespace FeatureFlags

theorem notMem_of_isName {text : String} {c : Char} (h : isName text = true)
    (hc : isNameChar c = false) : c ∉ text.toList := by
  unfold isName at h
  rw [Bool.and_eq_true, List.all_eq_true] at h
  intro hmem
  rw [h.2 c hmem] at hc
  cases hc

/-- What is written part by part is read back if each of its parts is. -/
theorem mapM_map_eq_some {α β : Type} {write : α → β} {read? : β → Option α} {parts : List α}
    (h : ∀ part ∈ parts, read? (write part) = some part) :
    (parts.map write).mapM read? = some parts := by
  induction parts with
  | nil => rfl
  | cons part parts ih =>
      obtain ⟨hpart, hparts⟩ := List.forall_mem_cons.mp h
      rw [List.map_cons, List.mapM_cons, hpart, ih hparts]
      rfl

namespace Text

/-! ## Lines -/

theorem splitOn_flatMap_newline {lines : List (List Char)} (h : ∀ line ∈ lines, '\n' ∉ line) :
    (lines.flatMap (· ++ ['\n'])).splitOn '\n' = lines ++ [[]] := by
  induction lines with
  | nil => rfl
  | cons line lines ih =>
      obtain ⟨hline, hlines⟩ := List.forall_mem_cons.mp h
      rw [List.flatMap_cons, List.append_assoc, List.singleton_append,
        List.splitOn_append_cons_self, List.splitOn_eq_singleton hline, ih hlines]
      rfl

/-- A text made of lines that each end in a line break has these lines. -/
theorem lines_flatMap_newline {lines : List (List Char)} (h : ∀ line ∈ lines, '\n' ∉ line)
    (hreturn : ∀ line ∈ lines, line.getLast? ≠ some '\r') :
    Text.lines (lines.flatMap (· ++ ['\n'])) = lines := by
  have hkept : lines.map dropReturn = lines.map id := by
    apply List.map_congr_left
    intro line hline
    exact if_neg (hreturn line hline)
  unfold Text.lines
  rw [splitOn_flatMap_newline h]
  simp only [List.dropLast_concat, List.getLast?_concat, hkept, List.map_id, Option.getD_some,
    if_true, List.append_nil]

/-- Padding is spaces, and so is what comes next: the word ends where the first of them is. -/
theorem takeWhile_padRight {word : String} (h : ' ' ∉ word.toList) (width : Nat)
    (rest : List Char) :
    ((padRight width word).toList ++ ' ' :: rest).takeWhile (· ≠ ' ') = word.toList := by
  rw [toList_padRight, List.append_assoc]
  apply (span_append_of_notMem h _).1
  cases width - word.length <;> rfl

end Text

namespace Fragments

/-! ## Readers -/

/-- What the makefile starts with. -/
def makefileOpening (settings : Settings) : String :=
  "# AUTOGENERATED from " ++ settings.generator ++ ". DO NOT EDIT!\n\n"

/-- What the header starts with, the guard included. -/
def headerOpening (settings : Settings) : String :=
  "/* AUTOGENERATED from " ++ settings.generator ++ ". DO NOT EDIT! */\n\n" ++
    "#ifndef " ++ settings.headerGuard ++ "\n#define " ++ settings.headerGuard ++ "\n\n"

/-- What the header ends with. -/
def headerClosing : String := "\n#endif\n"

/-- The name on a line: what stands between `lead` and the next space. -/
def nameAfter? (lead line : List Char) : Option String :=
  (line.dropPrefix? lead).map fun rest => String.ofList (rest.takeWhile (· ≠ ' '))

/-- The names on the lines between `opening` and `closing`, all of which start with `lead`. -/
def namesBetween? (opening lead closing text : String) : Option (List String) := do
  let rest ← text.toList.dropPrefix? opening.toList
  let body ← rest.dropSuffix? closing.toList
  (Text.lines body).mapM (nameAfter? lead.toList)

def makefileNames? (settings : Settings) (text : String) : Option (List String) :=
  namesBetween? (makefileOpening settings) settings.symbolPrefix "" text

def headerNames? (settings : Settings) (text : String) : Option (List String) :=
  namesBetween? (headerOpening settings) ("#define " ++ settings.symbolPrefix) headerClosing text

/-! ## Entry lines -/

/-- The line of an entry, without the line break. -/
def entryLine (lead tail : String) (width : Nat) (name : String) : List Char :=
  lead.toList ++ ((Text.padRight width name).toList ++ tail.toList)

variable {lead tail name : String} {width : Nat}

theorem nameAfter?_entryLine {rest : List Char} (htail : tail.toList = ' ' :: rest)
    (hname : ' ' ∉ name.toList) :
    nameAfter? lead.toList (entryLine lead tail width name) = some name := by
  have hlead : (entryLine lead tail width name).dropPrefix? lead.toList =
      some ((Text.padRight width name).toList ++ tail.toList) :=
    List.dropPrefix?_eq_some_iff.mpr ⟨lead.toList, rfl, beq_self_eq_true _⟩
  unfold nameAfter?
  rw [hlead, Option.map_some, htail, Text.takeWhile_padRight hname, String.ofList_toList]

theorem notMem_entryLine {c : Char} (hc : c ≠ ' ') (hlead : c ∉ lead.toList)
    (htail : c ∉ tail.toList) (hname : c ∉ name.toList) : c ∉ entryLine lead tail width name := by
  unfold entryLine
  rw [Text.toList_padRight]
  simp [hlead, htail, hname, hc]

theorem getLast?_entryLine {c : Char} (htail : tail.toList.getLast? = some c) :
    (entryLine lead tail width name).getLast? = some c := by
  unfold entryLine
  rw [List.getLast?_append, List.getLast?_append, htail]
  rfl

theorem mapM_nameAfter?_entryLine {names : List String} {rest : List Char}
    (htail : tail.toList = ' ' :: rest) (hnames : ∀ name ∈ names, isName name = true) :
    (names.map (entryLine lead tail width)).mapM (nameAfter? lead.toList) = some names := by
  apply mapM_map_eq_some
  intro name hname
  exact nameAfter?_entryLine htail (notMem_of_isName (hnames name hname) rfl)

theorem lines_entryLines {names : List String} (hlead : '\n' ∉ lead.toList)
    (hnewline : '\n' ∉ tail.toList) (hlast : tail.toList.getLast? = some 'y')
    (hnames : ∀ name ∈ names, isName name = true) :
    Text.lines ((names.map (entryLine lead tail width)).flatMap (· ++ ['\n'])) =
      names.map (entryLine lead tail width) := by
  apply Text.lines_flatMap_newline
  · rw [List.forall_mem_map]
    intro name hname
    exact notMem_entryLine (by decide) hlead hnewline (notMem_of_isName (hnames name hname) rfl)
  · rw [List.forall_mem_map]
    intro name hname
    rw [getLast?_entryLine hlast]
    decide

theorem namesBetween?_eq {opening closing text : String} {names : List String} {rest : List Char}
    (htext : text.toList = opening.toList ++
      ((names.map (entryLine lead tail width)).flatMap (· ++ ['\n']) ++ closing.toList))
    (htail : tail.toList = ' ' :: rest) (hlead : '\n' ∉ lead.toList)
    (hnewline : '\n' ∉ tail.toList) (hlast : tail.toList.getLast? = some 'y')
    (hnames : ∀ name ∈ names, isName name = true) :
    namesBetween? opening lead closing text = some names := by
  have hopening : text.toList.dropPrefix? opening.toList =
      some ((names.map (entryLine lead tail width)).flatMap (· ++ ['\n']) ++ closing.toList) :=
    List.dropPrefix?_eq_some_iff.mpr ⟨opening.toList, htext, beq_self_eq_true _⟩
  have hclosing :
      ((names.map (entryLine lead tail width)).flatMap (· ++ ['\n']) ++
        closing.toList).dropSuffix? closing.toList =
      some ((names.map (entryLine lead tail width)).flatMap (· ++ ['\n'])) :=
    List.dropSuffix?_eq_some_iff.mpr ⟨closing.toList, rfl, beq_self_eq_true _⟩
  unfold namesBetween?
  simp only [Option.bind_eq_bind, hopening, Option.bind_some, hclosing,
    lines_entryLines hlead hnewline hlast hnames, mapM_nameAfter?_entryLine htail hnames]

/-! ## The fragments as lines -/

variable {settings : Settings} {resolution : Resolution}

theorem toList_makefileOf : (makefileOf resolution settings).toList =
    (makefileOpening settings).toList ++
      ((resolution.enabled.map (entryLine settings.symbolPrefix " = y"
        settings.nameWidth.toNat)).flatMap (· ++ ['\n']) ++ "".toList) := by
  unfold makefileOf makefileOpening symbols
  simp only [String.toList_append, String.toList_join, List.map_map, List.flatMap_map]
  simp [entryLine]

theorem toList_headerOf : (headerOf resolution settings).toList =
    (headerOpening settings).toList ++
      ((resolution.enabled.map (entryLine ("#define " ++ settings.symbolPrefix) " y"
        settings.nameWidth.toNat)).flatMap (· ++ ['\n']) ++ headerClosing.toList) := by
  unfold headerOf headerOpening headerClosing symbols
  simp only [String.toList_append, String.toList_join, List.map_map, List.flatMap_map]
  simp [entryLine]

theorem isName_symbolPrefix (hvalid : settings.validate = .ok ()) :
    isName settings.symbolPrefix = true := by
  unfold Settings.validate at hvalid
  split at hvalid
  · cases hvalid
  · next hprefix => simpa using hprefix

theorem makefileNames?_makefileOf (hvalid : settings.validate = .ok ())
    (hnames : ∀ name ∈ resolution.enabled, isName name = true) :
    makefileNames? settings (makefileOf resolution settings) = some resolution.enabled := by
  have hlead := notMem_of_isName (isName_symbolPrefix hvalid) (show isNameChar '\n' = false from rfl)
  exact namesBetween?_eq toList_makefileOf rfl hlead (by decide) rfl hnames

theorem headerNames?_headerOf (hvalid : settings.validate = .ok ())
    (hnames : ∀ name ∈ resolution.enabled, isName name = true) :
    headerNames? settings (headerOf resolution settings) = some resolution.enabled := by
  have hprefix := notMem_of_isName (isName_symbolPrefix hvalid) (show isNameChar '\n' = false from rfl)
  have hlead : '\n' ∉ ("#define " ++ settings.symbolPrefix).toList := by
    rw [String.toList_append, List.mem_append, not_or]
    exact ⟨by decide, hprefix⟩
  exact namesBetween?_eq toList_headerOf rfl hlead (by decide) rfl hnames

end Fragments

/-! ## The names that are on -/

open FeatureFlags.Graph in
theorem Table.names_of_resolve {table : Table} {resolution : Resolution}
    (h : table.resolve = .ok resolution) :
    resolution.values.toList.map (·.1) = table.entries.map (·.name) := by
  obtain ⟨graph, hlink, values, -, rfl⟩ := Table.resolve_eq_ok h
  obtain ⟨named, hnamed⟩ := exists_named hlink values
  simp only [← hnamed]
  rw [toList_ofFn_of_link hlink named, List.map_map]
  rfl

namespace Resolution

theorem mem_enabled_iff {resolution : Resolution} {name : String} :
    name ∈ resolution.enabled ↔ (name, true) ∈ resolution.values := by
  unfold enabled
  simp

theorem enabled_sublist (resolution : Resolution) :
    resolution.enabled.Sublist (resolution.values.toList.map (·.1)) :=
  List.filter_sublist.map _

end Resolution

namespace Fragments

/--
**Both fragments list the names that are on.** For settings that are accepted, with a column that
is not too wide, rendering the resolution of a table of valid names works. Reading either fragment
back, line by line, gives the names that the resolution has as on, each of them once, in strictly
ascending order of bytes.
-/
theorem render_reads_back (table : Table) (settings : Settings) (resolution : Resolution)
    (hnames : ∀ entry ∈ table.entries, isName entry.name = true)
    (hvalid : settings.validate = .ok ()) (hwidth : settings.nameWidth.toNat ≤ 65535)
    (hresolve : table.resolve = .ok resolution) :
    ∃ fragments names, render resolution settings = .ok fragments ∧
      makefileNames? settings fragments.makefile = some names ∧
      headerNames? settings fragments.header = some names ∧
      (∀ name, name ∈ names ↔ (name, true) ∈ resolution.values) ∧
      names.Pairwise fun a b => Text.bytes a < Text.bytes b := by
  have hsublist := resolution.enabled_sublist
  rw [Table.names_of_resolve hresolve] at hsublist
  have hon : ∀ name ∈ resolution.enabled, isName name = true := by
    intro name hname
    obtain ⟨entry, hentry, rfl⟩ := List.mem_map.mp (hsublist.mem hname)
    exact hnames entry hentry
  refine ⟨⟨makefileOf resolution settings, headerOf resolution settings⟩, resolution.enabled,
    if_neg ?_, makefileNames?_makefileOf hvalid hon, headerNames?_headerOf hvalid hon, ?_, ?_⟩
  · rintro ⟨-, hwide⟩
    exact Nat.not_lt.mpr hwidth hwide
  · intro name
    exact Resolution.mem_enabled_iff
  · apply List.Pairwise.sublist hsublist
    rw [List.pairwise_map]
    apply table.entries_ordered.imp
    intro a b hlt
    exact Text.bytes_lt_bytes (compare_lt_iff_lt.mp hlt)

/-- One name is longer than the column, one shorter, and one is off. -/
def narrowColumn : Table :=
  ((Table.empty.insert ⟨"USB", .no, [], ⟨⟨"main"⟩, 1⟩⟩).insert
    ⟨"UART_DMA", .yes, [⟨"USB", true⟩], ⟨⟨"main"⟩, 2⟩⟩).insert
    ⟨"UART", .yes, [], ⟨⟨"main"⟩, 3⟩⟩

theorem render_reads_back_narrowColumn :
    narrowColumn.resolve = .ok ⟨#[("UART", true), ("UART_DMA", true), ("USB", false)]⟩ ∧
      ∃ fragments names,
        render ⟨#[("UART", true), ("UART_DMA", true), ("USB", false)]⟩ { nameWidth := 6 } =
          .ok fragments ∧
        makefileNames? { nameWidth := 6 } fragments.makefile = some names ∧
        headerNames? { nameWidth := 6 } fragments.header = some names ∧
        (∀ name, name ∈ names ↔
          (name, true) ∈ #[("UART", true), ("UART_DMA", true), ("USB", false)]) ∧
        names.Pairwise fun a b => Text.bytes a < Text.bytes b := by
  have hresolve : narrowColumn.resolve =
      .ok ⟨#[("UART", true), ("UART_DMA", true), ("USB", false)]⟩ := by cbv
  have hentries : narrowColumn.entries.map (·.name) = ["UART", "UART_DMA", "USB"] := by cbv
  have hnames : ∀ name ∈ narrowColumn.entries.map (·.name), isName name = true := by
    rw [hentries]
    decide
  exact ⟨hresolve, render_reads_back narrowColumn { nameWidth := 6 } _
    (List.forall_mem_map.mp hnames) rfl (by decide) hresolve⟩

end Fragments

end FeatureFlags
