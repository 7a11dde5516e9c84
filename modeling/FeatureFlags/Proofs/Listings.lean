import FeatureFlags.Proofs.Contents
import FeatureFlags.Proofs.ReadingBack

/-!
# Reading a listing back

A line of a listing is the prefix, the name, `=` and the default, and if there are dependencies, then
spaces, a bar and the dependencies, the positive ones first. Names hold none of the signs between
these parts, so that each line gives back its entry as it is listed, however long the name is
(`Listed.read?_line`). So a listing says exactly what a graph takes of the entries, and what is read
from it can be linked in the place of the table (`listing_reads_back`).
-/

namespace FeatureFlags

open Text

namespace Listed

/-! ## Readers -/

/-- What stands between the default and the dependencies, next to spaces that fill the column. -/
def bar : List Char := " | ".toList

/-- The dependencies after the first bar; without a bar there are none. -/
def readDependencies? (rest : List Char) : Option (List Dependency) :=
  match rest.dropInfix? bar with
  | some (_, tokens) =>
    (tokens.splitOn ' ').mapM fun token => Dependency.ofToken? (String.ofList token)
  | none => some []

/-- The row with dependencies that come in any order. -/
def ofDependencies (name : String) (value : Toggle) (dependencies : List Dependency) : Listed :=
  ⟨name, value, (dependencies.filter (! ·.negated)).map (·.name),
    (dependencies.filter (·.negated)).map (·.name)⟩

/--
Reads a line after `lead`: the name up to the `=`, the default up to the next space or the end, and
the dependencies.
-/
def read? (lead : String) (line : List Char) : Option Listed := do
  let declared ← line.dropPrefix? lead.toList
  let name := declared.takeWhile (· ≠ '=')
  let value := (declared.dropWhile (· ≠ '=')).tail
  let toggle ← Toggle.ofWord? (String.ofList (value.takeWhile (· ≠ ' ')))
  let dependencies ← readDependencies? (value.dropWhile (· ≠ ' '))
  return ofDependencies (String.ofList name) toggle dependencies

/-- Reads every line of a listing. -/
def readAll? (lead text : String) : Option (List Listed) :=
  (Text.lines text.toList).mapM (read? lead)

/-! ## Rows -/

/-- The dependencies in the order in which they are listed. -/
def dependencies (row : Listed) : List Dependency :=
  row.positive.map (⟨·, false⟩) ++ row.negative.map (⟨·, true⟩)

/-- An entry that is listed so, declared at `origin`. -/
def entry (origin : Origin) (row : Listed) : Entry :=
  ⟨row.name, row.default, row.dependencies, origin⟩

theorem ofDependencies_dependencies (row : Listed) :
    ofDependencies row.name row.default row.dependencies = row := by
  simp [ofDependencies, dependencies, List.filter_map, Function.comp_def]

@[simp] theorem listed_entry (origin : Origin) (row : Listed) : (row.entry origin).listed = row :=
  row.ofDependencies_dependencies

/-- All that is listed is made of names. -/
structure Named (row : Listed) : Prop where
  name : isName row.name = true
  dependencies : ∀ dependency ∈ row.dependencies, isName dependency.name = true

/-- How many spaces fill the column after the default; none if it is too narrow. -/
def padding (settings : Settings) (row : Listed) : Nat :=
  Table.listingColumn - (settings.symbol row.name ++ "=" ++ row.default.text).length

/-- What stands after the default: nothing, or the padding, a bar and the dependencies. -/
def tail (settings : Settings) (row : Listed) : List Char :=
  if row.dependencies = [] then []
  else
    List.replicate (row.padding settings) ' ' ++
      (bar ++ [' '].intercalate (row.dependencies.map fun dependency => dependency.text.toList))

/-- The line of a row, without the line break. -/
def line (settings : Settings) (row : Listed) : List Char :=
  settings.symbolPrefix.toList ++
    (row.name.toList ++ '=' :: (row.default.text.toList ++ row.tail settings))

end Listed

theorem Entry.dependencies_listed (entry : Entry) : entry.listed.dependencies =
    entry.dependencies.filter (! ·.negated) ++ entry.dependencies.filter (·.negated) := by
  have hkept : ∀ (negated : Bool) (dependencies : List Dependency),
      (∀ dependency ∈ dependencies, dependency.negated = negated) →
        (dependencies.map (·.name)).map (⟨·, negated⟩) = dependencies := by
    intro negated dependencies hall
    rw [List.map_map]
    refine (List.map_congr_left fun dependency hdependency => ?_).trans (List.map_id _)
    rw [Function.comp_apply, ← hall dependency hdependency, id]
  unfold Listed.dependencies Entry.listed Entry.positive Entry.negative
  rw [hkept false _ (by simp), hkept true _ (by simp)]

/-- The order of the dependencies changes, but not what they are. -/
theorem Entry.mem_dependencies_listed {entry : Entry} {dependency : Dependency} :
    dependency ∈ entry.listed.dependencies ↔ dependency ∈ entry.dependencies := by
  rw [dependencies_listed, List.mem_append, List.mem_filter, List.mem_filter]
  cases dependency.negated <;> simp

theorem Entry.dependencies_listed_eq_nil_iff {entry : Entry} :
    entry.listed.dependencies = [] ↔ entry.dependencies = [] := by
  simp only [List.eq_nil_iff_forall_not_mem, mem_dependencies_listed]

theorem toList_listingLine (settings : Settings) (entry : Entry) :
    (Table.listingLine settings entry).toList = entry.listed.line settings ++ ['\n'] := by
  have htokens : (entry.positive ++ entry.negative.map ("!" ++ ·)) =
      entry.listed.dependencies.map Dependency.text := by
    simp [Listed.dependencies, Entry.listed, Dependency.text, Function.comp_def]
  unfold Table.listingLine Listed.line Listed.tail Listed.padding
  rw [htokens]
  by_cases hnone : entry.dependencies = []
  · rw [if_pos (Entry.dependencies_listed_eq_nil_iff.mpr hnone)]
    simp [hnone, Settings.symbol, Entry.listed]
  · rw [if_neg fun h => hnone (Entry.dependencies_listed_eq_nil_iff.mp h)]
    simp [hnone, Settings.symbol, Entry.listed, Listed.bar, String.toList_intercalate,
      Text.toList_padRight, Function.comp_def]

namespace Listed

theorem dropInfix?_bar (count : Nat) (rest : List Char) :
    (List.replicate count ' ' ++ (bar ++ rest)).dropInfix? bar =
      some (List.replicate count ' ', rest) := by
  rw [List.dropInfix?_eq_some_iff]
  refine ⟨⟨bar, by rw [List.append_assoc], beq_self_eq_true _⟩, ?_⟩
  rintro before found after hsplit hfound
  obtain rfl := eq_of_beq hfound
  rw [List.length_replicate]
  by_contra hshort
  have hsign : (before ++ bar ++ after)[before.length + 1]? = some '|' := by
    simp [bar]
  have hspace : (List.replicate count ' ' ++ (bar ++ rest))[before.length + 1]? = some ' ' := by
    rcases Nat.lt_or_eq_of_le (Nat.not_le.mp hshort) with hlt | heq
    · rw [List.getElem?_append_left (by simpa using hlt), List.getElem?_replicate_of_lt hlt]
    · rw [← heq, List.getElem?_append_right (by simp)]
      simp [bar]
  rw [hsplit, hsign] at hspace
  cases hspace

variable {row : Listed}

theorem readDependencies?_tail (h : row.Named) (settings : Settings) :
    readDependencies? (row.tail settings) = some row.dependencies := by
  unfold readDependencies? tail
  by_cases hnone : row.dependencies = []
  · rw [if_pos hnone, hnone]
    rfl
  · have hspace : ∀ token ∈ row.dependencies.map fun dependency => dependency.text.toList,
        ' ' ∉ token := by
      rw [List.forall_mem_map]
      intro dependency hdependency hmem
      cases ((Dependency.isWord_text (h.dependencies dependency hdependency)).2 ' ' hmem).1
    have hne : (row.dependencies.map fun dependency => dependency.text.toList) ≠ [] := by
      simpa using hnone
    simp only [if_neg hnone, dropInfix?_bar, List.splitOn_intercalate ' ' hspace hne]
    apply mapM_map_eq_some
    intro dependency hdependency
    rw [String.ofList_toList]
    exact Dependency.ofToken?_text (h.dependencies dependency hdependency)

/-- The tail starts with a space, if there is one. -/
theorem head?_tail (settings : Settings) (row : Listed) :
    (row.tail settings).head?.any (· ≠ ' ') = false := by
  unfold tail
  split
  · rfl
  · cases row.padding settings <;> rfl

theorem read?_line (h : row.Named) (settings : Settings) :
    read? settings.symbolPrefix (row.line settings) = some row := by
  have hlead : (row.line settings).dropPrefix? settings.symbolPrefix.toList =
      some (row.name.toList ++ '=' :: (row.default.text.toList ++ row.tail settings)) :=
    List.dropPrefix?_eq_some_iff.mpr ⟨settings.symbolPrefix.toList, rfl, beq_self_eq_true _⟩
  have hword : ' ' ∉ row.default.text.toList := by
    cases row.default <;> decide
  obtain ⟨hname, hvalue⟩ := span_append_of_notMem
    (notMem_of_isName h.name (show isNameChar '=' = false from rfl))
    (show ('=' :: (row.default.text.toList ++ row.tail settings)).head?.any (· ≠ '=') = false
      from rfl)
  obtain ⟨htoggle, htail⟩ := span_append_of_notMem hword (head?_tail settings row)
  unfold read?
  simp only [Option.bind_eq_bind, hlead, Option.bind_some, hname, hvalue, List.tail_cons, htoggle,
    htail, String.ofList_toList, Toggle.ofWord?_text, readDependencies?_tail h,
    ofDependencies_dependencies]
  rfl

/-! ## Lines -/

theorem notMem_intercalate {c sign : Char} (hc : c ≠ sign) {pieces : List (List Char)}
    (h : ∀ piece ∈ pieces, c ∉ piece) : c ∉ [sign].intercalate pieces := by
  induction pieces with
  | nil => simp
  | cons piece pieces ih =>
      obtain ⟨hpiece, hpieces⟩ := List.forall_mem_cons.mp h
      cases pieces with
      | nil => simpa using hpiece
      | cons next rest => simpa [List.intercalate, hc, hpiece] using ih hpieces

/-- What is neither in a name nor one of the four signs is in no line. -/
theorem notMem_line {c : Char} (hc : isNameChar c = false) (hsigns : c ∉ ['=', ' ', '|', '!'])
    {settings : Settings} (hlead : isName settings.symbolPrefix = true) (h : row.Named) :
    c ∉ row.line settings := by
  simp only [List.mem_cons, List.not_mem_nil, or_false, not_or] at hsigns
  obtain ⟨hequals, hspace, hbar, hmark⟩ := hsigns
  have hdefault := Toggle.isName_of_spelled row.default.spelled_text
  have htokens : c ∉ [' '].intercalate
      (row.dependencies.map fun dependency => dependency.text.toList) := by
    apply notMem_intercalate hspace
    rw [List.forall_mem_map]
    intro dependency hdependency
    have hname := notMem_of_isName (h.dependencies dependency hdependency) hc
    unfold Dependency.text
    split <;> simp [hname, hmark]
  have htail : c ∉ row.tail settings := by
    unfold tail bar
    split
    · exact List.not_mem_nil
    · simp [hspace, hbar, htokens]
  unfold line
  simp [notMem_of_isName hlead hc, notMem_of_isName h.name hc, hequals,
    notMem_of_isName hdefault hc, htail]

end Listed

namespace Table

/-- The names of the entries and of what they depend on are valid. -/
def Named (table : Table) : Prop :=
  ∀ entry ∈ table.entries, isName entry.name = true ∧
    ∀ dependency ∈ entry.dependencies, isName dependency.name = true

/-- The table with the entries that are listed so, each of them declared where `origins` says. -/
def ofListed (origins : String → Origin) (rows : List Listed) : Table :=
  (rows.map fun row => row.entry (origins row.name)).foldl insert empty

variable {table : Table} {settings : Settings}

theorem Named.listed (h : table.Named) : ∀ row ∈ table.entries.map Entry.listed, row.Named := by
  rw [List.forall_mem_map]
  intro entry hentry
  obtain ⟨hname, hdependencies⟩ := h entry hentry
  exact ⟨hname, fun dependency hdependency =>
    hdependencies dependency (Entry.mem_dependencies_listed.mp hdependency)⟩

theorem toList_listing (table : Table) (settings : Settings) :
    (table.listing settings).toList =
      ((table.entries.map Entry.listed).map (Listed.line settings)).flatMap (· ++ ['\n']) := by
  unfold listing
  rw [String.toList_join, List.flatMap_map, List.flatMap_map, List.flatMap_map]
  simp only [toList_listingLine]

theorem lines_listing (h : table.Named) (hlead : isName settings.symbolPrefix = true) :
    Text.lines (table.listing settings).toList =
      (table.entries.map Entry.listed).map (Listed.line settings) := by
  rw [toList_listing]
  apply Text.lines_flatMap_newline
  · rw [List.forall_mem_map]
    intro row hrow
    exact Listed.notMem_line rfl (by decide) hlead (h.listed row hrow)
  · rw [List.forall_mem_map]
    intro row hrow hlast
    exact Listed.notMem_line rfl (by decide) hlead (h.listed row hrow)
      (List.mem_of_getLast? hlast)

theorem readAll?_listing (h : table.Named) (hlead : isName settings.symbolPrefix = true) :
    Listed.readAll? settings.symbolPrefix (table.listing settings) =
      some (table.entries.map Entry.listed) := by
  unfold Listed.readAll?
  rw [lines_listing h hlead]
  apply mapM_map_eq_some
  intro row hrow
  exact Listed.read?_line (h.listed row hrow) settings

/-- Entries that are listed together have names of their own, and so all stay in a table. -/
theorem listed_ofListed (table : Table) (origins : String → Origin) :
    (ofListed origins (table.entries.map Entry.listed)).entries.map Entry.listed =
      table.entries.map Entry.listed := by
  apply map_entries_of_perm Listed.name fun _ => rfl
  have hnodup : (((table.entries.map Entry.listed).map
      fun row => row.entry (origins row.name)).map (·.name)).Nodup := by
    rw [List.map_map, List.map_map]
    exact table.nodup_names
  refine ((entries_foldl_insert_perm hnodup).map Entry.listed).trans ?_
  rw [List.map_map]
  have hkept : Entry.listed ∘ (fun row : Listed => row.entry (origins row.name)) = id :=
    funext fun row => row.listed_entry _
  rw [hkept, List.map_id]

/-- What `rows` and the listing that they are read from tell of a table. -/
structure ReadsBack (table : Table) (settings : Settings) (rows : List Listed) : Prop where
  read : Listed.readAll? settings.symbolPrefix (table.listing settings) = some rows
  rows_eq : rows = table.entries.map Entry.listed
  lines : (Text.lines (table.listing settings).toList).length = table.entries.length
  ordered : rows.Pairwise fun a b => Text.bytes a.name < Text.bytes b.name
  listing_eq_iff : ∀ other : Table, other.Named → (table.listing settings = other.listing settings ↔
    ∀ name, (table.get? name).map Entry.listed = (other.get? name).map Entry.listed)
  link : ∀ origins graph, Graph.link table = .ok graph →
    Graph.link (ofListed origins rows) = .ok graph

/--
**A listing can be read back.** With a valid prefix, the listing of a table of valid names has one
line for each entry, in strictly ascending order of the bytes of their names. From each line the
name, the default, the positive and the negative dependencies are read, both in their order. Another
such table has the same listing exactly if it has these in common for every name. If the table can
be linked, what is read from its listing makes a table with the same graph.
-/
theorem listing_reads_back (table : Table) (settings : Settings) (h : table.Named)
    (hlead : isName settings.symbolPrefix = true) : ∃ rows, table.ReadsBack settings rows := by
  refine ⟨_, readAll?_listing h hlead, rfl, ?_, ?_, ?_, ?_⟩
  · rw [lines_listing h hlead, List.length_map, List.length_map]
  · rw [List.pairwise_map]
    apply table.entries_ordered.imp
    intro a b hlt
    exact Text.bytes_lt_bytes (compare_lt_iff_lt.mp hlt)
  · intro other hother
    constructor
    · intro hsame
      have hread := (readAll?_listing h hlead).symm
      rw [hsame, readAll?_listing hother hlead] at hread
      exact map_get?_congr Listed.name (fun _ => rfl) (Option.some.inj hread)
    · intro hsame
      rw [← String.toList_inj, toList_listing, toList_listing, map_entries_congr hsame]
  · intro origins graph hlink
    exact (Graph.link_eq_ok_congr (table.listed_ofListed origins)).mpr hlink

/-- One name does not fit into the column, and `UART` mixes what it needs with what it excludes. -/
def ports : Table :=
  (((Table.empty.insert ⟨"UART", .yes, [⟨"DMA", true⟩, ⟨"USB", false⟩], ⟨⟨"main"⟩, 1⟩⟩).insert
    ⟨"USB", .yes, [], ⟨⟨"main"⟩, 2⟩⟩).insert
    ⟨"UART_WITH_HARDWARE_FLOW_CONTROL", .no, [⟨"UART", false⟩], ⟨⟨"main"⟩, 3⟩⟩).insert
    ⟨"DMA", .no, [], ⟨⟨"main"⟩, 4⟩⟩

/-- The same with the dependencies of `UART` in the other order. -/
def sortedPorts : Table :=
  ports.insert ⟨"UART", .yes, [⟨"USB", false⟩, ⟨"DMA", true⟩], ⟨⟨"main"⟩, 5⟩⟩

theorem named_of_all {table : Table} (h : (table.entries.all fun entry =>
    isName entry.name && entry.dependencies.all (isName ·.name)) = true) : table.Named := by
  simpa [Named] using h

theorem listing_reads_back_ports :
    ports.Named ∧ isName ({} : Settings).symbolPrefix = true ∧
    ∃ rows graph, Listed.readAll? "CONFIG_" (ports.listing {}) = some rows ∧
      rows = [⟨"DMA", .no, [], []⟩, ⟨"UART", .yes, ["USB"], ["DMA"]⟩,
        ⟨"UART_WITH_HARDWARE_FLOW_CONTROL", .no, ["UART"], []⟩, ⟨"USB", .yes, [], []⟩] ∧
      ports.listing {} = sortedPorts.listing {} ∧
      Graph.link ports = .ok graph ∧
      Graph.link (ofListed (fun _ => ⟨⟨"listing"⟩, 1⟩) rows) = .ok graph := by
  have hports : ports.Named := named_of_all (by cbv)
  have hsorted : sortedPorts.Named := named_of_all (by cbv)
  have hlisted : ports.entries.map Entry.listed = [⟨"DMA", .no, [], []⟩,
      ⟨"UART", .yes, ["USB"], ["DMA"]⟩,
      ⟨"UART_WITH_HARDWARE_FLOW_CONTROL", .no, ["UART"], []⟩, ⟨"USB", .yes, [], []⟩] := by cbv
  have hsame : ports.entries.map Entry.listed = sortedPorts.entries.map Entry.listed := by
    rw [hlisted]
    cbv
  have hlink : Graph.link ports = .ok (Graph.ofEntries ports.entries.toArray) :=
    Graph.link_eq_ok_iff.mpr ⟨by cbv, rfl⟩
  obtain ⟨rows, hback⟩ := listing_reads_back ports {} hports rfl
  refine ⟨hports, rfl, rows, _, hback.read, hback.rows_eq.trans hlisted, ?_, hlink,
    hback.link _ _ hlink⟩
  exact (hback.listing_eq_iff sortedPorts hsorted).mpr
    (map_get?_congr Listed.name (fun _ => rfl) hsame)

end Table

end FeatureFlags
