import FeatureFlags.Proofs.Entries
import FeatureFlags.Proofs.OpenFiles
import FeatureFlags.Proofs.Outcomes

/-!
# Causes of refused lines

A refused line is reported where it stands: at the file by which it was opened, and at its number
there. Either the line itself says nothing that can be read, or it includes a file that is open, one
of those on the way of include lines from the root to the line (`bad_line_at_its_cause`). A file
that was left can be on that way again, by another path to it (`reopened_file_in_cycle`).
-/

namespace FeatureFlags

theorem Declaration.exists_fault {origin : Origin} {line : String} {error : Error}
    (h : parse origin line = .error error) : ∃ fault, error = .badLine origin fault := by
  have houtcome := outcome_parse origin line
  rw [h] at houtcome
  generalize tokens line = words at houtcome
  cases houtcome <;> exact ⟨_, rfl⟩

namespace Description

/-! ## Include lines -/

/-- A line of `file` includes a file. -/
inductive Includes (files : FileSystem) (file : Path) : Path → Prop where
  | line {text target : String} {line : List Char} {number : Nat}
      (htext : files.readText file = .ok text) (hmem : (line, number) ∈ numbered text)
      (hline : Declaration.parse ⟨file, number⟩ (String.ofList line) =
        .ok (some (.inclusion target))) : Includes files file (includePath file target)

/-- The way from `root`, which comes last: each other file is included by the next one. -/
inductive IncludeChain (files : FileSystem) (root : Path) : List Path → Prop where
  | root : IncludeChain files root [root]
  | inclusion {file path : Path} {paths : List Path} (hincludes : Includes files file path)
      (h : IncludeChain files root (file :: paths)) : IncludeChain files root (path :: file :: paths)

/-- The files of the texts that are being read, and before them a file that is to be opened. -/
def Moment.paths : Moment → List Path
  | ⟨.enter path _, frames, _, _⟩ => path :: frames.map (·.file)
  | ⟨_, frames, _, _⟩ => frames.map (·.file)

variable {files : FileSystem} {root : Path} {moment later : Moment}

/-- All that is being read was opened, on the way from `root`. -/
structure Rooted (files : FileSystem) (root : Path) (moment : Moment) : Prop where
  opened : ∀ frame ∈ moment.frames, frame.opened = true
  chain : moment.paths = [] ∨ IncludeChain files root moment.paths

theorem IncludeChain.tail {path : Path} {paths : List Path}
    (h : IncludeChain files root (path :: paths)) : paths = [] ∨ IncludeChain files root paths := by
  cases h with
  | root => exact .inl rfl
  | inclusion _ h => exact .inr h

/-- The innermost text is what is left of an opened file. -/
theorem Stacked.exists_text {below openFiles : List Location} {file : Path}
    {lines : List (List Char × Nat)} {frames : List Frame}
    (h : Stacked files below (⟨file, true, lines⟩ :: frames) openFiles) :
    ∃ text, files.readText file = .ok text ∧ lines ⊆ numbered text := by
  cases h with
  | opened hopens hlines => exact ⟨_, hopens.readText, hlines ▸ List.subset_append_right _ _⟩

theorem Stacked.exists_frame {openFiles : List Location} {frames : List Frame} {place : Location}
    (h : Stacked files [] frames openFiles) (hmem : place ∈ openFiles) :
    ∃ frame ∈ frames, files.canonical frame.file = .ok place := by
  induction h with
  | none => cases hmem
  | given _ ih =>
      obtain ⟨frame, hframe, hplace⟩ := ih hmem
      exact ⟨frame, List.mem_cons_of_mem _ hframe, hplace⟩
  | opened hopens _ _ ih =>
      rcases List.mem_cons.mp hmem with rfl | hmem
      · exact ⟨_, List.mem_cons_self, hopens.canonical⟩
      · obtain ⟨frame, hframe, hplace⟩ := ih hmem
        exact ⟨frame, List.mem_cons_of_mem _ hframe, hplace⟩

namespace Rooted

theorem next (h : Rooted files root moment)
    (hstacked : Stacked files [] moment.frames moment.openFiles) :
    ∀ later, moment.next? files = some later → Rooted files root later := by
  obtain ⟨hopened, hchain⟩ := h
  fun_cases Moment.next? files moment with
  | case1 path includedAt frames openFiles reading error hopen =>
      rintro _ ⟨⟩
      rcases hchain with hnone | hchain
      · cases hnone
      · exact ⟨hopened, hchain.tail⟩
  | case2 path includedAt frames openFiles reading place text hopen =>
      rintro _ ⟨⟩
      exact ⟨List.forall_mem_cons.mpr ⟨rfl, hopened⟩, hchain⟩
  | case3 => rintro _ ⟨⟩; exact ⟨hopened, hchain⟩
  | case4 | case5 | case6 =>
      rintro _ ⟨⟩
      obtain ⟨hfirst, hframes⟩ := List.forall_mem_cons.mp hopened
      exact ⟨List.forall_mem_cons.mpr ⟨hfirst, hframes⟩, hchain⟩
  | case7 file opened line number rest frames openFiles reading target hline =>
      rintro _ ⟨⟩
      obtain ⟨hfirst, hframes⟩ := List.forall_mem_cons.mp hopened
      obtain rfl : opened = true := hfirst
      obtain ⟨text, htext, hlines⟩ := hstacked.exists_text
      have hincludes := Includes.line htext (hlines List.mem_cons_self) hline
      refine ⟨List.forall_mem_cons.mpr ⟨rfl, hframes⟩, .inr (.inclusion hincludes ?_)⟩
      rcases hchain with hnone | hchain
      · cases hnone
      · exact hchain
  | case8 result frame frames openFiles reading =>
      rintro _ ⟨⟩
      refine ⟨(List.forall_mem_cons.mp hopened).2, ?_⟩
      rcases hchain with hnone | hchain
      · cases hnone
      · exact hchain.tail
  | case9 | case10 => rintro _ ⟨⟩; exact ⟨hopened, hchain⟩
  | case11 => rintro _ ⟨⟩

theorem runs (h : Rooted files root moment)
    (hstacked : Stacked files [] moment.frames moment.openFiles)
    (hruns : Runs files moment later) : Rooted files root later := by
  induction hruns with
  | refl => exact h
  | tail hbefore hnext ih => exact ih.next (hstacked.runs hbefore) _ hnext

theorem begin (files : FileSystem) (root : Path) (table : Table) :
    Rooted files root ((Parser.new table).begin (.file root)) :=
  ⟨List.forall_mem_nil _, .inr .root⟩

end Rooted

/-! ## Refused lines -/

/-- The parser is about to read `line`, which is the line of `origin`. -/
structure Moment.Faces (moment : Moment) (origin : Origin) (line : List Char) : Prop where
  task : moment.task = .read
  frames : ∃ rest below, moment.frames = ⟨origin.file, true, (line, origin.line) :: rest⟩ :: below

/-- Why a line is refused: for what it says, or because it includes an open file. -/
inductive Faulty (files : FileSystem) (openFiles : List Location) (origin : Origin)
    (line : List Char) : LineFault → Prop where
  | bad {fault : LineFault}
      (hline : Declaration.parse origin (String.ofList line) = .error (.badLine origin fault)) :
      Faulty files openFiles origin line fault
  | cycle {target : String} {place : Location}
      (hline : Declaration.parse origin (String.ofList line) = .ok (some (.inclusion target)))
      (hplace : files.canonical (includePath origin.file target) = .ok place)
      (hopen : place ∈ openFiles) :
      Faulty files openFiles origin line (.includeCycle (includePath origin.file target))

/-- If lines are refused, there is a moment when one of them, or one of an included file, is. -/
theorem exists_faulty {openFiles : List Location} {file : Path} {lines : List (List Char × Nat)}
    {reading : Reading} {origin : Origin} {fault : LineFault}
    (h : (readLines files openFiles file lines reading).2 = .error (.badLine origin fault))
    (frames : List Frame) :
    ∃ moment line, Runs files ⟨.read, ⟨file, true, lines⟩ :: frames, openFiles, reading⟩ moment ∧
      moment.Faces origin line ∧ Faulty files moment.openFiles origin line fault := by
  fun_induction readLines files openFiles file lines reading generalizing frames with
  | case1 => cases h
  | case2 openFiles file reading line number rest error hline =>
      cases h
      obtain ⟨fault', hfault⟩ := Declaration.exists_fault hline
      cases hfault
      exact ⟨_, line, .refl, ⟨rfl, rest, frames, rfl⟩, .bad hline⟩
  | case3 openFiles file reading line number rest hline ih =>
      obtain ⟨moment, found, hruns, hfaulty⟩ := ih h frames
      exact ⟨moment, found, .head (next?_blank hline) hruns, hfaulty⟩
  | case4 openFiles file reading line number rest entry hline ih =>
      obtain ⟨moment, found, hruns, hfaulty⟩ := ih h frames
      exact ⟨moment, found, .head (next?_entry hline) hruns, hfaulty⟩
  | case5 openFiles file reading line number rest target hline path error hopen =>
      cases h
      cases openFile_eq_error_iff.mp hopen with
      | cycle hplace hmem =>
          exact ⟨_, line, .refl, ⟨rfl, rest, frames, rfl⟩, .cycle hline hplace hmem⟩
  | case6 openFiles file reading line number rest target hline path place text hopen after error
      hread ih =>
      rw [hread] at ih
      obtain ⟨moment, found, hruns, hfaulty⟩ := ih h (⟨file, true, rest⟩ :: frames)
      exact ⟨moment, found, .head (next?_inclusion hline) (.head (next?_opened hopen rfl) hruns),
        hfaulty⟩
  | case7 openFiles file reading line number rest target hline path place text hopen after hread
      ihinside ihrest =>
      obtain ⟨moment, found, hruns, hfaulty⟩ := ihrest h frames
      obtain ⟨left, hinside⟩ := runs_readLines files (place :: openFiles) path (numbered text)
        (reading.report (openEvent path (some ⟨file, number⟩))) true (⟨file, true, rest⟩ :: frames)
      rw [hread] at hinside
      refine ⟨moment, found, ?_, hfaulty⟩
      refine .head (next?_inclusion hline) (.head (next?_opened hopen rfl) (hinside.trans ?_))
      exact .head rfl (.head rfl hruns)

/--
**A refused line is reported where it stands.** There is a moment when the parser is about to read
the line that the error names. The file is then open by the path that the error has, it has a line
of that number, and this line is the one that is read. Either the line itself is refused, for the
reason that the error gives, or it includes the file that the error names, and one of the files that
are open at that moment, on the way of include lines from the root to the line, is that file.
-/
theorem bad_line_at_its_cause {files : FileSystem} {root : Path} {table : Table} {origin : Origin}
    {fault : LineFault} (h : (load files root table).2 = .error (.badLine origin fault)) :
    ∃ moment line text, Runs files ((Parser.new table).begin (.file root)) moment ∧
      moment.Faces origin line ∧ IncludeChain files root (moment.frames.map (·.file)) ∧
      files.readText origin.file = .ok text ∧
      1 ≤ origin.line ∧ origin.line ≤ (Text.lines text.toList).length ∧
      (Text.lines text.toList)[origin.line - 1]? = some line ∧
      (Declaration.parse origin (String.ofList line) = .error (.badLine origin fault) ∨
        ∃ target place,
          Declaration.parse origin (String.ofList line) = .ok (some (.inclusion target)) ∧
          fault = .includeCycle (includePath origin.file target) ∧
          files.canonical (includePath origin.file target) = .ok place ∧
          ∃ frame ∈ moment.frames, files.canonical frame.file = .ok place) := by
  obtain ⟨moment, line, hruns, hfaces, hfaulty⟩ :
      ∃ moment line, Runs files ((Parser.new table).begin (.file root)) moment ∧
        moment.Faces origin line ∧ Faulty files moment.openFiles origin line fault := by
    unfold load at h
    split at h
    · next error hopen =>
        cases openFile_eq_error_iff.mp hopen with
        | cycle _ hmem => cases hmem
        | missing => cases h
        | noText => cases h
    · next place text hopen =>
        obtain ⟨moment, line, hruns, hfaulty⟩ := exists_faulty h []
        exact ⟨moment, line, .head (next?_opened hopen rfl) hruns, hfaulty⟩
  have hstacked : Stacked files [] moment.frames moment.openFiles :=
    (Parser.stacked_begin files (.new table) (.file root)).runs hruns
  have hrooted := (Rooted.begin files root table).runs .none hruns
  obtain ⟨task, frames, openFiles, reading⟩ := moment
  obtain ⟨rfl, rest, below, rfl⟩ := hfaces
  obtain ⟨text, htext, hlines⟩ := hstacked.exists_text
  obtain ⟨hpos, hline⟩ := List.mk_mem_zipIdx_iff_le_and_getElem?_sub.mp (hlines List.mem_cons_self)
  have hlast := (List.getElem?_eq_some_iff.mp hline).1
  refine ⟨_, line, text, hruns, ⟨rfl, rest, below, rfl⟩, ?_, htext, hpos, by omega, hline, ?_⟩
  · exact hrooted.chain.resolve_left (List.cons_ne_nil _ _)
  · cases hfaulty with
    | bad hbad => exact .inl hbad
    | cycle hinclusion hplace hmem =>
        exact .inr ⟨_, _, hinclusion, rfl, hplace, hstacked.exists_frame hmem⟩

/-! ## A file that is open again -/

theorem openFile_of_walk {chain : List Location} {path : Path} {includedAt : Option Origin}
    {place start : Location} {names : List String} {links : Nat} {text : String}
    (hlength : path.checkLength = .ok ())
    (hstart : path.startFrom files.workingDirectory = start) (hnames : path.stepsThrough = names)
    (hwalk : files.walk Path.maxLinks start names = .ok ⟨place, links⟩)
    (hfile : files.get? place = some (.file text.toUTF8)) (hnew : place ∉ chain) :
    openFile files chain path includedAt = .ok (place, text) := by
  have hcanonical : files.canonical path = .ok place := by
    unfold FileSystem.canonical
    rw [FileSystem.check_of_checkLength hlength, hstart, hnames, hwalk]
    rfl
  have hstat : files.stat path = .ok (.file text.toUTF8) := by
    unfold FileSystem.stat
    rw [hlength, hcanonical, bind_eq_ok_iff]
    refine ⟨(), rfl, bind_eq_ok_iff.mpr ⟨place, rfl, ?_⟩⟩
    rw [hfile]
  have hvalid : String.fromUTF8? text.toUTF8 = some text := by
    simp only [String.fromUTF8?, String.toUTF8_eq_toByteArray, Option.dite_none_right_eq_some]
    exact ⟨text.isValidUTF8, rfl⟩
  have htext : files.readText path = .ok text := by
    unfold FileSystem.readText FileSystem.readBytes
    rw [hstat, bind_eq_ok_iff]
    refine ⟨text.toUTF8, rfl, ?_⟩
    rw [hvalid]
  exact openFile_eq_ok_iff.mpr ⟨hcanonical, hnew, htext⟩

/-- The file `a` includes `y` of the directory that it is reached in: an empty file, or itself. -/
def reopened : FileSystem :=
  .ofRoot (.directory [("Kconfig", .file "include d/../a\ninclude d/a\n".toUTF8),
    ("a", .file "include y\n".toUTF8), ("y", .file "".toUTF8),
    ("d", .directory [("a", .link ⟨"../a"⟩), ("y", .file "include ../a\n".toUTF8)])])

namespace Reopened

variable {includedAt : Option Origin}

theorem root_opens : openFile reopened [] ⟨"Kconfig"⟩ includedAt =
    .ok (["Kconfig"], "include d/../a\ninclude d/a\n") := by
  have hnames : (⟨"Kconfig"⟩ : Path).stepsThrough = ["Kconfig"] := by decide
  have hwalk : reopened.walk Path.maxLinks [] ["Kconfig"] = .ok ⟨["Kconfig"], 40⟩ := by cbv
  exact openFile_of_walk rfl rfl hnames hwalk rfl (by simp)

theorem a_opens : openFile reopened [["Kconfig"]] ⟨"d/../a"⟩ includedAt =
    .ok (["a"], "include y\n") := by
  have hnames : (⟨"d/../a"⟩ : Path).stepsThrough = ["d", "..", "a"] := by decide
  have hwalk : reopened.walk Path.maxLinks [] ["d", "..", "a"] = .ok ⟨["a"], 40⟩ := by cbv
  exact openFile_of_walk rfl rfl hnames hwalk rfl (by simp)

theorem y_opens : openFile reopened [["a"], ["Kconfig"]] ⟨"d/../y"⟩ includedAt =
    .ok (["y"], "") := by
  have hnames : (⟨"d/../y"⟩ : Path).stepsThrough = ["d", "..", "y"] := by decide
  have hwalk : reopened.walk Path.maxLinks [] ["d", "..", "y"] = .ok ⟨["y"], 40⟩ := by cbv
  exact openFile_of_walk rfl rfl hnames hwalk rfl (by simp)

theorem link_opens : openFile reopened [["Kconfig"]] ⟨"d/a"⟩ includedAt =
    .ok (["a"], "include y\n") := by
  have hnames : (⟨"d/a"⟩ : Path).stepsThrough = ["d", "a"] := by decide
  have hwalk : reopened.walk Path.maxLinks [] ["d", "a"] = .ok ⟨["a"], 39⟩ := by cbv
  exact openFile_of_walk rfl rfl hnames hwalk rfl (by simp)

theorem inner_opens : openFile reopened [["a"], ["Kconfig"]] ⟨"d/y"⟩ includedAt =
    .ok (["d", "y"], "include ../a\n") := by
  have hnames : (⟨"d/y"⟩ : Path).stepsThrough = ["d", "y"] := by decide
  have hwalk : reopened.walk Path.maxLinks [] ["d", "y"] = .ok ⟨["d", "y"], 40⟩ := by cbv
  exact openFile_of_walk rfl rfl hnames hwalk rfl (by simp)

theorem canonical_a : reopened.canonical ⟨"d/../a"⟩ = .ok ["a"] :=
  (openFile_eq_ok_iff.mp (@a_opens none)).canonical

/-- The parser is leaving `a`, all of which it has read. -/
def leavingA (reading : Reading) : Moment :=
  ⟨.leave (.ok ()), [⟨⟨"d/../a"⟩, true, []⟩, ⟨⟨"Kconfig"⟩, true, [("include d/a".toList, 2)]⟩],
    [["a"], ["Kconfig"]], reading⟩

theorem exists_leaving : ∃ reading,
    Runs reopened ((Parser.new .empty).begin (.file ⟨"Kconfig"⟩)) (leavingA reading) := by
  have hroot : numbered "include d/../a\ninclude d/a\n" =
      [("include d/../a".toList, 1), ("include d/a".toList, 2)] := by cbv
  have hfirst : Declaration.parse ⟨⟨"Kconfig"⟩, 1⟩ (String.ofList "include d/../a".toList) =
      .ok (some (.inclusion "d/../a")) := by cbv
  have ha : numbered "include y\n" = [("include y".toList, 1)] := by cbv
  have hy : Declaration.parse ⟨⟨"d/../a"⟩, 1⟩ (String.ofList "include y".toList) =
      .ok (some (.inclusion "y")) := by cbv
  have hempty : numbered "" = [] := by cbv
  exact ⟨_, .head (next?_opened root_opens hroot) <| .head (next?_inclusion hfirst) <|
    .head (next?_opened a_opens ha) <| .head (next?_inclusion hy) <|
    .head (next?_opened y_opens hempty) <| .head rfl <| .head rfl <| .head rfl <| .single rfl⟩

theorem exists_error (reading : Reading) : ∃ reading', Runs reopened (leavingA reading)
    ⟨.resume (.error (.badLine ⟨⟨"d/y"⟩, 1⟩ (.includeCycle ⟨"d/../a"⟩))), [], [], reading'⟩ := by
  have hsecond : Declaration.parse ⟨⟨"Kconfig"⟩, 2⟩ (String.ofList "include d/a".toList) =
      .ok (some (.inclusion "d/a")) := by cbv
  have ha : numbered "include y\n" = [("include y".toList, 1)] := by cbv
  have hy : Declaration.parse ⟨⟨"d/a"⟩, 1⟩ (String.ofList "include y".toList) =
      .ok (some (.inclusion "y")) := by cbv
  have hinner : numbered "include ../a\n" = [("include ../a".toList, 1)] := by cbv
  have hcycle : Declaration.parse ⟨⟨"d/y"⟩, 1⟩ (String.ofList "include ../a".toList) =
      .ok (some (.inclusion "../a")) := by cbv
  have hrefused : openFile reopened [["d", "y"], ["a"], ["Kconfig"]] ⟨"d/../a"⟩
      (some ⟨⟨"d/y"⟩, 1⟩) = .error (.badLine ⟨⟨"d/y"⟩, 1⟩ (.includeCycle ⟨"d/../a"⟩)) :=
    openFile_eq_error_iff.mpr (.cycle canonical_a (by simp))
  exact ⟨_, .head rfl <| .head rfl <| .head (next?_inclusion hsecond) <|
    .head (next?_opened link_opens ha) <| .head (next?_inclusion hy) <|
    .head (next?_opened inner_opens hinner) <| .head (next?_inclusion hcycle) <|
    .head (next?_refused hrefused) <| .head rfl <| .head rfl <| .head rfl <| .head rfl <|
    .head rfl <| .single rfl⟩

theorem load_eq : (load reopened ⟨"Kconfig"⟩ .empty).2 =
    .error (.badLine ⟨⟨"d/y"⟩, 1⟩ (.includeCycle ⟨"d/../a"⟩)) := by
  obtain ⟨reading, hleaving⟩ := exists_leaving
  obtain ⟨reading', herror⟩ := exists_error reading
  have hperforms : (Parser.new .empty).Performs ⟨reopened, .file ⟨"Kconfig"⟩⟩
      (reading', .error (.badLine ⟨⟨"d/y"⟩, 1⟩ (.includeCycle ⟨"d/../a"⟩)))
      (.new reading'.table) := ⟨hleaving.trans herror, rfl⟩
  exact (congrArg Prod.snd (Parser.performs_new_iff.mp hperforms).1).symm

end Reopened

theorem bad_line_at_its_cause_reopened :
    (load reopened ⟨"Kconfig"⟩ .empty).2 =
        .error (.badLine ⟨⟨"d/y"⟩, 1⟩ (.includeCycle ⟨"d/../a"⟩)) ∧
      ∃ moment line text,
        Runs reopened ((Parser.new .empty).begin (.file ⟨"Kconfig"⟩)) moment ∧
        moment.Faces ⟨⟨"d/y"⟩, 1⟩ line ∧
        IncludeChain reopened ⟨"Kconfig"⟩ (moment.frames.map (·.file)) ∧
        reopened.readText ⟨"d/y"⟩ = .ok text ∧
        1 ≤ 1 ∧ 1 ≤ (Text.lines text.toList).length ∧
        (Text.lines text.toList)[1 - 1]? = some line ∧
        (Declaration.parse ⟨⟨"d/y"⟩, 1⟩ (String.ofList line) =
            .error (.badLine ⟨⟨"d/y"⟩, 1⟩ (.includeCycle ⟨"d/../a"⟩)) ∨
          ∃ target place,
            Declaration.parse ⟨⟨"d/y"⟩, 1⟩ (String.ofList line) = .ok (some (.inclusion target)) ∧
            .includeCycle ⟨"d/../a"⟩ = LineFault.includeCycle (includePath ⟨"d/y"⟩ target) ∧
            reopened.canonical (includePath ⟨"d/y"⟩ target) = .ok place ∧
            ∃ frame ∈ moment.frames, reopened.canonical frame.file = .ok place) :=
  ⟨Reopened.load_eq, bad_line_at_its_cause Reopened.load_eq⟩

/-- An include line is refused for a file that the same call has read to its end and left. -/
theorem reopened_file_in_cycle :
    (load reopened ⟨"Kconfig"⟩ .empty).2 =
        .error (.badLine ⟨⟨"d/y"⟩, 1⟩ (.includeCycle ⟨"d/../a"⟩)) ∧
      reopened.canonical ⟨"d/../a"⟩ = .ok ["a"] ∧
      ∃ frames openFiles reading,
        Runs reopened ((Parser.new .empty).begin (.file ⟨"Kconfig"⟩))
          ⟨.leave (.ok ()), ⟨⟨"d/../a"⟩, true, []⟩ :: frames, ["a"] :: openFiles, reading⟩ := by
  obtain ⟨reading, hleaving⟩ := Reopened.exists_leaving
  exact ⟨Reopened.load_eq, Reopened.canonical_a, _, _, reading, hleaving⟩

end Description

end FeatureFlags
