import FeatureFlags.Proofs.Expansions
import Mathlib.Logic.Relation

/-!
# Open files

A parser keeps the places of the files that it has open on a stack, puts a file on it when it opens
it and takes it off when it leaves it, on every way out. Here a call is a run of moments, each of
which changes the stack and the texts that are being read by one step. Every run ends as reading by
recursion does (`runs_readLines`), the stack holds different places all along (`Stacked`), and it
is at the end what it was at the start, so that a parser serves any calls as new parsers would, one
for each of them (`calls_as_by_new_parsers`).
-/

namespace FeatureFlags

namespace Description

/-! ## Moments of a call -/

/-- A text that is being read. -/
structure Frame where
  file : Path
  /-- The text is that of the file, which was opened for it; it was not handed over with a call. -/
  opened : Bool
  /-- The lines still to be read. -/
  lines : List (List Char × Nat)

/-- What a parser does next. -/
inductive Task where
  /-- Opens a file, for an include line if there is one. -/
  | enter (path : Path) (includedAt : Option Origin)
  /-- Reads on in the innermost text. -/
  | read
  /-- Leaves the innermost text, which gave `result`. -/
  | leave (result : Except Error Unit)
  /-- Goes on with the text around the one that gave `result`. -/
  | resume (result : Except Error Unit)

/-- A parser in the middle of a call. -/
structure Moment where
  task : Task
  /-- The texts that are being read, the innermost first. -/
  frames : List Frame
  /-- The stack of the places of open files, the innermost first. -/
  openFiles : List Location
  reading : Reading

/-- The moment after this one, if the call is not over. -/
def Moment.next? (files : FileSystem) : Moment → Option Moment
  | ⟨.enter path includedAt, frames, openFiles, reading⟩ =>
    match openFile files openFiles path includedAt with
    | .error error => some ⟨.resume (.error error), frames, openFiles, reading⟩
    | .ok (place, text) =>
      some ⟨.read, ⟨path, true, numbered text⟩ :: frames, place :: openFiles,
        reading.report (openEvent path includedAt)⟩
  | ⟨.read, ⟨file, opened, []⟩ :: frames, openFiles, reading⟩ =>
    some ⟨.leave (.ok ()), ⟨file, opened, []⟩ :: frames, openFiles, reading⟩
  | ⟨.read, ⟨file, opened, (line, number) :: rest⟩ :: frames, openFiles, reading⟩ =>
    match Declaration.parse ⟨file, number⟩ (String.ofList line) with
    | .error error =>
      some ⟨.leave (.error error), ⟨file, opened, rest⟩ :: frames, openFiles, reading⟩
    | .ok none => some ⟨.read, ⟨file, opened, rest⟩ :: frames, openFiles, reading⟩
    | .ok (some (.entry entry)) =>
      some ⟨.read, ⟨file, opened, rest⟩ :: frames, openFiles, reading.insert entry⟩
    | .ok (some (.inclusion target)) =>
      some ⟨.enter (includePath file target) (some ⟨file, number⟩),
        ⟨file, opened, rest⟩ :: frames, openFiles, reading⟩
  | ⟨.leave result, frame :: frames, openFiles, reading⟩ =>
    some ⟨.resume result, frames, if frame.opened then openFiles.tail else openFiles, reading⟩
  | ⟨.resume (.ok ()), frame :: frames, openFiles, reading⟩ =>
    some ⟨.read, frame :: frames, openFiles, reading⟩
  | ⟨.resume (.error error), frame :: frames, openFiles, reading⟩ =>
    some ⟨.leave (.error error), frame :: frames, openFiles, reading⟩
  | _ => none

/-- The moment `later` comes after `moment` in the same call, or is `moment` itself. -/
def Runs (files : FileSystem) : Moment → Moment → Prop :=
  Relation.ReflTransGen fun moment later => moment.next? files = some later

variable {files : FileSystem} {moment later : Moment}

/-! ## Steps and runs -/

section Steps

variable {file path : Path} {number : Nat} {line : List Char} {rest : List (List Char × Nat)}
  {opened : Bool} {frames : List Frame} {openFiles : List Location} {reading : Reading}

theorem next?_over (result : Except Error Unit) :
    Moment.next? files ⟨.resume result, [], openFiles, reading⟩ = none := by
  cases result <;> rfl

theorem next?_bad {error : Error}
    (hline : Declaration.parse ⟨file, number⟩ (String.ofList line) = .error error) :
    Moment.next? files ⟨.read, ⟨file, opened, (line, number) :: rest⟩ :: frames, openFiles, reading⟩ =
      some ⟨.leave (.error error), ⟨file, opened, rest⟩ :: frames, openFiles, reading⟩ := by
  simp only [Moment.next?, hline]

theorem next?_blank
    (hline : Declaration.parse ⟨file, number⟩ (String.ofList line) = .ok none) :
    Moment.next? files ⟨.read, ⟨file, opened, (line, number) :: rest⟩ :: frames, openFiles, reading⟩ =
      some ⟨.read, ⟨file, opened, rest⟩ :: frames, openFiles, reading⟩ := by
  simp only [Moment.next?, hline]

theorem next?_entry {entry : Entry}
    (hline : Declaration.parse ⟨file, number⟩ (String.ofList line) = .ok (some (.entry entry))) :
    Moment.next? files ⟨.read, ⟨file, opened, (line, number) :: rest⟩ :: frames, openFiles, reading⟩ =
      some ⟨.read, ⟨file, opened, rest⟩ :: frames, openFiles, reading.insert entry⟩ := by
  simp only [Moment.next?, hline]

theorem next?_inclusion {target : String}
    (hline : Declaration.parse ⟨file, number⟩ (String.ofList line) =
      .ok (some (.inclusion target))) :
    Moment.next? files ⟨.read, ⟨file, opened, (line, number) :: rest⟩ :: frames, openFiles, reading⟩ =
      some ⟨.enter (includePath file target) (some ⟨file, number⟩),
        ⟨file, opened, rest⟩ :: frames, openFiles, reading⟩ := by
  simp only [Moment.next?, hline]

theorem next?_refused {includedAt : Option Origin} {error : Error}
    (hopen : openFile files openFiles path includedAt = .error error) :
    Moment.next? files ⟨.enter path includedAt, frames, openFiles, reading⟩ =
      some ⟨.resume (.error error), frames, openFiles, reading⟩ := by
  simp only [Moment.next?, hopen]

theorem next?_opened {includedAt : Option Origin} {place : Location} {text : String}
    {lines : List (List Char × Nat)}
    (hopen : openFile files openFiles path includedAt = .ok (place, text))
    (hlines : numbered text = lines) :
    Moment.next? files ⟨.enter path includedAt, frames, openFiles, reading⟩ =
      some ⟨.read, ⟨path, true, lines⟩ :: frames, place :: openFiles,
        reading.report (openEvent path includedAt)⟩ := by
  simp only [Moment.next?, hopen, hlines]

end Steps

/-- A step that leads to a moment has no other way to go. -/
theorem Runs.of_next {last : Moment} (h : Runs files moment last)
    (hover : last.next? files = none) (hnext : moment.next? files = some later) :
    Runs files later last := by
  rcases h.cases_head with rfl | ⟨middle, hmiddle, hlast⟩
  · cases hover.symm.trans hnext
  · cases hmiddle.symm.trans hnext
    exact hlast

theorem Runs.unique {last last' : Moment} (h : Runs files moment last)
    (h' : Runs files moment last') (hover : last.next? files = none)
    (hover' : last'.next? files = none) : last = last' := by
  induction h using Relation.ReflTransGen.head_induction_on with
  | refl =>
      rcases h'.cases_head with hsame | ⟨middle, hmiddle, -⟩
      · exact hsame
      · cases hover.symm.trans hmiddle
  | head hnext _ ih => exact ih (h'.of_next hover' hnext)

/-- A run that comes to an end is the only one, so that there is no endless one. -/
theorem Runs.acc {last : Moment} (h : Runs files moment last) (hover : last.next? files = none) :
    Acc (fun later earlier => earlier.next? files = some later) moment := by
  induction h using Relation.ReflTransGen.head_induction_on with
  | refl =>
      constructor
      intro later hnext
      cases hover.symm.trans hnext
  | head hnext _ ih =>
      constructor
      intro later hnext'
      cases hnext.symm.trans hnext'
      exact ih

/-! ## Reading by recursion -/

/-- The innermost text is read to its end or to its first error, with all that it includes. -/
theorem runs_readLines (files : FileSystem) (openFiles : List Location) (file : Path)
    (lines : List (List Char × Nat)) (reading : Reading) (opened : Bool) (frames : List Frame) :
    ∃ rest, Runs files ⟨.read, ⟨file, opened, lines⟩ :: frames, openFiles, reading⟩
      ⟨.leave (readLines files openFiles file lines reading).2, ⟨file, opened, rest⟩ :: frames,
        openFiles, (readLines files openFiles file lines reading).1⟩ := by
  fun_induction readLines files openFiles file lines reading generalizing opened frames with
  | case1 => exact ⟨[], .single rfl⟩
  | case2 openFiles file reading line number rest error hline =>
      exact ⟨rest, .single (next?_bad hline)⟩
  | case3 openFiles file reading line number rest hline ih =>
      obtain ⟨left, hruns⟩ := ih opened frames
      exact ⟨left, .head (next?_blank hline) hruns⟩
  | case4 openFiles file reading line number rest entry hline ih =>
      obtain ⟨left, hruns⟩ := ih opened frames
      exact ⟨left, .head (next?_entry hline) hruns⟩
  | case5 openFiles file reading line number rest target hline path error hopen =>
      exact ⟨rest, .head (next?_inclusion hline) (.head (next?_refused hopen) (.single rfl))⟩
  | case6 openFiles file reading line number rest target hline path place text hopen after error
      hread ih =>
      obtain ⟨left, hinside⟩ := ih true (⟨file, opened, rest⟩ :: frames)
      rw [hread] at hinside
      refine ⟨rest, .head (next?_inclusion hline) (.head (next?_opened hopen rfl) ?_)⟩
      exact hinside.trans (.head rfl (.single rfl))
  | case7 openFiles file reading line number rest target hline path place text hopen after hread
      ihinside ihrest =>
      obtain ⟨left, hinside⟩ := ihinside true (⟨file, opened, rest⟩ :: frames)
      obtain ⟨left', hrest⟩ := ihrest opened frames
      rw [hread] at hinside
      refine ⟨left', .head (next?_inclusion hline) (.head (next?_opened hopen rfl) ?_)⟩
      -- The place of the included file is off the stack again when the rest is read.
      exact hinside.trans (.head rfl (.head rfl hrest))

/-! ## The stack -/

/--
`Stacked files below frames openFiles`: the stack `openFiles` is `below` with the place of each file
on it that was opened for one of `frames`. None of these places was on the stack before.
-/
inductive Stacked (files : FileSystem) (below : List Location) :
    List Frame → List Location → Prop where
  | none : Stacked files below [] below
  | given {file : Path} {lines : List (List Char × Nat)} {frames : List Frame}
      {openFiles : List Location} (h : Stacked files below frames openFiles) :
      Stacked files below (⟨file, false, lines⟩ :: frames) openFiles
  | opened {file : Path} {place : Location} {text : String} {before lines : List (List Char × Nat)}
      {frames : List Frame} {openFiles : List Location}
      (hopens : Opens files openFiles file place text) (hlines : numbered text = before ++ lines)
      (h : Stacked files below frames openFiles) :
      Stacked files below (⟨file, true, lines⟩ :: frames) (place :: openFiles)

namespace Stacked

variable {below openFiles : List Location} {frames : List Frame}

theorem nodup (h : Stacked files below frames openFiles) (hbelow : below.Nodup) :
    openFiles.Nodup := by
  induction h with
  | none => exact hbelow
  | given _ ih => exact ih
  | opened hopens _ _ ih => exact List.nodup_cons.mpr ⟨hopens.unopened, ih⟩

/-- One line less of the innermost text leaves the stack as it is. -/
theorem advance {file : Path} {opened : Bool} {line : List Char × Nat}
    {rest : List (List Char × Nat)}
    (h : Stacked files below (⟨file, opened, line :: rest⟩ :: frames) openFiles) :
    Stacked files below (⟨file, opened, rest⟩ :: frames) openFiles := by
  cases h with
  | given h => exact .given h
  | opened hopens hlines h =>
      rw [List.append_cons] at hlines
      exact .opened hopens hlines h

theorem next (h : Stacked files below moment.frames moment.openFiles) :
    ∀ later, moment.next? files = some later →
      Stacked files below later.frames later.openFiles := by
  fun_cases Moment.next? files moment with
  | case1 => rintro _ ⟨⟩; exact h
  | case2 path includedAt frames openFiles reading place text hopen =>
      rintro _ ⟨⟩
      exact .opened (openFile_eq_ok_iff.mp hopen) (List.nil_append _).symm h
  | case3 => rintro _ ⟨⟩; exact h
  | case4 | case5 | case6 | case7 => rintro _ ⟨⟩; exact h.advance
  | case8 => rintro _ ⟨⟩; cases h <;> assumption
  | case9 | case10 => rintro _ ⟨⟩; exact h
  | case11 => rintro _ ⟨⟩

theorem runs (h : Stacked files below moment.frames moment.openFiles)
    (hruns : Runs files moment later) : Stacked files below later.frames later.openFiles := by
  induction hruns with
  | refl => exact h
  | tail _ hnext ih => exact ih.next _ hnext

end Stacked

/-! ## Calls -/

/-- What a parser is asked to read. -/
inductive Request where
  | file (path : Path)
  /-- A text that claims to come from `file`. -/
  | text (file : Path) (text : String)

/-- A request, with the files as they are at the time. -/
structure Call where
  files : FileSystem
  request : Request

/-- What the call reads into a table, and how that ends. -/
def Call.outcome (call : Call) (table : Table) : Reading × Except Error Unit :=
  match call.request with
  | .file path => load call.files path table
  | .text file text => readText call.files file text table

/-- A parser between two calls. -/
structure Parser where
  table : Table
  openFiles : List Location

namespace Parser

def new (table : Table) : Parser := ⟨table, []⟩

/-- The first moment of a call. -/
def begin (parser : Parser) : Request → Moment
  | .file path => ⟨.enter path none, [], parser.openFiles, .start parser.table⟩
  | .text file text =>
    ⟨.read, [⟨file, false, numbered text⟩], parser.openFiles, .start parser.table⟩

/-- The call comes to an end with `outcome`, and `after` is what the parser is then. -/
structure Performs (parser : Parser) (call : Call) (outcome : Reading × Except Error Unit)
    (after : Parser) : Prop where
  runs : Runs call.files (parser.begin call.request)
    ⟨.resume outcome.2, [], after.openFiles, outcome.1⟩
  table : after.table = outcome.1.table

/-- The parser performs calls one after the other, and `after` is what it is then. -/
inductive Serves : Parser → List Call → Parser → Prop where
  | none {parser : Parser} : Serves parser [] parser
  | call {parser middle after : Parser} {call : Call} {calls : List Call}
      {outcome : Reading × Except Error Unit} (hcall : Performs parser call outcome middle)
      (hcalls : Serves middle calls after) : Serves parser (call :: calls) after

/-- What a parser keeps to in a call. -/
structure Orderly (parser : Parser) (call : Call) : Prop where
  /-- There is no endless run. -/
  terminates : Acc (fun later earlier => earlier.next? call.files = some later)
    (parser.begin call.request)
  distinct : ∀ moment, Runs call.files (parser.begin call.request) moment → moment.openFiles.Nodup
  /-- What is on the stack are the places of the files that are being read. -/
  canonical : ∀ moment, Runs call.files (parser.begin call.request) moment →
    Stacked call.files parser.openFiles moment.frames moment.openFiles
  /-- Whenever the texts have all been left, the stack is what it was. -/
  restored : ∀ moment, Runs call.files (parser.begin call.request) moment →
    moment.frames = [] → moment.openFiles = parser.openFiles

theorem stacked_begin (files : FileSystem) (parser : Parser) (request : Request) :
    Stacked files parser.openFiles (parser.begin request).frames
      (parser.begin request).openFiles := by
  cases request with
  | file => exact .none
  | text => exact .given .none

/-- A call ends as reading by recursion does, and nothing is left on the stack. -/
theorem performs_new (table : Table) (call : Call) :
    (new table).Performs call (call.outcome table) (new (call.outcome table).1.table) := by
  refine ⟨?_, rfl⟩
  obtain ⟨files, request⟩ := call
  cases request with
  | file path =>
      simp only [Call.outcome, load]
      split
      · next error hopen => exact .single (next?_refused hopen)
      · next place text hopen =>
          obtain ⟨rest, hruns⟩ := runs_readLines files [place] path (numbered text)
            ((Reading.start table).report (openEvent path none)) true []
          exact .head (next?_opened hopen rfl) (hruns.trans (.single rfl))
  | text file text =>
      obtain ⟨rest, hruns⟩ :=
        runs_readLines files [] file (numbered text) (.start table) false []
      exact hruns.trans (.single rfl)

theorem performs_new_iff {table : Table} {call : Call} {outcome : Reading × Except Error Unit}
    {after : Parser} : (new table).Performs call outcome after ↔
      outcome = call.outcome table ∧ after = new (call.outcome table).1.table := by
  constructor
  · rintro ⟨hruns, htable⟩
    have hlast := hruns.unique (performs_new table call).runs (next?_over _) (next?_over _)
    simp only [Moment.mk.injEq, Task.resume.injEq, true_and] at hlast
    obtain ⟨hresult, hstack, hreading⟩ := hlast
    obtain rfl : outcome = call.outcome table := Prod.ext hreading hresult
    obtain ⟨afterTable, afterFiles⟩ := after
    cases htable
    cases hstack
    exact ⟨rfl, rfl⟩
  · rintro ⟨rfl, rfl⟩
    exact performs_new table call

theorem orderly_new (table : Table) (call : Call) : (new table).Orderly call := by
  have hstacked : ∀ moment, Runs call.files ((new table).begin call.request) moment →
      Stacked call.files [] moment.frames moment.openFiles :=
    fun moment hruns => (stacked_begin call.files (new table) call.request).runs hruns
  refine ⟨(performs_new table call).runs.acc (next?_over _), ?_, hstacked, ?_⟩
  · intro moment hruns
    exact (hstacked moment hruns).nodup List.nodup_nil
  · intro moment hruns hframes
    have hempty := hstacked moment hruns
    rw [hframes] at hempty
    generalize moment.openFiles = openFiles at hempty ⊢
    cases hempty
    rfl

/-- After any calls a parser is a new one, with the table that the calls filled. -/
theorem serves_new_iff {table : Table} {calls : List Call} {after : Parser} :
    (new table).Serves calls after ↔
      after = new (calls.foldl (fun table call => (call.outcome table).1.table) table) := by
  induction calls generalizing table with
  | nil =>
      constructor
      · rintro ⟨⟩
        rfl
      · rintro rfl
        exact .none
  | cons call calls ih =>
      rw [List.foldl_cons, ← ih]
      constructor
      · rintro (_ | ⟨hcall, hcalls⟩)
        obtain ⟨-, rfl⟩ := performs_new_iff.mp hcall
        exact hcalls
      · exact .call (performs_new table call)

/--
**A parser starts every call with an empty stack.** Whatever calls a parser has performed, with
whatever results, it has come to an end with them in one way. In each further call it comes to an
end, has different places on its stack at every moment, those of the files that are being read, and
leaves the stack as it was. The call has the outcome, and the table is filled in the way, that it
would be with a new parser for the same table, and that is the outcome of reading by recursion.
-/
theorem calls_as_by_new_parsers (table : Table) (calls : List Call) :
    ∃ parser, (∀ after, (new table).Serves calls after ↔ after = parser) ∧
      ∀ call : Call, parser.Orderly call ∧
        (∀ outcome after, parser.Performs call outcome after ↔
          (new parser.table).Performs call outcome after) ∧
        ∀ outcome after, parser.Performs call outcome after ↔
          outcome = call.outcome parser.table ∧
            after = ⟨(call.outcome parser.table).1.table, parser.openFiles⟩ := by
  refine ⟨new (calls.foldl (fun table call => (call.outcome table).1.table) table),
    fun after => serves_new_iff, ?_⟩
  intro call
  exact ⟨orderly_new _ call, fun _ _ => Iff.rfl, fun _ _ => performs_new_iff⟩

end Parser

end Description

end FeatureFlags
