import Mathlib
import FeatureFlags.Fragments
import FeatureFlags.Proofs.Contents
import FeatureFlags.Proofs.Expansions

/-!
# Texts that include nothing

Such a text stands for the entries that its lines declare, whatever files there are. Reading it
inserts them in order, so that the last declaration of each name is the one that counts. Where the
lines stand, what they look like and what earlier declarations say is of no account: texts whose
last declarations say the same have the same resolution or the same error, and the same fragments
(`resolve_readText_congr`).
-/

namespace FeatureFlags

namespace Declaration

/-- The entry that a numbered line declares, if it declares one. -/
def declared? (file : Path) (line : List Char × Nat) : Option Entry :=
  match parse ⟨file, line.2⟩ (String.ofList line.1) with
  | .ok (some (.entry found)) => some found
  | _ => none

end Declaration

namespace Description

/-- No line of the text is an include line. -/
def IncludeFree (text : String) : Prop :=
  ∀ line ∈ numbered text, ∀ target,
    tokens (String.ofList line.1) ≠ [Declaration.includeWord, target]

/-- The entries that the lines of a text declare, in order. -/
def declarations (file : Path) (text : String) : List Entry :=
  (numbered text).filterMap (Declaration.declared? file)

/-- The last declaration of a name. -/
def lastDeclaration? (file : Path) (text : String) (name : String) : Option Entry :=
  (declarations file text).findRev? (·.name = name)

variable {files : FileSystem} {chain : List Location} {file : Path} {text : String}

theorem eq_filterMap_of_expands {lines : List (List Char × Nat)} {entries : List Entry}
    {stop : Option Error} (h : Expands files chain file lines entries stop) (hstop : stop = none)
    (hfree : ∀ line ∈ lines, ∀ target,
      tokens (String.ofList line.1) ≠ [Declaration.includeWord, target]) :
    entries = lines.filterMap (Declaration.declared? file) := by
  induction h with
  | done => rfl
  | blank hline _ ih =>
      rw [List.filterMap_cons, Declaration.declared?, hline]
      exact ih hstop (List.forall_mem_cons.mp hfree).2
  | entry hline _ _ ih =>
      rw [List.filterMap_cons, Declaration.declared?, hline]
      exact congrArg _ (ih hstop (List.forall_mem_cons.mp hfree).2)
  | bad | stopped => cases hstop
  | refused hline => cases hstop
  | included hline =>
      have htokens := (Declaration.parse_eq_ok_iff.mp hline).eq_of_inclusion
      exact absurd htokens ((List.forall_mem_cons.mp hfree).1 _)

/-- Reading a text that includes nothing inserts its declarations in order. -/
theorem table_readText (hfree : IncludeFree text) (table : Table)
    (hok : (readText files file text table).2 = .ok ()) :
    (readText files file text table).1.table = (declarations file text).foldl Table.insert table := by
  obtain ⟨entries, stop, hexpands, htable, hresult⟩ :=
    exists_expands files [] file (numbered text) (.start table)
  have hstop : stop = none := by
    cases stop with
    | none => rfl
    | some error => cases hresult.symm.trans hok
  obtain rfl := eq_filterMap_of_expands hexpands hstop hfree
  exact htable

theorem get?_readText (hfree : IncludeFree text)
    (hok : (readText files file text .empty).2 = .ok ()) (name : String) :
    (readText files file text .empty).1.table.get? name = lastDeclaration? file text name := by
  rw [table_readText hfree .empty hok, Table.get?_foldl_insert]
  exact Option.or_none

/--
**The last declarations decide.** Two texts that include nothing, read without an error, have the
same resolution or the same error if the last declarations of each name say the same in both, and
if a name that one of them does not declare is not declared in the other. The fragments are the
same, too. The files that the texts claim to come from, and all files there are, play no part.
-/
theorem resolve_readText_congr {files files' : FileSystem} {file file' : Path}
    {text text' : String} (hfree : IncludeFree text) (hfree' : IncludeFree text')
    (hok : (readText files file text .empty).2 = .ok ())
    (hok' : (readText files' file' text' .empty).2 = .ok ())
    (hlast : ∀ name, (lastDeclaration? file text name).map Entry.content =
      (lastDeclaration? file' text' name).map Entry.content) :
    (readText files file text .empty).1.table.resolve =
        (readText files' file' text' .empty).1.table.resolve ∧
      ∀ settings,
        (readText files file text .empty).1.table.resolve.bind (Fragments.render · settings) =
          (readText files' file' text' .empty).1.table.resolve.bind
            (Fragments.render · settings) := by
  have hcontents : (readText files file text .empty).1.table.entries.map Entry.content =
      (readText files' file' text' .empty).1.table.entries.map Entry.content := by
    apply Table.map_content_entries_congr
    intro name
    rw [get?_readText hfree hok, get?_readText hfree' hok', hlast]
  have hresolve := Table.resolve_congr hcontents
  refine ⟨hresolve, fun settings => ?_⟩
  rw [hresolve]

/-- No file at all. -/
def noFiles : FileSystem := .ofRoot (.directory [])

def plainText : String := "A yes B\nB no\n"

/-- Says the same after an earlier declaration of `B` that mentions a name no line declares. -/
def busyText : String := "B yes !A GHOST # superseded\n\nB no\r\n  A\tYES B"

theorem includeFree_of_tokens {text : String} (lines : List (List String))
    (htokens : (numbered text).map (fun line => tokens (String.ofList line.1)) = lines)
    (hlines : ∀ words ∈ lines, words.head? ≠ some Declaration.includeWord) : IncludeFree text := by
  subst htokens
  rw [List.forall_mem_map] at hlines
  intro line hline target htokens
  apply hlines line hline
  rw [htokens, List.head?_cons]

theorem resolve_readText_congr_busy :
    IncludeFree plainText ∧ IncludeFree busyText ∧
    (readText noFiles ⟨"main"⟩ plainText .empty).2 = .ok () ∧
    (readText noFiles ⟨"other"⟩ busyText .empty).2 = .ok () ∧
    (∀ name, (lastDeclaration? ⟨"main"⟩ plainText name).map Entry.content =
      (lastDeclaration? ⟨"other"⟩ busyText name).map Entry.content) ∧
    (readText noFiles ⟨"main"⟩ plainText .empty).1.table.resolve =
        (readText noFiles ⟨"other"⟩ busyText .empty).1.table.resolve ∧
      ∀ settings,
        (readText noFiles ⟨"main"⟩ plainText .empty).1.table.resolve.bind
            (Fragments.render · settings) =
          (readText noFiles ⟨"other"⟩ busyText .empty).1.table.resolve.bind
            (Fragments.render · settings) := by
  have hplain : IncludeFree plainText :=
    includeFree_of_tokens [["A", "yes", "B"], ["B", "no"]] (by cbv) (by decide)
  have hbusy : IncludeFree busyText :=
    includeFree_of_tokens [["B", "yes", "!A", "GHOST"], [], ["B", "no"], ["A", "YES", "B"]]
      (by cbv) (by decide)
  have hlast : ∀ name, (lastDeclaration? ⟨"main"⟩ plainText name).map Entry.content =
      (lastDeclaration? ⟨"other"⟩ busyText name).map Entry.content := by
    have hdeclared : declarations ⟨"main"⟩ plainText =
        [⟨"A", .yes, [⟨"B", false⟩], ⟨⟨"main"⟩, 1⟩⟩, ⟨"B", .no, [], ⟨⟨"main"⟩, 2⟩⟩] := by cbv
    have hdeclared' : declarations ⟨"other"⟩ busyText =
        [⟨"B", .yes, [⟨"A", true⟩, ⟨"GHOST", false⟩], ⟨⟨"other"⟩, 1⟩⟩,
          ⟨"B", .no, [], ⟨⟨"other"⟩, 3⟩⟩, ⟨"A", .yes, [⟨"B", false⟩], ⟨⟨"other"⟩, 4⟩⟩] := by cbv
    intro name
    unfold lastDeclaration?
    rw [hdeclared, hdeclared']
    by_cases hA : name = "A"
    · subst hA
      rfl
    · by_cases hB : name = "B"
      · subst hB
        rfl
      · simp [List.findRev?, Ne.symm hA, Ne.symm hB]
  have hok : (readText noFiles ⟨"main"⟩ plainText .empty).2 = .ok () := by cbv
  have hok' : (readText noFiles ⟨"other"⟩ busyText .empty).2 = .ok () := by cbv
  exact ⟨hplain, hbusy, hok, hok', hlast,
    resolve_readText_congr hplain hbusy hok hok' hlast⟩

end Description

end FeatureFlags
