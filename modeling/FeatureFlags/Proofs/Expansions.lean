import FeatureFlags.Description
import FeatureFlags.Proofs.Lines

/-!
# Expansions

What a description says when each include line gives way to what the included file says: a
sequence of entries, and the error that stops it if there is one. No table has a part in it. Every
file has exactly one expansion (`Expands.unique`, `exists_expands`), and reading it inserts the
entries of that sequence in order, whether an error stops it or not (`load_inserts_expansion`).
-/

namespace FeatureFlags

namespace Description

/-! ## Opening a file -/

/-- `path` leads to a file that is not open yet, at `place`, which holds `text`. -/
structure Opens (files : FileSystem) (chain : List Location) (path : Path) (place : Location)
    (text : String) : Prop where
  canonical : files.canonical path = .ok place
  unopened : place ∉ chain
  readText : files.readText path = .ok text

/-- Why a file is not read: it is not there, it is one of those that are open, or it is no text. -/
inductive Refuses (files : FileSystem) (chain : List Location) (path : Path)
    (includedAt : Option Origin) : Error → Prop where
  | missing {fault : FileFault} (hplace : files.canonical path = .error fault) :
      Refuses files chain path includedAt (unreadable path includedAt fault)
  | cycle {place : Location} (hplace : files.canonical path = .ok place) (hmem : place ∈ chain) :
      Refuses files chain path includedAt
        (.badLine (includedAt.getD ⟨path, 0⟩) (.includeCycle path))
  | noText {place : Location} {fault : FileFault} (hplace : files.canonical path = .ok place)
      (hmem : place ∉ chain) (htext : files.readText path = .error fault) :
      Refuses files chain path includedAt (unreadable path includedAt fault)

variable {files : FileSystem} {chain : List Location} {path : Path} {includedAt : Option Origin}
  {place : Location} {text : String} {error : Error}

theorem openFile_eq_ok_iff :
    openFile files chain path includedAt = .ok (place, text) ↔
      Opens files chain path place text := by
  constructor
  · intro h
    unfold openFile at h
    split at h
    · cases h
    · next hplace =>
        split at h
        · cases h
        · next hmem =>
            split at h
            · cases h
            · next htext =>
                cases h
                exact ⟨hplace, hmem, htext⟩
  · rintro ⟨hplace, hmem, htext⟩
    unfold openFile
    simp only [hplace, if_neg hmem, htext]

theorem openFile_eq_error_iff :
    openFile files chain path includedAt = .error error ↔
      Refuses files chain path includedAt error := by
  constructor
  · intro h
    unfold openFile at h
    split at h
    · next hplace =>
        cases h
        exact .missing hplace
    · next hplace =>
        split at h
        · next hmem =>
            cases h
            exact .cycle hplace hmem
        · next hmem =>
            split at h
            · next htext =>
                cases h
                exact .noText hplace hmem htext
            · cases h
  · intro h
    unfold openFile
    cases h with
    | missing hplace => simp only [hplace]
    | cycle hplace hmem => simp only [hplace, if_pos hmem]
    | noText hplace hmem htext => simp only [hplace, if_neg hmem, htext]

/-! ## Expansions -/

/--
`Expands files chain file lines entries stop`: with the files of `chain` open, the numbered `lines`
of `file` say `entries`, those of an included file in the place of the include line. The first
error is `stop`, and nothing after it counts.
-/
inductive Expands (files : FileSystem) :
    List Location → Path → List (List Char × Nat) → List Entry → Option Error → Prop where
  | done {chain : List Location} {file : Path} : Expands files chain file [] [] none
  | blank {chain : List Location} {file : Path} {line : List Char} {number : Nat}
      {rest : List (List Char × Nat)} {entries : List Entry} {stop : Option Error}
      (hline : Declaration.parse ⟨file, number⟩ (String.ofList line) = .ok none)
      (hrest : Expands files chain file rest entries stop) :
      Expands files chain file ((line, number) :: rest) entries stop
  | entry {chain : List Location} {file : Path} {line : List Char} {number : Nat}
      {rest : List (List Char × Nat)} {entry : Entry} {entries : List Entry}
      {stop : Option Error}
      (hline : Declaration.parse ⟨file, number⟩ (String.ofList line) = .ok (some (.entry entry)))
      (horigin : entry.origin = ⟨file, number⟩)
      (hrest : Expands files chain file rest entries stop) :
      Expands files chain file ((line, number) :: rest) (entry :: entries) stop
  | bad {chain : List Location} {file : Path} {line : List Char} {number : Nat}
      {rest : List (List Char × Nat)} {error : Error}
      (hline : Declaration.parse ⟨file, number⟩ (String.ofList line) = .error error) :
      Expands files chain file ((line, number) :: rest) [] (some error)
  | refused {chain : List Location} {file : Path} {line : List Char} {number : Nat}
      {rest : List (List Char × Nat)} {target : String} {error : Error}
      (hline : Declaration.parse ⟨file, number⟩ (String.ofList line) =
        .ok (some (.inclusion target)))
      (hrefuses : Refuses files chain (includePath file target) (some ⟨file, number⟩) error) :
      Expands files chain file ((line, number) :: rest) [] (some error)
  | stopped {chain : List Location} {file : Path} {line : List Char} {number : Nat}
      {rest : List (List Char × Nat)} {target : String} {place : Location} {text : String}
      {inside : List Entry} {error : Error}
      (hline : Declaration.parse ⟨file, number⟩ (String.ofList line) =
        .ok (some (.inclusion target)))
      (hopens : Opens files chain (includePath file target) place text)
      (hinside : Expands files (place :: chain) (includePath file target) (numbered text) inside
        (some error)) :
      Expands files chain file ((line, number) :: rest) inside (some error)
  | included {chain : List Location} {file : Path} {line : List Char} {number : Nat}
      {rest : List (List Char × Nat)} {target : String} {place : Location} {text : String}
      {inside entries : List Entry} {stop : Option Error}
      (hline : Declaration.parse ⟨file, number⟩ (String.ofList line) =
        .ok (some (.inclusion target)))
      (hopens : Opens files chain (includePath file target) place text)
      (hinside : Expands files (place :: chain) (includePath file target) (numbered text) inside
        none)
      (hrest : Expands files chain file rest entries stop) :
      Expands files chain file ((line, number) :: rest) (inside ++ entries) stop

/-- The expansion of a whole file, which opens a chain of its own. -/
inductive ExpandsFile (files : FileSystem) (path : Path) : List Entry → Option Error → Prop where
  | refused {error : Error} (hrefuses : Refuses files [] path none error) :
      ExpandsFile files path [] (some error)
  | opened {place : Location} {text : String} {entries : List Entry} {stop : Option Error}
      (hopens : Opens files [] path place text)
      (hlines : Expands files [place] path (numbered text) entries stop) :
      ExpandsFile files path entries stop

theorem Opens.unique {place' : Location} {text' : String}
    (h : Opens files chain path place text) (h' : Opens files chain path place' text') :
    place = place' ∧ text = text' := by
  have hplaces := h.canonical.symm.trans h'.canonical
  have htexts := h.readText.symm.trans h'.readText
  exact ⟨Except.ok.inj hplaces, Except.ok.inj htexts⟩

theorem Refuses.unique {error' : Error} (h : Refuses files chain path includedAt error)
    (h' : Refuses files chain path includedAt error') : error = error' := by
  rw [← openFile_eq_error_iff] at h h'
  exact Except.error.inj (h.symm.trans h')

theorem Opens.not_refuses (h : Opens files chain path place text) :
    ¬ Refuses files chain path includedAt error := by
  intro hrefuses
  rw [← openFile_eq_error_iff] at hrefuses
  cases (openFile_eq_ok_iff.mpr h).symm.trans hrefuses

/-- What a line says decides the rule, and what a path opens decides between the last three. -/
theorem Expands.unique {file : Path} {lines : List (List Char × Nat)} {entries entries' : List Entry}
    {stop stop' : Option Error} (h : Expands files chain file lines entries stop)
    (h' : Expands files chain file lines entries' stop') : entries = entries' ∧ stop = stop' := by
  induction h generalizing entries' stop' with
  | done =>
      cases h'
      exact ⟨rfl, rfl⟩
  | blank hline _ ih =>
      cases h' with
      | blank _ hrest' => exact ih hrest'
      | _ => simp_all
  | entry hline _ _ ih =>
      cases h' with
      | entry hline' _ hrest' =>
          cases hline.symm.trans hline'
          obtain ⟨rfl, rfl⟩ := ih hrest'
          exact ⟨rfl, rfl⟩
      | _ => simp_all
  | bad hline =>
      cases h' with
      | bad hline' =>
          cases hline.symm.trans hline'
          exact ⟨rfl, rfl⟩
      | _ => simp_all
  | refused hline hrefuses =>
      cases h' with
      | refused hline' hrefuses' =>
          cases hline.symm.trans hline'
          cases hrefuses.unique hrefuses'
          exact ⟨rfl, rfl⟩
      | stopped hline' hopens' =>
          cases hline.symm.trans hline'
          exact absurd hrefuses hopens'.not_refuses
      | included hline' hopens' =>
          cases hline.symm.trans hline'
          exact absurd hrefuses hopens'.not_refuses
      | _ => simp_all
  | stopped hline hopens _ ih =>
      cases h' with
      | refused hline' hrefuses' =>
          cases hline.symm.trans hline'
          exact absurd hrefuses' hopens.not_refuses
      | stopped hline' hopens' hinside' =>
          cases hline.symm.trans hline'
          obtain ⟨rfl, rfl⟩ := hopens.unique hopens'
          exact ih hinside'
      | included hline' hopens' hinside' =>
          cases hline.symm.trans hline'
          obtain ⟨rfl, rfl⟩ := hopens.unique hopens'
          cases (ih hinside').2
      | _ => simp_all
  | included hline hopens _ _ ihinside ihrest =>
      cases h' with
      | refused hline' hrefuses' =>
          cases hline.symm.trans hline'
          exact absurd hrefuses' hopens.not_refuses
      | stopped hline' hopens' hinside' =>
          cases hline.symm.trans hline'
          obtain ⟨rfl, rfl⟩ := hopens.unique hopens'
          cases (ihinside hinside').2
      | included hline' hopens' hinside' hrest' =>
          cases hline.symm.trans hline'
          obtain ⟨rfl, rfl⟩ := hopens.unique hopens'
          obtain ⟨rfl, -⟩ := ihinside hinside'
          obtain ⟨rfl, rfl⟩ := ihrest hrest'
          exact ⟨rfl, rfl⟩
      | _ => simp_all

theorem ExpandsFile.unique {entries entries' : List Entry} {stop stop' : Option Error}
    (h : ExpandsFile files path entries stop) (h' : ExpandsFile files path entries' stop') :
    entries = entries' ∧ stop = stop' := by
  cases h with
  | refused hrefuses =>
      cases h' with
      | refused hrefuses' =>
          cases hrefuses.unique hrefuses'
          exact ⟨rfl, rfl⟩
      | opened hopens' => exact absurd hrefuses hopens'.not_refuses
  | opened hopens hlines =>
      cases h' with
      | refused hrefuses' => exact absurd hrefuses' hopens.not_refuses
      | opened hopens' hlines' =>
          obtain ⟨rfl, rfl⟩ := hopens.unique hopens'
          exact hlines.unique hlines'

/-! ## Reading -/

/-- How a reading ends. -/
def ending : Option Error → Except Error Unit
  | none => .ok ()
  | some error => .error error

/-- `outcome` is `table` with `entries` inserted in order, and the error `stop` if there is one. -/
structure Inserts (table : Table) (entries : List Entry) (stop : Option Error)
    (outcome : Reading × Except Error Unit) : Prop where
  table : outcome.1.table = entries.foldl Table.insert table
  result : outcome.2 = ending stop

/-- Reading lines inserts an expansion of them into the table that is there before. -/
theorem exists_expands (files : FileSystem) (chain : List Location) (file : Path)
    (lines : List (List Char × Nat)) (reading : Reading) :
    ∃ entries stop, Expands files chain file lines entries stop ∧
      Inserts reading.table entries stop (readLines files chain file lines reading) := by
  fun_induction readLines files chain file lines reading with
  | case1 chain file reading => exact ⟨[], none, .done, rfl, rfl⟩
  | case2 chain file reading line number rest error hline =>
      exact ⟨[], some error, .bad hline, rfl, rfl⟩
  | case3 chain file reading line number rest hline ih =>
      obtain ⟨entries, stop, hrest, hinserts⟩ := ih
      exact ⟨entries, stop, .blank hline hrest, hinserts⟩
  | case4 chain file reading line number rest entry hline ih =>
      obtain ⟨entries, stop, hrest, htable, hresult⟩ := ih
      have horigin := (Declaration.parse_eq_ok_iff.mp hline).origin_eq
      exact ⟨entry :: entries, stop, .entry hline horigin hrest, htable, hresult⟩
  | case5 chain file reading line number rest target hline path error hopen =>
      exact ⟨[], some error, .refused hline (openFile_eq_error_iff.mp hopen), rfl, rfl⟩
  | case6 chain file reading line number rest target hline path place text hopen after error hread
      ih =>
      obtain ⟨inside, stop, hinside, htable, hresult⟩ := ih
      rw [hread] at htable hresult
      cases stop with
      | none => cases hresult
      | some error' =>
          cases hresult
          exact ⟨inside, some error, .stopped hline (openFile_eq_ok_iff.mp hopen) hinside, htable,
            rfl⟩
  | case7 chain file reading line number rest target hline path place text hopen after hread
      ihinside ihrest =>
      obtain ⟨inside, stop, hinside, htable, hresult⟩ := ihinside
      obtain ⟨entries, stop', hrest, htable', hresult'⟩ := ihrest
      rw [hread] at htable hresult
      cases stop with
      | some error => cases hresult
      | none =>
          refine ⟨inside ++ entries, stop',
            .included hline (openFile_eq_ok_iff.mp hopen) hinside hrest, ?_, hresult'⟩
          rw [htable', htable, List.foldl_append]
          rfl

theorem exists_expandsFile (files : FileSystem) (path : Path) (table : Table) :
    ∃ entries stop, ExpandsFile files path entries stop ∧
      Inserts table entries stop (load files path table) := by
  unfold load
  split
  · next error hopen =>
      exact ⟨[], some error, .refused (openFile_eq_error_iff.mp hopen), rfl, rfl⟩
  · next place text hopen =>
      obtain ⟨entries, stop, hlines, hinserts⟩ := exists_expands files [place] path
        (numbered text) ((Reading.start table).report (openEvent path none))
      exact ⟨entries, stop, .opened (openFile_eq_ok_iff.mp hopen) hlines, hinserts⟩

/--
**Reading a file inserts its expansion.** A file has one expansion, and no table has a part in it.
Reading the file into a table inserts the entries of the expansion in order, each with the file as
spelled and the line that it comes from. It fails exactly if an error stops the expansion, with
that error, and what came before the error is in the table then.
-/
theorem load_inserts_expansion (files : FileSystem) (path : Path) :
    ∃ entries stop, ExpandsFile files path entries stop ∧
      (∀ entries' stop', ExpandsFile files path entries' stop' →
        entries' = entries ∧ stop' = stop) ∧
      ∀ table, Inserts table entries stop (load files path table) := by
  obtain ⟨entries, stop, hexpands, -⟩ := exists_expandsFile files path .empty
  refine ⟨entries, stop, hexpands, ?_, ?_⟩
  · intro entries' stop' hexpands'
    exact hexpands'.unique hexpands
  · intro table
    obtain ⟨entries', stop', hexpands', hinserts⟩ := exists_expandsFile files path table
    obtain ⟨rfl, rfl⟩ := hexpands'.unique hexpands
    exact hinserts

end Description

end FeatureFlags
