import FeatureFlags.Proofs.Pairs

/-!
# Components of paths

What a path says: a root or a `.` to start from, then names and `..`; an empty piece and each
later `.` say nothing. A file name joined to a directory adds one component, and the parent of the
joined path has the components of the directory, whose fillers at the end do not count
(`Path.components_join`, `Path.components_trim`). So the four paths of a write lie right in its
directory, however that is spelled and wherever it leads (`write_stays_in_directory`).
-/

namespace FeatureFlags

/-- A part of a path that says something about where it leads. -/
inductive Component where
  | root
  /-- The `.` that a path is spelled to start with. -/
  | here
  | up
  | named (name : String)
deriving DecidableEq, Repr

namespace Path

def componentOf? (step : String) : Option Component :=
  if step = "." then none else if step = ".." then some .up else some (.named step)

def components (path : Path) : List Component :=
  (if path.anchor = ['/'] then [.root] else if path.anchor = ['.'] then [.here] else []) ++
    path.steps.filterMap componentOf?

variable {name : String}

/-! ## A name after a directory -/

theorem componentOf?_of_plainName (hname : PlainName name) :
    componentOf? name = some (.named name) := by
  have hentry := hname.isEntryName
  simp only [isEntryName, Bool.and_eq_true, decide_eq_true_eq, ne_eq] at hentry
  rw [componentOf?, if_neg hentry.1, if_neg hentry.2]

theorem components_join (base : Path) (hname : PlainName name) :
    (base.join ⟨name⟩).components = base.components ++ [.named name] := by
  unfold components
  rw [base.anchor_join hname, base.steps_join hname, List.filterMap_append, List.append_assoc,
    List.filterMap_cons_some (componentOf?_of_plainName hname), List.filterMap_nil]

/-! ## Fillers at the end -/

theorem toList_upTo (path : Path) (kept : List (List Char)) :
    (path.upTo kept).text.toList = path.anchor ++ ['/'].intercalate kept :=
  String.toList_ofList

/-- Some pieces of a path that starts from nothing spelled start from nothing spelled. -/
theorem anchor_upTo_of_nil {path : Path} {kept : List (List Char)} (hanchor : path.anchor = [])
    (hkept : kept <+: path.pieces) : (path.upTo kept).anchor = [] := by
  have htext : path.text.toList = ['/'].intercalate path.pieces := by
    rw [path.text_eq_anchor_append, hanchor, List.nil_append]
  have hupTo : (path.upTo kept).text.toList = ['/'].intercalate kept := by
    rw [path.toList_upTo, hanchor, List.nil_append]
  obtain ⟨dropped, hdropped⟩ := hkept
  obtain ⟨rest, hrest⟩ : ['/'].intercalate kept <+: path.text.toList := by
    rw [htext, ← hdropped]
    exact intercalate_prefix ['/'] kept dropped
  unfold anchor
  rw [hupTo]
  split
  · next tail hslash =>
      rw [hslash] at hrest
      simp [anchor, ← hrest] at hanchor
  · next hdot =>
      have hne : kept ≠ [] := by
        rintro rfl
        simp at hdot
      have hpieces : kept = [['.']] := by
        rw [← List.splitOn_intercalate '/' (fun piece hmem => notMem_of_mem_splitOn
          (hdropped ▸ List.mem_append_left dropped hmem)) hne, hdot]
        rfl
      rw [← hdropped, hpieces] at htext
      cases dropped with
      | nil => simp [anchor, htext] at hanchor
      | cons piece dropped => simp [anchor, htext] at hanchor
  · next tail hdot =>
      rw [hdot] at hrest
      simp [anchor, ← hrest] at hanchor
  · rfl

theorem anchor_upTo {path : Path} {kept : List (List Char)} (hkept : kept <+: path.pieces) :
    (path.upTo kept).anchor = path.anchor := by
  rcases path.anchor_cases with hanchor | hanchor | hanchor
  · rw [hanchor, anchor_upTo_of_nil hanchor hkept]
  · rw [hanchor, anchor, path.toList_upTo, hanchor]
    rfl
  · obtain ⟨dropped, hdropped⟩ := hkept
    rw [hanchor, anchor, path.toList_upTo, hanchor]
    rcases kept with _ | ⟨first, kept⟩
    · rfl
    · have hfirst : first = [] := by
        apply head?_pieces_of_dot hanchor
        rw [← hdropped]
        rfl
      cases kept with
      | nil => simp [hfirst]
      | cons second kept => simp [hfirst]

theorem components_trim (path : Path) : path.trim.components = path.components := by
  obtain ⟨fillers, hfillers, hsteps⟩ := path.exists_steps_eq_trim
  have hnothing : fillers.filterMap componentOf? = [] := by
    rw [List.filterMap_eq_nil_iff]
    intro filler hfiller
    rw [hfillers filler hfiller]
    rfl
  have hanchor : path.trim.anchor = path.anchor :=
    anchor_upTo (List.rdropWhile_prefix isFiller path.pieces)
  unfold components
  rw [hanchor, hsteps, List.filterMap_append, hnothing, List.append_nil]

end Path

namespace Fragments

open FileSystem Staged

/--
`path` is for an entry called `name` right in `directory`: as spelled, and in any tree, where it
stands for nothing but the entry of that name in the directory that `directory` leads to.
-/
structure LiesIn (directory : Path) (name : String) (path : Path) : Prop where
  fileName : path.fileName? = some name
  parent : ∃ parent, path.parent? = some parent ∧ parent.components = directory.components
  components : path.components = directory.components ++ [.named name]
  entry : ∀ (files : FileSystem) (entry : DirectoryEntry), files.entry path = .ok entry →
    ∃ place, files.LeadsTo directory place ∧ entry = ⟨place, name, false⟩

variable {directory : Path} {name : String}

theorem liesIn_join (directory : Path) (hname : PlainName name) :
    LiesIn directory name (directory.join ⟨name⟩) where
  fileName := directory.fileName?_join hname
  parent := ⟨directory.trim, directory.parent?_join hname, directory.components_trim⟩
  components := directory.components_join hname
  entry := by
    intro files entry hentry
    exact ((entry_join_eq_ok_iff hname).mp hentry).2

/-- The directory of a temporary file is spelled without fillers, and is the same directory. -/
theorem liesIn_join_trim (directory : Path) (hname : PlainName name) :
    LiesIn directory name (directory.trim.join ⟨name⟩) where
  fileName := directory.trim.fileName?_join hname
  parent := by
    refine ⟨directory.trim.trim, directory.trim.parent?_join hname, ?_⟩
    rw [Path.components_trim, Path.components_trim]
  components := by rw [Path.components_join _ hname, Path.components_trim]
  entry := by
    intro files entry hentry
    obtain ⟨-, place, hleads, rfl⟩ := (entry_join_eq_ok_iff hname).mp hentry
    exact ⟨place, leadsTo_trim_iff.mp hleads, rfl⟩

theorem LiesIn.ne {path path' : Path} {name' : String} (h : LiesIn directory name path)
    (h' : LiesIn directory name' path') (hne : name ≠ name') :
    path.components ≠ path'.components := by
  rw [h.components, h'.components]
  intro heq
  cases List.append_cancel_left heq
  exact hne rfl

/-- `target` is an entry right in `directory`, and staging it uses another one right in it. -/
structure StaysIn (directory : Path) (name : String) (target : Path) : Prop where
  lies : LiesIn directory name target
  temporary : ∃ temporary, temporaryOf? target = some temporary ∧
    LiesIn directory (temporaryName name) temporary ∧
    temporary ≠ target ∧ temporary.components ≠ target.components ∧
    ∀ (files : FileSystem) (content : ByteArray) (after : FileSystem) (staged : Staged),
      stage files target content = (after, .ok staged) → staged = ⟨temporary, target⟩

theorem staysIn_join (directory : Path) (hname : PlainName name) :
    StaysIn directory name (directory.join ⟨name⟩) where
  lies := liesIn_join directory hname
  temporary := by
    have htemporary := liesIn_join_trim directory (plainName_temporaryName hname)
    have hne := htemporary.ne (liesIn_join directory hname) (temporaryName_ne name)
    refine ⟨_, temporaryOf?_join hname, htemporary, ne_of_apply_ne Path.components hne, hne, ?_⟩
    intro files content after staged hstage
    obtain ⟨htarget, hstaged, -⟩ := stage_eq_ok hstage
    rw [temporaryOf?_join hname, Option.some.injEq] at hstaged
    rw [hstaged, ← htarget]

/--
**A write stays in its directory.** Whatever the directory is spelled like, the two targets of
accepted settings are the entries of the two names right in it. Each has a temporary file, which is
another entry right in the directory, and staging the target uses this one. So no path of a write
has a parent other than the directory, or stands for an entry of another.
-/
theorem write_stays_in_directory (directory : Path) (settings : Settings)
    (hvalid : settings.validate = .ok ()) :
    StaysIn directory settings.makefileName (targets directory settings).1 ∧
      StaysIn directory settings.headerName (targets directory settings).2 := by
  obtain ⟨hmakefile, hheader, -⟩ := plainNames_of_validate hvalid
  exact ⟨staysIn_join directory hmakefile, staysIn_join directory hheader⟩

/-- Names that are all but steps to elsewhere. -/
def dotted : Settings := { makefileName := "...", headerName := "..mk" }

theorem write_stays_in_directory_dotted :
    dotted.validate = .ok () ∧
    targets ⟨"./out/.//"⟩ dotted = (⟨"./out/.//..."⟩, ⟨"./out/.//..mk"⟩) ∧
    StaysIn ⟨"./out/.//"⟩ "..." ⟨"./out/.//..."⟩ ∧
    StaysIn ⟨"./out/.//"⟩ "..mk" ⟨"./out/.//..mk"⟩ ∧
    (⟨"./out/.//..mk"⟩ : Path).components = [.here, .named "out", .named "..mk"] := by
  have hvalid : dotted.validate = .ok () := rfl
  have htargets : targets ⟨"./out/.//"⟩ dotted = (⟨"./out/.//..."⟩, ⟨"./out/.//..mk"⟩) := by cbv
  have hstays := write_stays_in_directory ⟨"./out/.//"⟩ dotted hvalid
  rw [htargets] at hstays
  exact ⟨hvalid, htargets, hstays.1, hstays.2, by decide⟩

end Fragments

end FeatureFlags
