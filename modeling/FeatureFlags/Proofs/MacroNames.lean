import Mathlib
import FeatureFlags.Proofs.Declarations
import FeatureFlags.Proofs.Layouts
import FeatureFlags.Proofs.LiveText
import FeatureFlags.Proofs.Outcomes
import FeatureFlags.Proofs.Overriding

/-!
# The macros of a header

Below its banner a header names macros on its lines: the guard twice, and then each entry that is
on, with the prefix before its name. Accepted settings and declared names have characters of
identifiers only, but guard and prefix are checked by the rule for names of entries, which lets a
digit lead. So all macros are words, and they are identifiers exactly if neither the guard nor the
prefix in front of an entry starts with a digit (`header_macros_identifiers_iff`).
-/

namespace FeatureFlags

/-! ## Identifiers -/

def StartsWithDigit (text : String) : Prop := ∃ c ∈ text.toList.head?, '0' ≤ c ∧ c ≤ '9'

instance (text : String) : Decidable (StartsWithDigit text) :=
  match h : text.toList.head? with
  | none => .isFalse (by simp [StartsWithDigit, h])
  | some c => decidable_of_iff ('0' ≤ c ∧ c ≤ '9') (by simp [StartsWithDigit, h])

/-- An identifier of C: letters, digits and underscores, of which the first is no digit. -/
structure Identifier (text : String) : Prop where
  named : Named text
  first : ¬ StartsWithDigit text

theorem startsWithDigit_append {text : String} (h : Named text) (rest : String) :
    StartsWithDigit (text ++ rest) ↔ StartsWithDigit text := by
  unfold StartsWithDigit
  rw [String.toList_append, List.head?_append_of_ne_nil _ h.1]

theorem Named.append {text rest : String} (h : Named text) (hrest : Named rest) :
    Named (text ++ rest) := by
  unfold Named
  rw [String.toList_append, List.forall_mem_append]
  exact ⟨List.append_ne_nil_of_left_ne_nil h.1 _, h.2, hrest.2⟩

theorem Named.notMem_space {text : String} (h : Named text) : ' ' ∉ text.toList :=
  notMem_of_isName (isName_iff.mpr h) rfl

/-! ## The names of a description -/

/-- A table that a description gives, read from a file or from a text, overridden or not. -/
inductive Table.Described : Table → Prop where
  | ofFile {files : FileSystem} {path : Path}
      (hread : (Description.load files path .empty).2 = .ok ()) :
      Described (Description.load files path .empty).1.table
  | ofText {files : FileSystem} {file : Path} {text : String}
      (hread : (Description.readText files file text .empty).2 = .ok ()) :
      Described (Description.readText files file text .empty).1.table
  | overridden {table : Table} (h : Described table) (overrides : Overrides) :
      Described (table.applyOverrides overrides)

theorem Description.wellFormed_load (files : FileSystem) (path : Path) :
    ∀ entry ∈ (load files path .empty).1.table.entries, entry.WellFormed := by
  obtain ⟨entries, stop, hexpands, htable, -⟩ := exists_expandsFile files path .empty
  intro entry hentry
  rw [htable] at hentry
  have hmem := Table.mem_of_mem_foldl_insert hentry
  cases hexpands with
  | refused => cases hmem
  | opened _ hlines => exact hlines.wellFormed entry hmem

theorem named_of_described {table : Table} (h : table.Described) :
    ∀ entry ∈ table.entries, Named entry.name := by
  induction h with
  | ofFile =>
      intro entry hentry
      exact isName_iff.mp (Description.wellFormed_load _ _ entry hentry).name
  | ofText =>
      intro entry hentry
      exact isName_iff.mp (Description.wellFormed_readText _ _ _ entry hentry).name
  | overridden _ overrides ih =>
      rw [Table.entries_applyOverrides, List.forall_mem_map]
      exact ih

theorem Table.exists_of_mem_enabled {table : Table} {resolution : Resolution} {name : String}
    (hresolve : table.resolve = .ok resolution) (h : name ∈ resolution.enabled) :
    ∃ entry ∈ table.entries, entry.name = name := by
  have hmem := resolution.enabled_sublist.mem h
  rw [names_of_resolve hresolve] at hmem
  exact List.mem_map.mp hmem

namespace Fragments

open Text

/-! ## Reading macros -/

/-- The macro that a line tests or defines: the word after `#ifndef` or `#define`. -/
def macroOn? (line : List Char) : Option String :=
  (nameAfter? "#ifndef ".toList line).or (nameAfter? "#define ".toList line)

/-- The macros that the lines of a text name, in order. -/
def macros (text : List Char) : List String := (Text.lines text).filterMap macroOn?

theorem nameAfter?_append (lead : List Char) {word : String} (hword : ' ' ∉ word.toList)
    (rest : List Char) (hrest : rest.head?.any (· ≠ ' ') = false) :
    nameAfter? lead (lead ++ (word.toList ++ rest)) = some word := by
  have hlead : (lead ++ (word.toList ++ rest)).dropPrefix? lead = some (word.toList ++ rest) :=
    List.dropPrefix?_eq_some_iff.mpr ⟨lead, rfl, beq_self_eq_true _⟩
  unfold nameAfter?
  rw [hlead, Option.map_some, (span_append_of_notMem hword hrest).1, String.ofList_toList]

theorem macroOn?_ifndef {word : String} (hword : ' ' ∉ word.toList) :
    macroOn? ("#ifndef " ++ word).toList = some word := by
  have hname := nameAfter?_append "#ifndef ".toList hword [] rfl
  rw [List.append_nil, ← String.toList_append] at hname
  rw [macroOn?, hname, Option.some_or]

theorem macroOn?_define {word : String} (hword : ' ' ∉ word.toList) (rest : List Char)
    (hrest : rest.head?.any (· ≠ ' ') = false) :
    macroOn? ("#define ".toList ++ (word.toList ++ rest)) = some word := by
  have hnone :
      nameAfter? "#ifndef ".toList ("#define ".toList ++ (word.toList ++ rest)) = none := by
    simp [nameAfter?, List.dropPrefix?]
  rw [macroOn?, hnone, Option.none_or, nameAfter?_append _ hword rest hrest]

/-! ## The header below its banner -/

variable {settings : Settings} {resolution : Resolution}

theorem named_headerGuard (hvalid : settings.validate = .ok ()) : Named settings.headerGuard :=
  isName_iff.mp (isName_headerGuard hvalid)

theorem named_symbolPrefix (hvalid : settings.validate = .ok ()) : Named settings.symbolPrefix :=
  isName_iff.mp (isName_symbolPrefix hvalid)

/-- What follows the banner of a header. -/
def belowBanner (resolution : Resolution) (settings : Settings) : List Char :=
  ([] :: headerLines resolution settings).flatMap (· ++ ['\n'])

theorem headerOf_eq_belowBanner : (headerOf resolution settings).toList =
    (headerBanner settings).toList ++ belowBanner resolution settings :=
  headerOf_eq_lines

theorem eq_of_render {fragments : Fragments} (h : render resolution settings = .ok fragments) :
    fragments = ⟨makefileOf resolution settings, headerOf resolution settings⟩ := by
  unfold render at h
  split at h
  · cases h
  · exact (Except.ok.inj h).symm

theorem lines_belowBanner (hvalid : settings.validate = .ok ())
    (hnames : ∀ name ∈ resolution.enabled, isName name = true) :
    Text.lines (belowBanner resolution settings) = [] :: headerLines resolution settings := by
  have hcode : ∀ line ∈ [] :: headerLines resolution settings, ∀ c ∈ line, isCodeChar c = true :=
    List.forall_mem_cons.mpr ⟨List.forall_mem_nil _,
      fun line hline => isCodeChar_of_mem_headerLines hvalid hnames hline⟩
  apply lines_flatMap_newline
  · intro line hline hmem
    cases hcode line hline '\n' hmem
  · intro line hline hlast
    cases hcode line hline '\r' (List.mem_of_getLast? hlast)

theorem macroOn?_headerEntry {name : String} (hstart : Named settings.symbolPrefix)
    (hname : Named name) :
    macroOn? (entryLine ("#define " ++ settings.symbolPrefix) " y" settings.nameWidth.toNat name) =
      some (settings.symbol name) := by
  have hline : entryLine ("#define " ++ settings.symbolPrefix) " y" settings.nameWidth.toNat name =
      "#define ".toList ++ ((settings.symbol name).toList ++
        (List.replicate (settings.nameWidth.toNat - name.length) ' ' ++ " y".toList)) := by
    unfold entryLine Settings.symbol
    rw [toList_padRight, String.toList_append, String.toList_append]
    simp only [List.append_assoc]
  rw [hline]
  apply macroOn?_define (hstart.append hname).notMem_space _
  cases settings.nameWidth.toNat - name.length <;> rfl

theorem macros_belowBanner (hvalid : settings.validate = .ok ())
    (hnames : ∀ name ∈ resolution.enabled, Named name) :
    macros (belowBanner resolution settings) =
      settings.headerGuard :: settings.headerGuard :: resolution.enabled.map settings.symbol := by
  have hguard := named_headerGuard hvalid
  have hstart := named_symbolPrefix hvalid
  have hdefine :
      macroOn? ("#define " ++ settings.headerGuard).toList = some settings.headerGuard := by
    have hline := macroOn?_define hguard.notMem_space [] rfl
    rwa [List.append_nil, ← String.toList_append] at hline
  have hentries : (headerEntries resolution settings).filterMap macroOn? =
      resolution.enabled.map settings.symbol := by
    unfold headerEntries
    rw [List.filterMap_map, ← List.filterMap_eq_map]
    apply List.filterMap_congr
    intro name hname
    exact macroOn?_headerEntry hstart (hnames name hname)
  have hblank : macroOn? [] = none := rfl
  have hendif : macroOn? "#endif".toList = none := by decide
  unfold macros
  rw [lines_belowBanner hvalid fun name hname => isName_iff.mpr (hnames name hname)]
  simp only [headerLines, guardLines, List.filterMap_cons, List.filterMap_append, hblank,
    macroOn?_ifndef hguard.notMem_space, hdefine, hentries, hendif, List.filterMap_nil,
    List.append_nil, List.cons_append, List.nil_append]

theorem identifiers_iff (hvalid : settings.validate = .ok ())
    (hnames : ∀ name ∈ resolution.enabled, Named name) :
    (∀ name ∈ macros (belowBanner resolution settings), Identifier name) ↔
      ¬ StartsWithDigit settings.headerGuard ∧
        (resolution.enabled = [] ∨ ¬ StartsWithDigit settings.symbolPrefix) := by
  have hguard := named_headerGuard hvalid
  have hstart := named_symbolPrefix hvalid
  have hsymbol : ∀ name ∈ resolution.enabled, (Identifier (settings.symbol name) ↔
      ¬ StartsWithDigit settings.symbolPrefix) := by
    intro name hname
    rw [← startsWithDigit_append hstart name]
    exact ⟨Identifier.first, fun hfirst => ⟨hstart.append (hnames name hname), hfirst⟩⟩
  rw [macros_belowBanner hvalid hnames]
  simp only [List.forall_mem_cons, List.forall_mem_map]
  constructor
  · rintro ⟨hfirst, -, hsymbols⟩
    refine ⟨hfirst.first, ?_⟩
    by_contra hnot
    rw [not_or, not_not] at hnot
    obtain ⟨name, hname⟩ := List.exists_mem_of_ne_nil _ hnot.1
    exact (hsymbol name hname).mp (hsymbols name hname) hnot.2
  · rintro ⟨hfirst, hsymbols⟩
    refine ⟨⟨hguard, hfirst⟩, ⟨hguard, hfirst⟩, fun name hname => (hsymbol name hname).mpr ?_⟩
    rcases hsymbols with hnone | hsymbols
    · rw [hnone] at hname
      cases hname
    · exact hsymbols

/--
**Every macro is a word, and an identifier if no digit leads.** Let settings be accepted, and let
the entries come from a description. A rendered header is its banner and then lines that name the
guard twice and each entry that is on, in order, behind the prefix. All these names are words of
ASCII letters, digits and underscores. They are identifiers exactly if the guard does not start with
a digit, and, unless no entry is on, the prefix does not either.
-/
theorem header_macros_identifiers_iff {table : Table} {fragments : Fragments}
    (hvalid : settings.validate = .ok ()) (hdescribed : table.Described)
    (hresolve : table.resolve = .ok resolution)
    (hrender : render resolution settings = .ok fragments) :
    ∃ below, fragments.header.toList = (headerBanner settings).toList ++ below ∧
      macros below =
        settings.headerGuard :: settings.headerGuard :: resolution.enabled.map settings.symbol ∧
      (∀ name ∈ macros below, Named name) ∧
      ((∀ name ∈ macros below, Identifier name) ↔
        ¬ StartsWithDigit settings.headerGuard ∧
          (resolution.enabled = [] ∨ ¬ StartsWithDigit settings.symbolPrefix)) := by
  have hnames : ∀ name ∈ resolution.enabled, Named name := by
    intro name hname
    obtain ⟨entry, hentry, rfl⟩ := Table.exists_of_mem_enabled hresolve hname
    exact named_of_described hdescribed entry hentry
  have hguard := named_headerGuard hvalid
  have hstart := named_symbolPrefix hvalid
  have hmacros := macros_belowBanner hvalid hnames
  refine ⟨belowBanner resolution settings, ?_, hmacros, ?_, identifiers_iff hvalid hnames⟩
  · rw [eq_of_render hrender]
    exact headerOf_eq_belowBanner
  · rw [hmacros]
    simp only [List.forall_mem_cons, List.forall_mem_map]
    exact ⟨hguard, hguard, fun name hname => hstart.append (hnames name hname)⟩

/-- One name starts with a digit, which the prefix keeps from the start of its macro. -/
def planeText : String := "2D yes !OFF # flat\nOFF no\n"

def plane : Table := (Description.readText Description.noFiles ⟨"main"⟩ planeText .empty).1.table

def planeOn : Resolution := ⟨#[("2D", true), ("OFF", false)]⟩

theorem described_plane : plane.Described :=
  .ofText (by cbv)

theorem resolve_plane : plane.resolve = .ok planeOn := by cbv

theorem header_macros_identifiers_iff_plane :
    ({} : Settings).validate = .ok () ∧ plane.Described ∧ plane.resolve = .ok planeOn ∧
      ∃ fragments below, render planeOn {} = .ok fragments ∧
        fragments.header.toList = (headerBanner {}).toList ++ below ∧
        macros below = ["__CONFIG_H__", "__CONFIG_H__", "CONFIG_2D"] ∧
        ∀ name ∈ macros below, Identifier name := by
  have hrender : render planeOn {} = .ok ⟨makefileOf planeOn {}, headerOf planeOn {}⟩ := rfl
  obtain ⟨below, hheader, hmacros, -, hidentifiers⟩ :=
    header_macros_identifiers_iff rfl described_plane resolve_plane hrender
  exact ⟨rfl, described_plane, resolve_plane, _, below, hrender, hheader, hmacros,
    hidentifiers.mpr ⟨by decide, .inr (by decide)⟩⟩

/-- A guard and a prefix that start with a digit. -/
def solid : Settings := { symbolPrefix := "3D_", headerGuard := "3D_CONFIG_H" }

/-- These settings are accepted, and no macro of the header is an identifier. -/
theorem solid_names_no_identifier :
    solid.validate = .ok () ∧ plane.Described ∧ plane.resolve = .ok planeOn ∧
      ∃ fragments below, render planeOn solid = .ok fragments ∧
        fragments.header.toList = (headerBanner solid).toList ++ below ∧
        macros below = ["3D_CONFIG_H", "3D_CONFIG_H", "3D_2D"] ∧
        ∀ name ∈ macros below, ¬ Identifier name := by
  have hnames : ∀ name ∈ planeOn.enabled, Named name := by
    have henabled : planeOn.enabled = ["2D"] := rfl
    rw [henabled]
    exact List.forall_mem_singleton.mpr (isName_iff.mp (by decide))
  have hmacros : macros (belowBanner planeOn solid) = ["3D_CONFIG_H", "3D_CONFIG_H", "3D_2D"] :=
    macros_belowBanner rfl hnames
  refine ⟨rfl, described_plane, resolve_plane, _, belowBanner planeOn solid, rfl,
    headerOf_eq_belowBanner, hmacros, ?_⟩
  rw [hmacros]
  simp only [List.forall_mem_cons]
  exact ⟨fun h => h.first (by decide), fun h => h.first (by decide), fun h => h.first (by decide),
    List.forall_mem_nil _⟩

end Fragments

end FeatureFlags
