import Mathlib
import FeatureFlags.Generation
import FeatureFlags.Proofs.ReadingBack
import FeatureFlags.Proofs.SettingsFiles

/-!
# The width of the column

Both fragments are written name by name, and each name is padded by itself. The first name breaks
the writing off if the column is wider than padding goes (`foldlM_writeEntry`), so that the width is
looked at only if there is a name (`render_eq_writeBoth`). No other check of the width stands before
that: settings are accepted with any width that a settings file can give, and a run with a column
that is too wide breaks off after all its inputs are read and before it writes
(`render_breaks_off_iff`).
-/

namespace FeatureFlags

namespace Settings

/-- A width has no part in whether settings are accepted. -/
theorem validate_withWidth (settings : Settings) (width : UInt64) :
    ({ settings with nameWidth := width } : Settings).validate = settings.validate := rfl

end Settings

namespace Fragments

/-! ## Name by name -/

/-- Pads a name to a column; a column that is too wide breaks off. -/
def pad? (width : Nat) (name : String) : Except Error String :=
  if maxColumn < width then .error (.columnTooWide width) else .ok (Text.padRight width name)

/-- Adds the line of a name to what is written. -/
def writeEntry (lead tail : String) (width : Nat) (written name : String) :
    Except Error String := do
  let column ← pad? width name
  return written ++ (lead ++ column ++ tail)

def writeMakefile (resolution : Resolution) (settings : Settings) : Except Error String :=
  resolution.enabled.foldlM
    (writeEntry settings.symbolPrefix " = y\n" settings.nameWidth.toNat) (makefileOpening settings)

def writeHeader (resolution : Resolution) (settings : Settings) : Except Error String := do
  let written ← resolution.enabled.foldlM
    (writeEntry ("#define " ++ settings.symbolPrefix) " y\n" settings.nameWidth.toNat)
    (headerOpening settings)
  return written ++ headerClosing

/-- Both texts, the makefile first. -/
def writeBoth (resolution : Resolution) (settings : Settings) : Except Error Fragments := do
  let makefile ← writeMakefile resolution settings
  let header ← writeHeader resolution settings
  return ⟨makefile, header⟩

variable {lead tail : String} {width : Nat}

theorem writeEntry_of_le (h : width ≤ maxColumn) (written name : String) :
    writeEntry lead tail width written name =
      .ok (written ++ (lead ++ Text.padRight width name ++ tail)) := by
  unfold writeEntry pad?
  rw [if_neg (Nat.not_lt.mpr h)]
  rfl

theorem writeEntry_of_lt (h : maxColumn < width) (written name : String) :
    writeEntry lead tail width written name = .error (.columnTooWide width) := by
  unfold writeEntry pad?
  rw [if_pos h]
  rfl

/-- The first name breaks off, or every name gets its line. -/
theorem foldlM_writeEntry (names : List String) (written : String) :
    names.foldlM (writeEntry lead tail width) written =
      if names ≠ [] ∧ maxColumn < width then .error (.columnTooWide width)
      else .ok (written ++
        String.join (names.map fun name => lead ++ Text.padRight width name ++ tail)) := by
  induction names generalizing written with
  | nil => simp [pure, Except.pure]
  | cons name names ih =>
      rw [List.foldlM_cons]
      by_cases h : maxColumn < width
      · rw [writeEntry_of_lt h, if_pos ⟨List.cons_ne_nil _ _, h⟩]
        rfl
      · rw [writeEntry_of_le (Nat.not_lt.mp h), if_neg (fun hwide => h hwide.2)]
        refine (ih _).trans ?_
        rw [if_neg (fun hwide => h hwide.2), List.map_cons, String.join_cons, String.append_assoc]

/-! ## Both fragments -/

variable {resolution : Resolution} {settings : Settings}

theorem makefileOf_eq_join : makefileOf resolution settings =
    makefileOpening settings ++ String.join (resolution.enabled.map fun name =>
      settings.symbolPrefix ++ Text.padRight settings.nameWidth.toNat name ++ " = y\n") := by
  unfold makefileOf makefileOpening symbols
  rw [List.map_map]
  rfl

theorem headerOf_eq_join : headerOf resolution settings =
    headerOpening settings ++ String.join (resolution.enabled.map fun name =>
      "#define " ++ settings.symbolPrefix ++ Text.padRight settings.nameWidth.toNat name ++
        " y\n") ++ headerClosing := by
  unfold headerOf headerOpening headerClosing symbols
  rw [List.map_map]
  simp only [Function.comp_def, ← String.append_assoc]

/-- Looking at the width once, beforehand, comes to the same as padding name by name. -/
theorem render_eq_writeBoth : render resolution settings = writeBoth resolution settings := by
  unfold render writeBoth writeMakefile writeHeader
  simp only [foldlM_writeEntry]
  by_cases hwide : resolution.enabled ≠ [] ∧ maxColumn < settings.nameWidth.toNat
  · simp only [if_pos hwide]
    rfl
  · simp only [if_neg hwide]
    rw [makefileOf_eq_join, headerOf_eq_join]
    rfl

theorem render_eq_error_iff {error : Error} :
    render resolution settings = .error error ↔
      error = .columnTooWide settings.nameWidth.toNat ∧ 65535 < settings.nameWidth.toNat ∧
        ∃ name, (name, true) ∈ resolution.values := by
  have hon : resolution.enabled ≠ [] ↔ ∃ name, (name, true) ∈ resolution.values := by
    simp only [ne_eq, List.eq_nil_iff_forall_not_mem, not_forall, not_not,
      Resolution.mem_enabled_iff]
  rw [← hon]
  unfold render maxColumn
  split
  · next hwide =>
      rw [Except.error.injEq, eq_comm]
      exact ⟨fun h => ⟨h, hwide.2, hwide.1⟩, And.left⟩
  · next hfits =>
      constructor
      · rintro ⟨⟩
      · rintro ⟨-, hwide, hnames⟩
        exact absurd ⟨hnames, hwide⟩ hfits

theorem exists_render_iff :
    (∃ fragments, render resolution settings = .ok fragments) ↔
      settings.nameWidth.toNat ≤ 65535 ∨ ∀ name, (name, true) ∉ resolution.values := by
  rw [← not_iff_not, not_or, not_forall, Nat.not_le]
  simp only [not_not]
  constructor
  · intro h
    cases hrender : render resolution settings with
    | ok fragments => exact absurd ⟨fragments, hrender⟩ h
    | error error => exact (render_eq_error_iff.mp hrender).2
  · rintro h ⟨fragments, hrender⟩
    cases (render_eq_error_iff.mpr ⟨rfl, h⟩).symm.trans hrender

/-- A run with a column that is too wide leaves all files as they are. -/
theorem run_of_error {files : FileSystem} {commandLine : CommandLine} {events : List Event}
    {inputs : Generation.Inputs} {error : Error}
    (hinputs : Generation.inputsOf files commandLine = (events, .ok inputs))
    (hrender : render inputs.resolution inputs.settings = .error error) :
    (Generation.run files commandLine).files = files ∧
      (Generation.run files commandLine).result = .error error := by
  unfold Generation.run
  simp only [hinputs, Generation.writeFragments, hrender, and_self]

/-- What the width of the column decides, for accepted settings. -/
structure BreaksOff (resolution : Resolution) (settings : Settings) : Prop where
  accepted (width : UInt64) :
    Settings.ofYaml ({ settings with nameWidth := width } : Settings).toYaml =
      .ok { settings with nameWidth := width }
  writesBoth : render resolution settings = writeBoth resolution settings
  ok_iff : (∃ fragments, render resolution settings = .ok fragments) ↔
    settings.nameWidth.toNat ≤ 65535 ∨ ∀ name, (name, true) ∉ resolution.values
  error_iff (error : Error) : render resolution settings = .error error ↔
    error = .columnTooWide settings.nameWidth.toNat ∧ 65535 < settings.nameWidth.toNat ∧
      ∃ name, (name, true) ∈ resolution.values
  run : ∀ files commandLine events table error,
    Generation.inputsOf files commandLine = (events, .ok ⟨settings, table, resolution⟩) →
    render resolution settings = .error error →
    (Generation.run files commandLine).files = files ∧
      (Generation.run files commandLine).result = .error error

/--
**A name and a column that is too wide break the rendering off.** Whatever width accepted settings
have, they are still accepted with any other, and a settings file can give it. Rendering pads name
by name; it gives both texts exactly if the column is at most 65535 wide or no entry is on.
Otherwise it breaks off, and a run that has come so far breaks off with it, its files untouched.
-/
theorem render_breaks_off_iff (resolution : Resolution) (settings : Settings)
    (hvalid : settings.validate = .ok ()) : BreaksOff resolution settings := by
  refine ⟨?_, render_eq_writeBoth, exists_render_iff, fun error => render_eq_error_iff, ?_⟩
  · intro width
    rw [Settings.ofYaml_toYaml_eq, Settings.validate_withWidth, hvalid]
    rfl
  · intro files commandLine events table error hinputs hrender
    exact run_of_error hinputs hrender

/-- One entry is on. -/
def lampOn : Resolution := ⟨#[("LAMP", true), ("SPARE", false)]⟩

/-- The widest column for which a name can be padded. -/
def widest : Settings := { nameWidth := 65535 }

/-- At the limit both texts are rendered, and one further a settings file can still go. -/
theorem render_breaks_off_iff_widest :
    widest.validate = .ok () ∧ (∃ fragments, render lampOn widest = .ok fragments) ∧
      Settings.ofYaml ({ widest with nameWidth := 65536 } : Settings).toYaml =
        .ok { widest with nameWidth := 65536 } := by
  have hbreaks := render_breaks_off_iff lampOn widest rfl
  exact ⟨rfl, hbreaks.ok_iff.mpr (.inl (by decide)), hbreaks.accepted 65536⟩

/-- These settings are accepted, and rendering an entry with them breaks off. -/
theorem wider_breaks_off :
    ({ nameWidth := 65536 } : Settings).validate = .ok () ∧
      ¬ ∃ fragments, render lampOn { nameWidth := 65536 } = .ok fragments := by
  refine ⟨rfl, ?_⟩
  rw [exists_render_iff, not_or, not_forall]
  exact ⟨by decide, "LAMP", by simp [lampOn]⟩

end Fragments

end FeatureFlags
