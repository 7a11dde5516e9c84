import FeatureFlags.Proofs.Mappings
import FeatureFlags.SettingsFile

/-!
# Settings files read back

Accepted settings are those of the file that is written for them (`ofYaml_toYaml`): the file is a
mapping with a pair for each field, and each pair sets its field to what it is
(`set?_scalarOf`).
-/

namespace FeatureFlags

namespace Settings

theorem Field.keyWord (field : Field) : Yaml.KeyWord field.key.toList := by
  have hall : field.key.toList.all (fun c => Yaml.isWordChar c && c ≠ '-') = true := by
    cases field <;> decide
  refine Yaml.keyWord_of_isWordChar ?_ ?_ ?_
  · cases field <;> decide
  · cases field <;> decide
  · simpa using hall

/-- The scalar that the value of a field is read as. -/
def scalarOf (settings : Settings) : Field → Yaml.Scalar
  | .nameWidth => ⟨.plain, none, toString settings.nameWidth.toNat⟩
  | .symbolPrefix => ⟨Yaml.styleOf settings.symbolPrefix.toList, none, settings.symbolPrefix⟩
  | .makefileName => ⟨Yaml.styleOf settings.makefileName.toList, none, settings.makefileName⟩
  | .headerName => ⟨Yaml.styleOf settings.headerName.toList, none, settings.headerName⟩
  | .headerGuard => ⟨Yaml.styleOf settings.headerGuard.toList, none, settings.headerGuard⟩
  | .generator => ⟨Yaml.styleOf settings.generator.toList, none, settings.generator⟩

/-- The settings `target` with a field of `source`. -/
def copy (source target : Settings) : Field → Settings
  | .symbolPrefix => { target with symbolPrefix := source.symbolPrefix }
  | .nameWidth => { target with nameWidth := source.nameWidth }
  | .makefileName => { target with makefileName := source.makefileName }
  | .headerName => { target with headerName := source.headerName }
  | .headerGuard => { target with headerGuard := source.headerGuard }
  | .generator => { target with generator := source.generator }

variable (settings : Settings)

/-- A field as it is written. -/
def pairOf (field : Field) : Yaml.Pair :=
  ⟨field.key, settings.written field, settings.scalarOf field⟩

theorem toList_toString (value : Nat) : (toString value).toList = Nat.toDigits 10 value :=
  String.toList_ofList

theorem readable_pairOf (field : Field) : (settings.pairOf field).Readable := by
  refine ⟨field.keyWord, ?_, ?_⟩
  · cases field with
    | nameWidth =>
        have hwritten := Yaml.written_toDigits settings.nameWidth.toNat
        rwa [← toList_toString] at hwritten
    | symbolPrefix | makefileName | headerName | headerGuard | generator =>
        exact Yaml.written_writeText _
  · cases field <;> rfl

theorem toYaml_eq :
    settings.toYaml = String.ofList ((Field.all.map settings.pairOf).flatMap Yaml.Pair.source) := by
  rw [List.flatMap_map]
  rfl

theorem widthOf?_nameWidth : widthOf? (settings.scalarOf .nameWidth) = some settings.nameWidth := by
  have hlt : settings.nameWidth.toNat < UInt64.size := settings.nameWidth.toNat_lt
  unfold widthOf?
  simp only [scalarOf, true_or, if_true, toList_toString, Yaml.natural?_toDigits, if_pos hlt,
    UInt64.ofNat_toNat]

theorem set?_scalarOf (target : Settings) (field : Field) :
    target.set? (settings.scalarOf field) field = some (settings.copy target field) := by
  cases field with
  | nameWidth => rw [set?, widthOf?_nameWidth, Option.map_some, copy]
  | symbolPrefix | makefileName | headerName | headerGuard | generator => rfl

/-- Each pair sets its field, as long as none is there twice. -/
theorem ofPairs?_pairOf {document : Yaml.Document} {seen fields : List Field} (hnodup : fields.Nodup)
    (hseen : ∀ field ∈ fields, field ∉ seen) (target : Settings) :
    ofPairs? document seen target (fields.map fun field => (settings.pairOf field).nodes) =
      some (fields.foldl settings.copy target) := by
  induction fields generalizing seen target with
  | nil => rfl
  | cons field fields ih =>
      obtain ⟨hnot, hnodup⟩ := List.nodup_cons.mp hnodup
      obtain ⟨hfield, hseen⟩ := List.forall_mem_cons.mp hseen
      have hlater : ∀ later ∈ fields, later ∉ field :: seen := by
        intro later hlater hmem
        rcases List.mem_cons.mp hmem with rfl | hmem
        · exact hnot hlater
        · exact hseen later hlater hmem
      rw [List.map_cons, Yaml.Pair.nodes, ofPairs?]
      simp only [Yaml.Document.scalar?, pairOf, Option.bind_some, bind, Field.ofKey?_key,
        if_neg hfield, set?_scalarOf]
      exact ih hnodup hlater (settings.copy target field)

/-- All fields are written. -/
theorem foldl_copy_all (target : Settings) : Field.all.foldl settings.copy target = settings := rfl

/-- Any settings, accepted or not, are those of their file. -/
theorem ofText?_toYaml :
    (Yaml.Document.ofText? settings.toYaml).bind ofDocument? = some settings := by
  have hne : Field.all.map settings.pairOf ≠ [] := List.cons_ne_nil _ _
  have hreadable : ∀ pair ∈ Field.all.map settings.pairOf, pair.Readable := by
    intro pair hpair
    obtain ⟨field, -, rfl⟩ := List.mem_map.mp hpair
    exact settings.readable_pairOf field
  rw [toYaml_eq, Yaml.Document.ofText?_pairs hne hreadable, Option.bind_some, ofDocument?,
    List.map_map]
  exact (settings.ofPairs?_pairOf (by decide) (by simp) {}).trans
    (congrArg some (settings.foldl_copy_all {}))

/-- What is not accepted is refused for the same fault when it is read back. -/
theorem ofYaml_toYaml_eq : ofYaml settings.toYaml = settings.validate.map fun _ => settings := by
  unfold ofYaml
  rw [settings.ofText?_toYaml]
  simp only
  cases settings.validate with
  | ok accepted => rfl
  | error error => rfl

/-- Accepted settings are read back from what is written for them. -/
theorem ofYaml_toYaml {settings : Settings} (h : settings.validate = .ok ()) :
    ofYaml settings.toYaml = .ok settings := by
  rw [ofYaml_toYaml_eq, h]
  rfl

/-- Names that would be no texts, and a text with breaks, blanks and marks at its ends. -/
def ambiguous : Settings :=
  { symbolPrefix := "null", nameWidth := 18446744073709551615, makefileName := "~",
    headerName := "0x1F", headerGuard := "True", generator := "\n - key: 'a' # \"b\"\n\n" }

theorem ofYaml_toYaml_ambiguous :
    ambiguous.validate = .ok () ∧ ofYaml ambiguous.toYaml = .ok ambiguous :=
  ⟨rfl, ofYaml_toYaml rfl⟩

end Settings

end FeatureFlags
