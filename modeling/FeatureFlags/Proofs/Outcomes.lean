import Mathlib
import FeatureFlags.Proofs.Words

/-!
# What a line comes to

The words of a line decide what it says or what is wrong with it (`Outcome`): the number of words is
looked at first, then the keyword, the name, the default and the dependencies from left to right.
Names, defaults and dependencies are spelled out here character by character, and a repeated
dependency counts at its first place (`FirstPlaces`). The parser gives this outcome for every line
(`parse_iff_outcome`).
-/

namespace FeatureFlags

/-! ## Names and defaults -/

theorem isNameChar_iff {c : Char} : isNameChar c = true ↔
    ('A' ≤ c ∧ c ≤ 'Z') ∨ ('a' ≤ c ∧ c ≤ 'z') ∨ ('0' ≤ c ∧ c ≤ '9') ∨ c = '_' := by
  simp only [isNameChar, Char.isAlphanum, Char.isAlpha, Char.isUpper, Char.isLower, Char.isDigit,
    Bool.or_eq_true, Bool.and_eq_true, decide_eq_true_eq, Char.le_def, or_assoc, ge_iff_le]

/-- One or more ASCII letters, digits or underscores. -/
def Named (text : String) : Prop :=
  text.toList ≠ [] ∧ ∀ c ∈ text.toList,
    ('A' ≤ c ∧ c ≤ 'Z') ∨ ('a' ≤ c ∧ c ≤ 'z') ∨ ('0' ≤ c ∧ c ≤ '9') ∨ c = '_'

theorem isName_iff {text : String} : isName text = true ↔ Named text := by
  unfold isName Named
  simp only [Bool.and_eq_true, decide_eq_true_eq, List.all_eq_true, isNameChar_iff]

/-- Only a letter and its capital have that letter as their small one. -/
theorem eq_or_eq_toUpper_of_toLower {c letter : Char} (h : c.toLower = letter) :
    c = letter ∨ c = letter.toUpper := by
  subst h
  by_cases hupper : c.val ≥ 'A'.val ∧ c.val ≤ 'Z'.val
  · right
    have hval : c.toLower.val = c.val + 32 := by
      unfold Char.toLower
      rw [dif_pos hupper]
      rfl
    have hlow : 65 ≤ c.val.toNat := hupper.1
    have hhigh : c.val.toNat ≤ 90 := hupper.2
    have hnat : (c.val + 32).toNat = c.val.toNat + 32 := by
      rw [UInt32.toNat_add]
      simp only [UInt32.reduceToNat]
      omega
    have hlower : 'a'.val ≤ c.toLower.val ∧ c.toLower.val ≤ 'z'.val := by
      rw [hval, UInt32.le_iff_toNat_le, UInt32.le_iff_toNat_le, hnat]
      exact ⟨Nat.add_le_add_right hlow 32, Nat.add_le_add_right hhigh 32⟩
    apply Char.ext
    unfold Char.toUpper
    rw [dif_pos hlower]
    show c.val = c.toLower.val + ('A'.val - 'a'.val)
    rw [hval, UInt32.add_assoc]
    exact (UInt32.add_zero _).symm
  · left
    unfold Char.toLower
    rw [dif_neg hupper]

namespace Toggle

theorem spelled_of_folded {toggle : Toggle} {value : String}
    (h : value.toList.map Char.toLower = toggle.text.toList) : toggle.Spelled value := by
  unfold Spelled
  rw [← h, List.forall₂_map_right_iff, List.forall₂_same]
  intro c _
  exact eq_or_eq_toUpper_of_toLower rfl

theorem ofWord?_eq_some_iff {toggle : Toggle} {value : String} :
    ofWord? value = some toggle ↔ toggle.Spelled value := by
  refine ⟨?_, ofWord?_of_spelled⟩
  intro h
  apply spelled_of_folded
  simp only [ofWord?] at h
  split at h
  · next hyes =>
      cases h
      exact hyes
  · split at h
    · next hno =>
        cases h
        exact hno
    · cases h

theorem ofWord?_eq_none_iff {value : String} :
    ofWord? value = none ↔ ∀ toggle : Toggle, ¬ toggle.Spelled value := by
  simp only [Option.eq_none_iff_forall_ne_some, ne_eq, ofWord?_eq_some_iff]

end Toggle

/-! ## Dependencies -/

namespace Dependency

/-- The token is a name, with one `!` before it if the dependency is negated. -/
def Spelled (dependency : Dependency) (token : String) : Prop :=
  Named dependency.name ∧
    token.toList = (if dependency.negated then ['!'] else []) ++ dependency.name.toList

theorem ofToken?_eq_some_iff {dependency : Dependency} {token : String} :
    ofToken? token = some dependency ↔ dependency.Spelled token := by
  unfold Spelled
  rw [← isName_iff]
  constructor
  · intro h
    refine ⟨isName_of_ofToken? h, ?_⟩
    simp only [ofToken?] at h
    split at h
    · next name htoken =>
        split at h
        · cases h
          rw [htoken, String.toList_ofList]
          rfl
        · cases h
    · split at h
      · cases h
        rfl
      · cases h
  · rintro ⟨hname, htoken⟩
    have htext : dependency.text.toList = token.toList := by
      rw [htoken]
      obtain ⟨name, negated⟩ := dependency
      cases negated with
      | true => exact toList_text_negated name
      | false => rfl
    rw [← String.toList_inj.mp htext]
    exact ofToken?_text hname

theorem ofToken?_eq_none_iff {token : String} :
    ofToken? token = none ↔ ∀ dependency : Dependency, ¬ dependency.Spelled token := by
  simp only [Option.eq_none_iff_forall_ne_some, ne_eq, ofToken?_eq_some_iff]

end Dependency

section FirstPlaces

variable {α : Type} [DecidableEq α]

/-- `kept` has each element of `list` once, in the order in which they first come up there. -/
structure FirstPlaces (list kept : List α) : Prop where
  mem_iff : ∀ a, a ∈ kept ↔ a ∈ list
  ordered : kept.Pairwise fun a b => list.idxOf a < list.idxOf b

/-- One element more is kept if it has not come up before. -/
theorem eraseDups_concat (list : List α) (a : α) :
    (list ++ [a]).eraseDups =
      if a ∈ list.eraseDups then list.eraseDups else list.eraseDups ++ [a] := by
  rw [List.eraseDups_append]
  by_cases ha : a ∈ list
  · have hnone : [a].removeAll list = [] := by simp [List.removeAll, ha]
    rw [if_pos (List.mem_eraseDups.mpr ha), hnone, List.eraseDups_nil, List.append_nil]
  · have hnew : [a].removeAll list = [a] := by simp [List.removeAll, ha]
    rw [if_neg (fun hmem => ha (List.mem_eraseDups.mp hmem)), hnew, List.eraseDups_cons,
      List.filter_nil, List.eraseDups_nil]

theorem firstPlaces_eraseDups (list : List α) : FirstPlaces list list.eraseDups where
  mem_iff := fun _ => List.mem_eraseDups
  ordered := by
    induction list using List.reverseRecOn with
    | nil => exact List.Pairwise.nil
    | append_singleton list a ih =>
        have hplace : ∀ b ∈ list.eraseDups, (list ++ [a]).idxOf b = list.idxOf b :=
          fun b hb => List.idxOf_append_of_mem (List.mem_eraseDups.mp hb)
        have hbefore : list.eraseDups.Pairwise
            fun b c => (list ++ [a]).idxOf b < (list ++ [a]).idxOf c := by
          apply ih.imp_of_mem
          intro b c hb hc hlt
          rwa [hplace b hb, hplace c hc]
        rw [eraseDups_concat]
        by_cases ha : a ∈ list.eraseDups
        · rw [if_pos ha]
          exact hbefore
        · rw [if_neg ha, List.pairwise_append]
          refine ⟨hbefore, List.pairwise_singleton _ _, ?_⟩
          intro b hb c hc
          have hnotMem : a ∉ list := fun hmem => ha (List.mem_eraseDups.mpr hmem)
          rw [List.mem_singleton.mp hc, hplace b hb, List.idxOf_append_of_notMem hnotMem]
          exact Nat.lt_add_right _ (List.idxOf_lt_length_of_mem (List.mem_eraseDups.mp hb))

/-- There is one such list. -/
theorem FirstPlaces.unique {list kept other : List α} (h : FirstPlaces list kept)
    (h' : FirstPlaces list other) : kept = other := by
  have hirrefl : Std.Irrefl fun a b => list.idxOf a < list.idxOf b :=
    ⟨fun _ => Nat.lt_irrefl _⟩
  have hantisymm : Std.Antisymm fun a b => list.idxOf a < list.idxOf b :=
    ⟨fun _ _ hlt hgt => absurd hgt (Nat.lt_asymm hlt)⟩
  apply h.ordered.eq_of_mem_iff h'.ordered
  intro a
  rw [h.mem_iff, h'.mem_iff]

end FirstPlaces

namespace Declaration

variable {origin : Origin} {line : String}

/-! ## The parts of a declaration -/

theorem checkNameAndValue_eq_error_iff {name value : String} {error : Error} :
    checkNameAndValue origin name value = .error error ↔
      (¬ Named name ∧ error = .badLine origin (.invalidName name)) ∨
      (Named name ∧ (∀ toggle : Toggle, ¬ toggle.Spelled value) ∧
        error = .badLine origin (.invalidDefault value)) := by
  unfold checkNameAndValue
  rw [← isName_iff, ← Toggle.ofWord?_eq_none_iff]
  by_cases hname : isName name = true
  · cases hvalue : Toggle.ofWord? value <;> simp [hname, eq_comm]
  · simp [hname, eq_comm]

theorem checkNameAndValue_of_spelled {name value : String} {toggle : Toggle} (hname : Named name)
    (hvalue : toggle.Spelled value) : checkNameAndValue origin name value = .ok toggle :=
  checkNameAndValue_eq_ok_iff.mpr ⟨isName_iff.mpr hname, Toggle.ofWord?_of_spelled hvalue⟩

theorem map_ofToken?_eq_iff {words : List String} {dependencies : List Dependency} :
    words.map Dependency.ofToken? = dependencies.map some ↔
      List.Forall₂ Dependency.Spelled dependencies words := by
  induction words generalizing dependencies with
  | nil => cases dependencies <;> simp
  | cons word words ih =>
      cases dependencies with
      | nil => simp
      | cons dependency dependencies =>
          rw [List.map_cons, List.map_cons, List.cons.injEq, Dependency.ofToken?_eq_some_iff, ih,
            List.forall₂_cons]

theorem readDependencies_cons_none {word : String} (words : List String)
    (hword : Dependency.ofToken? word = none) :
    readDependencies origin (word :: words) =
      .error (.badLine origin (.invalidDependency word)) := by
  simp [readDependencies, List.mapM_cons, hword, bind, Except.bind]

/-- The first word that is no dependency is reported. -/
theorem readDependencies_eq_error_iff {words : List String} {error : Error} :
    readDependencies origin words = .error error ↔ ∃ before token after,
      words = before ++ token :: after ∧
        (∀ word ∈ before, ∃ dependency : Dependency, dependency.Spelled word) ∧
        (∀ dependency : Dependency, ¬ dependency.Spelled token) ∧
        error = .badLine origin (.invalidDependency token) := by
  simp only [← Dependency.ofToken?_eq_none_iff]
  simp only [← Dependency.ofToken?_eq_some_iff]
  induction words with
  | nil => simp [readDependencies, pure, Except.pure]
  | cons word words ih =>
      cases hword : Dependency.ofToken? word with
      | none =>
          rw [readDependencies_cons_none words hword, Except.error.injEq]
          constructor
          · rintro rfl
            exact ⟨[], word, words, rfl, List.forall_mem_nil _, hword, rfl⟩
          · rintro ⟨before, token, after, hsplit, hbefore, -, rfl⟩
            cases before with
            | nil =>
                obtain ⟨rfl, -⟩ := List.cons.inj hsplit
                rfl
            | cons first before =>
                obtain ⟨rfl, -⟩ := List.cons.inj hsplit
                obtain ⟨dependency, hdependency⟩ := hbefore word List.mem_cons_self
                cases hword.symm.trans hdependency
      | some first =>
          have hrest : readDependencies origin (word :: words) = .error error ↔
              readDependencies origin words = .error error := by
            rw [readDependencies_cons hword]
            cases readDependencies origin words <;> simp [Except.map]
          rw [hrest, ih]
          constructor
          · rintro ⟨before, token, after, rfl, hbefore, htoken, rfl⟩
            exact ⟨word :: before, token, after, rfl,
              List.forall_mem_cons.mpr ⟨⟨first, hword⟩, hbefore⟩, htoken, rfl⟩
          · rintro ⟨before, token, after, hsplit, hbefore, htoken, rfl⟩
            cases before with
            | nil =>
                obtain ⟨rfl, -⟩ := List.cons.inj hsplit
                cases hword.symm.trans htoken
            | cons _ before =>
                obtain ⟨rfl, rfl⟩ := List.cons.inj hsplit
                exact ⟨before, token, after, rfl, (List.forall_mem_cons.mp hbefore).2, htoken, rfl⟩

/-! ## The outcome of a line -/

/-- What the words of a line come to, an error always at the place of the line. -/
inductive Outcome (origin : Origin) :
    List String → Except Error (Option Declaration) → Prop where
  | blank : Outcome origin [] (.ok none)
  | alone (name : String) : Outcome origin [name] (.error (.badLine origin (.missingDefault name)))
  | inclusion (target : String) :
      Outcome origin ["include", target] (.ok (some (.inclusion target)))
  | crowded {target : String} {words : List String} (hmore : words ≠ []) :
      Outcome origin ("include" :: target :: words)
        (.error (.badLine origin (.tokenCount 2 (words.length + 2))))
  | badName {name value : String} {words : List String} (hkey : name ≠ "include")
      (hname : ¬ Named name) :
      Outcome origin (name :: value :: words) (.error (.badLine origin (.invalidName name)))
  | badDefault {name value : String} {words : List String} (hkey : name ≠ "include")
      (hname : Named name) (hvalue : ∀ toggle : Toggle, ¬ toggle.Spelled value) :
      Outcome origin (name :: value :: words) (.error (.badLine origin (.invalidDefault value)))
  /-- `token` is the first that is no dependency. -/
  | badDependency {name value token : String} {toggle : Toggle} {before after : List String}
      (hkey : name ≠ "include") (hname : Named name) (hvalue : toggle.Spelled value)
      (hbefore : ∀ word ∈ before, ∃ dependency : Dependency, dependency.Spelled word)
      (htoken : ∀ dependency : Dependency, ¬ dependency.Spelled token) :
      Outcome origin (name :: value :: (before ++ token :: after))
        (.error (.badLine origin (.invalidDependency token)))
  | entry {name value : String} {toggle : Toggle} {words : List String}
      {dependencies kept : List Dependency} (hkey : name ≠ "include") (hname : Named name)
      (hvalue : toggle.Spelled value)
      (hwords : List.Forall₂ Dependency.Spelled dependencies words)
      (hkept : FirstPlaces dependencies kept) :
      Outcome origin (name :: value :: words) (.ok (some (.entry ⟨name, toggle, kept, origin⟩)))

theorem outcome_parse (origin : Origin) (line : String) :
    Outcome origin (tokens line) (parse origin line) := by
  unfold parse
  match htokens : tokens line with
  | [] => exact .blank
  | [name] => exact .alone name
  | name :: value :: words =>
      by_cases hkey : name = includeWord
      · rw [hkey]
        by_cases hwords : words = []
        · rw [hwords]
          exact .inclusion value
        · simp only [if_pos, if_neg hwords]
          exact .crowded hwords
      · simp only [if_neg hkey]
        cases hcheck : checkNameAndValue origin name value with
        | error error =>
            rcases checkNameAndValue_eq_error_iff.mp hcheck with
              ⟨hname, rfl⟩ | ⟨hname, hvalue, rfl⟩
            · exact .badName hkey hname
            · exact .badDefault hkey hname hvalue
        | ok toggle =>
            obtain ⟨hname, hvalue⟩ := checkNameAndValue_eq_ok_iff.mp hcheck
            rw [isName_iff] at hname
            rw [Toggle.ofWord?_eq_some_iff] at hvalue
            cases hread : readDependencies origin words with
            | error error =>
                obtain ⟨before, token, after, rfl, hbefore, htoken, rfl⟩ :=
                  readDependencies_eq_error_iff.mp hread
                exact .badDependency hkey hname hvalue hbefore htoken
            | ok dependencies =>
                exact .entry hkey hname hvalue
                  (map_ofToken?_eq_iff.mp (readDependencies_eq_ok_iff.mp hread))
                  (firstPlaces_eraseDups dependencies)

theorem parse_eq_of_outcome {result : Except Error (Option Declaration)}
    (h : Outcome origin (tokens line) result) : parse origin line = result := by
  unfold parse
  generalize tokens line = words at h
  cases h with
  | blank => rfl
  | alone name => rfl
  | inclusion target => rfl
  | crowded hmore => exact if_neg hmore
  | @badName name value words hkey hname =>
      have hcheck : checkNameAndValue origin name value =
          .error (.badLine origin (.invalidName name)) :=
        checkNameAndValue_eq_error_iff.mpr (.inl ⟨hname, rfl⟩)
      simp only [includeWord, if_neg hkey, hcheck]
      rfl
  | @badDefault name value words hkey hname hvalue =>
      have hcheck : checkNameAndValue origin name value =
          .error (.badLine origin (.invalidDefault value)) :=
        checkNameAndValue_eq_error_iff.mpr (.inr ⟨hname, hvalue, rfl⟩)
      simp only [includeWord, if_neg hkey, hcheck]
      rfl
  | @badDependency name value token toggle before after hkey hname hvalue hbefore htoken =>
      have hread : readDependencies origin (before ++ token :: after) =
          .error (.badLine origin (.invalidDependency token)) :=
        readDependencies_eq_error_iff.mpr ⟨before, token, after, rfl, hbefore, htoken, rfl⟩
      simp only [includeWord, if_neg hkey, checkNameAndValue_of_spelled hname hvalue, hread]
      rfl
  | @entry name value toggle words dependencies kept hkey hname hvalue hwords hkept =>
      have hread : readDependencies origin words = .ok dependencies :=
        readDependencies_eq_ok_iff.mpr (map_ofToken?_eq_iff.mpr hwords)
      obtain rfl := hkept.unique (firstPlaces_eraseDups dependencies)
      simp only [includeWord, if_neg hkey, checkNameAndValue_of_spelled hname hvalue, hread]
      rfl

/--
**Every line comes to what its words before the first `#` come to.** These are the maximal runs
without white space there, and no others; trimming that text first leaves nothing exactly if there
are none, and otherwise has the same words. What the parser gives is the outcome of the words, and
nothing else is one.
-/
theorem parse_iff_outcome (origin : Origin) (line : String) :
    ∃ words : List (List Char),
      (∀ other, Text.Runs (line.toList.takeWhile (· ≠ '#')) other ↔ other = words) ∧
      (Text.trim (line.toList.takeWhile (· ≠ '#')) = [] ↔ words = []) ∧
      Text.Runs (Text.trim (line.toList.takeWhile (· ≠ '#'))) words ∧
      ∀ result, parse origin line = result ↔ Outcome origin (words.map String.ofList) result := by
  refine ⟨Text.words (line.toList.takeWhile (· ≠ '#')), ?_, Text.trim_eq_nil_iff,
    Text.runs_trim _, ?_⟩
  · intro other
    rw [Text.runs_iff, eq_comm]
  · intro result
    constructor
    · rintro rfl
      exact outcome_parse origin line
    · exact parse_eq_of_outcome

example : parse ⟨⟨"main"⟩, 7⟩ "B\tYeS A !A  A # off" =
    .ok (some (.entry ⟨"B", .yes, [⟨"A", false⟩, ⟨"A", true⟩], ⟨⟨"main"⟩, 7⟩⟩)) := by
  cbv

end Declaration

end FeatureFlags
