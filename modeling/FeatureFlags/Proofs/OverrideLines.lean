import Mathlib
import FeatureFlags.Proofs.Outcomes

/-!
# Override lines beside description lines

An override line is read like a declaration without dependencies: the same name, the same value, the
same faults in the same order. The two readings part where the number of words is not two, and where
the first word makes an include line (`parseOverride_agrees`). A reader that takes the words of a
line at their places, whether they are there or not, never takes one that is missing
(`Declaration.byPlaces?_eq`, `overrideByPlaces?_eq`).
-/

namespace FeatureFlags

variable {origin : Origin} {line name value : String}

/-! ## The number of words -/

theorem parseOverride_of_two (htokens : tokens line = [name, value]) :
    parseOverride origin line =
      (checkNameAndValue origin name value).map fun toggle => some (name, toggle) := by
  unfold parseOverride
  rw [htokens]
  cases hcheck : checkNameAndValue origin name value with
  | ok toggle => simp only [hcheck]; rfl
  | error error => simp only [hcheck]; rfl

theorem parseOverride_of_length_ne (hblank : tokens line ≠ []) (hcount : (tokens line).length ≠ 2) :
    parseOverride origin line = .error (.badLine origin (.tokenCount 2 (tokens line).length)) := by
  unfold parseOverride
  match htokens : tokens line with
  | [] => exact absurd htokens hblank
  | [_] => rfl
  | [_, _] => exact absurd (congrArg List.length htokens) hcount
  | _ :: _ :: _ :: _ => rfl

theorem parseOverride_eq_ok_none_iff : parseOverride origin line = .ok none ↔ tokens line = [] := by
  constructor
  · intro h
    by_contra hblank
    by_cases hcount : (tokens line).length = 2
    · obtain ⟨name, value, htokens⟩ := List.length_eq_two.mp hcount
      rw [parseOverride_of_two htokens] at h
      cases hcheck : checkNameAndValue origin name value <;> simp [hcheck, Except.map] at h
    · cases (parseOverride_of_length_ne hblank hcount).symm.trans h
  · intro h
    unfold parseOverride
    rw [h]

namespace Declaration

theorem parse_of_two (htokens : tokens line = [name, value]) (hkey : name ≠ includeWord) :
    parse origin line =
      (checkNameAndValue origin name value).map
        fun toggle => some (.entry ⟨name, toggle, [], origin⟩) := by
  unfold parse
  simp only [htokens, if_neg hkey]
  cases checkNameAndValue origin name value <;> rfl

theorem parse_eq_ok_none_iff : parse origin line = .ok none ↔ tokens line = [] := by
  rw [parse_eq_ok_iff]
  constructor
  · intro h
    generalize tokens line = words at h
    cases h
    rfl
  · intro h
    rw [h]
    exact .blank

end Declaration

/-! ## Words at their places -/

theorem trim_eq_nil_iff_tokens :
    Text.trim (line.toList.takeWhile (· ≠ '#')) = [] ↔ tokens line = [] := by
  rw [Text.trim_eq_nil_iff, tokens, List.map_eq_nil_iff]

/-- The words from a place on, if the line goes so far. -/
def wordsFrom? (place : Nat) (words : List String) : Option (List String) :=
  if place ≤ words.length then some (words.drop place) else none

namespace Declaration

/-- Reads dependencies one after the other; one that is `kept` already is not kept again. -/
def collect (origin : Origin) (kept : List Dependency) :
    List String → Except Error (List Dependency)
  | [] => .ok kept
  | word :: words =>
    match Dependency.ofToken? word with
    | some dependency =>
      collect origin (if dependency ∈ kept then kept else kept ++ [dependency]) words
    | none => .error (.badLine origin (.invalidDependency word))

/-- Reads a line by places; there is no result if a word is taken where none stands. -/
def byPlaces? (origin : Origin) (line : String) : Option (Except Error (Option Declaration)) :=
  let data := Text.trim (line.toList.takeWhile (· ≠ '#'))
  if data = [] then some (.ok none)
  else
    let words := (Text.words data).map String.ofList
    (words[0]?).bind fun name =>
      match words[1]? with
      | none => some (.error (.badLine origin (.missingDefault name)))
      | some value =>
        if name = includeWord then
          if words.length = 2 then some (.ok (some (.inclusion value)))
          else some (.error (.badLine origin (.tokenCount 2 words.length)))
        else
          match checkNameAndValue origin name value with
          | .error error => some (.error error)
          | .ok toggle =>
            (wordsFrom? 2 words).map fun words =>
              (collect origin [] words).map
                fun dependencies => some (.entry ⟨name, toggle, dependencies, origin⟩)

/-- The dependencies kept so far are those before, each at its first place. -/
theorem collect_eraseDups (before : List Dependency) (words : List String) :
    collect origin before.eraseDups words =
      (readDependencies origin words).map fun dependencies =>
        (before ++ dependencies).eraseDups := by
  induction words generalizing before with
  | nil =>
      have hread : readDependencies origin [] = .ok [] := rfl
      rw [hread, Except.map, List.append_nil]
      rfl
  | cons word words ih =>
      unfold collect
      cases hword : Dependency.ofToken? word with
      | none =>
          rw [readDependencies_cons_none words hword]
          rfl
      | some dependency =>
          simp only [← eraseDups_concat, ih, readDependencies_cons hword, List.append_assoc,
            List.singleton_append]
          cases readDependencies origin words <;> rfl

theorem byPlaces?_eq (origin : Origin) (line : String) :
    byPlaces? origin line = some (parse origin line) := by
  have hwords : (Text.words (line.toList.takeWhile (· ≠ '#'))).map String.ofList = tokens line :=
    rfl
  unfold byPlaces? parse
  simp only [trim_eq_nil_iff_tokens, Text.words_trim, hwords]
  match htokens : tokens line with
  | [] => rfl
  | [name] => rfl
  | name :: value :: words =>
      -- From here on every place that is looked at is there.
      have hcount : (name :: value :: words).length = 2 ↔ words = [] := by simp
      have hfrom : wordsFrom? 2 (name :: value :: words) = some words := by simp [wordsFrom?]
      have hcollect : collect origin [] words =
          (readDependencies origin words).map List.eraseDups := collect_eraseDups [] words
      rw [if_neg (List.cons_ne_nil _ _), List.getElem?_cons_zero, Option.bind_some,
        List.getElem?_cons_succ, List.getElem?_cons_zero]
      simp only [hcount, hfrom, Option.map_some]
      by_cases hkey : name = includeWord
      · simp only [if_pos hkey]
        split <;> rfl
      · simp only [if_neg hkey]
        cases checkNameAndValue origin name value with
        | error error => rfl
        | ok toggle =>
            simp only [hcollect]
            cases readDependencies origin words <;> rfl

end Declaration

/-- Reads an override line by places. -/
def overrideByPlaces? (origin : Origin) (line : String) :
    Option (Except Error (Option (String × Toggle))) :=
  let data := Text.trim (line.toList.takeWhile (· ≠ '#'))
  if data = [] then some (.ok none)
  else
    let words := (Text.words data).map String.ofList
    if words.length = 2 then
      (words[0]?).bind fun name =>
        (words[1]?).map fun value =>
          (checkNameAndValue origin name value).map fun toggle => some (name, toggle)
    else some (.error (.badLine origin (.tokenCount 2 words.length)))

theorem overrideByPlaces?_eq (origin : Origin) (line : String) :
    overrideByPlaces? origin line = some (parseOverride origin line) := by
  have hwords : (Text.words (line.toList.takeWhile (· ≠ '#'))).map String.ofList = tokens line :=
    rfl
  unfold overrideByPlaces?
  simp only [trim_eq_nil_iff_tokens, Text.words_trim, hwords]
  by_cases hblank : tokens line = []
  · rw [if_pos hblank, parseOverride_eq_ok_none_iff.mpr hblank]
  · rw [if_neg hblank]
    by_cases hcount : (tokens line).length = 2
    · obtain ⟨name, value, htokens⟩ := List.length_eq_two.mp hcount
      rw [if_pos hcount, parseOverride_of_two htokens, htokens]
      rfl
    · rw [if_neg hcount, parseOverride_of_length_ne hblank hcount]

/-! ## Both readings -/

/--
**An override line is read as a declaration is.** The words of a line are its maximal runs without
white space before the first `#`. A line without words is blank for both readings. Of a line of two
words that is no include line both give the same name and value, with no dependencies, or the same
fault at the place of the line. Any other number of words is refused as an override, whatever it
declares. No reading takes a word where none stands.
-/
theorem parseOverride_agrees (origin : Origin) (line : String) :
    Text.Runs (line.toList.takeWhile (· ≠ '#')) ((tokens line).map String.toList) ∧
    (parseOverride origin line = .ok none ↔ Declaration.parse origin line = .ok none) ∧
    (∀ first second, tokens line = [first, second] → first ≠ "include" →
      (∀ name value, parseOverride origin line = .ok (some (name, value)) ↔
        Declaration.parse origin line = .ok (some (.entry ⟨name, value, [], origin⟩))) ∧
      ((∃ name value, parseOverride origin line = .ok (some (name, value))) ∨
        ∃ fault, parseOverride origin line = .error (.badLine origin fault) ∧
          Declaration.parse origin line = .error (.badLine origin fault))) ∧
    ((tokens line).length ≠ 0 → (tokens line).length ≠ 2 →
      parseOverride origin line =
        .error (.badLine origin (.tokenCount 2 (tokens line).length))) ∧
    overrideByPlaces? origin line = some (parseOverride origin line) ∧
    Declaration.byPlaces? origin line = some (Declaration.parse origin line) := by
  refine ⟨?_, ?_, ?_, ?_, overrideByPlaces?_eq origin line, Declaration.byPlaces?_eq origin line⟩
  · have hkept : String.toList ∘ String.ofList = id := funext fun _ => String.toList_ofList
    rw [Text.runs_iff, tokens, List.map_map, hkept, List.map_id]
  · rw [parseOverride_eq_ok_none_iff, Declaration.parse_eq_ok_none_iff]
  · intro first second htokens hkey
    rw [parseOverride_of_two htokens, Declaration.parse_of_two htokens hkey]
    cases hcheck : checkNameAndValue origin first second with
    | ok toggle => exact ⟨fun name value => by simp [Except.map], .inl ⟨first, toggle, rfl⟩⟩
    | error error =>
        refine ⟨fun name value => by simp [Except.map], .inr ?_⟩
        rcases Declaration.checkNameAndValue_eq_error_iff.mp hcheck with
          ⟨-, rfl⟩ | ⟨-, -, rfl⟩ <;> exact ⟨_, rfl, rfl⟩
  · intro hblank hcount
    exact parseOverride_of_length_ne (List.ne_nil_of_length_pos (Nat.pos_of_ne_zero hblank)) hcount

/-- `FOO` is read alike by both; a dependency makes the line no override. -/
theorem parseOverride_agrees_foo :
    tokens "FOO\tYeS # on" = ["FOO", "YeS"] ∧
    parseOverride ⟨⟨"main"⟩, 7⟩ "FOO\tYeS # on" = .ok (some ("FOO", .yes)) ∧
    tokens "FOO no BAR" = ["FOO", "no", "BAR"] ∧
    Declaration.parse ⟨⟨"main"⟩, 8⟩ "FOO no BAR" =
      .ok (some (.entry ⟨"FOO", .no, [⟨"BAR", false⟩], ⟨⟨"main"⟩, 8⟩⟩)) ∧
    parseOverride ⟨⟨"main"⟩, 8⟩ "FOO no BAR" =
      .error (.badLine ⟨⟨"main"⟩, 8⟩ (.tokenCount 2 3)) := by
  have htwo : tokens "FOO\tYeS # on" = ["FOO", "YeS"] := by cbv
  have hthree : tokens "FOO no BAR" = ["FOO", "no", "BAR"] := by cbv
  have hdeclared : Declaration.parse ⟨⟨"main"⟩, 7⟩ "FOO\tYeS # on" =
      .ok (some (.entry ⟨"FOO", .yes, [], ⟨⟨"main"⟩, 7⟩⟩)) := by cbv
  obtain ⟨-, -, hagree, -, -, -⟩ := parseOverride_agrees ⟨⟨"main"⟩, 7⟩ "FOO\tYeS # on"
  obtain ⟨-, -, -, hcount, -, -⟩ := parseOverride_agrees ⟨⟨"main"⟩, 8⟩ "FOO no BAR"
  rw [hthree] at hcount
  exact ⟨htwo, ((hagree "FOO" "YeS" htwo (by decide)).1 "FOO" .yes).mpr hdeclared, hthree, by cbv,
    hcount (by decide) (by decide)⟩

end FeatureFlags
