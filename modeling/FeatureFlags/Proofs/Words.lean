import FeatureFlags.Proofs.Lines
import Mathlib.Data.List.DropRight

/-!
# Words as runs

The words of a text are its maximal runs of characters that are no white space (`runs_iff`).
Trimming takes white space away at the ends only: it keeps the words, and leaves nothing exactly if
there are none (`runs_trim`, `trim_eq_nil_iff`).
-/

namespace FeatureFlags.Text

/-- `words` are the maximal runs without white space in `text`, in order. -/
inductive Runs : List Char → List (List Char) → Prop where
  | done {gap : List Char} (hgap : ∀ c ∈ gap, isSpace c = true) : Runs gap []
  /-- A run is not empty and goes on to the next white space, or to the end of the text. -/
  | run {gap word rest : List Char} {words : List (List Char)}
      (hgap : ∀ c ∈ gap, isSpace c = true) (hne : word ≠ [])
      (hsolid : ∀ c ∈ word, isSpace c = false) (hend : ∀ c ∈ rest.head?, isSpace c = true)
      (hrest : Runs rest words) : Runs (gap ++ (word ++ rest)) (word :: words)

variable {text : List Char} {found : List (List Char)}

theorem words_eq_of_runs (h : Runs text found) : words text = found := by
  induction h with
  | @done gap hgap =>
      have hwords := words_append_of_isSpace hgap []
      rwa [List.append_nil] at hwords
  | @run gap word rest found hgap hne hsolid hend _ ih =>
      rw [words_append_of_isSpace hgap]
      cases rest with
      | nil => rw [← ih, List.append_nil, words_eq_singleton hne hsolid, words_nil]
      | cons c rest =>
          have hc : isSpace c = true := hend c rfl
          have htail : words (c :: rest) = words rest := words_append_cons hc [] rest
          rw [← ih, htail, words_append_cons hc, words_eq_singleton hne hsolid]
          rfl

/-- A character before a text with runs is white space, or begins a run or a longer one. -/
theorem Runs.exists_cons (h : Runs text found) (c : Char) : ∃ next, Runs (c :: text) next := by
  by_cases hc : isSpace c = true
  · cases h with
    | done hgap => exact ⟨[], .done (List.forall_mem_cons.mpr ⟨hc, hgap⟩)⟩
    | run hgap hne hsolid hend hrest =>
        exact ⟨_, .run (List.forall_mem_cons.mpr ⟨hc, hgap⟩) hne hsolid hend hrest⟩
  · have hletter : ∀ d ∈ [c], isSpace d = false :=
      List.forall_mem_singleton.mpr (Bool.eq_false_iff.mpr hc)
    have halone : (∀ d ∈ text.head?, isSpace d = true) → Runs (c :: text) ([c] :: found) :=
      fun hend => .run (List.forall_mem_nil _) (List.cons_ne_nil c []) hletter hend h
    cases h with
    | @done gap hgap =>
        refine ⟨_, halone ?_⟩
        intro d hd
        exact hgap d (List.mem_of_mem_head? hd)
    | @run gap word rest found hgap hne hsolid hend hrest =>
        cases gap with
        | nil =>
            have hword : ∀ d ∈ c :: word, isSpace d = false :=
              List.forall_mem_append.mpr ⟨hletter, hsolid⟩
            exact ⟨_, .run (List.forall_mem_nil _) (List.cons_ne_nil c word) hword hend hrest⟩
        | cons d gap =>
            refine ⟨_, halone ?_⟩
            intro e he
            obtain rfl := Option.some.inj he
            exact hgap d List.mem_cons_self

/-- Every text has its runs, one way only: its words. -/
theorem runs_iff : Runs text found ↔ words text = found := by
  refine ⟨words_eq_of_runs, ?_⟩
  rintro rfl
  have hexists : ∃ found, Runs text found := by
    induction text with
    | nil => exact ⟨[], .done (List.forall_mem_nil _)⟩
    | cons c text ih =>
        obtain ⟨found, h⟩ := ih
        exact h.exists_cons c
  obtain ⟨found, h⟩ := hexists
  rwa [words_eq_of_runs h]

/-! ## Trimming -/

theorem words_append_right {gap : List Char} (hgap : ∀ c ∈ gap, isSpace c = true)
    (text : List Char) : words (text ++ gap) = words text := by
  cases gap with
  | nil => rw [List.append_nil]
  | cons c gap =>
      obtain ⟨hc, hgap⟩ := List.forall_mem_cons.mp hgap
      have hnone := words_eq_of_runs (.done hgap)
      rw [words_append_cons hc, hnone, List.append_nil]

theorem words_trim (text : List Char) : words (trim text) = words text := by
  have htrim : trim text = (text.dropWhile isSpace).rdropWhile isSpace := rfl
  have hleft : ∀ c ∈ text.takeWhile isSpace, isSpace c = true :=
    fun c hc => List.mem_takeWhile_imp hc
  have hright : ∀ c ∈ (text.dropWhile isSpace).rtakeWhile isSpace, isSpace c = true :=
    fun c hc => List.mem_rtakeWhile_imp hc
  calc words (trim text)
      = words ((text.dropWhile isSpace).rdropWhile isSpace ++
          (text.dropWhile isSpace).rtakeWhile isSpace) := by rw [htrim, words_append_right hright]
    _ = words (text.dropWhile isSpace) := by rw [List.rdropWhile_append_rtakeWhile]
    _ = words (text.takeWhile isSpace ++ text.dropWhile isSpace) := by
        rw [words_append_of_isSpace hleft]
    _ = words text := by rw [List.takeWhile_append_dropWhile]

theorem runs_trim (text : List Char) : Runs (trim text) (words text) :=
  runs_iff.mpr (words_trim text)

/-- Nothing is left of a text exactly if it has no word. -/
theorem trim_eq_nil_iff : trim text = [] ↔ words text = [] := by
  constructor
  · intro h
    rw [← words_trim, h, words_nil]
  · intro h
    have hspace : ∀ c ∈ text, isSpace c = true := by
      cases runs_iff.mpr h with
      | done hgap => exact hgap
    have hdrop : text.dropWhile isSpace = [] := List.dropWhile_eq_nil_iff.mpr hspace
    unfold trim
    rw [hdrop]
    rfl

end FeatureFlags.Text
