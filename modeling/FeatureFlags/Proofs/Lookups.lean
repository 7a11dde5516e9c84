import FeatureFlags.Proofs.ReadingBack

/-!
# Looking names up

A resolution is searched by halving: a name that is not in the middle of the places left can only
be in the half that the middle points to, because the names stand in strictly ascending order
(`Narrowed.right`, `Narrowed.left`). That order is the one of the table, which linking and
evaluating keep. So the search gives what going through all values would, for every name
(`isEnabled?_eq_lookup`).
-/

namespace FeatureFlags

namespace Resolution

variable {values : Array (String × Bool)} {name found : String} {value : Bool}
  {low middle high : Nat}

/-! ## Values in ascending order of names -/

/-- The names stand in strictly ascending order. -/
def Ascending (values : Array (String × Bool)) : Prop :=
  values.toList.Pairwise fun a b => a.1 < b.1

theorem Ascending.lt (h : Ascending values) {i j : Nat} {a b : String × Bool}
    (hi : values[i]? = some a) (hj : values[j]? = some b) (hij : i < j) : a.1 < b.1 := by
  obtain ⟨hisize, rfl⟩ := Array.getElem?_eq_some_iff.mp hi
  obtain ⟨hjsize, rfl⟩ := Array.getElem?_eq_some_iff.mp hj
  exact List.pairwise_iff_getElem.mp h i j hisize hjsize hij

/-- A name has one value. -/
theorem Ascending.unique (h : Ascending values) {value' : Bool}
    (hvalue : (name, value) ∈ values) (hvalue' : (name, value') ∈ values) : value = value' := by
  obtain ⟨i, hi⟩ := Array.mem_iff_getElem?.mp hvalue
  obtain ⟨j, hj⟩ := Array.mem_iff_getElem?.mp hvalue'
  rcases Nat.lt_trichotomy i j with hij | rfl | hij
  · exact absurd (h.lt hi hj hij) (lt_irrefl _)
  · rw [hi] at hj
    exact (Prod.mk.inj (Option.some.inj hj)).2
  · exact absurd (h.lt hj hi hij) (lt_irrefl _)

/-! ## One step of the search -/

/-- If `name` has a place at all, it is from `low` up to but not including `high`. -/
def Narrowed (values : Array (String × Bool)) (name : String) (low high : Nat) : Prop :=
  ∀ i value, values[i]? = some (name, value) → low ≤ i ∧ i < high

/-- A name after the one in the middle stands to the right of it. -/
theorem Narrowed.right (h : Narrowed values name low high) (hascending : Ascending values)
    (hmiddle : values[middle]? = some (found, value)) (hlt : found < name) :
    Narrowed values name (middle + 1) high := by
  intro i other hi
  refine ⟨?_, (h i other hi).2⟩
  rcases Nat.lt_trichotomy middle i with hplace | rfl | hplace
  · exact hplace
  · rw [hmiddle] at hi
    exact absurd (Prod.mk.inj (Option.some.inj hi)).1 (ne_of_lt hlt)
  · exact absurd (hascending.lt hi hmiddle hplace) (lt_asymm hlt)

/-- A name before the one in the middle stands to the left of it. -/
theorem Narrowed.left (h : Narrowed values name low high) (hascending : Ascending values)
    (hmiddle : values[middle]? = some (found, value)) (hlt : name < found) :
    Narrowed values name low middle := by
  intro i other hi
  refine ⟨(h i other hi).1, ?_⟩
  rcases Nat.lt_trichotomy i middle with hplace | rfl | hplace
  · exact hplace
  · rw [hmiddle] at hi
    exact absurd (Prod.mk.inj (Option.some.inj hi)).1 (ne_of_gt hlt)
  · exact absurd (hascending.lt hmiddle hi hplace) (lt_asymm hlt)

/-! ## The whole search -/

/-- Halving a range that holds the place of `name`, if there is one, ends with its value. -/
theorem search_eq_some_iff (hascending : Ascending values) (hhigh : high ≤ values.size)
    (h : Narrowed values name low high) :
    search values name low high = some value ↔ (name, value) ∈ values := by
  fun_induction search values name low high with
  | case1 low high hlt middle hnone =>
      rw [Array.getElem?_eq_none_iff] at hnone
      omega
  | case2 low high hlt middle found other hmiddle hcompare =>
      obtain rfl := compare_eq_iff_eq.mp hcompare
      have hmem := Array.mem_of_getElem? hmiddle
      constructor
      · rintro ⟨⟩
        exact hmem
      · intro hvalue
        rw [hascending.unique hmem hvalue]
  | case3 low high hlt middle found other hmiddle hcompare ih =>
      exact ih hhigh (h.right hascending hmiddle (compare_lt_iff_lt.mp hcompare))
  | case4 low high hlt middle found other hmiddle hcompare ih =>
      exact ih (by omega) (h.left hascending hmiddle (compare_gt_iff_gt.mp hcompare))
  | case5 low high hempty =>
      constructor
      · rintro ⟨⟩
      · intro hvalue
        obtain ⟨i, hi⟩ := Array.mem_iff_getElem?.mp hvalue
        obtain ⟨hlow, hhigh⟩ := h i value hi
        omega

theorem isEnabled?_eq_some_iff {resolution : Resolution} (h : Ascending resolution.values) :
    resolution.isEnabled? name = some value ↔ (name, value) ∈ resolution.values := by
  apply search_eq_some_iff h (Nat.le_refl _)
  intro i other hi
  exact ⟨Nat.zero_le i, (Array.getElem?_eq_some_iff.mp hi).1⟩

/-- Going through all values finds the first value of a name, and here it has no other. -/
theorem lookup_eq_some_iff (h : Ascending values) :
    values.toList.lookup name = some value ↔ (name, value) ∈ values := by
  rw [List.lookup_eq_some_iff]
  constructor
  · rintro ⟨before, after, hsplit, -⟩
    rw [← Array.mem_toList_iff, hsplit]
    exact List.mem_append_cons_self
  · intro hmem
    obtain ⟨before, after, hsplit⟩ := List.append_of_mem (Array.mem_toList_iff.mpr hmem)
    refine ⟨before, after, hsplit, ?_⟩
    intro pair hpair
    unfold Ascending at h
    rw [hsplit] at h
    have hlt := (List.pairwise_append.mp h).2.2 pair hpair _ List.mem_cons_self
    exact bne_iff_ne.mpr (ne_of_gt hlt)

/-! ## The resolution of a table -/

section Resolved

variable {table : Table} {resolution : Resolution}

theorem ascending_of_resolve (hresolve : table.resolve = .ok resolution) :
    Ascending resolution.values := by
  have hordered : (table.entries.map (·.name)).Pairwise (· < ·) :=
    List.pairwise_map.mpr (table.entries_ordered.imp compare_lt_iff_lt.mp)
  rw [← Table.names_of_resolve hresolve] at hordered
  exact List.pairwise_map.mp hordered

theorem mem_names_iff_contains (hresolve : table.resolve = .ok resolution) :
    name ∈ resolution.values.toList.map (·.1) ↔ table.contains name = true := by
  rw [Table.names_of_resolve hresolve, Table.contains_iff, List.mem_map]

/-- What is not found has no value. -/
theorem isEnabled?_eq_none_iff (h : Ascending resolution.values) :
    resolution.isEnabled? name = none ↔ name ∉ resolution.values.toList.map (·.1) := by
  simp only [Option.eq_none_iff_forall_ne_some, ne_eq, isEnabled?_eq_some_iff h, List.mem_map,
    Array.mem_toList_iff, Prod.exists, exists_and_right, exists_eq_right, not_exists]

end Resolved

/-- How a resolution of `table` answers for a name. -/
structure Answers (table : Table) (resolution : Resolution) : Prop where
  eq_lookup (name : String) : resolution.isEnabled? name = resolution.values.toList.lookup name
  some_iff (name : String) (value : Bool) :
    resolution.isEnabled? name = some value ↔ (name, value) ∈ resolution.values
  none_iff (name : String) : resolution.isEnabled? name = none ↔ table.contains name = false
  mem_names_iff (name : String) :
    name ∈ resolution.values.toList.map (·.1) ↔ table.contains name = true
  ascending : (resolution.values.toList.map (·.1)).Pairwise fun a b => Text.bytes a < Text.bytes b

/--
**A name is found exactly if it is declared.** In the resolution of a table, whatever its names are,
the search by halving gives for every name what going through all values from the first one on
gives: the value that stands beside the name, or nothing, and that exactly if the table does not
declare the name. The names of the resolution are those of the table, in strictly ascending order
of bytes.
-/
theorem isEnabled?_eq_lookup (table : Table) (resolution : Resolution)
    (hresolve : table.resolve = .ok resolution) : Answers table resolution := by
  have hascending := ascending_of_resolve hresolve
  constructor
  · intro name
    apply Option.ext
    intro value
    rw [isEnabled?_eq_some_iff hascending, lookup_eq_some_iff hascending]
  · intro name value
    exact isEnabled?_eq_some_iff hascending
  · intro name
    rw [isEnabled?_eq_none_iff hascending, mem_names_iff_contains hresolve, Bool.not_eq_true]
  · intro name
    exact mem_names_iff_contains hresolve
  · rw [List.pairwise_map]
    exact hascending.imp Text.bytes_lt_bytes

/-- Names that no description could declare: an empty one, one with a space and one in Greek. -/
def unchecked : Table :=
  ((Table.empty.insert ⟨"Λ", .yes, [⟨"", true⟩], ⟨⟨"main"⟩, 1⟩⟩).insert
    ⟨"", .no, [⟨"two words", false⟩], ⟨⟨"main"⟩, 2⟩⟩).insert
    ⟨"two words", .yes, [⟨"Λ", false⟩, ⟨"", true⟩], ⟨⟨"main"⟩, 3⟩⟩

def uncheckedOn : Resolution := ⟨#[("", false), ("two words", true), ("Λ", true)]⟩

theorem isEnabled?_eq_lookup_unchecked :
    unchecked.resolve = .ok uncheckedOn ∧ uncheckedOn.isEnabled? "Λ" = some true ∧
      uncheckedOn.isEnabled? "two" = none := by
  have hresolve : unchecked.resolve = .ok uncheckedOn := by cbv
  have hanswers := isEnabled?_eq_lookup unchecked _ hresolve
  have hmissing : unchecked.contains "two" = false := by cbv
  exact ⟨hresolve, (hanswers.some_iff "Λ" true).mpr (by simp [uncheckedOn]),
    (hanswers.none_iff "two").mpr hmissing⟩

end Resolution

end FeatureFlags
