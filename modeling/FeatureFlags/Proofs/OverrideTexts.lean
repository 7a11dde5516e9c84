import FeatureFlags.Proofs.Layouts
import FeatureFlags.Proofs.Overriding

/-!
# Override files one after the other

The lines of an override file are read one after the other, so that the file may be cut in two
between lines: the parts are read as the whole is, but for the numbers of the lines
(`Overrides.foldlM_readLine`), and overriding a table with the one and then with the other is
overriding it with the whole (`overrides_of_parts`). Of all that is listed for a name the last value
counts, and a name counts once however often it is listed.
-/

namespace FeatureFlags

open Text

/-! ## What is listed -/

namespace Overrides

/-- The name and the value that a line lists, if it lists one. -/
def listed? (line : List Char) : Option (String × Toggle) :=
  match tokens (String.ofList line) with
  | [name, word] => if isName name then (Toggle.ofWord? word).map (name, ·) else none
  | _ => none

/-- All names and values that a text lists, in order. -/
def listed (text : String) : List (String × Toggle) :=
  (Text.lines text.toList).filterMap listed?

/-- What is listed last for a name. -/
def lastListed? (pairs : List (String × Toggle)) (name : String) : Option Toggle :=
  (pairs.findRev? (·.1 = name)).map (·.2)

theorem lastListed?_append (first second : List (String × Toggle)) (name : String) :
    lastListed? (first ++ second) name = (lastListed? second name).or (lastListed? first name) := by
  unfold lastListed?
  rw [List.findRev?_eq_find?_reverse, List.findRev?_eq_find?_reverse,
    List.findRev?_eq_find?_reverse, List.reverse_append, List.find?_append, Option.map_or]

theorem isSome_lastListed? {pairs : List (String × Toggle)} {name : String} :
    (lastListed? pairs name).isSome ↔ name ∈ pairs.map (·.1) := by
  unfold lastListed?
  rw [List.findRev?_eq_find?_reverse, Option.isSome_map, List.find?_isSome]
  simp only [List.mem_reverse, decide_eq_true_eq, List.mem_map]

/-- The pairs of a list one after the other, on top of what is there. -/
def insertAll (overrides : Overrides) (pairs : List (String × Toggle)) : Overrides :=
  pairs.foldl (fun overrides (name, value) => overrides.insert name value) overrides

theorem get?_insert (overrides : Overrides) (name : String) (value : Toggle) (other : String) :
    (overrides.insert name value).get? other =
      if name = other then some value else overrides.get? other := by
  simp only [insert, get?, Std.TreeMap.getElem?_insert, Std.LawfulEqCmp.compare_eq_iff_eq]

theorem get?_insertAll (overrides : Overrides) (pairs : List (String × Toggle)) (name : String) :
    (overrides.insertAll pairs).get? name =
      (lastListed? pairs name).or (overrides.get? name) := by
  induction pairs generalizing overrides with
  | nil => rfl
  | cons pair pairs ih =>
      have hinsert : overrides.insertAll (pair :: pairs) =
          (overrides.insert pair.1 pair.2).insertAll pairs := rfl
      have hsplit := lastListed?_append [pair] pairs name
      rw [List.singleton_append] at hsplit
      rw [hinsert, ih, get?_insert, hsplit, Option.or_assoc]
      by_cases h : pair.1 = name <;> simp [h, lastListed?, List.findRev?]

theorem get?_ofList (pairs : List (String × Toggle)) (name : String) :
    (ofList pairs).get? name = lastListed? pairs name :=
  (get?_insertAll empty pairs name).trans (by simp [empty, get?])

theorem mem_names_iff {overrides : Overrides} {name : String} :
    name ∈ overrides.toList.map (·.1) ↔ (overrides.get? name).isSome := by
  simp only [List.mem_map, Prod.exists, exists_and_right, exists_eq_right, mem_toList_iff,
    Option.isSome_iff_exists]

theorem nodup_names (overrides : Overrides) : (overrides.toList.map (·.1)).Nodup := by
  rw [List.nodup_iff_pairwise_ne, List.pairwise_map]
  exact Std.TreeMap.distinct_keys_toList.imp fun h => by simpa using h

/-! ## Reading a text in parts -/

/-- A line is refused wherever it stands, or it says the same wherever it stands. -/
theorem parseOverride_cases (line : List Char) :
    (∀ origin, parseOverride origin (String.ofList line) = .ok (listed? line)) ∨
      ∃ fault, ∀ origin,
        parseOverride origin (String.ofList line) = .error (.badLine origin fault) := by
  unfold parseOverride listed?
  match tokens (String.ofList line) with
  | [] => exact .inl fun _ => rfl
  | [_] => exact .inr ⟨_, fun _ => rfl⟩
  | [name, word] =>
      by_cases hname : isName name = true
      · cases hword : Toggle.ofWord? word with
        | some value =>
            have hcheck : ∀ origin, checkNameAndValue origin name word = .ok value :=
              fun _ => Declaration.checkNameAndValue_eq_ok_iff.mpr ⟨hname, hword⟩
            refine .inl fun origin => ?_
            simp only [hcheck, hname, if_true, hword]
            rfl
        | none =>
            refine .inr ⟨.invalidDefault word, fun origin => ?_⟩
            simp only [checkNameAndValue, hname, if_true, hword]
            rfl
      · refine .inr ⟨.invalidName name, fun origin => ?_⟩
        simp only [checkNameAndValue, hname]
        rfl
  | _ :: _ :: _ :: _ => exact .inr ⟨_, fun _ => rfl⟩

/--
Lines list the same whatever was listed before them, or one of them is refused: the same one and
for the same fault, wherever the lines stand.
-/
theorem foldlM_readLine (file : Path) (lines : List (List Char)) :
    (∀ overrides number, (lines.zipIdx number).foldlM (readLine file) overrides =
        .ok (overrides.insertAll (lines.filterMap listed?))) ∨
      ∃ above fault, ∀ overrides number,
        (lines.zipIdx number).foldlM (readLine file) overrides =
          .error (.badLine ⟨file, number + above⟩ fault) := by
  induction lines with
  | nil => exact .inl fun _ _ => rfl
  | cons line lines ih =>
      rcases parseOverride_cases line with hline | ⟨fault, hline⟩
      · have hread : ∀ overrides number, readLine file overrides (line, number) =
            .ok (overrides.insertAll (listed? line).toList) := by
          intro overrides number
          simp only [readLine, hline]
          cases listed? line <;> rfl
        have hnext : ∀ overrides number,
            ((line :: lines).zipIdx number).foldlM (readLine file) overrides =
              (lines.zipIdx (number + 1)).foldlM (readLine file)
                (overrides.insertAll (listed? line).toList) := by
          intro overrides number
          rw [List.zipIdx_cons, List.foldlM_cons, hread]
          rfl
        rcases ih with hrest | ⟨above, fault, hrest⟩
        · refine .inl fun overrides number => ?_
          rw [hnext, hrest]
          cases hlisted : listed? line <;> simp [hlisted, insertAll]
        · refine .inr ⟨above + 1, fault, fun overrides number => ?_⟩
          rw [hnext, hrest, Nat.add_assoc, Nat.add_comm 1 above]
      · refine .inr ⟨0, fault, fun overrides number => ?_⟩
        rw [List.zipIdx_cons, List.foldlM_cons, readLine, hline]
        rfl

/-- What is read is what is listed; what is not read has a line that is refused. -/
theorem parse_cases (file : Path) (text : String) :
    parse file text = .ok (ofList (listed text)) ∨
      ∃ line fault, parse file text = .error (.badLine ⟨file, line⟩ fault) := by
  rcases foldlM_readLine file (Text.lines text.toList) with hread | ⟨above, fault, hread⟩
  · exact .inl (hread empty 1)
  · exact .inr ⟨1 + above, fault, hread empty 1⟩

theorem eq_ofList_of_parse {file : Path} {text : String} {overrides : Overrides}
    (h : parse file text = .ok overrides) : overrides = ofList (listed text) := by
  rcases parse_cases file text with hread | ⟨line, fault, hread⟩
  · exact Except.ok.inj (h.symm.trans hread)
  · cases h.symm.trans hread

/-- Nothing, or lines that are all ended. -/
def Ended (text : String) : Prop := text = "" ∨ ∃ body, text = body ++ "\n"

theorem lines_append {first : String} (hended : Ended first) (second : String) :
    Text.lines (first ++ second).toList =
      Text.lines first.toList ++ Text.lines second.toList := by
  rcases hended with rfl | ⟨body, rfl⟩
  · rw [String.empty_append]
    rfl
  · have hbreak : "\n".toList = ['\n'] := rfl
    rw [String.toList_append, String.toList_append, hbreak, List.append_assoc,
      List.singleton_append, Description.lines_append_cons, Description.lines_append_cons, lines_nil,
      List.append_nil]

/-- The three ways in which a text with two parts is read. -/
inductive PartsRead (file : Path) (first second : String) : Prop where
  | both (hfirst : parse file first = .ok (ofList (listed first)))
      (hsecond : parse file second = .ok (ofList (listed second)))
      (hwhole : parse file (first ++ second) = .ok (ofList (listed first ++ listed second)))
  | first {error : Error} (hfirst : parse file first = .error error)
      (hwhole : parse file (first ++ second) = .error error)
  | second {line : Nat} {fault : LineFault}
      (hfirst : parse file first = .ok (ofList (listed first)))
      (hsecond : parse file second = .error (.badLine ⟨file, line⟩ fault))
      (hwhole : parse file (first ++ second) =
        .error (.badLine ⟨file, line + (Text.lines first.toList).length⟩ fault))

theorem partsRead {first : String} (file : Path) (hended : Ended first) (second : String) :
    PartsRead file first second := by
  have hwhole : parse file (first ++ second) = parse file first >>= fun overrides =>
      ((Text.lines second.toList).zipIdx (1 + (Text.lines first.toList).length)).foldlM
        (readLine file) overrides := by
    unfold parse
    rw [lines_append hended, List.zipIdx_append, List.foldlM_append]
  rcases parse_cases file first with hfirst | ⟨line, fault, hfirst⟩
  · rw [hfirst] at hwhole
    rcases foldlM_readLine file (Text.lines second.toList) with hread | ⟨above, fault, hread⟩
    · refine .both hfirst (hread empty 1) (hwhole.trans ((hread _ _).trans ?_))
      unfold ofList insertAll
      rw [List.foldl_append]
      rfl
    · refine .second hfirst (hread empty 1) (hwhole.trans ((hread _ _).trans ?_))
      rw [Nat.add_right_comm]
  · rw [hfirst] at hwhole
    exact .first hfirst hwhole

end Overrides

namespace Table

variable (table : Table)

/-! ## Overriding a table -/

/-- What overriding with a list of names and values makes of a table, and what it counts. -/
structure Overridden (pairs : List (String × Toggle)) (after : Table) (count : Nat) : Prop where
  /-- Only defaults change, to what is listed last for the name. -/
  get? (name : String) : after.get? name = (table.get? name).map fun entry =>
    { entry with default := (Overrides.lastListed? pairs name).getD entry.default }
  /-- A name counts once, and only if the table has it. -/
  count : count = ((pairs.map (·.1)).dedup.filter table.contains).length

/-- What reading and applying an override file in two parts has to do with the whole. -/
structure OverriddenInParts (file : Path) (first second : String) : Prop where
  read_iff : (∃ whole, Overrides.parse file (first ++ second) = .ok whole) ↔
    (∃ above, Overrides.parse file first = .ok above) ∧
      ∃ below, Overrides.parse file second = .ok below
  error_iff (error : Error) : Overrides.parse file (first ++ second) = .error error ↔
    Overrides.parse file first = .error error ∨
      (∃ above, Overrides.parse file first = .ok above) ∧ ∃ line fault,
        Overrides.parse file second = .error (.badLine ⟨file, line⟩ fault) ∧
          error = .badLine ⟨file, line + (Text.lines first.toList).length⟩ fault
  entries : ∀ whole, Overrides.parse file (first ++ second) = .ok whole →
    ∃ above below, Overrides.parse file first = .ok above ∧
      Overrides.parse file second = .ok below ∧
      (table.applyOverrides whole).entries =
        ((table.applyOverrides above).applyOverrides below).entries
  listed : ∀ text overrides, Overrides.parse file text = .ok overrides →
    overrides = .ofList (Overrides.listed text)
  overridden (pairs : List (String × Toggle)) :
    table.Overridden pairs (table.applyOverrides (.ofList pairs))
      (table.overrideCount (.ofList pairs))
  entries_again (pairs : List (String × Toggle)) :
    ((table.applyOverrides (.ofList pairs)).applyOverrides (.ofList pairs)).entries =
      (table.applyOverrides (.ofList pairs)).entries
  count_again (pairs : List (String × Toggle)) :
    (table.applyOverrides (.ofList pairs)).overrideCount (.ofList pairs) =
      table.overrideCount (.ofList pairs)

theorem overrideCount_ofList (pairs : List (String × Toggle)) :
    table.overrideCount (.ofList pairs) =
      ((pairs.map (·.1)).dedup.filter table.contains).length := by
  have hkeys : ((Overrides.ofList pairs).toList.map (·.1)).Perm (pairs.map (·.1)).dedup := by
    rw [List.perm_ext_iff_of_nodup (Overrides.nodup_names _) (List.nodup_dedup _)]
    intro name
    rw [Overrides.mem_names_iff, Overrides.get?_ofList, Overrides.isSome_lastListed?,
      List.mem_dedup]
  unfold overrideCount
  rw [← (hkeys.filter _).length_eq, List.filter_map, List.length_map]
  rfl

theorem overridden (pairs : List (String × Toggle)) :
    table.Overridden pairs (table.applyOverrides (.ofList pairs))
      (table.overrideCount (.ofList pairs)) where
  get? name := by
    rw [get?_applyOverrides]
    cases hentry : table.get? name with
    | none => rfl
    | some entry =>
        obtain rfl := name_of_get? hentry
        rw [Option.map_some, Option.map_some, Entry.override, Overrides.get?_ofList]
  count := table.overrideCount_ofList pairs

/-- The values that come later are those that count. -/
theorem entries_applyOverrides_append (first second : List (String × Toggle)) :
    (table.applyOverrides (.ofList (first ++ second))).entries =
      ((table.applyOverrides (.ofList first)).applyOverrides (.ofList second)).entries := by
  simp only [entries_applyOverrides, List.map_map]
  congr 1
  funext entry
  simp only [Function.comp_apply, Entry.override, Overrides.get?_ofList,
    Overrides.lastListed?_append]
  cases Overrides.lastListed? second entry.name <;> rfl

theorem entries_applyOverrides_twice (overrides : Overrides) :
    ((table.applyOverrides overrides).applyOverrides overrides).entries =
      (table.applyOverrides overrides).entries := by
  simp only [entries_applyOverrides, List.map_map]
  congr 1
  funext entry
  simp only [Function.comp_apply, Entry.override]
  cases overrides.get? entry.name <;> rfl

theorem overrideCount_applyOverrides (overrides : Overrides) :
    (table.applyOverrides overrides).overrideCount overrides = table.overrideCount overrides := by
  unfold overrideCount
  simp only [contains_applyOverrides]

end Table

/--
**An override file may be cut in two between lines.** The whole is read if both parts are, and then
overriding a table with the whole is overriding it with the first part and after that with the
second. If the whole is not read, then for the fault of the first part or, if that one is read, for
the fault of the second part, which lies as many lines further down as the first part has lines.
Overriding sets the defaults of the entries that are listed, each to the last value listed for it,
and counts the different names among them; doing it again changes nothing and counts the same.
-/
theorem overrides_of_parts (table : Table) (file : Path) {first : String} (second : String)
    (hended : Overrides.Ended first) : table.OverriddenInParts file first second := by
  have hparts := Overrides.partsRead file hended second
  refine ⟨?_, ?_, ?_, fun _ _ => Overrides.eq_ofList_of_parse, table.overridden,
    fun _ => table.entries_applyOverrides_twice _, fun _ => table.overrideCount_applyOverrides _⟩
  · cases hparts with
    | both hfirst hsecond hwhole => simp [hfirst, hsecond, hwhole]
    | first hfirst hwhole => simp [hfirst, hwhole]
    | second hfirst hsecond hwhole => simp [hfirst, hsecond, hwhole]
  · intro error
    cases hparts with
    | both hfirst hsecond hwhole => simp [hfirst, hsecond, hwhole]
    | first hfirst hwhole => simp [hfirst, hwhole]
    | second hfirst hsecond hwhole =>
        constructor
        · intro h
          exact .inr ⟨⟨_, hfirst⟩, _, _, hsecond, Except.error.inj (h.symm.trans hwhole)⟩
        · rintro (h | ⟨-, _, _, h, rfl⟩)
          · cases hfirst.symm.trans h
          · cases hsecond.symm.trans h
            exact hwhole
  · intro whole hwhole
    cases hparts with
    | both hfirst hsecond hboth =>
        obtain rfl := Except.ok.inj (hwhole.symm.trans hboth)
        exact ⟨_, _, hfirst, hsecond, table.entries_applyOverrides_append _ _⟩
    | first _ hfail => cases hwhole.symm.trans hfail
    | second _ _ hfail => cases hwhole.symm.trans hfail

/-- A lamp and its power, both off. -/
def lamps : Table :=
  (Table.empty.insert ⟨"LAMP", .no, [⟨"POWER", false⟩], ⟨⟨"main"⟩, 1⟩⟩).insert
    ⟨"POWER", .no, [], ⟨⟨"main"⟩, 2⟩⟩

def upperText : String := "LAMP yes # for now\r\nGHOST no\n"

def lowerText : String := "LAMP no\nPOWER YES"

/-- The last line, which has no line break, lacks a value. -/
def refusedText : String := "\nPOWER"

theorem overrides_of_parts_lamps :
    Overrides.Ended upperText ∧
    Overrides.parse ⟨"local"⟩ (upperText ++ refusedText) =
      .error (.badLine ⟨⟨"local"⟩, 4⟩ (.tokenCount 2 1)) ∧
    ∃ whole above below,
      Overrides.parse ⟨"local"⟩ (upperText ++ lowerText) = .ok whole ∧
      Overrides.parse ⟨"local"⟩ upperText = .ok above ∧
      Overrides.parse ⟨"local"⟩ lowerText = .ok below ∧
      (lamps.applyOverrides whole).entries =
        ((lamps.applyOverrides above).applyOverrides below).entries ∧
      lamps.overrideCount whole = 2 := by
  have hended : Overrides.Ended upperText := .inr ⟨"LAMP yes # for now\r\nGHOST no", rfl⟩
  have hupper : Overrides.parse ⟨"local"⟩ upperText =
      .ok (.ofList [("LAMP", .yes), ("GHOST", .no)]) := by cbv
  have hlower : Overrides.parse ⟨"local"⟩ lowerText =
      .ok (.ofList [("LAMP", .no), ("POWER", .yes)]) := by cbv
  have hrefused : Overrides.parse ⟨"local"⟩ refusedText =
      .error (.badLine ⟨⟨"local"⟩, 2⟩ (.tokenCount 2 1)) := by cbv
  have hrefusing := overrides_of_parts lamps ⟨"local"⟩ refusedText hended
  have hparts := overrides_of_parts lamps ⟨"local"⟩ lowerText hended
  obtain ⟨whole, hwhole⟩ := hparts.read_iff.mpr ⟨⟨_, hupper⟩, _, hlower⟩
  obtain ⟨above, below, habove, hbelow, hentries⟩ := hparts.entries whole hwhole
  refine ⟨hended, ?_, whole, above, below, hwhole, habove, hbelow, hentries, ?_⟩
  · exact (hrefusing.error_iff _).mpr (.inr ⟨⟨_, hupper⟩, 2, _, hrefused, rfl⟩)
  rw [hparts.listed _ whole hwhole, (hparts.overridden _).count]
  cbv

end FeatureFlags
