import FeatureFlags.FileSystem.Walk
import FeatureFlags.Settings
import Mathlib.Data.List.DropRight

/-!
# Files in a directory

The path of a file in a directory, as text: which names it has, which parent, and which last name.
The parent is the path of the directory without the fillers at its end (`Path.trim`), so that it
leads where that path leads, and it is the same for every file in the directory.
-/

namespace FeatureFlags

/-- A name that can stand at the end of a path: one piece, and no step to elsewhere. -/
structure PlainName (name : String) : Prop where
  ne_nil : name.toList ≠ []
  ne_dot : name.toList ≠ ['.']
  ne_dots : name.toList ≠ ['.', '.']
  slash : '/' ∉ name.toList

theorem plainName_of_isFileName {name : String} (h : isFileName name = true) : PlainName name := by
  simp only [isFileName, Bool.and_eq_true, decide_eq_true_eq, List.all_eq_true, ne_eq] at h
  obtain ⟨⟨⟨hempty, hdot⟩, hdots⟩, hall⟩ := h
  constructor
  · intro hnil
    exact hempty (String.toList_inj.mp hnil)
  · intro hone
    exact hdot (String.toList_inj.mp hone)
  · intro htwo
    exact hdots (String.toList_inj.mp htwo)
  · intro hslash
    have := hall '/' hslash
    simp at this

theorem PlainName.isEntryName {name : String} (h : PlainName name) :
    Path.isEntryName name = true := by
  have hdot : name ≠ "." := by
    rintro rfl
    exact h.ne_dot rfl
  have hdots : name ≠ ".." := by
    rintro rfl
    exact h.ne_dots rfl
  simp [Path.isEntryName, hdot, hdots]

namespace Path

variable (base : Path) {name : String}

/-! ## The text of a joined path -/

theorem isAbsolute_of_plainName (hname : PlainName name) :
    (⟨name⟩ : Path).isAbsolute = false := by
  unfold isAbsolute
  rw [decide_eq_false_iff_not]
  intro hhead
  exact hname.slash (List.mem_of_mem_head? hhead)

/-- Joined to an empty path a name stays alone; else one slash is between it and a directory. -/
theorem text_join (hname : PlainName name) :
    (base.text.toList = [] ∧ (base.join ⟨name⟩).text.toList = name.toList) ∨
      ∃ directory, base.text.toList ≠ [] ∧
        (base.text.toList = directory ∨ base.text.toList = directory ++ ['/']) ∧
        (base.join ⟨name⟩).text.toList = directory ++ '/' :: name.toList := by
  unfold join
  rw [isAbsolute_of_plainName hname, if_neg Bool.false_ne_true]
  by_cases hempty : base.text = ""
  · left
    rw [hempty]
    exact ⟨rfl, by simp⟩
  · right
    have hne : base.text.toList ≠ [] := by
      intro hnil
      exact hempty (String.toList_inj.mp hnil)
    by_cases hslash : base.endsInSlash = true
    · obtain ⟨directory, hdirectory⟩ := List.getLast?_eq_some_iff.mp (of_decide_eq_true hslash)
      refine ⟨directory, hne, .inr hdirectory, ?_⟩
      simp [hslash, String.toList_append, hdirectory]
    · refine ⟨base.text.toList, hne, .inl rfl, ?_⟩
      simp [hempty, hslash, String.toList_append]

theorem exists_text_join_eq_append (hname : PlainName name) :
    ∃ rest, (base.join ⟨name⟩).text = base.text ++ rest := by
  unfold join
  rw [isAbsolute_of_plainName hname, if_neg Bool.false_ne_true]
  split
  · exact ⟨name, rfl⟩
  · exact ⟨"/" ++ name, String.append_assoc⟩

/-- A path that is short enough with a name after it is short enough without. -/
theorem checkLength_of_join (hname : PlainName name) (hbase : base.text ≠ "")
    (h : (base.join ⟨name⟩).checkLength = .ok ()) : base.checkLength = .ok () := by
  obtain ⟨rest, hrest⟩ := base.exists_text_join_eq_append hname
  unfold checkLength at h ⊢
  rw [hrest] at h
  split at h
  · cases h
  · next hnul =>
      split at h
      · cases h
      · split at h
        · cases h
        · next hlong =>
            rw [String.toList_append, List.contains_append, Bool.or_eq_true, not_or] at hnul
            rw [String.utf8ByteSize_append] at hlong
            rw [if_neg hnul.1, if_neg hbase, if_neg (by omega)]

/-- The last piece of a joined text is the name; an empty piece at the end gives way to it. -/
theorem splitOn_joined {text directory name : List Char} (hname : '/' ∉ name)
    (htext : text = directory ∨ text = directory ++ ['/']) :
    (directory ++ '/' :: name).splitOn '/' = directory.splitOn '/' ++ [name] ∧
      (text.splitOn '/' = directory.splitOn '/' ∨
        text.splitOn '/' = directory.splitOn '/' ++ [[]]) := by
  constructor
  · rw [List.splitOn_append_cons_self, List.splitOn_eq_singleton hname]
  · rcases htext with rfl | rfl
    · exact .inl rfl
    · right
      rw [List.splitOn_append_cons_self, List.splitOn_nil]

theorem steps_join (hname : PlainName name) :
    (base.join ⟨name⟩).steps = base.steps ++ [name] := by
  unfold steps
  rcases base.text_join hname with ⟨hbase, hjoined⟩ | ⟨directory, -, htext, hjoined⟩
  · rw [hbase, hjoined, List.splitOn_eq_singleton hname.slash,
      List.filter_cons_of_pos (by simpa using hname.ne_nil)]
    simp
  · obtain ⟨hlast, hbefore⟩ := splitOn_joined hname.slash htext
    rw [hjoined, hlast, List.filter_append, List.map_append,
      List.filter_cons_of_pos (by simpa using hname.ne_nil)]
    rcases hbefore with hbefore | hbefore
    · simp [hbefore]
    · simp [hbefore]

theorem endsInSlash_join (hname : PlainName name) :
    (base.join ⟨name⟩).endsInSlash = false := by
  obtain ⟨init, last, hsplit⟩ := name.toList.eq_nil_or_concat'.resolve_left hname.ne_nil
  have hlast : (base.join ⟨name⟩).text.toList.getLast? = some last := by
    rcases base.text_join hname with ⟨-, h⟩ | ⟨directory, -, -, h⟩
    · rw [h, hsplit, List.getLast?_concat]
    · rw [h, hsplit, ← List.cons_append, ← List.append_assoc, List.getLast?_concat]
  unfold endsInSlash
  rw [hlast, decide_eq_false_iff_not]
  intro heq
  cases heq
  exact hname.slash (hsplit ▸ List.mem_append_right _ (List.mem_singleton_self _))

/-! ## Anchor and pieces -/

theorem anchor_of_plainName (hname : PlainName name) : (⟨name⟩ : Path).anchor = [] := by
  unfold anchor
  split
  · next rest h => exact absurd (h ▸ List.mem_cons_self) hname.slash
  · next h => exact absurd h hname.ne_dot
  · next rest h => exact absurd (h ▸ by simp) hname.slash
  · rfl

/-- A slash after some text leaves the anchor of that text, whatever comes after the slash. -/
theorem anchor_eq_of_slash {path other : Path} {c : Char} {directory rest : List Char}
    (h : path.text.toList = c :: directory)
    (hother : other.text.toList = c :: directory ++ '/' :: rest) :
    other.anchor = path.anchor := by
  unfold anchor
  rw [h, hother]
  by_cases hc : c = '/'
  · simp [hc]
  · by_cases hdot : c = '.'
    · subst hdot
      cases directory with
      | nil => rfl
      | cons d directory =>
          by_cases hd : d = '/'
          · simp [hd]
          · simp [hd]
    · simp [hc, hdot]

theorem anchor_join (hname : PlainName name) : (base.join ⟨name⟩).anchor = base.anchor := by
  rcases base.text_join hname with ⟨hbase, hjoined⟩ | ⟨directory, hne, htext, hjoined⟩
  · have hplain := anchor_of_plainName hname
    unfold anchor at hplain ⊢
    rw [hjoined, hbase, hplain]
  · cases directory with
    | nil =>
        have hroot : base.text.toList = ['/'] := htext.resolve_left hne
        unfold anchor
        rw [hjoined, hroot]
        rfl
    | cons c directory =>
        rcases htext with htext | htext
        · exact anchor_eq_of_slash htext hjoined
        · have hdirectory : (⟨String.ofList (c :: directory)⟩ : Path).text.toList =
              c :: directory := String.toList_ofList
          rw [anchor_eq_of_slash hdirectory hjoined, anchor_eq_of_slash hdirectory htext]

theorem isAbsolute_eq_anchor (path : Path) :
    path.isAbsolute = decide (path.anchor = ['/']) := by
  unfold isAbsolute anchor
  rcases path.text.toList with _ | ⟨c, rest⟩
  · rfl
  · by_cases hc : c = '/'
    · simp [hc]
    · split <;> simp_all

theorem isAbsolute_join (hname : PlainName name) :
    (base.join ⟨name⟩).isAbsolute = base.isAbsolute := by
  rw [isAbsolute_eq_anchor, isAbsolute_eq_anchor, base.anchor_join hname]

theorem startFrom_join (hname : PlainName name) (here : Location) :
    (base.join ⟨name⟩).startFrom here = base.startFrom here := by
  rw [startFrom, startFrom, base.isAbsolute_join hname]

/-- The text of a path is its anchor with the pieces after it. -/
theorem text_eq_anchor_append (path : Path) :
    path.text.toList = path.anchor ++ ['/'].intercalate path.pieces := by
  unfold pieces
  rw [List.intercalate_splitOn]
  unfold anchor
  split <;> simp_all

theorem anchor_cases (path : Path) :
    path.anchor = [] ∨ path.anchor = ['/'] ∨ path.anchor = ['.'] := by
  unfold anchor
  split <;> simp

/-- The pieces of a joined path are those of the directory, without an empty last one, and the
name. -/
theorem pieces_join (hname : PlainName name) :
    ∃ before, (base.join ⟨name⟩).pieces = before ++ [name.toList] ∧
      (base.pieces = before ∨ base.pieces = before ++ [[]]) := by
  have hlength : base.anchor.length ≤ 1 := by
    rcases base.anchor_cases with h | h | h <;> simp [h]
  unfold pieces
  rw [base.anchor_join hname]
  rcases base.text_join hname with ⟨hbase, hjoined⟩ | ⟨directory, hne, htext, hjoined⟩
  · refine ⟨[], ?_, .inr ?_⟩
    · have hanchor : base.anchor = [] := by
        unfold anchor
        rw [hbase]
      rw [hjoined, hanchor]
      exact List.splitOn_eq_singleton hname.slash
    · rw [hbase, List.drop_nil]
      exact List.splitOn_nil '/'
  · cases directory with
    | nil =>
        -- The root: its slash is the anchor, so that no piece is before the name.
        have hroot : base.text.toList = ['/'] := htext.resolve_left hne
        have hanchor : base.anchor = ['/'] := by
          unfold anchor
          rw [hroot]
          rfl
        rw [hjoined, hroot, hanchor]
        exact ⟨[], List.splitOn_eq_singleton hname.slash, .inr (List.splitOn_nil '/')⟩
    | cons c directory =>
        have hle : base.anchor.length ≤ (c :: directory).length :=
          hlength.trans (Nat.succ_le_succ (Nat.zero_le _))
        have hdrop : base.text.toList.drop base.anchor.length =
              (c :: directory).drop base.anchor.length ∨
            base.text.toList.drop base.anchor.length =
              (c :: directory).drop base.anchor.length ++ ['/'] := by
          rcases htext with htext | htext
          · exact .inl (by rw [htext])
          · exact .inr (by rw [htext, List.drop_append_of_le_length hle])
        obtain ⟨hlast, hbefore⟩ := splitOn_joined hname.slash hdrop
        rw [hjoined, List.drop_append_of_le_length hle]
        exact ⟨_, hlast, hbefore⟩

/-! ## Name and parent -/

theorem isFiller_of_plainName (hname : PlainName name) : isFiller name.toList = false := by
  simp [isFiller, hname.ne_nil, hname.ne_dot]

theorem fileName?_join (hname : PlainName name) : (base.join ⟨name⟩).fileName? = some name := by
  obtain ⟨before, hjoined, -⟩ := base.pieces_join hname
  unfold fileName? namesFromLast
  rw [hjoined, List.reverse_concat,
    List.dropWhile_cons_of_neg (by rw [isFiller_of_plainName hname]; exact Bool.false_ne_true)]
  simp [hname.ne_dots]

/-- The path without the fillers at its end. -/
def trim (path : Path) : Path :=
  ⟨String.ofList (path.anchor ++ ['/'].intercalate (path.pieces.rdropWhile isFiller))⟩

theorem parent?_join (hname : PlainName name) : (base.join ⟨name⟩).parent? = some base.trim := by
  obtain ⟨before, hjoined, hbase⟩ := base.pieces_join hname
  have hkept : base.pieces.rdropWhile isFiller = before.rdropWhile isFiller := by
    rcases hbase with hbase | hbase
    · rw [hbase]
    · rw [hbase, List.rdropWhile_concat_pos _ _ _ (by rfl)]
  unfold parent? namesFromLast trim
  rw [hjoined, List.reverse_concat,
    List.dropWhile_cons_of_neg (by rw [isFiller_of_plainName hname]; exact Bool.false_ne_true),
    base.anchor_join hname, hkept]
  rfl

theorem notMem_of_mem_splitOn {text piece : List Char} (h : piece ∈ text.splitOn '/') :
    '/' ∉ piece := by
  induction text generalizing piece with
  | nil =>
      rw [List.splitOn_nil, List.mem_singleton] at h
      rw [h]
      exact List.not_mem_nil
  | cons c text ih =>
      rw [List.splitOn_cons_eq_if_modifyHead] at h
      split at h
      · rcases List.mem_cons.mp h with rfl | h
        · exact List.not_mem_nil
        · exact ih h
      · next hc =>
          obtain ⟨first, rest, hsplit⟩ := List.exists_cons_of_ne_nil (List.splitOn_ne_nil '/' text)
          rw [hsplit] at h ih
          rcases List.mem_cons.mp h with rfl | h
          · intro hmem
            rcases List.mem_cons.mp hmem with rfl | hmem
            · exact hc (beq_self_eq_true _)
            · exact ih List.mem_cons_self hmem
          · exact ih (List.mem_cons_of_mem _ h)

/-- The names of a path with some anchor and pieces: `.` at the start counts, no empty piece. -/
theorem filter_splitOn_anchor {anchor : List Char} {kept : List (List Char)}
    (hanchor : anchor = [] ∨ anchor = ['/'] ∨ anchor = ['.'] ∧ ∀ piece ∈ kept.head?, piece = [])
    (hkept : ∀ piece ∈ kept, '/' ∉ piece) :
    ((anchor ++ ['/'].intercalate kept).splitOn '/').filter (· ≠ []) =
      (if anchor = ['.'] then [['.']] else []) ++ kept.filter (· ≠ []) := by
  have hplain : ((['/'].intercalate kept).splitOn '/').filter (· ≠ []) = kept.filter (· ≠ []) := by
    cases kept with
    | nil => simp
    | cons first rest => rw [List.splitOn_intercalate '/' hkept (by simp)]
  rcases hanchor with rfl | rfl | ⟨rfl, hhead⟩
  · simpa using hplain
  · have hsplit : (['/'] ++ ['/'].intercalate kept).splitOn '/' =
        [[]] ++ (['/'].intercalate kept).splitOn '/' :=
      List.splitOn_append_cons_self [] (['/'].intercalate kept)
    rw [hsplit, List.filter_append, hplain]
    rfl
  · rcases kept with _ | ⟨first, _ | ⟨second, rest⟩⟩
    · rfl
    · rw [hhead first rfl]
      rfl
    · obtain rfl := hhead first rfl
      have hrest : (['/'].intercalate (second :: rest)).splitOn '/' = second :: rest :=
        List.splitOn_intercalate '/' (fun piece hmem => hkept piece (List.mem_cons_of_mem _ hmem))
          (by simp)
      have hsplit : (['.'] ++ ['/'].intercalate ([] :: second :: rest)).splitOn '/' =
          [['.']] ++ (['/'].intercalate (second :: rest)).splitOn '/' := by
        rw [List.intercalate_cons_cons]
        exact List.splitOn_append_cons_self ['.'] (['/'].intercalate (second :: rest))
      rw [hsplit, hrest]
      rfl

/-! ## Where the parent leads -/

/-- After the anchor `.` there is nothing, or a slash. -/
theorem head?_pieces_of_dot {path : Path} (h : path.anchor = ['.']) :
    ∀ piece ∈ path.pieces.head?, piece = [] := by
  unfold pieces
  rw [h]
  unfold anchor at h
  split at h
  · cases h
  · next htext =>
      rw [htext]
      simp
  · next rest htext =>
      rw [htext]
      have hsplit : ('/' :: rest).splitOn '/' = [] :: rest.splitOn '/' :=
        List.splitOn_append_cons_self [] rest
      simp [hsplit]
  · cases h

theorem filter_splitOn_text (path : Path) :
    (path.text.toList.splitOn '/').filter (· ≠ []) =
      (if path.anchor = ['.'] then [['.']] else []) ++ path.pieces.filter (· ≠ []) := by
  rw [path.text_eq_anchor_append]
  refine filter_splitOn_anchor ?_ fun piece => notMem_of_mem_splitOn
  rcases path.anchor_cases with h | h | h
  · exact .inl h
  · exact .inr (.inl h)
  · exact .inr (.inr ⟨h, head?_pieces_of_dot h⟩)

/-- The path up to some of its pieces. -/
def upTo (path : Path) (kept : List (List Char)) : Path :=
  ⟨String.ofList (path.anchor ++ ['/'].intercalate kept)⟩

theorem trim_eq_upTo (path : Path) :
    path.trim = path.upTo (path.pieces.rdropWhile isFiller) := rfl

theorem filter_splitOn_upTo {path : Path} {kept : List (List Char)} (h : kept <+: path.pieces) :
    ((path.upTo kept).text.toList.splitOn '/').filter (· ≠ []) =
      (if path.anchor = ['.'] then [['.']] else []) ++ kept.filter (· ≠ []) := by
  unfold upTo
  rw [String.toList_ofList]
  refine filter_splitOn_anchor ?_ fun piece hmem => notMem_of_mem_splitOn (h.subset hmem)
  rcases path.anchor_cases with hanchor | hanchor | hanchor
  · exact .inl hanchor
  · exact .inr (.inl hanchor)
  · refine .inr (.inr ⟨hanchor, ?_⟩)
    intro piece hmem
    apply head?_pieces_of_dot hanchor
    obtain ⟨dropped, hdropped⟩ := h
    rw [← hdropped, List.head?_append, hmem]
    rfl

theorem eq_dot_of_fillers {pieces : List (List Char)}
    (h : ∀ piece ∈ pieces, isFiller piece = true) :
    ∀ filler ∈ (pieces.filter (· ≠ [])).map String.ofList, filler = "." := by
  intro filler hfiller
  obtain ⟨piece, hpiece, rfl⟩ := List.mem_map.mp hfiller
  obtain ⟨hmem, hne⟩ := List.mem_filter.mp hpiece
  have := h piece hmem
  simp only [isFiller, Bool.or_eq_true, decide_eq_true_eq] at this hne
  rw [this.resolve_left hne]

/-- The path without its last fillers has the same names, but for a `.` or more at the end. -/
theorem exists_steps_eq_trim (path : Path) :
    ∃ fillers, (∀ filler ∈ fillers, filler = ".") ∧ path.steps = path.trim.steps ++ fillers := by
  refine ⟨((path.pieces.rtakeWhile isFiller).filter (· ≠ [])).map String.ofList,
    eq_dot_of_fillers fun piece hpiece => List.mem_rtakeWhile_imp hpiece, ?_⟩
  unfold steps
  rw [filter_splitOn_text, trim_eq_upTo,
    filter_splitOn_upTo (List.rdropWhile_prefix isFiller path.pieces), ← List.map_append,
    List.append_assoc, ← List.filter_append, List.rdropWhile_append_rtakeWhile]

theorem intercalate_prefix (separator : List Char) (kept dropped : List (List Char)) :
    separator.intercalate kept <+: separator.intercalate (kept ++ dropped) := by
  induction kept with
  | nil => exact List.nil_prefix
  | cons first kept ih =>
      cases kept with
      | nil =>
          cases dropped with
          | nil => exact List.prefix_rfl
          | cons second dropped =>
              rw [List.intercalate_singleton, List.singleton_append, List.intercalate_cons_cons,
                List.append_assoc]
              exact List.prefix_append _ _
      | cons second kept =>
          rw [List.cons_append, List.cons_append, List.intercalate_cons_cons,
            List.intercalate_cons_cons]
          exact (List.prefix_append_right_inj _).mpr ih

theorem isAbsolute_upTo {path : Path} {kept : List (List Char)} (hkept : kept <+: path.pieces) :
    (path.upTo kept).isAbsolute = path.isAbsolute := by
  rw [path.isAbsolute_eq_anchor]
  rcases path.anchor_cases with h | h | h
  · have hinit : (path.upTo kept).text.toList <+: path.text.toList := by
      obtain ⟨dropped, hdropped⟩ := hkept
      rw [path.text_eq_anchor_append, h, List.nil_append, upTo, String.toList_ofList, h,
        List.nil_append, ← hdropped]
      exact intercalate_prefix ['/'] kept dropped
    have hrelative : path.isAbsolute = false := by
      rw [path.isAbsolute_eq_anchor, h]
      rfl
    rw [h]
    unfold isAbsolute at hrelative ⊢
    rw [decide_eq_false_iff_not] at hrelative
    apply decide_eq_false
    intro hhead
    apply hrelative
    obtain ⟨dropped, hdropped⟩ := hinit
    rw [← hdropped, List.head?_append, hhead]
    rfl
  · unfold upTo isAbsolute
    simp [h]
  · unfold upTo isAbsolute
    simp [h]

theorem isAbsolute_trim (path : Path) : path.trim.isAbsolute = path.isAbsolute :=
  isAbsolute_upTo (List.rdropWhile_prefix isFiller path.pieces)

theorem steps_upTo {path : Path} {kept : List (List Char)} (h : kept <+: path.pieces) :
    (path.upTo kept).steps =
      ((if path.anchor = ['.'] then [['.']] else []) ++ kept.filter (· ≠ [])).map String.ofList := by
  unfold steps
  rw [filter_splitOn_upTo h]

theorem not_isFiller_of_namesFromLast {path : Path} {last : List Char} {before : List (List Char)}
    (h : path.namesFromLast = last :: before) : isFiller last = false := by
  unfold namesFromLast at h
  have hnot := List.head_dropWhile_not isFiller
    (l := path.pieces.reverse) (by rw [h]; exact List.cons_ne_nil _ _)
  simpa [h] using hnot

/-- A path has one name after those of its parent, with nothing but `.` around it. -/
theorem exists_steps_eq_parent {path parent : Path} (h : path.parent? = some parent) :
    parent.isAbsolute = path.isAbsolute ∧
      ∃ before last after, path.steps = parent.steps ++ before ++ last :: after ∧
        (∀ filler ∈ before, filler = ".") ∧ ∀ filler ∈ after, filler = "." := by
  unfold parent? at h
  split at h
  · next hnames =>
      split at h
      · next hanchor =>
          cases h
          have hfillers : ∀ piece ∈ path.pieces, isFiller piece = true := by
            intro piece hpiece
            exact List.dropWhile_eq_nil_iff.mp hnames piece (List.mem_reverse.mpr hpiece)
          constructor
          · rw [path.isAbsolute_eq_anchor, hanchor]
            rfl
          · refine ⟨[], ".", (path.pieces.filter (· ≠ [])).map String.ofList, ?_, by simp,
              eq_dot_of_fillers hfillers⟩
            unfold steps
            rw [filter_splitOn_text, hanchor]
            rfl
      · cases h
  · next last others hnames =>
      cases h
      set kept := (others.dropWhile isFiller).reverse with hkept
      set dropped := (others.takeWhile isFiller).reverse with hdropped
      set trailing := (path.pieces.reverse.takeWhile isFiller).reverse with htrailing
      have hothers : others.reverse = kept ++ dropped := by
        rw [hkept, hdropped, ← List.reverse_append, List.takeWhile_append_dropWhile]
      have hpieces : path.pieces = kept ++ (dropped ++ last :: trailing) := by
        have hreverse : path.pieces.reverse =
            path.pieces.reverse.takeWhile isFiller ++ last :: others := by
          rw [← hnames, namesFromLast, List.takeWhile_append_dropWhile]
        rw [← List.append_assoc, ← hothers, ← List.reverse_reverse path.pieces, hreverse,
          htrailing]
        simp
      have hinit : kept <+: path.pieces := ⟨_, hpieces.symm⟩
      have hlast : last ≠ [] := by
        rintro rfl
        cases not_isFiller_of_namesFromLast hnames
      have hdroppedFillers : ∀ piece ∈ dropped, isFiller piece = true := by
        intro piece hpiece
        exact List.mem_takeWhile_imp (List.mem_reverse.mp hpiece)
      have htrailingFillers : ∀ piece ∈ trailing, isFiller piece = true := by
        intro piece hpiece
        exact List.mem_takeWhile_imp (List.mem_reverse.mp hpiece)
      refine ⟨isAbsolute_upTo hinit, (dropped.filter (· ≠ [])).map String.ofList,
        String.ofList last, (trailing.filter (· ≠ [])).map String.ofList, ?_,
        eq_dot_of_fillers hdroppedFillers, eq_dot_of_fillers htrailingFillers⟩
      have hparent := steps_upTo hinit
      unfold upTo at hparent
      rw [hparent, steps, filter_splitOn_text, hpieces]
      simp [hlast]

theorem notMem_steps_of_parent? {path parent : Path} (h : path.parent? = some parent)
    {step : String} (hstep : step ∉ path.steps) : step ∉ parent.steps := by
  obtain ⟨-, before, last, after, hsteps, -⟩ := exists_steps_eq_parent h
  intro hmem
  apply hstep
  rw [hsteps, List.append_assoc]
  exact List.mem_append_left _ hmem

/-! ## Paths that end in a name -/

theorem plainName_ofList {piece : List Char} (hne : piece ≠ []) (hdot : piece ≠ ['.'])
    (hdots : piece ≠ ['.', '.']) (hslash : '/' ∉ piece) : PlainName (String.ofList piece) := by
  constructor <;> rwa [String.toList_ofList]

theorem plainName_of_fileName? {path : Path} (h : path.fileName? = some name) : PlainName name := by
  unfold fileName? at h
  split at h
  · cases h
  · next last before hnames =>
      split at h
      · cases h
      · next hdots =>
          cases h
          have hmem : last ∈ path.pieces := by
            have hlast : last ∈ path.namesFromLast := hnames ▸ List.mem_cons_self
            exact List.mem_reverse.mp ((List.dropWhile_suffix isFiller).subset hlast)
          have hfiller := not_isFiller_of_namesFromLast hnames
          simp only [isFiller, Bool.or_eq_false_iff, decide_eq_false_iff_not] at hfiller
          exact plainName_ofList hfiller.1 hfiller.2 hdots (notMem_of_mem_splitOn hmem)

/-- Where there is a last name, there is a parent. -/
theorem exists_parent?_of_fileName? {path : Path} (h : path.fileName? = some name) :
    ∃ parent, path.parent? = some parent := by
  unfold fileName? at h
  unfold parent?
  cases hnames : path.namesFromLast with
  | nil => simp [hnames] at h
  | cons last before => exact ⟨_, rfl⟩

/-- A text is what is up to its last slash, and the piece after it. -/
theorem exists_eq_append_piece (text : List Char) :
    ∃ start piece, text = start ++ piece ∧ '/' ∉ piece ∧
      (start = [] ∨ ∃ directory, start = directory ++ ['/']) := by
  refine ⟨text.rdropWhile (· ≠ '/'), text.rtakeWhile (· ≠ '/'),
    List.rdropWhile_append_rtakeWhile.symm, ?_, ?_⟩
  · intro hmem
    have := List.mem_rtakeWhile_imp hmem
    simp at this
  · by_cases hempty : text.rdropWhile (· ≠ '/') = []
    · exact .inl hempty
    · right
      have hlast : (text.rdropWhile (· ≠ '/')).getLast hempty = '/' := by
        simpa using List.rdropWhile_last_not _ _ hempty
      exact ⟨_, hlast ▸ (List.dropLast_append_getLast hempty).symm⟩

theorem exists_steps_eq_append {path : Path} {start piece : List Char}
    (htext : path.text.toList = start ++ piece) (hslash : '/' ∉ piece) (hne : piece ≠ [])
    (hstart : start = [] ∨ ∃ directory, start = directory ++ ['/']) :
    ∃ names, path.steps = names ++ [String.ofList piece] := by
  unfold steps
  rw [htext]
  rcases hstart with rfl | ⟨directory, rfl⟩
  · refine ⟨[], ?_⟩
    rw [List.nil_append, List.splitOn_eq_singleton hslash]
    simp [hne]
  · refine ⟨((directory.splitOn '/').filter (· ≠ [])).map String.ofList, ?_⟩
    rw [List.append_assoc, List.singleton_append, List.splitOn_append_cons_self,
      List.splitOn_eq_singleton hslash, List.filter_append, List.map_append]
    simp [hne]

/-- A path whose last step is a name is that name joined to the text up to the slash before it. -/
theorem exists_join_eq {path : Path} {names : List String} {last : String}
    (hslash : path.endsInSlash = false) (hsteps : path.steps = names ++ [last])
    (hname : isEntryName last = true) :
    ∃ base : Path, PlainName last ∧ path = base.join ⟨last⟩ := by
  obtain ⟨start, piece, htext, hpiece, hstart⟩ := exists_eq_append_piece path.text.toList
  have hne : piece ≠ [] := by
    rintro rfl
    rw [List.append_nil] at htext
    rcases hstart with rfl | ⟨directory, rfl⟩
    · simp [steps, htext, List.splitOn_nil] at hsteps
    · simp [endsInSlash, htext] at hslash
  obtain ⟨others, hothers⟩ := exists_steps_eq_append htext hpiece hne hstart
  obtain ⟨-, hsame⟩ := List.append_inj' (hsteps.symm.trans hothers) rfl
  obtain rfl := List.singleton_inj.mp hsame
  simp only [isEntryName, ne_eq, Bool.and_eq_true, decide_eq_true_eq] at hname
  have hplain : PlainName (String.ofList piece) := by
    refine plainName_ofList hne ?_ ?_ hpiece
    · rintro rfl
      exact hname.1 rfl
    · rintro rfl
      exact hname.2 rfl
  have hbase : String.ofList start = "" ∨ (⟨String.ofList start⟩ : Path).endsInSlash = true := by
    rcases hstart with rfl | ⟨directory, rfl⟩
    · exact .inl rfl
    · right
      simp [endsInSlash, String.toList_ofList]
  have htext' : path.text = String.ofList start ++ String.ofList piece := by
    rw [← String.ofList_append, ← htext, String.ofList_toList]
  refine ⟨⟨String.ofList start⟩, hplain, ?_⟩
  unfold join
  rw [isAbsolute_of_plainName hplain, if_neg Bool.false_ne_true, if_pos (by simpa using hbase),
    ← htext']

end Path

end FeatureFlags
