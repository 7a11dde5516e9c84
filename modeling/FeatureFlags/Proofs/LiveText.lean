import FeatureFlags.Proofs.Comments
import FeatureFlags.Proofs.ReadingBack

/-!
# What is live in a fragment

Make passes over blank lines and lines that start with `#`, a compiler over comments. What is left
of a fragment should be the lines of the entries that are on, and in the header the guard around
them. Both fragments start with a banner that holds the generator as the settings give it, and any
text is accepted there. What the banner makes live comes first, and nothing but the expected lines
follows (`render_live`). One line without `*/` makes nothing live, but a generator with a line
break or a `*/` can put an entry into the makefile or the header that is off
(`generator_adds_entries`).
-/

namespace FeatureFlags

namespace Text

/-! ## Lines -/

def isBlank (line : List Char) : Bool := line.all isSpace

/-- Make reads nothing on a blank line or a comment line. -/
def isIdle (line : List Char) : Bool := isBlank line || line.head? = some '#'

/-- The lines of a text that a reader who passes over `idle` lines reads. -/
def liveLines (idle : List Char → Bool) (text : List Char) : List (List Char) :=
  (text.splitOn '\n').filter (!idle ·)

variable {idle : List Char → Bool}

theorem liveLines_append (before after : List Char) :
    liveLines idle (before ++ '\n' :: after) = liveLines idle before ++ liveLines idle after := by
  unfold liveLines
  rw [List.splitOn_append_cons_self, List.filter_append]

theorem liveLines_of_idle {line : List Char} (h : '\n' ∉ line) (hidle : idle line = true) :
    liveLines idle line = [] := by
  unfold liveLines
  rw [List.splitOn_eq_singleton h, List.filter_cons_of_neg (by simp [hidle]), List.filter_nil]

theorem liveLines_flatMap {lines : List (List Char)} (h : ∀ line ∈ lines, '\n' ∉ line)
    (hnil : idle [] = true) :
    liveLines idle (lines.flatMap (· ++ ['\n'])) = lines.filter (!idle ·) := by
  unfold liveLines
  rw [splitOn_flatMap_newline h, List.filter_append, List.filter_cons_of_neg (by simp [hnil]),
    List.filter_nil, List.append_nil]

theorem isBlank_eq_false {line : List Char} {c : Char} (hmem : c ∈ line)
    (hc : isSpace c = false) : isBlank line = false := by
  rw [isBlank, List.all_eq_false]
  exact ⟨c, hmem, by simp [hc]⟩

theorem isIdle_of_isName {name : String} (h : isName name = true) (rest : List Char) :
    isIdle (name.toList ++ rest) = false := by
  unfold isName at h
  rw [Bool.and_eq_true, List.all_eq_true, decide_eq_true_eq] at h
  obtain ⟨c, cs, hname⟩ := List.exists_cons_of_ne_nil h.1
  have hc := h.2 c (hname ▸ List.mem_cons_self)
  rw [hname, List.cons_append, isIdle,
    isBlank_eq_false List.mem_cons_self (isSpace_of_isNameChar hc), Bool.false_or,
    List.head?_cons, decide_eq_false_iff_not, Option.some.injEq]
  rintro rfl
  cases hc

/-! ## Plain code -/

/-- The characters of the lines that a header has after its banner. -/
def isCodeChar (c : Char) : Bool := isNameChar c || c = '#' || c = ' '

theorem isCodeChar_of_isName {text : String} (h : isName text = true) :
    ∀ c ∈ text.toList, isCodeChar c = true := by
  unfold isName at h
  rw [Bool.and_eq_true, List.all_eq_true] at h
  intro c hc
  rw [isCodeChar, h.2 c hc, Bool.true_or, Bool.true_or]

theorem isPlain_of_isCodeChar {c : Char} (h : isCodeChar c = true) : isPlain c = true := by
  simp only [isPlain, Bool.and_eq_true, decide_eq_true_eq]
  refine ⟨⟨⟨?_, ?_⟩, ?_⟩, ?_⟩ <;>
  · rintro rfl
    cases h

end Text

namespace Fragments

open Text

/-! ## Banners and the lines after them -/

/-- The first line of the makefile, if the generator is one line. -/
def makefileBanner (settings : Settings) : String :=
  "# AUTOGENERATED from " ++ settings.generator ++ ". DO NOT EDIT!"

/-- The first line of the header, its line break included, if the generator is one line. -/
def headerBanner (settings : Settings) : String :=
  "/* AUTOGENERATED from " ++ settings.generator ++ ". DO NOT EDIT! */\n"

def makefileEntries (resolution : Resolution) (settings : Settings) : List (List Char) :=
  resolution.enabled.map (entryLine settings.symbolPrefix " = y" settings.nameWidth.toNat)

def headerEntries (resolution : Resolution) (settings : Settings) : List (List Char) :=
  resolution.enabled.map
    (entryLine ("#define " ++ settings.symbolPrefix) " y" settings.nameWidth.toNat)

/-- The lines that open the guard of the header. -/
def guardLines (settings : Settings) : List (List Char) :=
  [("#ifndef " ++ settings.headerGuard).toList, ("#define " ++ settings.headerGuard).toList]

variable {settings : Settings} {resolution : Resolution}

theorem makefileOpening_eq : (makefileOpening settings).toList =
    (makefileBanner settings).toList ++ ['\n', '\n'] := by
  have hbreaks : ". DO NOT EDIT!\n\n" = ". DO NOT EDIT!" ++ "\n\n" := by decide
  unfold makefileOpening makefileBanner
  rw [hbreaks, ← String.append_assoc, String.toList_append]
  rfl

theorem headerOpening_eq : (headerOpening settings).toList =
    (headerBanner settings).toList ++
      '\n' :: (guardLines settings ++ [[]]).flatMap (· ++ ['\n']) := by
  have hbreaks : ". DO NOT EDIT! */\n\n" = ". DO NOT EDIT! */\n" ++ "\n" := by decide
  unfold headerOpening headerBanner guardLines
  rw [hbreaks, ← String.append_assoc]
  generalize "/* AUTOGENERATED from " ++ settings.generator ++ ". DO NOT EDIT! */\n" = banner
  simp

theorem makefileOf_eq_lines : (makefileOf resolution settings).toList =
    (makefileBanner settings).toList ++
      '\n' :: ([] :: makefileEntries resolution settings).flatMap (· ++ ['\n']) := by
  rw [toList_makefileOf, makefileOpening_eq]
  unfold makefileEntries
  simp

theorem headerOf_eq_lines : (headerOf resolution settings).toList =
    (headerBanner settings).toList ++ '\n' :: (guardLines settings ++
      [] :: (headerEntries resolution settings ++ [[], "#endif".toList])).flatMap (· ++ ['\n']) := by
  rw [toList_headerOf, headerOpening_eq]
  unfold headerEntries headerClosing
  simp

theorem isName_headerGuard (hvalid : settings.validate = .ok ()) :
    isName settings.headerGuard = true := by
  unfold Settings.validate at hvalid
  split at hvalid
  · cases hvalid
  · split at hvalid
    · cases hvalid
    · next hguard => simpa using hguard

/-! ## The makefile as make reads it -/

theorem liveLines_makefileOf (hvalid : settings.validate = .ok ())
    (hnames : ∀ name ∈ resolution.enabled, isName name = true) :
    liveLines isIdle (makefileOf resolution settings).toList =
      liveLines isIdle (makefileBanner settings).toList ++ makefileEntries resolution settings := by
  have hprefix := isName_symbolPrefix hvalid
  have hunbroken : ∀ line ∈ [] :: makefileEntries resolution settings, '\n' ∉ line := by
    rw [List.forall_mem_cons, makefileEntries, List.forall_mem_map]
    refine ⟨List.not_mem_nil, fun name hname => ?_⟩
    exact notMem_entryLine (by decide) (notMem_of_isName hprefix rfl) (by decide)
      (notMem_of_isName (hnames name hname) rfl)
  have hlive : ∀ line ∈ makefileEntries resolution settings, (!isIdle line) = true := by
    rw [makefileEntries, List.forall_mem_map]
    intro name hname
    rw [entryLine, isIdle_of_isName hprefix]
    rfl
  rw [makefileOf_eq_lines, liveLines_append, liveLines_flatMap hunbroken rfl,
    List.filter_cons_of_neg (by decide), List.filter_eq_self.mpr hlive]

/-- The first line of a banner is a comment, and the rest of it is read line by line. -/
theorem liveLines_makefileBanner_eq_nil : liveLines isIdle (makefileBanner settings).toList = [] ↔
    ∀ line ∈ ((settings.generator ++ ". DO NOT EDIT!").toList.splitOn '\n').tail,
      isIdle line = true := by
  have hunbroken : '\n' ∉ "# AUTOGENERATED from ".toList := by decide
  have hcomment : "# AUTOGENERATED from ".toList.head? = some '#' := by decide
  unfold makefileBanner
  rw [String.append_assoc, String.toList_append]
  generalize "# AUTOGENERATED from ".toList = opening at *
  generalize (settings.generator ++ ". DO NOT EDIT!").toList = text
  have hfirst (line : List Char) (hline : '\n' ∉ line) :
      liveLines isIdle (opening ++ line) = [] := by
    apply liveLines_of_idle
    · simp [hunbroken, hline]
    · simp [isIdle, hcomment]
  by_cases hbreak : '\n' ∈ text
  · obtain ⟨line, rest, rfl, hline⟩ := List.eq_append_cons_of_mem hbreak
    rw [← List.append_assoc, liveLines_append, hfirst line hline, List.nil_append,
      List.splitOn_append_cons_self, List.splitOn_eq_singleton hline, List.singleton_append,
      List.tail_cons, liveLines, List.filter_eq_nil_iff]
    simp
  · rw [hfirst text hbreak, List.splitOn_eq_singleton hbreak]
    simp

/-! ## The header as a compiler reads it -/

theorem toList_headerBanner (settings : Settings) : (headerBanner settings).toList =
    "/* AUTOGENERATED from ".toList ++ settings.generator.toList ++
      ". DO NOT EDIT! */\n".toList := by
  unfold headerBanner
  generalize "/* AUTOGENERATED from " = opening
  generalize ". DO NOT EDIT! */\n" = closing
  rw [String.toList_append, String.toList_append]

theorem splice_headerBanner (settings : Settings) : splice (headerBanner settings).toList =
    "/* AUTOGENERATED from ".toList ++ splice settings.generator.toList ++
      ". DO NOT EDIT! */\n".toList := by
  have hopening : splice "/* AUTOGENERATED from ".toList = "/* AUTOGENERATED from ".toList := by
    decide
  have hclosing : splice ". DO NOT EDIT! */\n".toList = ". DO NOT EDIT! */\n".toList := by decide
  have hlast : "/* AUTOGENERATED from ".toList.getLast? ≠ some '\\' := by decide
  have hhead : ". DO NOT EDIT! */\n".toList.head? ≠ some '\n' := by decide
  rw [toList_headerBanner, splice_append fun _ => hhead, hclosing,
    splice_append fun h => absurd h hlast, hopening]

/-- Whatever the generator opens, the end of the banner and its line break close. -/
theorem after_headerBanner (settings : Settings) :
    Mode.code.after (splice (headerBanner settings).toList) = .code := by
  rw [splice_headerBanner, Mode.after_append]
  generalize Mode.code.after _ = mode
  cases mode with
  | literal quote => cases quote <;> decide
  | escape quote => cases quote <;> decide
  | _ => decide

theorem stripComments_headerBanner_append {rest : List Char} (h : ∀ c ∈ rest, isPlain c = true) :
    stripComments ((headerBanner settings).toList ++ rest) =
      stripComments (headerBanner settings).toList ++ rest := by
  have hlast : (headerBanner settings).toList.getLast? ≠ some '\\' := by
    have hclosing : ". DO NOT EDIT! */\n".toList.getLast? = some '\n' := by decide
    rw [toList_headerBanner, List.getLast?_append, hclosing]
    simp
  unfold stripComments
  rw [splice_append fun h => absurd h hlast, splice_of_plain h,
    Mode.strip_append (after_headerBanner settings), strip_of_plain h]

/-- The lines after the banner. -/
def headerLines (resolution : Resolution) (settings : Settings) : List (List Char) :=
  guardLines settings ++ [] :: (headerEntries resolution settings ++ [[], "#endif".toList])

theorem isCodeChar_of_mem_headerLines (hvalid : settings.validate = .ok ())
    (hnames : ∀ name ∈ resolution.enabled, isName name = true) {line : List Char}
    (h : line ∈ headerLines resolution settings) : ∀ c ∈ line, isCodeChar c = true := by
  have hifndef : ∀ c ∈ "#ifndef ".toList, isCodeChar c = true := by simp; decide
  have hdefine : ∀ c ∈ "#define ".toList, isCodeChar c = true := by simp; decide
  have hendif : ∀ c ∈ "#endif".toList, isCodeChar c = true := by simp; decide
  have hvalue : ∀ c ∈ " y".toList, isCodeChar c = true := by simp; decide
  have hguard := isCodeChar_of_isName (isName_headerGuard hvalid)
  have hprefix := isCodeChar_of_isName (isName_symbolPrefix hvalid)
  simp only [headerLines, guardLines, List.mem_append, List.mem_cons, List.not_mem_nil,
    or_false] at h
  rcases h with (rfl | rfl) | rfl | hentry | rfl | rfl
  · rw [String.toList_append, List.forall_mem_append]
    exact ⟨hifndef, hguard⟩
  · rw [String.toList_append, List.forall_mem_append]
    exact ⟨hdefine, hguard⟩
  · exact List.forall_mem_nil _
  · obtain ⟨name, hname, rfl⟩ := List.mem_map.mp hentry
    have hpadding : ∀ c ∈ List.replicate (settings.nameWidth.toNat - name.length) ' ',
        isCodeChar c = true := by
      intro c hc
      rw [List.eq_of_mem_replicate hc]
      decide
    rw [entryLine, toList_padRight]
    simp only [List.forall_mem_append, String.toList_append]
    exact ⟨⟨hdefine, hprefix⟩, ⟨isCodeChar_of_isName (hnames name hname), hpadding⟩, hvalue⟩
  · exact List.forall_mem_nil _
  · exact hendif

theorem stripComments_headerOf (hvalid : settings.validate = .ok ())
    (hnames : ∀ name ∈ resolution.enabled, isName name = true) :
    stripComments (headerOf resolution settings).toList =
      stripComments (headerBanner settings).toList ++
        '\n' :: (headerLines resolution settings).flatMap (· ++ ['\n']) := by
  rw [headerOf_eq_lines]
  apply stripComments_headerBanner_append
  rw [List.forall_mem_cons]
  refine ⟨by decide, fun c hc => ?_⟩
  obtain ⟨line, hline, hmem⟩ := List.mem_flatMap.mp hc
  rw [List.mem_append, List.mem_singleton] at hmem
  rcases hmem with hmem | rfl
  · exact isPlain_of_isCodeChar (isCodeChar_of_mem_headerLines hvalid hnames hline c hmem)
  · decide

/-- The lines after the banner that are not blank. -/
def directives (resolution : Resolution) (settings : Settings) : List (List Char) :=
  guardLines settings ++ (headerEntries resolution settings ++ ["#endif".toList])

theorem hash_mem_directive {line : List Char} (h : line ∈ directives resolution settings) :
    '#' ∈ line := by
  have hifndef : '#' ∈ "#ifndef ".toList := by simp
  have hdefine : '#' ∈ "#define ".toList := by simp
  simp only [directives, guardLines, List.mem_append, List.mem_cons, List.not_mem_nil,
    or_false] at h
  rcases h with (rfl | rfl) | hentry | rfl
  · rw [String.toList_append]
    exact List.mem_append_left _ hifndef
  · rw [String.toList_append]
    exact List.mem_append_left _ hdefine
  · obtain ⟨name, -, rfl⟩ := List.mem_map.mp hentry
    rw [entryLine, String.toList_append]
    exact List.mem_append_left _ (List.mem_append_left _ hdefine)
  · simp

theorem filter_headerLines :
    (headerLines resolution settings).filter (!isBlank ·) = directives resolution settings := by
  have hlive : ∀ line ∈ directives resolution settings, (!isBlank line) = true := by
    intro line hline
    rw [isBlank_eq_false (hash_mem_directive hline) rfl]
    rfl
  rw [directives] at hlive ⊢
  simp only [List.forall_mem_append] at hlive
  obtain ⟨hguard, hentries, hendif⟩ := hlive
  have hblank : (!isBlank []) = false := rfl
  rw [headerLines, List.filter_append, List.filter_eq_self.mpr hguard,
    List.filter_cons_of_neg (by simp [hblank]), List.filter_append,
    List.filter_eq_self.mpr hentries, List.filter_cons_of_neg (by simp [hblank]),
    List.filter_eq_self.mpr hendif]

theorem liveLines_headerOf (hvalid : settings.validate = .ok ())
    (hnames : ∀ name ∈ resolution.enabled, isName name = true) :
    liveLines isBlank (stripComments (headerOf resolution settings).toList) =
      liveLines isBlank (stripComments (headerBanner settings).toList) ++
        directives resolution settings := by
  have hunbroken : ∀ line ∈ headerLines resolution settings, '\n' ∉ line := by
    intro line hline hmem
    cases isCodeChar_of_mem_headerLines hvalid hnames hline '\n' hmem
  rw [stripComments_headerOf hvalid hnames, liveLines_append, liveLines_flatMap hunbroken rfl,
    filter_headerLines]

theorem stripComments_headerBanner (h : ¬ ['*', '/'] <:+: splice settings.generator.toList) :
    stripComments (headerBanner settings).toList = [' ', '\n'] := by
  have hopening : "/* AUTOGENERATED from ".toList = '/' :: '*' :: " AUTOGENERATED from ".toList := by
    decide
  have hstar : '*' ∉ " AUTOGENERATED from ".toList := by simp
  have hclosing : ". DO NOT EDIT! */\n".toList = '.' :: " DO NOT EDIT! */\n".toList := by decide
  have hend : Mode.blockComment.strip " DO NOT EDIT! */\n".toList = ['\n'] := by decide
  unfold stripComments
  rw [splice_headerBanner, hopening, hclosing]
  generalize " AUTOGENERATED from ".toList = opening at *
  generalize " DO NOT EDIT! */\n".toList = closing at *
  calc Mode.code.strip ('/' :: '*' :: opening ++ splice settings.generator.toList ++ '.' :: closing)
      = ' ' :: Mode.blockComment.strip
          (opening ++ (splice settings.generator.toList ++ '.' :: closing)) := by
        rw [← List.append_assoc]
        rfl
    _ = ' ' :: Mode.blockComment.strip closing := by
        rw [strip_blockComment_of_notMem hstar, (strip_blockComment h closing).1]
    _ = [' ', '\n'] := by rw [hend]

theorem liveLines_headerBanner (h : ¬ ['*', '/'] <:+: splice settings.generator.toList) :
    liveLines isBlank (stripComments (headerBanner settings).toList) = [] := by
  rw [stripComments_headerBanner h]
  rfl

/--
**What is live in the fragments.** For settings that are accepted, with a column that is not too
wide, valid names are rendered. What is live is what the banner makes live, and after it one line
for each name that is on, in the header between the two lines of the guard and its end. The banner
of the makefile makes nothing live exactly if every line of the generator after the first is one
that make passes over; the banner of the header makes nothing live if the generator has no end of
a comment in it.
-/
theorem render_live (resolution : Resolution) (settings : Settings)
    (hvalid : settings.validate = .ok ()) (hwidth : settings.nameWidth.toNat ≤ 65535)
    (hnames : ∀ name ∈ resolution.enabled, isName name = true) :
    ∃ fragments, render resolution settings = .ok fragments ∧
      liveLines isIdle fragments.makefile.toList =
        liveLines isIdle (makefileBanner settings).toList ++ makefileEntries resolution settings ∧
      liveLines isBlank (stripComments fragments.header.toList) =
        liveLines isBlank (stripComments (headerBanner settings).toList) ++
          directives resolution settings ∧
      (liveLines isIdle (makefileBanner settings).toList = [] ↔
        ∀ line ∈ ((settings.generator ++ ". DO NOT EDIT!").toList.splitOn '\n').tail,
          isIdle line = true) ∧
      (¬ ['*', '/'] <:+: splice settings.generator.toList →
        liveLines isBlank (stripComments (headerBanner settings).toList) = []) := by
  refine ⟨⟨makefileOf resolution settings, headerOf resolution settings⟩, if_neg ?_,
    liveLines_makefileOf hvalid hnames, liveLines_headerOf hvalid hnames,
    liveLines_makefileBanner_eq_nil, liveLines_headerBanner⟩
  rintro ⟨-, hwide⟩
  exact Nat.not_lt.mpr hwidth hwide

/-- One entry is on and one is off. -/
def halfOn : Resolution := ⟨#[("BAR", false), ("FOO", true)]⟩

/-- A generator of two lines, the second of which is a comment again. -/
def commented : Settings := { generator := "confgen\n# nightly" }

theorem render_live_commented :
    commented.validate = .ok () ∧ commented.nameWidth.toNat ≤ 65535 ∧
      (∀ name ∈ halfOn.enabled, isName name = true) ∧
      ∃ fragments, render halfOn commented = .ok fragments ∧
        liveLines isIdle fragments.makefile.toList =
          liveLines isIdle (makefileBanner commented).toList ++
            makefileEntries halfOn commented ∧
        liveLines isBlank (stripComments fragments.header.toList) =
          liveLines isBlank (stripComments (headerBanner commented).toList) ++
            directives halfOn commented ∧
        (liveLines isIdle (makefileBanner commented).toList = [] ↔
          ∀ line ∈ ((commented.generator ++ ". DO NOT EDIT!").toList.splitOn '\n').tail,
            isIdle line = true) ∧
        (¬ ['*', '/'] <:+: splice commented.generator.toList →
          liveLines isBlank (stripComments (headerBanner commented).toList) = []) := by
  have hnames : ∀ name ∈ halfOn.enabled, isName name = true := by
    have henabled : halfOn.enabled = ["FOO"] := rfl
    rw [henabled]
    decide
  have hwidth : commented.nameWidth.toNat ≤ 65535 := by decide
  exact ⟨rfl, hwidth, hnames, render_live halfOn commented rfl hwidth hnames⟩

/-- A generator that ends the line of the banner and adds one of its own. -/
def addsAssignment : Settings := { generator := "confgen\nCONFIG_BAR = y\n#" }

/-- A generator that ends the comment of the banner and adds a line of its own. -/
def addsDefinition : Settings := { generator := "confgen */\n#define CONFIG_BAR y\n/*" }

/-- Both generators are accepted, and each puts the entry that is off into one of the fragments. -/
theorem generator_adds_entries :
    addsAssignment.validate = .ok () ∧ addsDefinition.validate = .ok () ∧
      "BAR" ∉ halfOn.enabled ∧
      (∃ fragments, render halfOn addsAssignment = .ok fragments ∧
        "CONFIG_BAR = y".toList ∈ liveLines isIdle fragments.makefile.toList ∧
        "CONFIG_BAR = y".toList ∉ makefileEntries halfOn addsAssignment) ∧
      ∃ fragments, render halfOn addsDefinition = .ok fragments ∧
        "#define CONFIG_BAR y".toList ∈
          liveLines isBlank (stripComments fragments.header.toList) ∧
        "#define CONFIG_BAR y".toList ∉ directives halfOn addsDefinition := by
  have henabled : halfOn.enabled = ["FOO"] := rfl
  have hnames : ∀ name ∈ halfOn.enabled, isName name = true := by
    rw [henabled]
    decide
  have hassignment : liveLines isIdle (makefileBanner addsAssignment).toList =
      ["CONFIG_BAR = y".toList] := by
    have hbanner : makefileBanner addsAssignment =
        "# AUTOGENERATED from confgen\nCONFIG_BAR = y\n#. DO NOT EDIT!" := by decide
    rw [hbanner]
    cbv
  have hdefinition : liveLines isBlank (stripComments (headerBanner addsDefinition).toList) =
      ["#define CONFIG_BAR y".toList] := by
    have hbanner : headerBanner addsDefinition =
        "/* AUTOGENERATED from confgen */\n#define CONFIG_BAR y\n/*. DO NOT EDIT! */\n" := by
      decide
    rw [hbanner]
    cbv
  have hentries : "CONFIG_BAR = y".toList ∉ makefileEntries halfOn addsAssignment := by
    have hlines : makefileEntries halfOn addsAssignment =
        ["CONFIG_FOO                       = y".toList] := by cbv
    rw [hlines]
    simp
  have hdirectives : "#define CONFIG_BAR y".toList ∉ directives halfOn addsDefinition := by
    have hlines : directives halfOn addsDefinition =
        ["#ifndef __CONFIG_H__".toList, "#define __CONFIG_H__".toList,
          "#define CONFIG_FOO                       y".toList, "#endif".toList] := by cbv
    rw [hlines]
    simp
  generalize "CONFIG_BAR = y".toList = assignment at *
  generalize "#define CONFIG_BAR y".toList = definition at *
  refine ⟨rfl, rfl, by simp [henabled], ⟨_, rfl, ?_, hentries⟩, ⟨_, rfl, ?_, hdirectives⟩⟩
  · have hvalid : addsAssignment.validate = .ok () := rfl
    rw [liveLines_makefileOf hvalid hnames, hassignment]
    exact List.mem_append_left _ List.mem_cons_self
  · have hvalid : addsDefinition.validate = .ok () := rfl
    rw [liveLines_headerOf hvalid hnames, hdefinition]
    exact List.mem_append_left _ List.mem_cons_self

end Fragments

end FeatureFlags
