import MilvusOnprem.EnvUpsert
import MilvusOnprem.ShellSource

/-!
# The lines of cluster.env

A `cluster.env` as it is meant to be: its lines are blank, comments, or settings
`KEY=VALUE` whose value is a bare word or a string in single or double quotes,
without escapes and expansions. What a shell gets from such a file is the list of
its settings; what the readers of the daemon get from it depends on how a value is
quoted.
-/
namespace MilvusOnprem.EnvFormat

open PythonText ClusterEnv EnvText EnvUpsert ShellSource Assignments
open SharedSettings (lineBreaks Unbroken)

inductive Style
  | bare
  | single
  | double
deriving DecidableEq

/-- Whether a text can be written so. -/
def Style.fits : Style → List Char → Bool
  | .bare, cs => literalFrom true cs
  | .single, cs => '\'' ∉ cs
  | .double, cs => plainFrom cs

def Style.write : Style → List Char → List Char
  | .bare, cs => cs
  | .single, cs => '\'' :: (cs ++ ['\''])
  | .double, cs => '"' :: (cs ++ ['"'])

/-- A line `KEY=VALUE`. -/
structure Setting where
  name : String
  style : Style
  text : String
  isName : isName name.toList = true
  fits : style.fits text.toList = true
  oneLine : '\n' ∉ text.toList
  noNull : '\x00' ∉ text.toList

inductive Line
  | blank (spaces : String) (h : ∀ c ∈ spaces.toList, isBlank c = true)
  | comment (indent text : String) (h : ∀ c ∈ indent.toList, isBlank c = true)
      (oneLine : '\n' ∉ text.toList) (noNull : '\x00' ∉ text.toList)
  | setting (s : Setting)

/-- What stands behind the equals sign. -/
def Setting.value (s : Setting) : String := String.ofList (s.style.write s.text.toList)

def Line.render : Line → String
  | .blank spaces _ => spaces
  | .comment indent text _ _ _ => indent ++ "#" ++ text
  | .setting s => assignment s.name s.value

/-- The text of a file. It ends with a newline if its last line is empty. -/
def fileOf (lines : List Line) : String := String.ofList (charsOf (lines.map Line.render))

/-- What a shell gets from the lines. -/
def shellEntries (lines : List Line) : List (String × String) :=
  lines.filterMap fun
    | .setting s => some (s.name, s.text)
    | _ => none

/-- What a reader of the daemon gets from the lines when it splits at newlines only. -/
def readEntries (lines : List Line) : List (String × String) :=
  lines.filterMap fun
    | .setting s => some (s.name, unwrapped s.value)
    | _ => none

/-! ## Sourcing the file -/

theorem write_chars {style : Style} {cs : List Char} {c : Char} (h : c ∈ style.write cs) :
    c ∈ cs ∨ c = '\'' ∨ c = '"' := by
  cases style <;> simp only [Style.write, List.mem_cons, List.mem_append, List.not_mem_nil,
    or_false] at h <;> tauto

theorem scan_written {style : Style} {cs : List Char} (h : style.fits cs = true) :
    scanValue (.bare true) (style.write cs) = some (cs, []) := by
  cases style with
  | bare => exact scan_literal h
  | single => exact scan_single (by simpa [Style.fits] using h)
  | double => exact scan_double h

theorem notMem_write {style : Style} {cs : List Char} {c : Char} (hc : c ∉ cs) (hsingle : c ≠ '\'')
    (hdouble : c ≠ '"') : c ∉ style.write cs := by
  intro hmem
  rcases write_chars hmem with h | h | h
  · exact hc h
  · exact hsingle h
  · exact hdouble h

theorem sourceLine_render (line : Line) :
    sourceLine line.render.toList = some (shellEntries [line]) := by
  cases line with
  | blank spaces h =>
      have hline := sourceLine_blank h []
      rw [List.append_nil] at hline
      exact hline.trans rfl
  | comment indent text h oneLine noNull =>
      have hchars : (Line.comment indent text h oneLine noNull).render.toList =
          indent.toList ++ '#' :: text.toList := by
        simp [Line.render]
      have hnull : '\x00' ∉ '#' :: text.toList := by
        simpa using noNull
      rw [hchars, sourceLine_blank h, sourceLine, if_neg hnull, words]
      rfl
  | setting s =>
      have hnull : '\x00' ∉ s.style.write s.text.toList := notMem_write s.noNull (by decide) (by decide)
      rw [Line.render, toList_assignment, Setting.value, String.toList_ofList,
        sourceLine_scanned s.isName hnull (scan_written s.fits), String.ofList_toList,
        String.ofList_toList]
      rfl

theorem shellEntries_append (xs ys : List Line) :
    shellEntries (xs ++ ys) = shellEntries xs ++ shellEntries ys := List.filterMap_append

theorem readEntries_append (xs ys : List Line) :
    readEntries (xs ++ ys) = readEntries xs ++ readEntries ys := List.filterMap_append

theorem sourceLines_render (lines : List Line) :
    sourceLines (lines.map fun line => line.render.toList) = some (shellEntries lines) := by
  induction lines with
  | nil => rfl
  | cons line lines ih =>
      rw [List.map_cons, sourceLines_cons, sourceLine_render, ih, Option.bind_some, Option.map_some,
        ← shellEntries_append]
      rfl

theorem newline_notMem_name {name : List Char} (h : isName name = true) : '\n' ∉ name := by
  intro hmem
  obtain ⟨htake, -⟩ := takeWhile_name h []
  rw [← htake] at hmem
  exact absurd (List.mem_takeWhile_imp hmem) (by decide)

theorem newline_notMem_render (line : Line) : '\n' ∉ line.render.toList := by
  cases line with
  | blank spaces h => exact fun hmem => absurd (h _ hmem) (by decide)
  | comment indent text h oneLine noNull =>
      rw [Line.render, String.toList_append, String.toList_append, List.mem_append, List.mem_append]
      rintro ((hmem | hmem) | hmem)
      · exact absurd (h _ hmem) (by decide)
      · revert hmem
        decide
      · exact oneLine hmem
  | setting s =>
      rw [Line.render, toList_assignment, Setting.value, String.toList_ofList, List.mem_append,
        List.mem_cons]
      rintro (hmem | hmem | hmem)
      · exact newline_notMem_name s.isName hmem
      · revert hmem
        decide
      · exact notMem_write s.oneLine (by decide) (by decide) hmem

/-- The lines of a text that is put together from lines. -/
theorem splitOn_charsOf {lines : List String} (hne : lines ≠ [])
    (h : ∀ line ∈ lines, '\n' ∉ line.toList) :
    (charsOf lines).splitOn '\n' = lines.map String.toList := by
  rw [charsOf, List.splitOn_intercalate]
  · simpa using h
  · simpa using hne

theorem source_charsOf {lines : List String} (hne : lines ≠ [])
    (h : ∀ line ∈ lines, '\n' ∉ line.toList) :
    source (String.ofList (charsOf lines)) = sourceLines (lines.map String.toList) := by
  rw [source, String.toList_ofList, splitOn_charsOf hne h]

/-- Sourcing a file gives its settings. -/
theorem source_fileOf (lines : List Line) : source (fileOf lines) = some (shellEntries lines) := by
  by_cases hne : lines = []
  · subst hne
    decide +kernel
  · rw [fileOf, source_charsOf (by simpa using hne), List.map_map]
    · exact sourceLines_render lines
    · intro line hline
      obtain ⟨l, -, rfl⟩ := List.mem_map.mp hline
      exact newline_notMem_render l

/-! ## Reading the file -/

theorem isSpace_of_blank {c : Char} (h : isBlank c = true) : isSpace c = true := by
  rw [isBlank, Bool.or_eq_true, decide_eq_true_eq, decide_eq_true_eq] at h
  rcases h with rfl | rfl <;> decide

theorem isNameChar_range {c : Char} (h : isNameChar c = true) : 48 ≤ c.toNat ∧ c.toNat ≤ 122 ∧ c.toNat ≠ 61 := by
  rw [isNameChar, isNameStart] at h
  simp only [Bool.or_eq_true, Bool.and_eq_true, decide_eq_true_eq] at h
  rcases h with ((h | h) | rfl) | h
  · exact ⟨le_trans (by decide) h.1, le_trans h.2 (by decide), fun he => by
      rw [he] at h
      exact absurd h.1 (by decide)⟩
  · exact ⟨le_trans (by decide) h.1, le_trans h.2 (by decide), fun he => by
      rw [he] at h
      exact absurd h.1 (by decide)⟩
  · decide
  · exact ⟨le_trans (by decide) h.1, le_trans h.2 (by decide), fun he => by
      rw [he] at h
      exact absurd h.2 (by decide)⟩

theorem isNameChar_of_mem {name : List Char} (h : isName name = true) {c : Char} (hc : c ∈ name) :
    isNameChar c = true := by
  obtain ⟨htake, -⟩ := takeWhile_name h []
  rw [← htake] at hc
  exact List.mem_takeWhile_imp hc

/-- A name is found by the readers. -/
theorem findable_name {name : String} (h : isName name.toList = true) : Findable name := by
  have hrange : ∀ c ∈ name.toList, 48 ≤ c.toNat ∧ c.toNat ≤ 122 ∧ c.toNat ≠ 61 :=
    fun c hc => isNameChar_range (isNameChar_of_mem h hc)
  refine ⟨?_, ?_, ?_, ?_, ?_⟩
  · rintro rfl
    cases h
  · apply stripChars_eq_self
    intro c hc
    obtain ⟨hlow, hhigh, -⟩ := hrange c hc
    rw [Bool.eq_false_iff, isSpace, ne_eq, List.contains_iff_mem]
    generalize c.toNat = n at hlow hhigh
    simp only [spaces, List.mem_cons, List.not_mem_nil, or_false]
    omega
  · exact fun hmem => absurd rfl (hrange _ hmem).2.2
  · cases hname : name.toList with
    | nil => rw [startsWith, hname]; rfl
    | cons c cs =>
        have hne : ('#' == c) = false := by
          rw [beq_eq_false_iff_ne]
          rintro rfl
          exact absurd (hrange _ (hname ▸ List.mem_cons_self)).1 (by decide)
        rw [startsWith, hname, show "#".toList = ['#'] from rfl, List.isPrefixOf, hne]
        rfl
  · intro c hc
    obtain ⟨hlow, hhigh, -⟩ := hrange c hc
    generalize c.toNat = n at hlow hhigh
    simp only [lineBreaks, List.mem_cons, List.not_mem_nil, or_false]
    omega

theorem envEntry_comment {indent : String} (h : ∀ c ∈ indent.toList, isBlank c = true) (text : String) :
    envEntry (indent ++ "#" ++ text) = none := by
  have hof : indent ++ "#" ++ text = String.ofList (indent.toList ++ '#' :: text.toList) := by
    apply String.toList_injective
    simp
  have hstrip : strip (indent ++ "#" ++ text) =
      String.ofList ('#' :: text.toList.rdropWhile isSpace) := by
    rw [hof, strip, stripChars_kept (by decide),
      List.dropWhile_eq_nil_iff.mpr fun c hc => isSpace_of_blank (h c hc)]
    rfl
  have hhash : startsWith (String.ofList ('#' :: text.toList.rdropWhile isSpace)) "#" = true := by
    rw [startsWith, String.toList_ofList, String.toList_ofList]
    exact List.isPrefixOf_iff_prefix.mpr (List.prefix_append ['#'] _)
  rw [envEntry, hstrip]
  simp only [hhash, or_true, if_true]

theorem envEntry_render (line : Line) : (envEntry line.render).toList = readEntries [line] := by
  cases line with
  | blank spaces h =>
      have hstrip : strip spaces = "" := by
        rw [strip, stripChars, List.dropWhile_eq_nil_iff.mpr fun c hc => isSpace_of_blank (h c hc)]
        rfl
      rw [Line.render, envEntry, hstrip]
      rfl
  | comment indent text h oneLine noNull =>
      rw [Line.render, envEntry_comment h]
      rfl
  | setting s =>
      have hkey := findable_name s.isName
      have hof : assignment s.name s.value = String.ofList (s.name.toList ++ '=' :: s.value.toList) := by
        apply String.toList_injective
        rw [toList_assignment, String.toList_ofList]
      rw [Line.render, hof, envEntry_cut hkey.bare, String.ofList_toList, hkey.stripped,
        hkey.uncommented, if_neg Bool.false_ne_true, String.ofList_toList]
      rfl

/-- A line without line breaks of other kinds. -/
theorem lineEntries_render {breaks : List ℕ} (hn : 10 ∈ breaks) (hr : 13 ∈ breaks) {line : Line}
    (h : ∀ c ∈ line.render.toList, c.toNat ∉ breaks) :
    lineEntries breaks line.render = readEntries [line] := by
  rw [lineEntries_unbroken hn hr h, envEntry_render]

/-- The entries of lines without line breaks of other kinds. -/
theorem flatMap_entries {breaks : List ℕ} {lines : List Line} (hn : 10 ∈ breaks) (hr : 13 ∈ breaks)
    (h : ∀ line ∈ lines, ∀ c ∈ line.render.toList, c.toNat ∉ breaks) :
    (lines.map Line.render).flatMap (lineEntries breaks) = readEntries lines := by
  induction lines with
  | nil => rfl
  | cons line lines ih =>
      rw [List.map_cons, List.flatMap_cons, lineEntries_render hn hr (h line List.mem_cons_self),
        ih fun l hl => h l (List.mem_cons_of_mem _ hl), ← readEntries_append]
      rfl

theorem universal_eq_self {cs : List Char} (h : '\r' ∉ cs) : universal cs = cs := by
  induction cs with
  | nil => rfl
  | cons c cs ih =>
      have hc : c ≠ '\r' := fun he => h (he ▸ List.mem_cons_self)
      rw [universal, if_neg hc, ih fun hm => h (List.mem_cons_of_mem c hm)]
      exact fun rest he => absurd he hc

theorem textLines_fileOf {lines : List Line} (hne : lines ≠ [])
    (h : ∀ line ∈ lines, Unbroken line.render) : textLines (fileOf lines) = lines.map Line.render := by
  have hsplit : (charsOf (lines.map Line.render)).splitOn '\n' =
      (lines.map Line.render).map String.toList := by
    apply splitOn_charsOf (by simpa using hne)
    intro line hline
    obtain ⟨l, -, rfl⟩ := List.mem_map.mp hline
    exact newline_notMem_render l
  have hreturn : '\r' ∉ charsOf (lines.map Line.render) := by
    intro hmem
    obtain ⟨cs, hcs, hc⟩ := exists_part_of_mem hmem (show '\r' ≠ '\n' by decide)
    rw [hsplit] at hcs
    obtain ⟨text, htext, rfl⟩ := List.mem_map.mp hcs
    obtain ⟨line, hline, rfl⟩ := List.mem_map.mp htext
    exact h line hline _ hc (by decide)
  rw [textLines, fileOf, String.toList_ofList, universal_eq_self hreturn, hsplit]
  simp

/-- Whether a line sets a variable. -/
def Line.names (key : String) : Line → Bool
  | .setting s => s.name = key
  | _ => false

theorem names_iff {key : String} {line : Line} :
    line.names key = true ↔ ∃ s : Setting, line = .setting s ∧ s.name = key := by
  cases line <;> simp [Line.names]

/-- The entries of lines are about the variables that they set. -/
theorem readEntries_key {key : String} {lines : List Line} (h : ∀ line ∈ lines, line.names key = false) :
    ∀ e ∈ readEntries lines, e.1 ≠ key := by
  intro e he
  obtain ⟨line, hline, he⟩ := List.mem_filterMap.mp he
  have hnames := h line hline
  cases line with
  | setting s =>
      cases Option.some.inj he
      exact of_decide_eq_false hnames
  | _ => cases he

theorem shellEntries_key {key : String} {lines : List Line} (h : ∀ line ∈ lines, line.names key = false) :
    ∀ e ∈ shellEntries lines, e.1 ≠ key := by
  intro e he
  obtain ⟨line, hline, he⟩ := List.mem_filterMap.mp he
  have hnames := h line hline
  cases line with
  | setting s =>
      cases Option.some.inj he
      exact of_decide_eq_false hnames
  | _ => cases he

theorem sets_render {key : String} (hkey : isName key.toList = true) (line : Line) :
    sets key line.render = line.names key := by
  have htake : sets key line.render = true →
      line.render.toList.takeWhile isNameChar = key.toList := by
    intro hsets
    rw [← append_removePrefix hsets, String.toList_append, String.toList_append, List.append_assoc]
    exact (takeWhile_name hkey _).1
  have hempty : key.toList ≠ [] := by
    intro hnil
    rw [hnil] at hkey
    cases hkey
  have hnone : ∀ c cs, line.render.toList = c :: cs → isNameChar c = false →
      sets key line.render = false := by
    intro c cs hline hc
    rw [Bool.eq_false_iff]
    intro hsets
    have hkeys := htake hsets
    rw [hline, List.takeWhile_cons_of_neg (by simp [hc])] at hkeys
    exact hempty hkeys.symm
  cases line with
  | blank spaces h =>
      cases hspaces : spaces.toList with
      | nil =>
          have hsets : sets key (Line.blank spaces h).render = false := by
            rw [Bool.eq_false_iff]
            intro hsets
            have hkeys := htake hsets
            rw [Line.render, hspaces] at hkeys
            exact hempty hkeys.symm
          exact hsets
      | cons c cs =>
          refine hnone c cs hspaces ?_
          have hc := h c (hspaces ▸ List.mem_cons_self)
          rw [isBlank, Bool.or_eq_true, decide_eq_true_eq, decide_eq_true_eq] at hc
          rcases hc with rfl | rfl <;> decide
  | comment indent text h oneLine noNull =>
      cases hindent : indent.toList with
      | nil => exact hnone '#' text.toList (by simp [Line.render, hindent]) (by decide)
      | cons c cs =>
          refine hnone c (cs ++ '#' :: text.toList) (by simp [Line.render, hindent]) ?_
          have hc := h c (hindent ▸ List.mem_cons_self)
          rw [isBlank, Bool.or_eq_true, decide_eq_true_eq, decide_eq_true_eq] at hc
          rcases hc with rfl | rfl <;> decide
  | setting s =>
      rw [Bool.eq_iff_iff]
      constructor
      · intro hsets
        have hkeys := htake hsets
        rw [Line.render, toList_assignment, (takeWhile_name s.isName _).1] at hkeys
        exact decide_eq_true (String.toList_injective hkeys)
      · intro hname
        have heq : s.name = key := of_decide_eq_true hname
        subst heq
        exact startsWith_append _ _

end MilvusOnprem.EnvFormat
