import MilvusOnprem.SharedSettings
import MilvusOnprem.Assignments
import Mathlib.Data.List.DropRight

/-!
# The text of cluster.env

`_upsert_kv` on the text of the file. A file that is opened in text mode has its
line breaks translated, so the lines that are written back end with newlines; the
last line may have none. Two readers iterate over the file and keep the first
line of a key, `_read_cluster_env` splits the text at more line breaks and keeps
the last one.
-/
namespace MilvusOnprem.EnvText

open PythonText ClusterEnv EnvLines Assignments
open SharedSettings (lineBreaks Unbroken)

/-! ## The edit -/

/-- The line breaks of a text as text mode translates them. -/
def universal : List Char → List Char
  | [] => []
  | '\r' :: '\n' :: cs => '\n' :: universal cs
  | c :: cs => (if c = '\r' then '\n' else c) :: universal cs

/-- The lines of a translated text with their newlines. `line` is the current
line, reversed. -/
def keepEnds : List Char → List Char → List (List Char)
  | [], line => if line = [] then [] else [line.reverse]
  | c :: cs, line =>
      if c = '\n' then (c :: line).reverse :: keepEnds cs [] else keepEnds cs (c :: line)

/-- `f.readlines()` -/
def readLines (text : String) : List String :=
  (keepEnds (universal text.toList) []).map String.ofList

/-- `f"{key}={value}"` -/
def assignment (key value : String) : String := key ++ "=" ++ value

/-- `line.startswith(f"{key}=")` -/
def sets (key line : String) : Bool := startsWith line (key ++ "=")

/-- The loop over the lines, and the line that is appended. -/
def setLine (key value : String) : List String → List String
  | [] => [assignment key value ++ "\n"]
  | line :: lines =>
      if sets key line then (assignment key value ++ "\n") :: lines
      else line :: setLine key value lines

/-- `_upsert_kv` on the text of the file. -/
def upsertKv (key value text : String) : String :=
  String.join (setLine key value (readLines text))

/-! ## The readers -/

/-- What `_read_cluster_env` has for a key. -/
def dictValue (text key : String) : Option String :=
  ((parseClusterEnv text).find? fun kv => kv.1 = key).map Prod.snd

/-- `_read_kv` -/
def readKv (text key : String) : String := readClusterEnvValue (some text) key ""

/-- What is found in the lines that a text is cut into. -/
def piecesAt {α : Type} (g : String → Option α) (breaks : List ℕ) (cs : List Char) : List α :=
  ((splitLinesFrom breaks cs []).map String.ofList).filterMap g

/-- What the readers find in the lines that a text is cut into. -/
def entriesAt (breaks : List ℕ) (cs : List Char) : List (String × String) := piecesAt envEntry breaks cs

/-- The line breaks of a file that is iterated over. -/
def fileBreaks : List ℕ := [0x0A, 0x0D]

/-- The assignments that `_read_cluster_env` finds: those with a name. -/
def dictEntries (cs : List Char) : List (String × String) :=
  (entriesAt lineBreaks cs).filter fun kv => kv.1 ≠ ""

theorem readClusterEnvValue_eq (text key dflt : String) :
    readClusterEnvValue (some text) key dflt =
      (first key (entriesAt fileBreaks text.toList)).getD dflt := by
  have hlines : (fileLines text).filterMap envEntry = entriesAt fileBreaks text.toList := rfl
  rw [readClusterEnvValue, hlines, first]
  cases (entriesAt fileBreaks text.toList).find? fun kv => kv.1 = key <;> rfl

theorem first_dictSet {k key : String} {v : String} (es : List (String × String)) :
    first key (dictSet k v es) = if k = key then some v else first key es := by
  induction es with
  | nil => exact first_singleton (k, v)
  | cons e es ih =>
      unfold dictSet
      by_cases he : e.1 = k
      · rw [if_pos he, first_cons, first_cons, he]
        by_cases hk : k = key <;> simp [hk]
      · rw [if_neg he, first_cons, first_cons, ih]
        by_cases hk : k = key
        · simp [hk, hk ▸ he]
        · simp [hk]

/-- A dictionary keeps the last assignment of a key that has a name. -/
theorem dictValue_eq (text key : String) : dictValue text key = last key (dictEntries text.toList) := by
  have hfold : ∀ (es out : List (String × String)),
      first key (es.foldl (fun out kv => if kv.1 = "" then out else dictSet kv.1 kv.2 out) out) =
        (last key (es.filter fun kv => kv.1 ≠ "")).or (first key out) := by
    intro es
    induction es with
    | nil => simp
    | cons e es ih =>
        intro out
        rw [List.foldl_cons, ih, List.filter_cons]
        split_ifs with hname hname'
        · simp [hname] at hname'
        · rfl
        · rw [first_dictSet, ← List.singleton_append, last_append, last_singleton]
          cases last key (es.filter fun kv => kv.1 ≠ "") <;> split_ifs <;> simp_all
        · simp_all
  exact (hfold _ []).trans (Option.or_none)

theorem dictValue_eq_last (text key : String) :
    dictValue text key = if key = "" then none else last key (entriesAt lineBreaks text.toList) := by
  have hnamed : ∀ es : List (String × String), last key (es.filter fun kv => kv.1 ≠ "") =
      if key = "" then none else last key es := by
    intro es
    induction es with
    | nil => simp
    | cons e es ih =>
        rw [List.filter_cons]
        by_cases hname : e.1 = ""
        · rw [if_neg (by simpa using hname), ih, last_cons]
          split_ifs with hkey hname'
          · rfl
          · exact absurd (hname' ▸ hname) hkey
          · rw [Option.or_none]
        · rw [if_pos (by simpa using hname), last_cons, last_cons, ih]
          by_cases hkey : key = ""
          · rw [if_pos hkey, if_pos hkey, if_neg fun he => hname (he.trans hkey), Option.or_none]
          · rw [if_neg hkey, if_neg hkey]
  rw [dictValue_eq, dictEntries, hnamed]

/-! ## Lines -/

/-- The text that lines make, without a newline behind the last one. -/
def charsOf (lines : List String) : List Char := ['\n'].intercalate (lines.map String.toList)

/-- The lines of a file as text mode has them, the last one without its newline:
it is empty in a file that ends with one. -/
def textLines (text : String) : List String :=
  ((universal text.toList).splitOn '\n').map String.ofList

/-- The entries of one line of the file. -/
def lineEntries (breaks : List ℕ) (line : String) : List (String × String) :=
  entriesAt breaks (line.toList ++ ['\n'])

theorem charsOf_cons {line : String} {lines : List String} (h : lines ≠ []) :
    charsOf (line :: lines) = line.toList ++ '\n' :: charsOf lines := by
  rw [charsOf, List.map_cons, List.intercalate_cons_of_ne_nil (by simpa using h), List.append_assoc]
  rfl

/-- Texts that are joined by a character. -/
theorem toList_join (sep : Char) (parts : List String) :
    (join (String.ofList [sep]) parts).toList = [sep].intercalate (parts.map String.toList) := by
  induction parts with
  | nil => rfl
  | cons part parts ih =>
      cases parts with
      | nil => rw [join, List.map_singleton, List.intercalate_singleton]
      | cons next parts =>
          rw [join_cons_cons, String.toList_append, String.toList_append, ih, String.toList_ofList,
            List.append_assoc, List.singleton_append]
          rfl

theorem textLines_ne_nil (text : String) : textLines text ≠ [] := by
  simp [textLines, List.splitOn_ne_nil]

theorem charsOf_textLines (text : String) : charsOf (textLines text) = universal text.toList := by
  have hmap : (textLines text).map String.toList = (universal text.toList).splitOn '\n' := by
    simp [textLines, Function.comp_def]
  rw [charsOf, hmap, List.intercalate_splitOn]

theorem notMem_textLines {text line : String} (h : line ∈ textLines text) : '\n' ∉ line.toList := by
  obtain ⟨cs, hcs, rfl⟩ := List.mem_map.mp h
  intro hmem
  rw [String.toList_ofList] at hmem
  exact (mem_splitOn hcs hmem).2 rfl

theorem notMem_universal (cs : List Char) : '\r' ∉ universal cs := by
  fun_induction universal cs with
  | case1 => simp
  | case2 cs ih => simpa using ih
  | case3 c cs hcr ih =>
      rw [List.mem_cons, not_or]
      refine ⟨?_, ih⟩
      split_ifs with hc
      · decide
      · exact Ne.symm hc

/-- A reader finds the same lines in a translated text. -/
theorem splitLinesFrom_universal {breaks : List ℕ} (hn : 10 ∈ breaks) (hr : 13 ∈ breaks)
    (cs line : List Char) :
    splitLinesFrom breaks (universal cs) line = splitLinesFrom breaks cs line := by
  have hfree : ∀ (c : Char) (cs : List Char), c ≠ '\r' → ∀ rest, c = '\r' → cs ≠ '\n' :: rest :=
    fun c cs hc rest he => absurd he hc
  fun_induction splitLinesFrom breaks cs line with
  | case1 => rfl
  | case2 line hne => cases line <;> simp_all [universal, splitLinesFrom]
  | case3 cs line ih => simp [universal, splitLinesFrom, hn, ih]
  | case4 c cs line hcr hc ih =>
      rw [universal]
      · split_ifs with he
        · rw [splitLinesFrom_cons line (hfree _ _ (by decide)), if_pos (by simpa using hn), ih]
        · rw [splitLinesFrom_cons line (hfree _ _ he), if_pos hc, ih]
      · exact hcr
  | case5 c cs line hcr hc ih =>
      have he : c ≠ '\r' := by
        rintro rfl
        exact hc (by simpa using hr)
      rw [universal, if_neg he, splitLinesFrom_cons line (hfree _ _ he), if_neg hc, ih]
      exact hcr

/-- A text is split behind a line break that no newline can join. -/
theorem splitLinesFrom_break {breaks : List ℕ} {b : Char} (hb : b.toNat ∈ breaks) {cs : List Char}
    (h : '\r' ∉ cs ++ [b]) (rest line : List Char) :
    splitLinesFrom breaks (cs ++ b :: rest) line =
      splitLinesFrom breaks (cs ++ [b]) line ++ splitLinesFrom breaks rest [] := by
  have hfree : ∀ c ∈ cs ++ [b], ∀ tail rest : List Char, c = '\r' → tail ≠ '\n' :: rest :=
    fun c hc tail rest he => absurd (he ▸ hc) h
  induction cs generalizing line with
  | nil =>
      have hend := hfree b List.mem_cons_self
      have hcut : breaks.contains b.toNat = true := by simpa using hb
      rw [List.nil_append, List.nil_append, splitLinesFrom_cons line (hend _),
        splitLinesFrom_cons line (hend _), if_pos hcut, if_pos hcut]
      rfl
  | cons c cs ih =>
      have hc := hfree c List.mem_cons_self
      have hcs : '\r' ∉ cs ++ [b] := fun hm => h (List.mem_cons_of_mem c hm)
      rw [List.cons_append, List.cons_append, splitLinesFrom_cons line (hc _),
        splitLinesFrom_cons line (hc _), ih hcs, ih hcs]
      · split_ifs <;> rfl
      · exact fun d hd => hfree d (List.mem_cons_of_mem c hd)
      · exact fun d hd => hfree d (List.mem_cons_of_mem c hd)

section Pieces

variable {α : Type} {g : String → Option α} {breaks : List ℕ}

/-- A newline at the end of a text adds nothing. -/
theorem piecesAt_newline (hg : g "" = none) (hn : 10 ∈ breaks) (hr : 13 ∈ breaks) (cs : List Char) :
    piecesAt g breaks (cs ++ ['\n']) = piecesAt g breaks cs := by
  have hempty : g (String.ofList []) = none := hg
  -- the newline joins a carriage return at the end only
  have happend : ∀ (c : Char) (cs line : List Char), (∀ rest, c = '\r' → cs = '\n' :: rest → False) →
      (cs = [] → c ≠ '\r') → splitLinesFrom breaks (c :: (cs ++ ['\n'])) line =
        if breaks.contains c.toNat then line.reverse :: splitLinesFrom breaks (cs ++ ['\n']) []
        else splitLinesFrom breaks (cs ++ ['\n']) (c :: line) := by
    intro c cs line hcr hlast
    apply splitLinesFrom_cons
    intro rest he hcs
    cases cs with
    | nil => exact hlast rfl he
    | cons d ds => exact hcr ds he (by rw [(List.cons.inj hcs).1])
  suffices h : ∀ line, ((splitLinesFrom breaks (cs ++ ['\n']) line).map String.ofList).filterMap g =
      ((splitLinesFrom breaks cs line).map String.ofList).filterMap g from h []
  intro line
  fun_induction splitLinesFrom breaks cs line with
  | case1 => simp [splitLinesFrom, hn, hempty]
  | case2 line hne => simp [splitLinesFrom, hn]
  | case3 cs line ih => simp [splitLinesFrom, List.filterMap_cons, ih]
  | case4 c cs line hcr hc ih =>
      by_cases hlast : cs = [] ∧ c = '\r'
      · obtain ⟨rfl, rfl⟩ := hlast
        simp [splitLinesFrom, List.filterMap_cons]
      · rw [List.cons_append, happend c cs line hcr fun hcs he => hlast ⟨hcs, he⟩, if_pos hc,
          List.map_cons, List.map_cons, List.filterMap_cons, List.filterMap_cons, ih]
  | case5 c cs line hcr hc ih =>
      have he : c ≠ '\r' := by
        rintro rfl
        exact hc (by simpa using hr)
      rw [List.cons_append, happend c cs line hcr fun _ => he, if_neg hc, ih]

/-- The pieces of a text are those of its lines. -/
theorem piecesAt_charsOf (hg : g "" = none) (hn : 10 ∈ breaks) (hr : 13 ∈ breaks)
    (lines : List String) : piecesAt g breaks (charsOf lines) =
      lines.flatMap fun line => piecesAt g breaks (line.toList ++ ['\n']) := by
  induction lines with
  | nil => rfl
  | cons line lines ih =>
      rw [List.flatMap_cons]
      cases lines with
      | nil =>
          rw [charsOf, List.map_singleton, List.intercalate_singleton, List.flatMap_nil,
            List.append_nil, piecesAt_newline hg hn hr]
      | cons next lines =>
          rw [← ih, charsOf_cons (List.cons_ne_nil _ _), piecesAt, splitLinesFrom_append hn,
            List.map_append, List.filterMap_append]
          rfl

end Pieces

theorem envEntry_empty : envEntry "" = none := by decide

/-- The entries of a text are those of its lines. -/
theorem entriesAt_charsOf {breaks : List ℕ} (hn : 10 ∈ breaks) (hr : 13 ∈ breaks) (lines : List String) :
    entriesAt breaks (charsOf lines) = lines.flatMap (lineEntries breaks) :=
  piecesAt_charsOf envEntry_empty hn hr lines

theorem entriesAt_text {breaks : List ℕ} (hn : 10 ∈ breaks) (hr : 13 ∈ breaks) (text : String) :
    entriesAt breaks text.toList = (textLines text).flatMap (lineEntries breaks) := by
  rw [← entriesAt_charsOf hn hr, charsOf_textLines, entriesAt, piecesAt, entriesAt, piecesAt,
    splitLinesFrom_universal hn hr]

/-- A line without line breaks has one entry at most. -/
theorem lineEntries_unbroken {breaks : List ℕ} (hn : 10 ∈ breaks) (hr : 13 ∈ breaks) {line : String}
    (h : ∀ c ∈ line.toList, c.toNat ∉ breaks) : lineEntries breaks line = (envEntry line).toList := by
  have hfree : ∀ c ∈ line.toList, c ≠ '\r' ∧ c.toNat ∉ breaks := by
    intro c hc
    refine ⟨?_, h c hc⟩
    rintro rfl
    exact h _ hc hr
  have hend : splitLinesFrom breaks ['\n'] line.toList.reverse = [line.toList] := by
    simp [splitLinesFrom, hn]
  rw [lineEntries, entriesAt, piecesAt, splitLinesFrom_prefix hfree, List.append_nil, hend, List.map_singleton,
    String.ofList_toList]
  cases hentry : envEntry line <;> simp [hentry]

/-! ## The edit by lines -/

/-- The lines with their newlines. -/
def ended : List String → List String
  | [] => []
  | [line] => if line = "" then [] else [line]
  | line :: lines => (line ++ "\n") :: ended lines

/-- The line that is written: the first one of the key, or an appended one, which a
last line without a newline precedes. -/
def written (key value line : String) : String :=
  if sets key line then assignment key value else line ++ assignment key value

/-- The edit of `_upsert_kv` on the lines of the text. -/
def editLines (key value : String) : List String → List String
  | [] => []
  | [line] => [written key value line, ""]
  | line :: lines =>
      if sets key line then assignment key value :: lines else line :: editLines key value lines

theorem ended_cons {line : String} {lines : List String} (h : lines ≠ []) :
    ended (line :: lines) = (line ++ "\n") :: ended lines := by
  rw [ended]
  exact fun he => absurd he h

theorem keepEnds_append {cs : List Char} (h : '\n' ∉ cs) (rest line : List Char) :
    keepEnds (cs ++ rest) line = keepEnds rest (cs.reverse ++ line) := by
  induction cs generalizing line with
  | nil => rfl
  | cons c cs ih =>
      have hc : c ≠ '\n' := fun he => h (he ▸ List.mem_cons_self)
      rw [List.cons_append, keepEnds, if_neg hc, ih fun hm => h (List.mem_cons_of_mem c hm)]
      simp

theorem keepEnds_charsOf {lines : List String} (h : ∀ line ∈ lines, '\n' ∉ line.toList) :
    (keepEnds (charsOf lines) []).map String.ofList = ended lines := by
  induction lines with
  | nil => rfl
  | cons line lines ih =>
      have hline := h line List.mem_cons_self
      cases lines with
      | nil =>
          rw [charsOf, List.map_singleton, List.intercalate_singleton,
            ← List.append_nil line.toList, keepEnds_append hline]
          by_cases hempty : line = ""
          · subst hempty
            rfl
          · simp [keepEnds, ended, hempty]
      | cons next lines =>
          rw [charsOf_cons (List.cons_ne_nil _ _), keepEnds_append hline, keepEnds, if_pos rfl,
            List.map_cons, ih fun l hl => h l (List.mem_cons_of_mem _ hl),
            ended_cons (List.cons_ne_nil _ _)]
          simp

theorem readLines_eq (text : String) : readLines text = ended (textLines text) := by
  rw [readLines, ← charsOf_textLines, keepEnds_charsOf fun _ => notMem_textLines]

theorem isPrefixOf_append_singleton {p cs : List Char} {x : Char} (h : p.getLast? ≠ some x) :
    p.isPrefixOf (cs ++ [x]) = p.isPrefixOf cs := by
  rw [Bool.eq_iff_iff, List.isPrefixOf_iff_prefix, List.isPrefixOf_iff_prefix,
    List.prefix_concat_iff]
  refine ⟨fun hp => hp.resolve_left ?_, .inr⟩
  rintro rfl
  exact h (by simp)

/-- The newline at the end of a line does not matter. -/
theorem sets_newline (key line : String) : sets key (line ++ "\n") = sets key line := by
  have hlast : (key ++ "=").toList.getLast? ≠ some '\n' := by
    rw [String.toList_append, show "=".toList = ['='] from rfl, List.getLast?_concat]
    decide
  rw [sets, sets, startsWith, startsWith, show (line ++ "\n").toList = line.toList ++ ['\n'] by simp]
  exact isPrefixOf_append_singleton hlast

theorem toList_join_ended (lines : List String) :
    (String.join (ended lines)).toList = charsOf lines := by
  induction lines with
  | nil => rfl
  | cons line lines ih =>
      cases lines with
      | nil => by_cases hempty : line = "" <;> simp [ended, hempty, charsOf]
      | cons next lines =>
          rw [ended_cons (List.cons_ne_nil _ _), String.join_cons, String.toList_append, ih,
            charsOf_cons (List.cons_ne_nil _ _)]
          simp

theorem editLines_ne_nil {key value : String} {lines : List String} (h : lines ≠ []) :
    editLines key value lines ≠ [] := by
  cases lines with
  | nil => exact absurd rfl h
  | cons line lines =>
      cases lines with
      | nil => simp [editLines]
      | cons next lines =>
          rw [editLines]
          · split_ifs <;> simp
          · simp

/-- The text that is written has the edited lines. -/
theorem toList_setLine (key value : String) {lines : List String} (h : lines ≠ []) :
    (String.join (setLine key value (ended lines))).toList = charsOf (editLines key value lines) := by
  induction lines with
  | nil => exact absurd rfl h
  | cons line lines ih =>
      cases lines with
      | nil =>
          by_cases hempty : line = ""
          · subst hempty
            have hsets : sets key "" = false := by simp [sets, startsWith]
            simp [ended, setLine, editLines, written, hsets, charsOf]
          · cases hsets : sets key line <;>
              simp [ended, setLine, editLines, written, hempty, hsets, charsOf]
      | cons next lines =>
          rw [ended_cons (List.cons_ne_nil _ _), setLine, sets_newline, editLines]
          · cases sets key line with
            | true =>
                rw [if_pos rfl, if_pos rfl, String.join_cons, String.toList_append,
                  toList_join_ended, charsOf_cons (List.cons_ne_nil _ _)]
                simp
            | false =>
                rw [if_neg Bool.false_ne_true, if_neg Bool.false_ne_true, String.join_cons,
                  String.toList_append, ih (List.cons_ne_nil _ _),
                  charsOf_cons (editLines_ne_nil (List.cons_ne_nil _ _))]
                simp
          · simp

theorem toList_upsertKv (key value text : String) :
    (upsertKv key value text).toList = charsOf (editLines key value (textLines text)) := by
  rw [upsertKv, readLines_eq, toList_setLine key value (textLines_ne_nil text)]

/-- Where the edit takes place: at the first line of the key, or at the last line. -/
structure Cut (key : String) (lines before : List String) (line : String) (behind : List String) :
    Prop where
  lines : lines = before ++ line :: behind
  before : ∀ other ∈ before, sets key other = false
  found : sets key line = true ∨ behind = []

theorem exists_cut (key : String) {lines : List String} (h : lines ≠ []) :
    ∃ before line behind, Cut key lines before line behind := by
  induction lines with
  | nil => exact absurd rfl h
  | cons line lines ih =>
      cases hsets : sets key line with
      | true => exact ⟨[], line, lines, rfl, by simp, .inl hsets⟩
      | false =>
          cases lines with
          | nil => exact ⟨[], line, [], rfl, by simp, .inr rfl⟩
          | cons next lines =>
              obtain ⟨before, edited, behind, hcut⟩ := ih (List.cons_ne_nil _ _)
              refine ⟨line :: before, edited, behind, by rw [hcut.lines]; rfl, ?_, hcut.found⟩
              intro other hother
              rcases List.mem_cons.mp hother with rfl | hother
              · exact hsets
              · exact hcut.before other hother

theorem editLines_cut {key : String} {lines before behind : List String} {line : String}
    (h : Cut key lines before line behind) (value : String) :
    editLines key value lines =
      before ++ written key value line :: if behind = [] then [""] else behind := by
  obtain ⟨rfl, hbefore, hfound⟩ := h
  induction before with
  | nil =>
      cases behind with
      | nil => rfl
      | cons next behind =>
          have hsets : sets key line = true := hfound.resolve_right (List.cons_ne_nil _ _)
          rw [List.nil_append, editLines, if_pos hsets]
          · simp [written, hsets]
          · simp
  | cons other before ih =>
      have hother := hbefore other List.mem_cons_self
      rw [List.cons_append, editLines, if_neg (by rw [hother]; exact Bool.false_ne_true),
        ih fun l hl => hbefore l (List.mem_cons_of_mem _ hl)]
      · rfl
      · simp

/-- What the readers find after the edit. -/
theorem entriesAt_upsertKv {breaks : List ℕ} (hn : 10 ∈ breaks) (hr : 13 ∈ breaks)
    {key text : String} {before behind : List String} {line : String}
    (h : Cut key (textLines text) before line behind) (value : String) :
    entriesAt breaks (upsertKv key value text).toList =
      before.flatMap (lineEntries breaks) ++ lineEntries breaks (written key value line) ++
        behind.flatMap (lineEntries breaks) := by
  have hempty : lineEntries breaks "" = [] := by
    simp [lineEntries, entriesAt, piecesAt, splitLinesFrom, hn,
      show envEntry (String.ofList []) = none from envEntry_empty]
  rw [toList_upsertKv, entriesAt_charsOf hn hr, editLines_cut h]
  by_cases hlast : behind = [] <;> simp [hlast, hempty]

/-! ## The entry of a line -/

theorem dropWhile_append_kept {p : Char → Bool} {c : Char} (hc : p c = false) (pre post : List Char) :
    (pre ++ c :: post).dropWhile p = pre.dropWhile p ++ c :: post := by
  rw [List.dropWhile_append]
  split_ifs with hall
  · rw [List.isEmpty_iff] at hall
    rw [hall, List.nil_append, List.dropWhile_cons_of_neg (by simp [hc])]
  · rfl

/-- A strip on both sides of a character that it does not drop. -/
theorem stripChars_kept {p : Char → Bool} {c : Char} (hc : p c = false) (pre post : List Char) :
    stripChars p (String.ofList (pre ++ c :: post)) =
      String.ofList (pre.dropWhile p ++ c :: post.rdropWhile p) := by
  rw [stripChars, String.toList_ofList, dropWhile_append_kept hc, List.reverse_append,
    List.reverse_cons, List.append_assoc, List.singleton_append, dropWhile_append_kept hc]
  simp [List.rdropWhile]

theorem stripChars_eq (p : Char → Bool) (cs : List Char) :
    stripChars p (String.ofList cs) = String.ofList ((cs.dropWhile p).rdropWhile p) := by
  rw [stripChars, String.toList_ofList]
  rfl

theorem stripChars_dropWhile (p : Char → Bool) (cs : List Char) :
    stripChars p (String.ofList (cs.dropWhile p)) = stripChars p (String.ofList cs) := by
  rw [stripChars_eq, stripChars_eq, List.dropWhile_idempotent]

theorem stripChars_rdropWhile (p : Char → Bool) (cs : List Char) :
    stripChars p (String.ofList (cs.rdropWhile p)) = stripChars p (String.ofList cs) := by
  by_cases hkept : ∃ c ∈ cs, p c = false
  · obtain ⟨c, hc, hp⟩ := hkept
    obtain ⟨pre, post, rfl⟩ := List.append_of_mem hc
    have hback : (pre ++ c :: post).rdropWhile p = pre ++ c :: post.rdropWhile p := by
      rw [List.rdropWhile, List.reverse_append, List.reverse_cons, List.append_assoc,
        List.singleton_append, dropWhile_append_kept hp]
      simp [List.rdropWhile]
    rw [hback, stripChars_kept hp, stripChars_kept hp, List.rdropWhile_idempotent]
  · have hall : ∀ c ∈ cs, p c = true := by simpa using hkept
    have hnil : cs.rdropWhile p = [] := List.rdropWhile_eq_nil_iff.mpr hall
    have hnil' : cs.dropWhile p = [] := List.dropWhile_eq_nil_iff.mpr hall
    rw [hnil, stripChars_eq, stripChars_eq, hnil']
    rfl

/-- A value without the blanks and the quotes around it. -/
def unwrapped (s : String) : String := stripOf '\'' (stripOf '"' (strip s))

/-- The entry of a line that is cut at its first equals sign. -/
theorem envEntry_cut {pre : List Char} (h : '=' ∉ pre) (post : List Char) :
    envEntry (String.ofList (pre ++ '=' :: post)) =
      if startsWith (strip (String.ofList pre)) "#" then none
      else some (strip (String.ofList pre), unwrapped (String.ofList post)) := by
  have hstrip : strip (String.ofList (pre ++ '=' :: post)) =
      String.ofList (pre.dropWhile isSpace ++ '=' :: post.rdropWhile isSpace) :=
    stripChars_kept (by decide) pre post
  have hfree : '=' ∉ pre.dropWhile isSpace := fun hm => h ((List.dropWhile_suffix _).mem hm)
  have hhash : startsWith (strip (String.ofList (pre ++ '=' :: post))) "#" =
      startsWith (strip (String.ofList pre)) "#" := by
    rw [hstrip, startsWith, startsWith, String.toList_ofList, strip, stripChars_eq,
      String.toList_ofList]
    generalize hcs : pre.dropWhile isSpace = cs
    cases cs with
    | nil => rfl
    | cons c cs =>
        have hc : isSpace c = false := by
          have hhead := List.head?_dropWhile_not isSpace pre
          rw [hcs] at hhead
          simpa using hhead
        have hback : (c :: cs).rdropWhile isSpace = c :: cs.rdropWhile isSpace := by
          rw [List.rdropWhile, List.reverse_cons, dropWhile_append_kept hc]
          simp [List.rdropWhile]
        rw [hback, String.toList_ofList]
        rfl
  have hne : strip (String.ofList (pre ++ '=' :: post)) ≠ "" := by
    rw [hstrip]
    intro hnil
    have hlist := congrArg String.toList hnil
    simp at hlist
  have hpart : partition '=' (strip (String.ofList (pre ++ '=' :: post))) =
      some (String.ofList (pre.dropWhile isSpace), String.ofList (post.rdropWhile isSpace)) := by
    have htake : ∀ c ∈ pre.dropWhile isSpace, decide (c ≠ '=') = true := fun c hc =>
      decide_eq_true fun he => hfree (he ▸ hc)
    rw [hstrip, partition, String.toList_ofList, if_pos (by simp), EnvFile.takeWhile_key hfree,
      List.dropWhile_append_of_pos htake]
    simp
  rw [envEntry]
  simp only [hne, hhash, hpart, false_or, Option.map_some]
  split_ifs with hcomment
  · rfl
  · rw [strip, stripChars_dropWhile, strip, stripChars_rdropWhile]
    rfl

/-- A line has an entry only if it holds an equals sign. -/
theorem exists_cut_of_envEntry {line : String} {e : String × String} (h : envEntry line = some e) :
    ∃ pre post, '=' ∉ pre ∧ line = String.ofList (pre ++ '=' :: post) ∧
      startsWith (strip (String.ofList pre)) "#" = false ∧
      e = (strip (String.ofList pre), unwrapped (String.ofList post)) := by
  have hmem : '=' ∈ line.toList := by
    by_contra hmem
    rw [envEntry_none hmem] at h
    cases h
  obtain ⟨pre, post, hline, hpre⟩ := List.eq_append_cons_of_mem hmem
  have hof : line = String.ofList (pre ++ '=' :: post) := by
    rw [← hline, String.ofList_toList]
  rw [hof, envEntry_cut hpre] at h
  split_ifs at h with hcomment
  exact ⟨pre, post, hpre, hof, by simpa using hcomment, (Option.some.inj h).symm⟩

theorem countP_dropWhile {p q : Char → Bool} (h : ∀ c, q c = true → p c = false) (cs : List Char) :
    (cs.dropWhile p).countP q = cs.countP q := by
  conv_rhs => rw [← List.takeWhile_append_dropWhile (p := p) (l := cs)]
  have hnone : (cs.takeWhile p).countP q = 0 := by
    rw [List.countP_eq_zero]
    intro c hc hq
    have hp := List.mem_takeWhile_imp hc
    rw [h c hq] at hp
    cases hp
  rw [List.countP_append, hnone, Nat.zero_add]

/-- A strip keeps the characters that it does not drop. -/
theorem countP_stripChars {p q : Char → Bool} (h : ∀ c, q c = true → p c = false) (s : String) :
    (stripChars p s).toList.countP q = s.toList.countP q := by
  rw [stripChars, String.toList_ofList, List.countP_reverse, countP_dropWhile h,
    List.countP_reverse, countP_dropWhile h]

/-- The equals signs of a value are all those behind the first one of its line. -/
theorem count_value {pre post : List Char} (h : '=' ∉ pre) :
    (unwrapped (String.ofList post)).toList.count '=' + 1 = (pre ++ '=' :: post).count '=' := by
  have hq : ∀ p : Char → Bool, p '=' = false → ∀ c, (c == '=') = true → p c = false := by
    intro p hp c hc
    rw [beq_iff_eq.mp hc, hp]
  rw [List.count_eq_countP, List.count_eq_countP, unwrapped, stripOf, stripOf, strip,
    countP_stripChars (hq _ (by decide)), countP_stripChars (hq _ (by decide)),
    countP_stripChars (hq _ (by decide)), String.toList_ofList]
  have hzero : pre.countP (fun c => c == '=') = 0 := List.count_eq_zero.mpr h
  rw [List.countP_append, hzero, List.countP_cons_of_pos (by decide), Nat.zero_add]

end MilvusOnprem.EnvText
