import MilvusOnprem.SyncedRole
import MilvusOnprem.ShellUpsert

/-!
# cluster.env as a store

The daemon, the shell and the upgrade each edit `cluster.env` in their own way, and it is
read by sourcing it and by three readers of the daemon. A file that is finished, in which
every key stands once and every value is read alike by all of them, stays so under every
edit, and behind the lines it is a map from keys to values. The file that `init` writes is
one of these.
-/
namespace MilvusOnprem.EnvStore

open PythonText ClusterEnv EnvText EnvUpsert EnvFormat ShellSource ShellUpsert Assignments
open SharedSettings (lineBreaks Unbroken)
open SyncedRole (noLine)
open IssuedEnv (isPlain plain_toNat literalFrom_plain unbroken_plain)

/-! ## Files and updates -/

/-- A finished file, without the empty line at its end. -/
structure EnvFile where
  lines : List Line
  unbroken : ∀ line ∈ lines, Unbroken line.render
  alike : ∀ line ∈ lines, readEntries [line] = shellEntries [line]
  once : ((shellEntries lines).map Prod.fst).Nodup

def EnvFile.text (f : EnvFile) : String := fileOf (f.lines ++ [noLine])

/-- The map behind the lines. -/
def EnvFile.lookup (f : EnvFile) (key : String) : Option String := last key (shellEntries f.lines)

/-- A value that can be written without quotes. -/
structure Word where
  value : String
  literal : Literal value
  stripped : strip value = value
  unbroken : Unbroken value

/-- A value for a key. -/
structure Update extends Word where
  key : Variable

/-- The text holds a map: sourcing it gives the map, and so does every reader. -/
structure Holds (text : String) (m : String → Option String) : Prop where
  sourced : ∃ es, source text = some es ∧ ∀ key, last key es = m key
  dict : ∀ key, dictValue text key = m key
  env : ∀ key dflt, readClusterEnvValue (some text) key dflt = (m key).getD dflt
  kv : ∀ key, readKv text key = (m key).getD ""

/-- The edits of the daemon, of the shell and of the upgrade. -/
inductive Edit
  | upsertKv (u : Update)
  | envUpsertKv (u : Update)
  | sed (u : Update)

/-- `sed -i 's|^{key}=.*|{key}={value}|'` -/
def sedFile (key : Variable) (value : String) (text : String) : Option String :=
  ((keepEnds text.toList []).mapM (sedLine key value)).map fun lines => String.ofList lines.flatten

def Edit.apply (text : String) : Edit → Option String
  | .upsertKv u => some (EnvText.upsertKv u.key.name u.value text)
  | .envUpsertKv u => ShellUpsert.envUpsertKv u.key u.value text
  | .sed u => sedFile u.key u.value text

/-- What an edit does to the map. The upgrade sets only a key that is there. -/
def Edit.effect (m : String → Option String) : Edit → String → Option String
  | .upsertKv u | .envUpsertKv u => Function.update m u.key.name (some u.value)
  | .sed u => if (m u.key.name).isSome then Function.update m u.key.name (some u.value) else m

/-! ## Reading a file -/

theorem first_eq_last {es : List (String × String)} (h : (es.map Prod.fst).Nodup) (key : String) :
    first key es = last key es := by
  cases hlast : last key es with
  | none => exact first_eq_none.mpr (last_eq_none.mp hlast)
  | some v => exact first_of_mem h (mem_of_last hlast)

theorem shellEntries_cons (line : Line) (lines : List Line) :
    shellEntries (line :: lines) = shellEntries [line] ++ shellEntries lines := shellEntries_append [line] lines

theorem readEntries_eq {lines : List Line} (h : ∀ line ∈ lines, readEntries [line] = shellEntries [line]) :
    readEntries lines = shellEntries lines := by
  induction lines with
  | nil => simp [readEntries, shellEntries]
  | cons line lines ih =>
      calc readEntries (line :: lines) = readEntries [line] ++ readEntries lines := readEntries_append [line] lines
        _ = shellEntries [line] ++ shellEntries lines :=
          congrArg₂ (· ++ ·) (h line List.mem_cons_self) (ih fun l hl => h l (List.mem_cons_of_mem _ hl))
        _ = shellEntries (line :: lines) := (shellEntries_cons line lines).symm

theorem shell_noLine : shellEntries [noLine] = [] := rfl

theorem read_noLine : readEntries [noLine] = [] := rfl

theorem name_of_mem {lines : List Line} {e : String × String} (h : e ∈ shellEntries lines) : e.1 ≠ "" := by
  obtain ⟨line, hline, he⟩ := List.mem_filterMap.mp h
  cases line with
  | setting s =>
      cases Option.some.inj he
      intro hname
      have hisName := s.isName
      rw [show s.name = "" from hname] at hisName
      cases hisName
  | _ => cases he

theorem unbroken_text (f : EnvFile) : ∀ line ∈ f.lines ++ [noLine], Unbroken line.render := by
  intro line hline
  rcases List.mem_append.mp hline with h | h
  · exact f.unbroken line h
  · rw [List.mem_singleton.mp h]
    intro c hc
    cases hc

theorem textLines_text (f : EnvFile) : textLines f.text = f.lines.map Line.render ++ [""] := by
  rw [EnvFile.text, textLines_fileOf (by simp) (unbroken_text f), List.map_append]
  rfl

theorem entriesAt_text (f : EnvFile) {breaks : List ℕ} (hn : 10 ∈ breaks) (hr : 13 ∈ breaks)
    (hbreaks : ∀ b ∈ breaks, b ∈ lineBreaks) : entriesAt breaks f.text.toList = shellEntries f.lines := by
  have hlines : (f.lines ++ [noLine]).map Line.render = f.lines.map Line.render ++ [""] := by
    rw [List.map_append]
    rfl
  rw [EnvText.entriesAt_text hn hr, textLines_text, ← hlines,
    flatMap_entries hn hr fun line hline c hc hmem => unbroken_text f line hline c hc (hbreaks _ hmem),
    readEntries_append, readEntries_eq f.alike, read_noLine, List.append_nil]

/-- Every reader finds the map of a file. -/
theorem EnvFile.holds (f : EnvFile) : Holds f.text f.lookup := by
  have hfirst : ∀ key dflt, readClusterEnvValue (some f.text) key dflt = (f.lookup key).getD dflt := by
    intro key dflt
    rw [readClusterEnvValue_eq, entriesAt_text f (by decide) (by decide) (by decide), first_eq_last f.once]
    rfl
  refine ⟨⟨_, source_fileOf _, fun key => ?_⟩, fun key => ?_, hfirst, fun key => hfirst key ""⟩
  · rw [shellEntries_append, shell_noLine, List.append_nil]
    rfl
  · rw [dictValue_eq_last, entriesAt_text f (by decide) (by decide) fun b hb => hb]
    split_ifs with hkey
    · subst hkey
      exact (last_eq_none.mpr fun e he => name_of_mem he).symm
    · rfl

/-! ## Files after an update -/

/-- Quotes and what `sed` gives a meaning to are not in the value. -/
theorem Word.char_ne (w : Word) {c : Char} (hc : c ∈ w.value.toList) :
    c ≠ '"' ∧ c ≠ '\'' ∧ c ≠ '\\' ∧ c ≠ '&' ∧ c ≠ '|' ∧ c ≠ '\n' := by
  have hscan : ∀ (tilde : Bool) (cs : List Char), literalFrom tilde cs = true → ∀ c ∈ cs,
      c ≠ '"' ∧ c ≠ '\'' ∧ c ≠ '\\' ∧ isMeta c = false := by
    intro tilde cs
    induction cs generalizing tilde with
    | nil => exact fun _ c hc => absurd hc List.not_mem_nil
    | cons d cs ih =>
        intro h c hc
        simp only [literalFrom, Bool.and_eq_true, Bool.not_eq_true', Bool.or_eq_false_iff,
          decide_eq_false_iff_not] at h
        rcases List.mem_cons.mp hc with rfl | hc
        · exact ⟨h.1.1.1.1.1.1.2, h.1.1.1.1.1.1.1.2, h.1.1.1.1.1.2, h.1.1.1.1.2⟩
        · exact ih _ h.2 c hc
  obtain ⟨hdouble, hsingle, hback, hmeta⟩ := hscan true _ w.literal.scanned c hc
  refine ⟨hdouble, hsingle, hback, ?_, ?_, ?_⟩
  · rintro rfl
    exact absurd hmeta (by decide)
  · rintro rfl
    exact absurd hmeta (by decide)
  · rintro rfl
    exact w.literal.oneLine hc

theorem Word.unwrapped_value (w : Word) : unwrapped w.value = w.value :=
  unwrapped_admitted ⟨w.literal.oneLine, ⟨fun h => (w.char_ne h).1 rfl, fun h => (w.char_ne h).2.1 rfl⟩, w.stripped⟩

theorem literal_plain {text : String} (h : ∀ c ∈ text.toList, isPlain c = true) : Literal text := by
  have hcontrol : ∀ c : Char, c.toNat < 44 → c ∉ text.toList := by
    intro c hc hm
    exact absurd (plain_toNat (h c hm)).1 (Nat.not_le.mpr hc)
  exact ⟨literalFrom_plain h, hcontrol _ (by decide), hcontrol _ (by decide)⟩

theorem strip_plain {text : String} (h : ∀ c ∈ text.toList, isPlain c = true) : strip text = text := by
  refine stripChars_eq_self fun c hc => ?_
  have hnone : ∀ n ∈ spaces, ¬(44 ≤ n ∧ n ≤ 122) := by decide
  rw [isSpace, Bool.eq_false_iff, ne_eq, List.contains_iff_mem]
  exact fun hspace => hnone _ hspace (plain_toNat (h c hc))

/-- A plain text is a word. -/
def Word.ofPlain (text : String) (h : ∀ c ∈ text.toList, isPlain c = true) : Word :=
  ⟨text, literal_plain h, strip_plain h, unbroken_plain h⟩

theorem exists_word {text : String} (h : ∀ c ∈ text.toList, isPlain c = true) : ∃ w : Word, w.value = text :=
  ⟨.ofPlain text h, rfl⟩

namespace Update

/-- The line that an update writes. -/
def line (u : Update) : Line :=
  .setting ⟨u.key.name, .bare, u.value, u.key.isName, u.literal.scanned, u.literal.oneLine, u.literal.noNull⟩

def replace (u : Update) (line : Line) : Line := if line.names u.key.name then u.line else line

theorem render_line (u : Update) : u.line.render = assignment u.key.name u.value := by
  have hvalue : String.ofList (Style.bare.write u.value.toList) = u.value := String.ofList_toList
  rw [line, Line.render, Setting.value, hvalue]

theorem entries_line (u : Update) : shellEntries [u.line] = [(u.key.name, u.value)] := rfl

theorem findable (u : Update) : Findable u.key.name := findable_name u.key.isName

theorem unbroken_line (u : Update) : Unbroken u.line.render := by
  rw [render_line]
  exact SharedSettings.unbroken_assignment u.findable.unbroken u.unbroken

theorem alike_line (u : Update) : readEntries [u.line] = shellEntries [u.line] := by
  have hvalue : String.ofList (Style.bare.write u.value.toList) = u.value := String.ofList_toList
  have hread : readEntries [u.line] =
      [(u.key.name, unwrapped (String.ofList (Style.bare.write u.value.toList)))] := rfl
  rw [hread, hvalue, u.unwrapped_value, entries_line]

/-- A replaced line sets the same key. -/
theorem names_replace (u : Update) (line : Line) :
    (shellEntries [u.replace line]).map Prod.fst = (shellEntries [line]).map Prod.fst := by
  unfold replace
  split_ifs with hnames
  · obtain ⟨s, rfl, hs⟩ := names_iff.mp hnames
    have hown : (shellEntries [Line.setting s]).map Prod.fst = [s.name] := rfl
    rw [hown, hs]
    rfl
  · rfl

theorem last_replace (u : Update) (lines : List Line) (key : String) :
    last key (shellEntries (lines.map u.replace)) =
      if key = u.key.name then (if lines.any fun line => line.names u.key.name then some u.value else none)
      else last key (shellEntries lines) := by
  induction lines with
  | nil => simp [shellEntries]
  | cons line lines ih =>
      rw [List.map_cons, shellEntries_cons, shellEntries_cons line, last_append, last_append, ih, List.any_cons]
      unfold replace
      cases hnames : line.names u.key.name with
      | true =>
          obtain ⟨s, rfl, hs⟩ := names_iff.mp hnames
          have hown : shellEntries [Line.setting s] = [(s.name, s.text)] := rfl
          rw [if_pos rfl, entries_line, hown, last_singleton, last_singleton, hs]
          split_ifs <;> simp_all
      | false =>
          have hother : last u.key.name (shellEntries [line]) = none :=
            last_eq_none.mpr (shellEntries_key (by simpa using hnames))
          rw [if_neg Bool.false_ne_true, Bool.false_or]
          split_ifs with hkey hany
          · rfl
          · rw [hkey, hother]
            rfl
          · rfl

end Update

namespace EnvFile

variable (f : EnvFile) (u : Update)

/-- A key that no line sets is not in the map. -/
theorem any_names : (f.lines.any fun line => line.names u.key.name) = (f.lookup u.key.name).isSome := by
  cases hany : f.lines.any fun line => line.names u.key.name with
  | false =>
      have hnone : f.lookup u.key.name = none := by
        refine last_eq_none.mpr (shellEntries_key fun line hline => ?_)
        exact Bool.eq_false_iff.mpr fun h => Bool.eq_false_iff.mp hany (List.any_eq_true.mpr ⟨line, hline, h⟩)
      rw [hnone, Option.isSome_none]
  | true =>
      obtain ⟨line, hline, hnames⟩ := List.any_eq_true.mp hany
      obtain ⟨s, rfl, hs⟩ := names_iff.mp hnames
      have hmem : (u.key.name, s.text) ∈ shellEntries f.lines := List.mem_filterMap.mpr
        ⟨_, hline, congrArg (fun name => some (name, s.text)) hs⟩
      rw [lookup, last_of_mem f.once hmem, Option.isSome_some]

/-- The line of a key is replaced. -/
def replace : EnvFile where
  lines := f.lines.map u.replace
  unbroken := by
    intro line hline
    obtain ⟨old, hold, rfl⟩ := List.mem_map.mp hline
    unfold Update.replace
    split_ifs
    · exact u.unbroken_line
    · exact f.unbroken old hold
  alike := by
    intro line hline
    obtain ⟨old, hold, rfl⟩ := List.mem_map.mp hline
    unfold Update.replace
    split_ifs
    · exact u.alike_line
    · exact f.alike old hold
  once := by
    have hnames : ∀ lines : List Line,
        (shellEntries (lines.map u.replace)).map Prod.fst = (shellEntries lines).map Prod.fst := by
      intro lines
      induction lines with
      | nil => rfl
      | cons line lines ih =>
          rw [List.map_cons, shellEntries_cons, shellEntries_cons line, List.map_append, List.map_append,
            u.names_replace, ih]
    rw [hnames]
    exact f.once

/-- A blank line more. -/
def addBlank : EnvFile where
  lines := f.lines ++ [noLine]
  unbroken := unbroken_text f
  alike := by
    intro line hline
    rcases List.mem_append.mp hline with h | h
    · exact f.alike line h
    · rw [List.mem_singleton.mp h, read_noLine, shell_noLine]
  once := by
    rw [shellEntries_append, shell_noLine, List.append_nil]
    exact f.once

/-- A key that is not there gets a line at the end. -/
def append (h : f.lookup u.key.name = none) : EnvFile where
  lines := f.lines ++ [u.line]
  unbroken := by
    intro line hline
    rcases List.mem_append.mp hline with hline | hline
    · exact f.unbroken line hline
    · rw [List.mem_singleton.mp hline]
      exact u.unbroken_line
  alike := by
    intro line hline
    rcases List.mem_append.mp hline with hline | hline
    · exact f.alike line hline
    · rw [List.mem_singleton.mp hline]
      exact u.alike_line
  once := by
    rw [shellEntries_append, u.entries_line, List.map_append, List.nodup_append]
    refine ⟨f.once, by simp, ?_⟩
    intro a ha b hb
    obtain ⟨e, he, rfl⟩ := List.mem_map.mp ha
    rw [List.map_singleton, List.mem_singleton] at hb
    rw [hb]
    exact last_eq_none.mp h e he

theorem lookup_replace : (f.replace u).lookup =
    if (f.lookup u.key.name).isSome then Function.update f.lookup u.key.name (some u.value) else f.lookup := by
  funext key
  have hlast := u.last_replace f.lines key
  rw [any_names] at hlast
  refine hlast.trans ?_
  cases hsome : f.lookup u.key.name with
  | none =>
      by_cases hkey : key = u.key.name
      · rw [if_pos hkey, hkey, Option.isSome_none, if_neg Bool.false_ne_true, if_neg Bool.false_ne_true, hsome]
      · rw [if_neg hkey, Option.isSome_none, if_neg Bool.false_ne_true]
        rfl
  | some v =>
      by_cases hkey : key = u.key.name
      · rw [if_pos hkey, hkey, Option.isSome_some, if_pos rfl, if_pos rfl, Function.update_self]
      · rw [if_neg hkey, Option.isSome_some, if_pos rfl, Function.update_of_ne hkey]
        rfl

theorem lookup_addBlank : f.addBlank.lookup = f.lookup := by
  funext key
  rw [lookup, lookup, addBlank, shellEntries_append, shell_noLine, List.append_nil]

theorem lookup_append (h : f.lookup u.key.name = none) :
    (f.append u h).lookup = Function.update f.lookup u.key.name (some u.value) := by
  funext key
  rw [lookup, append, shellEntries_append, u.entries_line, last_append, last_singleton]
  by_cases hkey : key = u.key.name
  · rw [if_pos hkey.symm, hkey, Function.update_self]
    rfl
  · rw [if_neg (Ne.symm hkey), Function.update_of_ne hkey]
    rfl

end EnvFile

/-! ## The edits of a file -/

theorem charsOf_finished (lines : List String) :
    charsOf (lines ++ [""]) = (lines.map fun line => line.toList ++ ['\n']).flatten := by
  induction lines with
  | nil => rfl
  | cons line lines ih =>
      rw [List.cons_append, charsOf_cons (by simp), ih, List.map_cons, List.flatten_cons, List.append_assoc]
      rfl

/-- The text of a file, line by line. -/
theorem toList_text (f : EnvFile) :
    f.text.toList = (f.lines.map fun line => line.render.toList ++ ['\n']).flatten := by
  have hlines : (f.lines ++ [noLine]).map Line.render = f.lines.map Line.render ++ [""] := by
    rw [List.map_append]
    rfl
  rw [EnvFile.text, fileOf, String.toList_ofList, hlines, charsOf_finished, List.map_map]
  rfl

theorem keepEnds_text (f : EnvFile) :
    keepEnds f.text.toList [] = f.lines.map fun line => line.render.toList ++ ['\n'] := by
  have hkeep : ∀ lines : List Line, keepEnds (lines.map fun line => line.render.toList ++ ['\n']).flatten [] =
      lines.map fun line => line.render.toList ++ ['\n'] := by
    intro lines
    induction lines with
    | nil => rfl
    | cons line lines ih =>
        rw [List.map_cons, List.flatten_cons, List.append_assoc, keepEnds_append (newline_notMem_render line),
          List.append_nil, List.singleton_append, keepEnds, if_pos rfl, ih, List.reverse_cons, List.reverse_reverse]
  rw [toList_text, hkeep]

section Edits

variable (f : EnvFile) (u : Update)

theorem hits_render (line : Line) : hits u.key (line.render.toList ++ ['\n']) = line.names u.key.name := by
  have hlast : (u.key.name ++ "=").toList.getLast? ≠ some '\n' := by
    rw [String.toList_append, show "=".toList = ['='] from rfl, List.getLast?_concat]
    decide
  rw [hits, isPrefixOf_append_singleton hlast, ← sets_render u.key.isName]
  rfl

/-- A value that can be written without quotes stands for itself in a replacement. -/
theorem replacement_value (line : List Char) : replacement line u.value.toList = some u.value.toList := by
  have hplain : ∀ cs : List Char, (∀ c ∈ cs, c ≠ '\\' ∧ c ≠ '&' ∧ c ≠ '|' ∧ c ≠ '\n') → replacement line cs = some cs := by
    intro cs
    induction cs with
    | nil => exact fun _ => rfl
    | cons c cs ih =>
        intro h
        obtain ⟨hback, hamp, hbar, hline⟩ := h c List.mem_cons_self
        have hrest := ih fun d hd => h d (List.mem_cons_of_mem _ hd)
        unfold replacement
        split
        · next heq => cases heq
        · next heq => exact absurd (List.cons.inj heq).1 hback
        · next heq =>
            obtain ⟨rfl, rfl⟩ := List.cons.inj heq
            rw [if_neg (by simp [hback, hbar, hline]), hrest, if_neg hamp]
            rfl
  exact hplain _ fun c hc => ⟨(u.char_ne hc).2.2.1, (u.char_ne hc).2.2.2⟩

theorem sedLine_render (line : Line) : sedLine u.key u.value (line.render.toList ++ ['\n']) =
    some ((u.replace line).render.toList ++ ['\n']) := by
  unfold sedLine Update.replace
  rw [hits_render]
  split_ifs with hnames
  · have hdrop : (line.render.toList ++ ['\n']).dropWhile (fun c => decide (c ≠ '\n')) = ['\n'] := by
      rw [List.dropWhile_append_of_pos, List.dropWhile_cons_of_neg (by simp)]
      intro c hc
      rw [decide_eq_true_eq]
      rintro rfl
      exact newline_notMem_render line hc
    rw [replacement_value, hdrop, u.render_line, assignment, Option.map_some]
    simp
  · rfl

theorem sedLines_text : ((keepEnds f.text.toList []).mapM (sedLine u.key u.value)).map
    (fun lines => String.ofList lines.flatten) = some (f.replace u).text := by
  have hmap : ∀ lines : List Line,
      (lines.map fun line => line.render.toList ++ ['\n']).mapM (sedLine u.key u.value) =
        some ((lines.map u.replace).map fun line => line.render.toList ++ ['\n']) := by
    intro lines
    induction lines with
    | nil => rfl
    | cons line lines ih =>
        rw [List.map_cons, List.mapM_cons, sedLine_render, ih]
        rfl
  rw [keepEnds_text, hmap, Option.map_some, Option.some.injEq]
  apply String.toList_injective
  rw [String.toList_ofList, toList_text]
  rfl

theorem text_append (h : f.lookup u.key.name = none) :
    (f.append u h).text.toList = f.text.toList ++ (assignment u.key.name u.value).toList ++ ['\n'] := by
  rw [toList_text, toList_text, EnvFile.append, List.map_append, List.flatten_append, List.append_assoc, ← u.render_line]
  simp

/-- The daemon replaces the line of the key, or appends one. -/
theorem editLines_render {lines : List Line} (honce : ((shellEntries lines).map Prod.fst).Nodup) :
    editLines u.key.name u.value (lines.map Line.render ++ [""]) =
      (if lines.any fun line => line.names u.key.name then lines.map u.replace else lines ++ [u.line]).map Line.render ++
        [""] := by
  induction lines with
  | nil =>
      have hsets : sets u.key.name "" = false := by simp [sets, startsWith]
      rw [List.any_nil, if_neg Bool.false_ne_true, List.map_nil, List.nil_append, List.nil_append, List.map_singleton,
        u.render_line, editLines, written, hsets, if_neg Bool.false_ne_true, String.empty_append]
      rfl
  | cons line lines ih =>
      rw [shellEntries_cons, List.map_append, List.nodup_append] at honce
      obtain ⟨-, honce, hapart⟩ := honce
      have hstep : editLines u.key.name u.value ((line :: lines).map Line.render ++ [""]) =
          if line.names u.key.name then assignment u.key.name u.value :: (lines.map Line.render ++ [""])
          else line.render :: editLines u.key.name u.value (lines.map Line.render ++ [""]) := by
        rw [← sets_render u.key.isName, List.map_cons, List.cons_append, editLines]
        simp
      rw [hstep, List.any_cons, List.map_cons, Update.replace]
      cases hnames : line.names u.key.name with
      | true =>
          -- no other line is of this key, so the rest stays
          have hrest : lines.map u.replace = lines := by
            refine (List.map_congr_left fun other hother => ?_).trans (List.map_id lines)
            unfold Update.replace
            split_ifs with hagain
            · obtain ⟨s, rfl, hs⟩ := names_iff.mp hnames
              obtain ⟨s', rfl, hs'⟩ := names_iff.mp hagain
              have hmem : s'.name ∈ (shellEntries lines).map Prod.fst :=
                List.mem_map.mpr ⟨(s'.name, s'.text), List.mem_filterMap.mpr ⟨_, hother, rfl⟩, rfl⟩
              exact absurd (hs.trans hs'.symm) (hapart _ List.mem_cons_self _ hmem)
            · rfl
          rw [if_pos rfl, if_pos rfl, Bool.true_or, if_pos rfl, hrest, List.map_cons, u.render_line, List.cons_append]
      | false =>
          rw [if_neg Bool.false_ne_true, if_neg Bool.false_ne_true, Bool.false_or, ih honce]
          split_ifs <;> rfl

theorem charsOf_text (f : EnvFile) : f.text.toList = charsOf (f.lines.map Line.render ++ [""]) := by
  rw [toList_text, charsOf_finished, List.map_map]
  rfl

/-- The file after an edit that replaces the line of the key or appends one. -/
def EnvFile.set : EnvFile :=
  if h : f.lookup u.key.name = none then f.append u h else f.replace u

theorem EnvFile.lookup_set : (f.set u).lookup = Function.update f.lookup u.key.name (some u.value) := by
  unfold EnvFile.set
  split_ifs with h
  · exact f.lookup_append u h
  · rw [f.lookup_replace u, if_pos (Option.isSome_iff_ne_none.mpr h)]

theorem EnvFile.lines_set : (f.set u).lines =
    if f.lines.any fun line => line.names u.key.name then f.lines.map u.replace else f.lines ++ [u.line] := by
  unfold EnvFile.set
  rw [f.any_names u]
  split_ifs with h hsome hsome
  · rw [h] at hsome
    cases hsome
  · rfl
  · rfl
  · exact absurd (Option.isSome_iff_ne_none.mpr h) hsome

/-- The edit of the daemon. -/
theorem upsertKv_text : EnvText.upsertKv u.key.name u.value f.text = (f.set u).text := by
  apply String.toList_injective
  rw [toList_upsertKv, textLines_text, editLines_render u f.once, charsOf_text, f.lines_set u]

/-- The edit of the shell adds a blank line to a file that has lines. -/
theorem envUpsertKv_text : envUpsertKv u.key u.value f.text =
    some ((if f.lines = [] then f else f.addBlank).set u).text := by
  have hend : endLine f.text.toList = (if f.lines = [] then f else f.addBlank).text.toList := by
    split_ifs with hlines
    · rw [toList_text, hlines]
      rfl
    · have hne : f.text.toList ≠ [] := by
        rw [toList_text]
        cases hf : f.lines with
        | nil => exact absurd hf hlines
        | cons line lines => simp
      rw [endLine_eq hne, toList_text, toList_text, EnvFile.addBlank, List.map_append, List.flatten_append]
      rfl
  generalize (if f.lines = [] then f else f.addBlank) = g at hend
  have hany : (keepEnds g.text.toList []).any (hits u.key) = g.lines.any fun line => line.names u.key.name := by
    rw [keepEnds_text, List.any_map]
    exact congrArg g.lines.any (funext (hits_render u))
  simp only [envUpsertKv, EnvFile.set, hend, hany, g.any_names u]
  split_ifs with hsome hnone hnone
  · rw [hnone] at hsome
    cases hsome
  · exact sedLines_text g u
  · rw [← text_append g u hnone, String.ofList_toList]
  · exact absurd (Option.isSome_iff_ne_none.mpr hnone) hsome

end Edits

/-! ## The store -/

/-- An edit of a file gives a file, and what it does to the map is its effect. -/
theorem Edit.apply_text (f : EnvFile) (e : Edit) :
    ∃ f' : EnvFile, e.apply f.text = some f'.text ∧ f'.lookup = e.effect f.lookup := by
  cases e with
  | upsertKv u => exact ⟨f.set u, congrArg some (upsertKv_text f u), f.lookup_set u⟩
  | envUpsertKv u =>
      refine ⟨_, envUpsertKv_text f u, ?_⟩
      rw [EnvFile.lookup_set, Edit.effect]
      split_ifs
      · rfl
      · rw [f.lookup_addBlank]
  | sed u => exact ⟨f.replace u, sedLines_text f u, f.lookup_replace u⟩

/-- A run of edits gives a file. -/
theorem EnvFile.exists_run (f : EnvFile) (edits : List Edit) : ∃ f' : EnvFile,
    edits.foldlM Edit.apply f.text = some f'.text ∧ f'.lookup = edits.foldl Edit.effect f.lookup := by
  induction edits generalizing f with
  | nil => exact ⟨f, rfl, rfl⟩
  | cons e edits ih =>
      obtain ⟨f₁, happly, hlookup⟩ := e.apply_text f
      obtain ⟨f', hrun, hfold⟩ := ih f₁
      rw [List.foldlM_cons, happly, List.foldl_cons, ← hlookup]
      exact ⟨f', hrun, hfold⟩

/-- Any edits by the three writers, in any order: every one goes through, and sourcing and all
readers find in the end what the edits say. -/
theorem store_run (f : EnvFile) (edits : List Edit) :
    ∃ text, edits.foldlM Edit.apply f.text = some text ∧ Holds text (edits.foldl Edit.effect f.lookup) := by
  obtain ⟨f', hrun, hlookup⟩ := f.exists_run edits
  exact ⟨f'.text, hrun, hlookup ▸ f'.holds⟩

end MilvusOnprem.EnvStore
