import MilvusOnprem.EnvFormat

/-!
# The readers of cluster.env and the shell

The daemon has several parsers of `cluster.env`. One builds a dictionary, in which
the last line of a key counts, others stop at the first one, and the one for the
version anchor takes the first raw line and leaves the quotes in. The shell takes
the last line. All of them split the file at more characters than the shell does.
-/
namespace MilvusOnprem.ReadersAgree

open PythonText ClusterEnv EnvLines EnvText EnvUpsert EnvFormat ShellSource Assignments
open SharedSettings (lineBreaks Unbroken)

/-- `get_admin_pulsar_host` -/
def getAdminPulsarHost (text : String) : String := readClusterEnvValue (some text) "PULSAR_HOST" "node-1"

def tagKey : String := "MILVUS_IMAGE_TAG"

/-- What `_register_cluster_version` makes of a line. -/
def tagEntry (line : String) : Option (String × String) :=
  if startsWith line (tagKey ++ "=") then some (tagKey, strip (removePrefix (tagKey ++ "=") line)) else none

/-- The tag that `_register_cluster_version` puts into etcd: that of the first line. -/
def registeredTag (text : String) : Option String := ((fileLines text).filterMap tagEntry).head?.map Prod.snd

/-- All readers have the value that the shell has; the ones with a default have it for a
key that the shell does not set. -/
structure SameValues (text : String) (es : List (String × String)) : Prop where
  dict : ∀ key, dictValue text key = last key es
  env : ∀ key dflt, readClusterEnvValue (some text) key dflt = (last key es).getD dflt
  kv : ∀ key, readKv text key = (last key es).getD ""
  pulsarHost : getAdminPulsarHost text = (last "PULSAR_HOST" es).getD "node-1"
  tag : registeredTag text = last tagKey es

/-! ## When the readers agree with the shell -/

/-- What a text is up to its first line break. -/
def firstPiece (breaks : List ℕ) (s : String) : String :=
  String.ofList (s.toList.takeWhile fun c => c.toNat ∉ breaks)

/-- The entries of a line for a reader that iterates over the file. -/
def filePieces (line : Line) : List (String × String) := lineEntries fileBreaks line.render

def dictPieces (line : Line) : List (String × String) := lineEntries lineBreaks line.render

def tagPieces (line : Line) : List (String × String) :=
  piecesAt tagEntry fileBreaks (line.render.toList ++ ['\n'])

/-- A reader that keeps the first line of a key agrees on it: a key that no line sets is
found nowhere, and else the first line says what the last one says. `read` is what the
reader makes of a line of the key. -/
structure FirstAgrees (pieces : Line → List (String × String)) (read : Setting → String) (key : String)
    (lines : List Line) : Prop where
  unset : (∀ line ∈ lines, line.names key = false) → ∀ e ∈ lines.flatMap pieces, e.1 ≠ key
  set : ∀ before s behind, lines = before ++ .setting s :: behind → s.name = key →
    (∀ line ∈ before, line.names key = false) → ∀ text ∈ last key (shellEntries lines),
      (∀ v ∈ first key (before.flatMap pieces), v = text) ∧
        (first key (before.flatMap pieces) = none → read s = text)

/-- The dictionary agrees on a key: the last line is read as it is meant. -/
structure LastAgrees (key : String) (lines : List Line) : Prop where
  unset : key ≠ "" → (∀ line ∈ lines, line.names key = false) →
    ∀ e ∈ lines.flatMap dictPieces, e.1 ≠ key
  set : ∀ before s behind, lines = before ++ .setting s :: behind → s.name = key →
    (∀ line ∈ behind, line.names key = false) →
      (∀ v ∈ last key (behind.flatMap dictPieces), v = s.text) ∧
        (last key (behind.flatMap dictPieces) = none → Unbroken s.text ∧ unwrapped s.value = s.text)

/-- A value as a reader has it that iterates over the file. -/
def readFirst (s : Setting) : String := unwrapped (firstPiece fileBreaks s.value)

/-- A value as it gets into the anchor, with its quotes. -/
def readTag (s : Setting) : String := strip (firstPiece fileBreaks s.value)

structure Uniform (lines : List Line) : Prop where
  first : ∀ key, FirstAgrees filePieces readFirst key lines
  last : ∀ key, LastAgrees key lines
  tag : FirstAgrees tagPieces readTag tagKey lines

/-! ## Pieces of a line -/

section Pieces

variable {breaks : List ℕ}

theorem splitLinesFrom_first (hn : 10 ∈ breaks) (hr : 13 ∈ breaks) (cs line : List Char) :
    ∃ rest, splitLinesFrom breaks (cs ++ ['\n']) line =
      (line.reverse ++ cs.takeWhile fun c => c.toNat ∉ breaks) :: rest := by
  induction cs generalizing line with
  | nil => exact ⟨[], by simp [splitLinesFrom, hn]⟩
  | cons c cs ih =>
      by_cases hjoined : c = '\r' ∧ ∃ rest, cs ++ ['\n'] = '\n' :: rest
      · obtain ⟨rfl, rest, hrest⟩ := hjoined
        rw [List.cons_append, hrest, splitLinesFrom, List.takeWhile_cons_of_neg (by simpa using hr),
          List.append_nil]
        exact ⟨_, rfl⟩
      · have hplain : ∀ rest, c = '\r' → cs ++ ['\n'] ≠ '\n' :: rest :=
          fun rest hc hrest => hjoined ⟨hc, rest, hrest⟩
        rw [List.cons_append, splitLinesFrom_cons line hplain]
        by_cases hc : c.toNat ∈ breaks
        · rw [if_pos (by simpa using hc), List.takeWhile_cons_of_neg (by simpa using hc),
            List.append_nil]
          exact ⟨_, rfl⟩
        · obtain ⟨rest, hrest⟩ := ih (c :: line)
          rw [if_neg (by simpa using hc), hrest, List.takeWhile_cons_of_pos (by simpa using hc)]
          exact ⟨rest, by simp⟩

theorem piecesAt_first {g : String → Option (String × String)} (hn : 10 ∈ breaks) (hr : 13 ∈ breaks)
    {s : String} {e : String × String} (h : g (firstPiece breaks s) = some e) :
    ∃ rest, piecesAt g breaks (s.toList ++ ['\n']) = e :: rest := by
  obtain ⟨rest, hrest⟩ := splitLinesFrom_first hn hr s.toList []
  rw [piecesAt, hrest, List.reverse_nil, List.nil_append, List.map_cons, ← firstPiece,
    List.filterMap_cons, h]
  exact ⟨_, rfl⟩

/-- The first piece of a setting is one of its key. -/
theorem firstPiece_assignment {name : String} (hname : ∀ c ∈ name.toList, c.toNat ∉ breaks)
    (hsign : 61 ∉ breaks) (value : String) :
    firstPiece breaks (assignment name value) = assignment name (firstPiece breaks value) := by
  apply String.toList_injective
  have hkeep : ∀ c ∈ name.toList, decide (c.toNat ∉ breaks) = true := fun c hc =>
    decide_eq_true (hname c hc)
  rw [firstPiece, toList_assignment, String.toList_ofList, List.takeWhile_append_of_pos hkeep,
    List.takeWhile_cons_of_pos (by simpa using hsign), toList_assignment, firstPiece,
    String.toList_ofList]

theorem lineEntries_setting (hn : 10 ∈ breaks) (hr : 13 ∈ breaks) (hsign : 61 ∉ breaks) {s : Setting}
    (hname : ∀ c ∈ s.name.toList, c.toNat ∉ breaks) :
    ∃ rest, lineEntries breaks (Line.setting s).render =
      (s.name, unwrapped (firstPiece breaks s.value)) :: rest := by
  apply piecesAt_first hn hr
  rw [Line.render, firstPiece_assignment hname hsign, envEntry_assigned (findable_name s.isName)]

end Pieces

theorem filePieces_setting (s : Setting) :
    ∃ rest, filePieces (.setting s) = (s.name, readFirst s) :: rest :=
  lineEntries_setting (by decide) (by decide) (by decide)
    (unbroken_file (findable_name s.isName).unbroken)

theorem tagPieces_setting {s : Setting} (h : s.name = tagKey) :
    ∃ rest, tagPieces (.setting s) = (tagKey, readTag s) :: rest := by
  apply piecesAt_first (by decide) (by decide)
  have hline : (Line.setting s).render = assignment tagKey s.value := by
    rw [Line.render, h]
  rw [hline, firstPiece_assignment (by decide) (by decide), tagEntry, assignment, startsWith_append,
    if_pos rfl, removePrefix_append]
  rfl

/-- For the dictionary a value that holds a line break is another one. -/
theorem last_dictPieces_setting (s : Setting) : ∃ v, last s.name (dictPieces (.setting s)) = some v ∧
    (v = s.text ↔ Unbroken s.text ∧ unwrapped s.value = s.text) := by
  have hname := (findable_name s.isName).unbroken
  by_cases htext : Unbroken s.text
  · have hvalue : Unbroken s.value := by
      intro c hc
      rw [Setting.value, String.toList_ofList] at hc
      rcases write_chars hc with hc | rfl | rfl
      · exact htext c hc
      · decide
      · decide
    have hline : dictPieces (.setting s) = [(s.name, unwrapped s.value)] := by
      have hrender : Unbroken (assignment s.name s.value) :=
        SharedSettings.unbroken_assignment hname hvalue
      rw [dictPieces, Line.render, lineEntries_unbroken (by decide) (by decide) hrender,
        envEntry_assigned (findable_name s.isName)]
      rfl
    refine ⟨unwrapped s.value, ?_, ?_⟩
    · rw [hline, last_singleton, if_pos rfl]
    · rw [and_iff_right htext]
  · obtain ⟨rest, hline⟩ : ∃ rest, lineEntries lineBreaks (Line.setting s).render =
        (s.name, unwrapped (firstPiece lineBreaks s.value)) :: rest :=
      lineEntries_setting (by decide) (by decide) (by decide) hname
    cases hlast : last s.name (dictPieces (.setting s)) with
    | none =>
        have hmem : (s.name, unwrapped (firstPiece lineBreaks s.value)) ∈ dictPieces (.setting s) := by
          rw [dictPieces, hline]
          exact List.mem_cons_self
        exact absurd rfl (last_eq_none.mp hlast _ hmem)
    | some v =>
        have hv : Unbroken v := (findable_of_mem (findable_name s.isName).named (mem_of_last hlast)).2
        refine ⟨v, rfl, ?_⟩
        rw [and_iff_left_of_imp fun h => absurd h htext]
        exact ⟨fun h => h ▸ hv, fun h => absurd h htext⟩

/-! ## One key -/

section Key

variable {key : String} {lines : List Line}

theorem setting_mem_shellEntries {s : Setting} (h : Line.setting s ∈ lines) :
    (s.name, s.text) ∈ shellEntries lines := List.mem_filterMap.mpr ⟨.setting s, h, rfl⟩

theorem exists_first (h : ¬∀ line ∈ lines, line.names key = false) : ∃ before s behind,
    lines = before ++ .setting s :: behind ∧ s.name = key ∧ ∀ line ∈ before, line.names key = false := by
  induction lines with
  | nil => exact absurd (by simp) h
  | cons line lines ih =>
      cases hnames : line.names key with
      | true =>
          obtain ⟨s, rfl, hs⟩ := names_iff.mp hnames
          exact ⟨[], s, lines, rfl, hs, by simp⟩
      | false =>
          have hlater : ¬∀ line ∈ lines, line.names key = false := fun hall =>
            h (List.forall_mem_cons.mpr ⟨hnames, hall⟩)
          obtain ⟨before, s, behind, hlines, hs, hbefore⟩ := ih hlater
          exact ⟨line :: before, s, behind, by rw [hlines]; rfl, hs,
            List.forall_mem_cons.mpr ⟨hnames, hbefore⟩⟩

theorem exists_last (h : ¬∀ line ∈ lines, line.names key = false) : ∃ before s behind,
    lines = before ++ .setting s :: behind ∧ s.name = key ∧ ∀ line ∈ behind, line.names key = false := by
  have hreverse : ¬∀ line ∈ lines.reverse, line.names key = false := by
    simpa using h
  obtain ⟨before, s, behind, hlines, hs, hbefore⟩ := exists_first hreverse
  refine ⟨behind.reverse, s, before.reverse, ?_, hs, by simpa using hbefore⟩
  rw [← List.reverse_reverse lines, hlines]
  simp

theorem or_eq_some_iff {a b : Option String} {v : String} :
    a.or b = some v ↔ (∀ w ∈ a, w = v) ∧ (a = none → b = some v) := by
  cases a <;> simp

/-- A reader of the first line of a key, for any reader. -/
theorem first_iff {pieces : Line → List (String × String)} {read : Setting → String}
    (hpieces : ∀ s : Setting, s.name = key → ∃ rest, pieces (.setting s) = (key, read s) :: rest) :
    first key (lines.flatMap pieces) = last key (shellEntries lines) ↔
      FirstAgrees pieces read key lines := by
  have hsplit : ∀ before s behind, lines = before ++ .setting s :: behind → s.name = key →
      first key (lines.flatMap pieces) = (first key (before.flatMap pieces)).or (some (read s)) := by
    intro before s behind hlines hs
    obtain ⟨rest, hrest⟩ := hpieces s hs
    rw [hlines, List.flatMap_append, List.flatMap_cons, hrest, first_append, List.cons_append,
      first_cons, if_pos rfl]
  by_cases hnone : ∀ line ∈ lines, line.names key = false
  · have hlast : last key (shellEntries lines) = none := last_eq_none.mpr (shellEntries_key hnone)
    rw [hlast, first_eq_none]
    constructor
    · intro h
      refine ⟨fun _ => h, fun _ _ _ _ _ _ text htext => ?_⟩
      rw [hlast] at htext
      cases htext
    · exact fun h => h.unset hnone
  · constructor
    · intro h
      refine ⟨fun hall => absurd hall hnone, fun before s behind hlines hs _ text htext => ?_⟩
      rw [hsplit before s behind hlines hs, Option.mem_def.mp htext, or_eq_some_iff] at h
      exact ⟨h.1, fun hbefore => Option.some.inj (h.2 hbefore)⟩
    · intro h
      obtain ⟨before, s, behind, hlines, hs, hbefore⟩ := exists_first hnone
      cases hlast : last key (shellEntries lines) with
      | none =>
          have hmem : Line.setting s ∈ lines := hlines ▸ List.mem_append_right _ List.mem_cons_self
          exact absurd hs (last_eq_none.mp hlast _ (setting_mem_shellEntries hmem))
      | some text =>
          obtain ⟨hearlier, hread⟩ := h.set before s behind hlines hs hbefore text hlast
          rw [hsplit before s behind hlines hs, or_eq_some_iff]
          exact ⟨hearlier, fun hnone => congrArg some (hread hnone)⟩

theorem last_iff : dictValue (fileOf lines) key = last key (shellEntries lines) ↔ LastAgrees key lines := by
  have hdict : dictValue (fileOf lines) key =
      if key = "" then none else last key (lines.flatMap dictPieces) := by
    rw [dictValue_eq_last, fileOf, String.toList_ofList, entriesAt_charsOf (by decide) (by decide),
      List.flatMap_map]
    rfl
  by_cases hname : key = ""
  · subst hname
    have hempty : ∀ s : Setting, s.name ≠ "" := fun s => (findable_name s.isName).named
    have hnone : last "" (shellEntries lines) = none := by
      rw [last_eq_none]
      intro e he
      obtain ⟨line, -, hline⟩ := List.mem_filterMap.mp he
      cases line with
      | setting s =>
          cases Option.some.inj hline
          exact hempty s
      | _ => cases hline
    rw [hdict, if_pos rfl, hnone]
    exact ⟨fun _ => ⟨fun h => absurd rfl h, fun _ s _ _ hs => absurd hs (hempty s)⟩, fun _ => rfl⟩
  rw [hdict, if_neg hname]
  have hsplit : ∀ before s behind, lines = before ++ .setting s :: behind → s.name = key →
      (∀ line ∈ behind, line.names key = false) →
      (last key (lines.flatMap dictPieces) = last key (shellEntries lines) ↔
        (∀ v ∈ last key (behind.flatMap dictPieces), v = s.text) ∧
          (last key (behind.flatMap dictPieces) = none →
            Unbroken s.text ∧ unwrapped s.value = s.text)) := by
    intro before s behind hlines hs hbehind
    obtain ⟨v, hv, hiff⟩ := last_dictPieces_setting s
    rw [hs] at hv
    have hshell : last key (shellEntries lines) = some s.text := by
      have hlater : last key (shellEntries behind) = none :=
        last_eq_none.mpr (shellEntries_key hbehind)
      have hcons : shellEntries (.setting s :: behind) = (s.name, s.text) :: shellEntries behind := rfl
      rw [hlines, shellEntries_append, hcons, last_append, last_cons, hlater, if_pos hs,
        Option.none_or, Option.some_or]
    rw [hshell, hlines, List.flatMap_append, List.flatMap_cons, last_append, last_append, hv,
      Option.or_assoc, Option.some_or, or_eq_some_iff, Option.some.injEq, hiff]
  by_cases hnone : ∀ line ∈ lines, line.names key = false
  · rw [last_eq_none.mpr (shellEntries_key hnone), last_eq_none]
    constructor
    · intro h
      refine ⟨fun _ _ => h, fun before s behind hlines hs => ?_⟩
      have hmem : Line.setting s ∈ lines := hlines ▸ List.mem_append_right _ List.mem_cons_self
      have hset : Line.names key (.setting s) = true := names_iff.mpr ⟨s, rfl, hs⟩
      exact absurd (hset.symm.trans (hnone _ hmem)) (by decide)
    · exact fun h => h.unset hname hnone
  · constructor
    · exact fun h => ⟨fun _ hall => absurd hall hnone,
        fun before s behind hlines hs hbehind => (hsplit before s behind hlines hs hbehind).mp h⟩
    · intro h
      obtain ⟨before, s, behind, hlines, hs, hbehind⟩ := exists_last hnone
      exact (hsplit before s behind hlines hs hbehind).mpr (h.set before s behind hlines hs hbehind)

end Key

/-- The shell and all readers of the daemon have the same values if and only if the
first line and the last line of every key are read as the last one is meant, also with
the quotes for the tag, and no other line break hides a line. -/
theorem readers_agree_iff (lines : List Line) :
    (∃ es, source (fileOf lines) = some es ∧ SameValues (fileOf lines) es) ↔ Uniform lines := by
  have hfile : ∀ key dflt, readClusterEnvValue (some (fileOf lines)) key dflt =
      (first key (lines.flatMap filePieces)).getD dflt := by
    intro key dflt
    rw [readClusterEnvValue_eq, fileOf, String.toList_ofList, entriesAt_charsOf (by decide) (by decide),
      List.flatMap_map]
    rfl
  have htag : registeredTag (fileOf lines) = first tagKey (lines.flatMap tagPieces) := by
    have hkeys : ∀ e ∈ piecesAt tagEntry fileBreaks (fileOf lines).toList, e.1 = tagKey := by
      intro e he
      obtain ⟨piece, -, hentry⟩ := List.mem_filterMap.mp he
      rw [tagEntry] at hentry
      split_ifs at hentry
      rw [← Option.some.inj hentry]
    have hlines : piecesAt tagEntry fileBreaks (fileOf lines).toList = lines.flatMap tagPieces := by
      rw [fileOf, String.toList_ofList, piecesAt_charsOf (by decide) (by decide) (by decide),
        List.flatMap_map]
      rfl
    rw [← hlines, first_of_forall hkeys]
    rfl
  have hfirst : ∀ key, first key (lines.flatMap filePieces) = last key (shellEntries lines) ↔
      FirstAgrees filePieces readFirst key lines := fun key => first_iff fun s hs => hs ▸ filePieces_setting s
  have htagIff : first tagKey (lines.flatMap tagPieces) = last tagKey (shellEntries lines) ↔
      FirstAgrees tagPieces readTag tagKey lines := first_iff fun s hs => tagPieces_setting hs
  constructor
  · rintro ⟨es, hes, hdict, henv, -, -, hregistered⟩
    rw [source_fileOf] at hes
    cases Option.some.inj hes
    refine ⟨fun key => (hfirst key).mp (getD_eq_iff.mp fun dflt => ?_), fun key => last_iff.mp (hdict key),
      htagIff.mp (htag.symm.trans hregistered)⟩
    rw [← hfile, henv]
  · rintro ⟨hfirsts, hlasts, htags⟩
    have henv : ∀ key dflt, readClusterEnvValue (some (fileOf lines)) key dflt =
        (last key (shellEntries lines)).getD dflt := fun key dflt => by
      rw [hfile, (hfirst key).mpr (hfirsts key)]
    exact ⟨_, source_fileOf lines, fun key => last_iff.mpr (hlasts key), henv,
      fun key => henv key "", henv "PULSAR_HOST" "node-1", htag.trans (htagIff.mpr htags)⟩

/-- A line with a bare value. -/
def bareLine (name text : String) (hname : isName name.toList = true)
    (h : literalFrom true text.toList = true) (hline : '\n' ∉ text.toList)
    (hnull : '\x00' ∉ text.toList) : Line :=
  .setting ⟨name, .bare, text, hname, h, hline, hnull⟩

/-- Of two lines of a key the dictionary has the second and the other readers the first. -/
theorem repeated_key_read_twice : ¬∀ lines : List Line,
    ∃ es, source (fileOf lines) = some es ∧ SameValues (fileOf lines) es := by
  intro h
  obtain ⟨es, hes, hsame⟩ := h
    [bareLine "A" "1" (by decide) (by decide) (by decide) (by decide),
      bareLine "A" "2" (by decide) (by decide) (by decide) (by decide)]
  rw [source_fileOf] at hes
  cases Option.some.inj hes
  have hread := hsame.kv "A"
  revert hread
  decide +kernel

end MilvusOnprem.ReadersAgree
