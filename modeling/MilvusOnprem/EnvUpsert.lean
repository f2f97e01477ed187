import MilvusOnprem.EnvText

/-!
# Reading cluster.env after an edit

What the readers of the daemon find in a file that `_upsert_kv` has written. The
edit looks for a line that starts with the key, and appends to the text when there
is none; the readers trim the lines and the keys, and they differ in which line of
a key counts and in what ends a line.
-/
namespace MilvusOnprem.EnvUpsert

open PythonText ClusterEnv EnvLines EnvText Assignments
open SharedSettings (lineBreaks Unbroken)

/-- A value without newlines, quotes and blanks around it. -/
structure Admitted (value : String) : Prop where
  oneLine : '\n' ∉ value.toList
  unquoted : '"' ∉ value.toList ∧ '\'' ∉ value.toList
  stripped : strip value = value

/-- The readers have the value for the key, and for the other keys what they had. -/
structure Upserted (key value text : String) : Prop where
  dict : dictValue (upsertKv key value text) key = some value
  env : ∀ dflt, readClusterEnvValue (some (upsertKv key value text)) key dflt = value
  kv : readKv (upsertKv key value text) key = value
  otherDict : ∀ k ≠ key, dictValue (upsertKv key value text) k = dictValue text k
  otherEnv : ∀ k ≠ key, ∀ dflt, readClusterEnvValue (some (upsertKv key value text)) k dflt =
    readClusterEnvValue (some text) k dflt
  otherKv : ∀ k ≠ key, readKv (upsertKv key value text) k = readKv text k

/-! ## When the readers agree with the edit -/

/-- A key that a reader can find. -/
structure Findable (key : String) : Prop where
  named : key ≠ ""
  stripped : strip key = key
  bare : '=' ∉ key.toList
  uncommented : startsWith key "#" = false
  unbroken : Unbroken key

/-- What stands on a line behind its last line break. -/
def tailOf (line : String) : String :=
  String.ofList (line.toList.rtakeWhile fun c => c.toNat ∉ lineBreaks)

def headOf (line : String) : String :=
  String.ofList (line.toList.rdropWhile fun c => c.toNat ∉ lineBreaks)

/-- The entries of lines in a file that is iterated over. -/
def fileEntries (lines : List String) : List (String × String) := lines.flatMap (lineEntries fileBreaks)

/-- The entries of lines for `_read_cluster_env`. -/
def textEntries (lines : List String) : List (String × String) := lines.flatMap (lineEntries lineBreaks)

/-- The assignment replaces a line, or stands alone on a new one: no other line may
give the key another value, and what the replaced line says about other keys may
not be missed. -/
structure Alone (key value : String) (before : List String) (line : String) (behind : List String) :
    Prop where
  earlier : ∀ v ∈ first key (fileEntries before), v = value
  later : ∀ v ∈ last key (textEntries behind), v = value
  strays : ∀ k ≠ key, k ≠ "" → ∀ v ∈ last k (lineEntries lineBreaks line),
    last k (textEntries behind) ≠ none ∨ last k (textEntries before) = some v

/-- The assignment is appended to a last line that does not end: it is lost, so the
value and what the line now says must be there already. -/
structure Joined (key value : String) (before : List String) (line : String) : Prop where
  valued : first key (fileEntries before) = some value
  covered : ∀ e ∈ envEntry (line ++ assignment key value), first e.1 (fileEntries before) ≠ none
  tail : strip (tailOf line) = "" ∨
    last key (textEntries before ++ entriesAt lineBreaks (headOf line).toList) = some value ∧
      ∀ e ∈ envEntry (tailOf line ++ assignment key value), e.1 ≠ "" →
        last e.1 (textEntries (before ++ [line])) = some e.2

/-- The file takes the assignment. -/
structure Takes (key value text : String) : Prop where
  findable : Findable key
  unbroken : Unbroken value
  placed : ∃ before line behind, Cut key (textLines text) before line behind ∧
    (if sets key line = true ∨ strip line = "" then Alone key value before line behind
      else Joined key value before line)

/-! ## What the readers find -/

section Readers

variable {key value text : String} {before behind : List String} {line : String}

theorem getD_eq_iff {a b : Option String} : (∀ dflt, a.getD dflt = b.getD dflt) ↔ a = b := by
  refine ⟨fun h => ?_, fun h dflt => by rw [h]⟩
  have hx := h "x"
  have hy := h "y"
  cases a with
  | none =>
      cases b with
      | none => rfl
      | some v =>
          rw [Option.getD_none, Option.getD_some] at hx hy
          exact absurd (hx.trans hy.symm) (by decide)
  | some v =>
      cases b with
      | none =>
          rw [Option.getD_none, Option.getD_some] at hx hy
          exact absurd (hx.symm.trans hy) (by decide)
      | some w => exact congrArg some hx

/-- The readers in terms of the entries before the edited line, on it and behind it. -/
theorem upserted_iff_entries (hcut : Cut key (textLines text) before line behind) :
    Upserted key value text ↔ key ≠ "" ∧
      (last key (textEntries before ++ lineEntries lineBreaks (written key value line) ++
        textEntries behind) = some value ∧
      ∀ k ≠ key, k ≠ "" → last k (textEntries before ++
          lineEntries lineBreaks (written key value line) ++ textEntries behind) =
        last k (textEntries before ++ lineEntries lineBreaks line ++ textEntries behind)) ∧
      first key (fileEntries before ++ lineEntries fileBreaks (written key value line) ++
        fileEntries behind) = some value ∧
      ∀ k ≠ key, first k (fileEntries before ++
          lineEntries fileBreaks (written key value line) ++ fileEntries behind) =
        first k (fileEntries before ++ lineEntries fileBreaks line ++ fileEntries behind) := by
  have htext : ∀ k, dictValue text k = if k = "" then none else
      last k (textEntries before ++ lineEntries lineBreaks line ++ textEntries behind) := by
    intro k
    rw [dictValue_eq_last, entriesAt_text (by decide) (by decide), hcut.lines, List.flatMap_append,
      List.flatMap_cons, ← List.append_assoc]
    rfl
  have htext' : ∀ k, dictValue (upsertKv key value text) k = if k = "" then none else
      last k (textEntries before ++ lineEntries lineBreaks (written key value line) ++
        textEntries behind) := by
    intro k
    rw [dictValue_eq_last, entriesAt_upsertKv (by decide) (by decide) hcut]
    rfl
  have hfile : ∀ k dflt, readClusterEnvValue (some text) k dflt =
      (first k (fileEntries before ++ lineEntries fileBreaks line ++ fileEntries behind)).getD dflt := by
    intro k dflt
    rw [readClusterEnvValue_eq, entriesAt_text (by decide) (by decide), hcut.lines,
      List.flatMap_append, List.flatMap_cons, ← List.append_assoc]
    rfl
  have hfile' : ∀ k dflt, readClusterEnvValue (some (upsertKv key value text)) k dflt =
      (first k (fileEntries before ++ lineEntries fileBreaks (written key value line) ++
        fileEntries behind)).getD dflt := by
    intro k dflt
    rw [readClusterEnvValue_eq, entriesAt_upsertKv (by decide) (by decide) hcut]
    rfl
  have hvalue : ∀ a : Option String, (∀ dflt, a.getD dflt = value) ↔ a = some value := fun a =>
    getD_eq_iff (b := some value)
  constructor
  · rintro ⟨hdict, henv, -, hotherDict, hotherEnv, -⟩
    rw [htext'] at hdict
    have hname : key ≠ "" := by
      rintro rfl
      cases hdict
    rw [if_neg hname] at hdict
    refine ⟨hname, ⟨hdict, fun k hk hne => ?_⟩, ?_, fun k hk => ?_⟩
    · simpa only [htext, htext', if_neg hne] using hotherDict k hk
    · exact (hvalue _).mp fun dflt => (hfile' key dflt).symm.trans (henv dflt)
    · exact getD_eq_iff.mp fun dflt => by rw [← hfile, ← hfile', hotherEnv k hk]
  · rintro ⟨hname, ⟨hdict, hotherDict⟩, henv, hotherEnv⟩
    have hread : ∀ dflt, readClusterEnvValue (some (upsertKv key value text)) key dflt = value :=
      fun dflt => by rw [hfile', henv, Option.getD_some]
    have hother : ∀ k ≠ key, ∀ dflt, readClusterEnvValue (some (upsertKv key value text)) k dflt =
        readClusterEnvValue (some text) k dflt := fun k hk dflt => by rw [hfile, hfile', hotherEnv k hk]
    refine ⟨?_, hread, hread "", fun k hk => ?_, hother, fun k hk => hother k hk ""⟩
    · rw [htext', if_neg hname, hdict]
    · rw [htext, htext']
      split_ifs with hne
      · rfl
      · exact hotherDict k hk hne

/-- A value that the dictionary has comes from a piece of the text. -/
theorem findable_of_mem {cs : List Char} (hname : key ≠ "")
    (h : (key, value) ∈ entriesAt lineBreaks cs) : Findable key ∧ Unbroken value := by
  obtain ⟨piece, hpiece, hentry⟩ := List.mem_filterMap.mp h
  obtain ⟨r, hr, rfl⟩ := List.mem_map.mp hpiece
  have hunbroken : Unbroken (String.ofList r) := by
    intro c hc
    rw [String.toList_ofList] at hc
    rcases mem_splitLinesFrom hr hc with hnil | ⟨-, hbreak⟩
    · cases hnil
    · exact hbreak
  have hclean := SharedSettings.clean_envEntry hunbroken hname hentry
  obtain ⟨pre, post, -, -, hhash, he⟩ := exists_cut_of_envEntry hentry
  rw [Prod.mk.injEq] at he
  exact ⟨⟨hname, hclean.stripped, hclean.bare, by rw [he.1, hhash], hclean.unbroken.1⟩,
    hclean.unbroken.2⟩

/-! ## The written line -/

theorem unwrapped_admitted (h : Admitted value) : unwrapped value = value := by
  have hquote : ∀ q : Char, q ∉ value.toList → stripOf q value = value := by
    intro q hq
    apply stripChars_eq_self
    intro c hc
    rw [decide_eq_false_iff_not]
    exact fun he => hq (he ▸ hc)
  rw [unwrapped, h.stripped, hquote _ h.unquoted.1, hquote _ h.unquoted.2]

theorem unbroken_file {s : String} (h : Unbroken s) : ∀ c ∈ s.toList, c.toNat ∉ fileBreaks := by
  intro c hc hmem
  apply h c hc
  revert hmem
  generalize c.toNat = n
  simp only [fileBreaks, lineBreaks, List.mem_cons, List.not_mem_nil, or_false]
  omega

theorem toList_assignment (key value : String) :
    (assignment key value).toList = key.toList ++ '=' :: value.toList := by
  simp [assignment]

theorem isSpace_of_strip {s : String} (h : strip s = "") : ∀ c ∈ s.toList, isSpace c = true := by
  intro c hc
  by_contra hne
  rw [Bool.not_eq_true] at hne
  obtain ⟨pre, post, hs⟩ := List.append_of_mem hc
  have hkept := stripChars_kept hne pre post
  rw [← hs, String.ofList_toList, ← strip, h] at hkept
  have hlist := congrArg String.toList hkept
  simp at hlist

/-- An assignment behind blanks is one to its key. -/
theorem envEntry_blank {blank : String} (hkey : Findable key) (h : strip blank = "") :
    envEntry (blank ++ assignment key value) = some (key, unwrapped value) := by
  have hspace := isSpace_of_strip h
  have hfree : '=' ∉ blank.toList ++ key.toList := by
    intro hmem
    rcases List.mem_append.mp hmem with hmem | hmem
    · exact absurd (hspace _ hmem) (by decide)
    · exact hkey.bare hmem
  have hof : blank ++ assignment key value =
      String.ofList ((blank.toList ++ key.toList) ++ '=' :: value.toList) := by
    apply String.toList_injective
    rw [String.toList_append, toList_assignment, String.toList_ofList, List.append_assoc]
  have hstrip : strip (String.ofList (blank.toList ++ key.toList)) = key := by
    rw [strip, stripChars_eq, List.dropWhile_append_of_pos hspace, ← stripChars_eq,
      String.ofList_toList]
    exact hkey.stripped
  rw [hof, envEntry_cut hfree, hstrip, hkey.uncommented, if_neg Bool.false_ne_true,
    String.ofList_toList]

theorem envEntry_assigned (hkey : Findable key) :
    envEntry (assignment key value) = some (key, unwrapped value) := by
  have h : envEntry ("" ++ assignment key value) = some (key, unwrapped value) := envEntry_blank hkey rfl
  rwa [String.empty_append] at h

/-- A line that starts with the key is about no other key for a reader of the file. -/
theorem envEntry_sets (hkey : Findable key) {line : String} (h : sets key line = true) :
    ∀ e ∈ envEntry line, e.1 = key := by
  intro e he
  have hline : line = String.ofList (key.toList ++ '=' :: (removePrefix (key ++ "=") line).toList) := by
    apply String.toList_injective
    conv_lhs => rw [← append_removePrefix h]
    simp
  rw [hline, envEntry_cut hkey.bare, String.ofList_toList, hkey.stripped, hkey.uncommented,
    if_neg Bool.false_ne_true] at he
  rw [← Option.some.inj he]

/-- The pieces of a line that a text without line breaks is appended to. -/
theorem lineEntries_joined {line a : String} (hr : '\r' ∉ line.toList) (ha : Unbroken a) :
    lineEntries lineBreaks (line ++ a) =
      entriesAt lineBreaks (headOf line).toList ++ (envEntry (tailOf line ++ a)).toList := by
  have htail : Unbroken (tailOf line ++ a) := by
    apply SharedSettings.unbroken_append _ ha
    intro c hc
    rw [tailOf, String.toList_ofList] at hc
    simpa using List.mem_rtakeWhile_imp hc
  have hline : (line ++ a).toList ++ ['\n'] =
      (headOf line).toList ++ ((tailOf line ++ a).toList ++ ['\n']) := by
    have hcut : (headOf line).toList ++ (tailOf line).toList = line.toList := by
      rw [headOf, tailOf, String.toList_ofList, String.toList_ofList,
        List.rdropWhile_append_rtakeWhile]
    rw [String.toList_append, String.toList_append, ← hcut, List.append_assoc, List.append_assoc,
      List.append_assoc]
  have hjoin : entriesAt lineBreaks ((headOf line).toList ++ ((tailOf line ++ a).toList ++ ['\n'])) =
      entriesAt lineBreaks (headOf line).toList ++ lineEntries lineBreaks (tailOf line ++ a) := by
    rcases List.eq_nil_or_concat (headOf line).toList with hnil | ⟨pre, b, hpre⟩
    · rw [hnil, List.nil_append, show entriesAt lineBreaks [] = [] from rfl, List.nil_append,
        lineEntries]
    · rw [List.concat_eq_append] at hpre
      have hmem : ∀ c ∈ (headOf line).toList, c ∈ line.toList := by
        intro c hc
        rw [headOf, String.toList_ofList] at hc
        exact (List.rdropWhile_prefix _ _).mem hc
      have hb : b.toNat ∈ lineBreaks := by
        have hne : line.toList.rdropWhile (fun c => c.toNat ∉ lineBreaks) ≠ [] := by
          intro hnil
          rw [headOf, hnil] at hpre
          simp at hpre
        have hlast := List.rdropWhile_last_not _ _ hne
        have hlist : line.toList.rdropWhile (fun c => c.toNat ∉ lineBreaks) = pre ++ [b] := by
          rw [← hpre, headOf, String.toList_ofList]
        have hgot : ∀ (cs : List Char) (h : cs ≠ []), cs = pre ++ [b] → cs.getLast h = b := by
          rintro _ _ rfl
          exact List.getLast_concat
        rw [hgot _ hne hlist] at hlast
        simpa using hlast
      have hfree : '\r' ∉ pre ++ [b] := by
        intro hm
        exact hr (hmem _ (hpre ▸ hm))
      rw [hpre, List.append_assoc, List.singleton_append, entriesAt, piecesAt,
        splitLinesFrom_break hb hfree, List.map_append, List.filterMap_append, lineEntries,
        entriesAt, piecesAt, entriesAt, piecesAt]
  rw [lineEntries, hline, hjoin, lineEntries_unbroken (by decide) (by decide) htail]

theorem entriesAt_blank {breaks : List ℕ} {cs : List Char} (h : ∀ c ∈ cs, isSpace c = true) :
    entriesAt breaks cs = [] := by
  rw [entriesAt, piecesAt, List.filterMap_eq_nil_iff]
  intro piece hpiece
  obtain ⟨r, hr, rfl⟩ := List.mem_map.mp hpiece
  have hspace : ∀ c ∈ r, isSpace c = true := by
    intro c hc
    rcases mem_splitLinesFrom hr hc with hnil | ⟨hmem, -⟩
    · cases hnil
    · exact h c hmem
  have hstrip : strip (String.ofList r) = "" := by
    rw [strip, stripChars_eq, List.dropWhile_eq_nil_iff.mpr hspace]
    rfl
  rw [envEntry]
  simp [hstrip]

/-- The lines of a file hold no newline and no carriage return. -/
theorem unbroken_textLines {text line : String} (h : line ∈ textLines text) :
    ∀ c ∈ line.toList, c.toNat ∉ fileBreaks := by
  obtain ⟨cs, hcs, rfl⟩ := List.mem_map.mp h
  intro c hc hbreak
  rw [String.toList_ofList] at hc
  obtain ⟨hmem, hne⟩ := mem_splitOn hcs hc
  have hnum : c.toNat = 10 ∨ c.toNat = 13 := by simpa [fileBreaks] using hbreak
  rcases hnum with hnum | hnum
  · exact hne (Char.toNat_inj.mp hnum)
  · have hr : c = '\r' := Char.toNat_inj.mp hnum
    exact notMem_universal text.toList (hr ▸ hmem)

/-! ## An assignment of its own -/

theorem or_eq_or_iff {a b l : Option String} :
    a.or b = a.or (l.or b) ↔ ∀ v ∈ l, a ≠ none ∨ b = some v := by
  cases a <;> cases b <;> cases l <;> simp

theorem or_some_iff {a : Option String} : a.or (some value) = some value ↔ ∀ v ∈ a, v = value := by
  cases a <;> simp

/-- The readers when the written line has the assignment and nothing else. -/
theorem alone_iff {old : List (String × String)} (hold : ∀ e ∈ old, e.1 = key) :
    ((last key (textEntries before ++ [(key, value)] ++ textEntries behind) = some value ∧
        ∀ k ≠ key, k ≠ "" → last k (textEntries before ++ [(key, value)] ++ textEntries behind) =
          last k (textEntries before ++ lineEntries lineBreaks line ++ textEntries behind)) ∧
      first key (fileEntries before ++ [(key, value)] ++ fileEntries behind) = some value ∧
        ∀ k ≠ key, first k (fileEntries before ++ [(key, value)] ++ fileEntries behind) =
          first k (fileEntries before ++ old ++ fileEntries behind)) ↔
      Alone key value before line behind := by
  have hlast : last key (textEntries before ++ [(key, value)] ++ textEntries behind) = some value ↔
      ∀ v ∈ last key (textEntries behind), v = value := by
    rw [last_append, last_append, last_singleton, if_pos rfl, Option.some_or, or_some_iff]
  have hlastOther : ∀ k ≠ key, (last k (textEntries before ++ [(key, value)] ++ textEntries behind) =
      last k (textEntries before ++ lineEntries lineBreaks line ++ textEntries behind) ↔
        ∀ v ∈ last k (lineEntries lineBreaks line),
          last k (textEntries behind) ≠ none ∨ last k (textEntries before) = some v) := by
    intro k hk
    rw [last_append, last_append, last_singleton, if_neg hk.symm, Option.none_or, last_append,
      last_append, or_eq_or_iff]
  have hfirst : first key (fileEntries before ++ [(key, value)] ++ fileEntries behind) = some value ↔
      ∀ v ∈ first key (fileEntries before), v = value := by
    rw [first_append, first_append, first_singleton, if_pos rfl, Option.or_assoc, Option.some_or,
      or_some_iff]
  have hfirstOther : ∀ k ≠ key, first k (fileEntries before ++ [(key, value)] ++ fileEntries behind) =
      first k (fileEntries before ++ old ++ fileEntries behind) := by
    intro k hk
    have hnone : first k old = none := first_eq_none.mpr fun e he => (hold e he).trans_ne hk.symm
    rw [first_append, first_append, first_append, first_append, hnone, first_singleton,
      if_neg hk.symm]
  constructor
  · rintro ⟨⟨hdict, hother⟩, henv, -⟩
    exact ⟨hfirst.mp henv, hlast.mp hdict,
      fun k hk hne => (hlastOther k hk).mp (hother k hk hne)⟩
  · rintro ⟨hearlier, hlater, hstrays⟩
    exact ⟨⟨hlast.mpr hlater, fun k hk hne => (hlastOther k hk).mpr (hstrays k hk hne)⟩,
      hfirst.mpr hearlier, hfirstOther⟩

/-! ## An assignment behind another text -/

theorem envEntry_append {s : String} {e : String × String} (h : envEntry s = some e) (t : String) :
    ∃ v, envEntry (s ++ t) = some (e.1, v) := by
  obtain ⟨pre, post, hpre, rfl, hhash, rfl⟩ := exists_cut_of_envEntry h
  have hof : String.ofList (pre ++ '=' :: post) ++ t =
      String.ofList (pre ++ '=' :: (post ++ t.toList)) := by
    apply String.toList_injective
    simp
  rw [hof, envEntry_cut hpre, hhash, if_neg Bool.false_ne_true]
  exact ⟨_, rfl⟩

theorem count_entry {s : String} {e : String × String} (h : envEntry s = some e) :
    e.2.toList.count '=' + 1 = s.toList.count '=' := by
  obtain ⟨pre, post, hpre, rfl, -, rfl⟩ := exists_cut_of_envEntry h
  rw [String.toList_ofList]
  exact count_value hpre

theorem count_joined {s : String} (hkey : Findable key) :
    (s ++ assignment key value).toList.count '=' = s.toList.count '=' + (value.toList.count '=' + 1) := by
  rw [String.toList_append, List.count_append, toList_assignment, List.count_append,
    List.count_eq_zero.mpr hkey.bare, Nat.zero_add, List.count_cons_self]

/-- The line gives its key another value than before. -/
theorem entry_changed {s : String} {e : String × String} (hkey : Findable key)
    (h : envEntry (s ++ assignment key value) = some e) : envEntry s ≠ some e := by
  intro hold
  have hnew := count_entry h
  have hcount := count_entry hold
  rw [count_joined hkey] at hnew
  omega

/-- Behind a text that is not blank the assignment is lost. -/
theorem entry_lost {s : String} (hkey : Findable key) (hs : strip s ≠ "") :
    envEntry (s ++ assignment key value) ≠ some (key, value) := by
  intro h
  have hcount : value.toList.count '=' + 1 = (s ++ assignment key value).toList.count '=' :=
    count_entry h
  rw [count_joined hkey] at hcount
  have hzero : s.toList.count '=' = 0 := by
    omega
  have hfree : '=' ∉ s.toList ++ key.toList := by
    intro hmem
    rcases List.mem_append.mp hmem with hmem | hmem
    · exact List.count_eq_zero.mp hzero hmem
    · exact hkey.bare hmem
  have hof : s ++ assignment key value =
      String.ofList ((s.toList ++ key.toList) ++ '=' :: value.toList) := by
    apply String.toList_injective
    rw [String.toList_append, toList_assignment, String.toList_ofList, List.append_assoc]
  rw [hof, envEntry_cut hfree] at h
  split_ifs at h
  -- the key that is read has the characters of the text besides its own
  have hname : strip (String.ofList (s.toList ++ key.toList)) = key :=
    (Prod.mk.inj (Option.some.inj h)).1
  have hkept := countP_stripChars (p := isSpace) (q := fun c => !isSpace c) (by simp)
    (String.ofList (s.toList ++ key.toList))
  rw [← strip, hname, String.toList_ofList, List.countP_append] at hkept
  have hblank : s.toList.countP (fun c => !isSpace c) = 0 := Nat.add_eq_right.mp hkept.symm
  apply hs
  rw [List.countP_eq_zero] at hblank
  have hspace : ∀ c ∈ s.toList, isSpace c = true := fun c hc => by simpa using hblank c hc
  rw [strip, stripChars, List.dropWhile_eq_nil_iff.mpr hspace]
  rfl

/-- What the entry of a last line becomes when the assignment is appended to it: the
entry stays one of its key, changes, and is not the assignment. -/
structure Lost (key value : String) (old new : Option (String × String)) : Prop where
  lost : new ≠ some (key, value)
  changed : ∀ e, new = some e → old ≠ some e
  sameKey : ∀ e, old = some e → ∃ v, new = some (e.1, v)

theorem lost_joined {s : String} (hkey : Findable key) (hs : strip s ≠ "") :
    Lost key value (envEntry s) (envEntry (s ++ assignment key value)) :=
  ⟨entry_lost hkey hs, fun _ => entry_changed hkey, fun _ h => envEntry_append h _⟩

theorem Lost.first_iff {old new : Option (String × String)} (h : Lost key value old new)
    (es : List (String × String)) :
    (first key (es ++ new.toList) = some value ∧
        ∀ k ≠ key, first k (es ++ new.toList) = first k (es ++ old.toList)) ↔
      first key es = some value ∧ ∀ e ∈ new, first e.1 es ≠ none := by
  cases new with
  | none =>
      have hold : old = none := by
        cases old with
        | none => rfl
        | some e => exact absurd (h.sameKey e rfl).choose_spec nofun
      simp [hold]
  | some e =>
      have hkeys : ∀ e', old = some e' → e'.1 = e.1 := by
        intro e' he'
        obtain ⟨v, hv⟩ := h.sameKey e' he'
        rw [Option.some.inj hv]
      have hsome : ∀ k, first k (es ++ [e]) = (first k es).or (if e.1 = k then some e.2 else none) :=
        fun k => by rw [first_append, first_singleton]
      simp only [Option.toList_some, Option.mem_some_iff, forall_eq', hsome]
      constructor
      · rintro ⟨hvalue, hother⟩
        have hvalued : first key es = some value := by
          cases hes : first key es with
          | some v => rwa [hes, Option.some_or] at hvalue
          | none =>
              rw [hes, Option.none_or] at hvalue
              split_ifs at hvalue with hk
              exact absurd (by rw [← hk, ← Option.some.inj hvalue]) h.lost
        refine ⟨hvalued, fun hnone => ?_⟩
        have hk : e.1 ≠ key := by
          intro hk
          rw [hk, hvalued] at hnone
          cases hnone
        have hsame := hother e.1 hk
        rw [hnone, Option.none_or, if_pos rfl, first_append, hnone, Option.none_or] at hsame
        have hold := mem_of_first hsame.symm
        exact h.changed e rfl (Option.mem_toList.mp hold)
      · rintro ⟨hvalued, hcovered⟩
        refine ⟨by rw [hvalued, Option.some_or], fun k hk => ?_⟩
        cases hes : first k es with
        | some v => rw [first_append, hes, Option.some_or, Option.some_or]
        | none =>
            have hne : e.1 ≠ k := fun he => hcovered (he ▸ hes)
            have hnone : first k old.toList = none :=
              first_eq_none.mpr fun e' he' => by rwa [hkeys e' (Option.mem_toList.mp he')]
            rw [first_append, hes, hnone, if_neg hne]

theorem Lost.last_iff {old new : Option (String × String)} (h : Lost key value old new)
    (es : List (String × String)) (hname : key ≠ "") :
    (last key (es ++ new.toList) = some value ∧
        ∀ k ≠ key, k ≠ "" → last k (es ++ new.toList) = last k (es ++ old.toList)) ↔
      last key es = some value ∧ ∀ e ∈ new, e.1 ≠ "" → last e.1 (es ++ old.toList) = some e.2 := by
  cases new with
  | none =>
      have hold : old = none := by
        cases old with
        | none => rfl
        | some e => exact absurd (h.sameKey e rfl).choose_spec nofun
      simp [hold]
  | some e =>
      have hkeys : ∀ e', old = some e' → e'.1 = e.1 := by
        intro e' he'
        obtain ⟨v, hv⟩ := h.sameKey e' he'
        rw [Option.some.inj hv]
      have hself : last e.1 (es ++ [e]) = some e.2 := by
        rw [last_append, last_singleton, if_pos rfl, Option.some_or]
      have hsome : ∀ k, e.1 ≠ k → last k (es ++ [e]) = last k es ∧
          last k (es ++ old.toList) = last k es := by
        intro k hk
        have hnone : last k old.toList = none :=
          last_eq_none.mpr fun e' he' => by rwa [hkeys e' (Option.mem_toList.mp he')]
        rw [last_append, last_singleton, if_neg hk, last_append, hnone, Option.none_or]
        exact ⟨rfl, rfl⟩
      simp only [Option.toList_some, Option.mem_some_iff, forall_eq']
      constructor
      · rintro ⟨hvalue, hother⟩
        have hk : e.1 ≠ key := by
          intro hk
          rw [← hk, hself] at hvalue
          exact h.lost (by rw [← hk, ← Option.some.inj hvalue])
        exact ⟨(hsome key hk).1 ▸ hvalue, fun hne => (hother e.1 hk hne).symm.trans hself⟩
      · rintro ⟨hvalued, hthere⟩
        have hk : e.1 ≠ key := by
          intro hk
          have hlast := hthere (hk ▸ hname)
          cases old with
          | none =>
              rw [Option.toList_none, List.append_nil, hk, hvalued] at hlast
              exact h.lost (by rw [← hk, Option.some.inj hlast])
          | some e' =>
              have he' := hkeys e' rfl
              rw [Option.toList_some, last_append, last_singleton, if_pos he', Option.some_or] at hlast
              exact h.changed e rfl (by rw [Prod.ext he' (Option.some.inj hlast)])
        refine ⟨(hsome key hk).1.trans hvalued, fun k _ hne => ?_⟩
        by_cases he : e.1 = k
        · subst he
          exact hself.trans (hthere hne).symm
        · exact (hsome k he).1.trans (hsome k he).2.symm

theorem joined_iff (hkey : Findable key) (hvalue : Admitted value) (hunbroken : Unbroken value)
    (hline : ∀ c ∈ line.toList, c.toNat ∉ fileBreaks) (hblank : strip line ≠ "") :
    ((last key (textEntries before ++ lineEntries lineBreaks (line ++ assignment key value)) = some value ∧
        ∀ k ≠ key, k ≠ "" → last k (textEntries before ++
            lineEntries lineBreaks (line ++ assignment key value)) =
          last k (textEntries before ++ lineEntries lineBreaks line)) ∧
      first key (fileEntries before ++ lineEntries fileBreaks (line ++ assignment key value)) =
          some value ∧
        ∀ k ≠ key, first k (fileEntries before ++
            lineEntries fileBreaks (line ++ assignment key value)) =
          first k (fileEntries before ++ lineEntries fileBreaks line)) ↔
      Joined key value before line := by
  have hassign : Unbroken (assignment key value) :=
    SharedSettings.unbroken_assignment hkey.unbroken hunbroken
  have hreturn : '\r' ∉ line.toList := fun hm => hline _ hm (by decide)
  have hfile : lineEntries fileBreaks line = (envEntry line).toList :=
    lineEntries_unbroken (by decide) (by decide) hline
  have hfile' : lineEntries fileBreaks (line ++ assignment key value) =
      (envEntry (line ++ assignment key value)).toList := by
    apply lineEntries_unbroken (by decide) (by decide)
    intro c hc
    rw [String.toList_append] at hc
    rcases List.mem_append.mp hc with hc | hc
    · exact hline c hc
    · exact unbroken_file hassign c hc
  have htext := lineEntries_joined (a := "") hreturn (by simp [Unbroken])
  rw [String.append_empty, String.append_empty] at htext
  have hlines : textEntries (before ++ [line]) = textEntries before ++
      entriesAt lineBreaks (headOf line).toList ++ (envEntry (tailOf line)).toList := by
    rw [textEntries, List.flatMap_append, List.flatMap_singleton, htext, ← List.append_assoc]
    rfl
  rw [htext, lineEntries_joined hreturn hassign, hfile, hfile', (lost_joined hkey hblank).first_iff,
    ← List.append_assoc, ← List.append_assoc]
  by_cases htail : strip (tailOf line) = ""
  · have hnone : envEntry (tailOf line) = none := by
      rw [envEntry, htail]
      rfl
    rw [envEntry_blank hkey htail, unwrapped_admitted hvalue, hnone]
    constructor
    · rintro ⟨-, hvalued, hcovered⟩
      exact ⟨hvalued, hcovered, .inl htail⟩
    · rintro ⟨hvalued, hcovered, -⟩
      refine ⟨⟨?_, fun k hk _ => ?_⟩, hvalued, hcovered⟩
      · rw [Option.toList_some, last_append, last_singleton, if_pos rfl, Option.some_or]
      · rw [Option.toList_some, last_append, last_singleton, if_neg hk.symm, Option.toList_none,
          List.append_nil, Option.none_or]
  · rw [(lost_joined hkey htail).last_iff _ hkey.named, ← hlines]
    constructor
    · rintro ⟨hdict, hvalued, hcovered⟩
      exact ⟨hvalued, hcovered, .inr hdict⟩
    · rintro ⟨hvalued, hcovered, hdict⟩
      exact ⟨hdict.resolve_left htail, hvalued, hcovered⟩

/-- The written line has the assignment and nothing else when it replaces a line of
the key or stands behind blanks. -/
theorem written_own (hkey : Findable key) (hunbroken : Unbroken value)
    (hline : ∀ c ∈ line.toList, c.toNat ∉ fileBreaks) (hown : sets key line = true ∨ strip line = "") :
    lineEntries lineBreaks (written key value line) = [(key, unwrapped value)] ∧
      lineEntries fileBreaks (written key value line) = [(key, unwrapped value)] ∧
      ∀ e ∈ lineEntries fileBreaks line, e.1 = key := by
  have hassign : Unbroken (assignment key value) :=
    SharedSettings.unbroken_assignment hkey.unbroken hunbroken
  rw [lineEntries_unbroken (by decide) (by decide) hline, written]
  split_ifs with hsets
  · rw [lineEntries_unbroken (by decide) (by decide) hassign,
      lineEntries_unbroken (by decide) (by decide) (unbroken_file hassign),
      envEntry_assigned hkey]
    exact ⟨rfl, rfl, fun e he => envEntry_sets hkey hsets e (Option.mem_toList.mp he)⟩
  · have hblank := hown.resolve_left hsets
    have hspace := isSpace_of_strip hblank
    have htail : strip (tailOf line) = "" := by
      have htailSpace : ∀ c ∈ (tailOf line).toList, isSpace c = true := by
        intro c hc
        rw [tailOf, String.toList_ofList] at hc
        exact hspace c ((List.rtakeWhile_suffix _ _).mem hc)
      rw [strip, stripChars, List.dropWhile_eq_nil_iff.mpr htailSpace]
      rfl
    have hhead : ∀ c ∈ (headOf line).toList, isSpace c = true := by
      intro c hc
      rw [headOf, String.toList_ofList] at hc
      exact hspace c ((List.rdropWhile_prefix _ _).mem hc)
    have hfile : ∀ c ∈ (line ++ assignment key value).toList, c.toNat ∉ fileBreaks := by
      intro c hc
      rw [String.toList_append] at hc
      rcases List.mem_append.mp hc with hc | hc
      · exact hline c hc
      · exact unbroken_file hassign c hc
    have hnone : envEntry line = none := by
      rw [envEntry, hblank]
      rfl
    rw [lineEntries_joined (fun hm => hline _ hm (by decide)) hassign, entriesAt_blank hhead,
      lineEntries_unbroken (by decide) (by decide) hfile, envEntry_blank hkey htail,
      envEntry_blank hkey hblank, hnone]
    exact ⟨rfl, rfl, fun e he => absurd he List.not_mem_nil⟩

theorem upserted_cut (hkey : Findable key) (hvalue : Admitted value) (hunbroken : Unbroken value)
    (hcut : Cut key (textLines text) before line behind) :
    Upserted key value text ↔ if sets key line = true ∨ strip line = "" then
      Alone key value before line behind else Joined key value before line := by
  have hline : ∀ c ∈ line.toList, c.toNat ∉ fileBreaks :=
    unbroken_textLines (hcut.lines ▸ List.mem_append_right _ List.mem_cons_self)
  rw [upserted_iff_entries hcut, and_iff_right hkey.named]
  split_ifs with hown
  · obtain ⟨htext, hfile, hold⟩ := written_own hkey hunbroken hline hown
    rw [htext, hfile, unwrapped_admitted hvalue]
    exact alone_iff hold
  · rw [not_or] at hown
    have hlast : behind = [] := hcut.found.resolve_left hown.1
    have hwritten : written key value line = line ++ assignment key value := if_neg hown.1
    refine Iff.trans ?_ (joined_iff hkey hvalue hunbroken hline hown.2)
    simp only [hwritten, hlast, textEntries, fileEntries, List.flatMap_nil, List.append_nil]

theorem Upserted.findable (h : Upserted key value text) : Findable key ∧ Unbroken value := by
  have hdict := h.dict
  rw [dictValue_eq_last] at hdict
  split_ifs at hdict with hname
  exact findable_of_mem hname (mem_of_last hdict)

end Readers

/-- Every reader has the value for the key and nothing else has changed for it, if and
only if the key can be found and the file takes the assignment. -/
theorem upserted_iff {key value text : String} (hvalue : Admitted value) :
    Upserted key value text ↔ Takes key value text := by
  constructor
  · intro h
    obtain ⟨hkey, hunbroken⟩ := h.findable
    obtain ⟨before, line, behind, hcut⟩ := exists_cut key (textLines_ne_nil text)
    exact ⟨hkey, hunbroken, before, line, behind, hcut,
      (upserted_cut hkey hvalue hunbroken hcut).mp h⟩
  · rintro ⟨hkey, hunbroken, before, line, behind, hcut, hplace⟩
    exact (upserted_cut hkey hvalue hunbroken hcut).mpr hplace

/-- A key that is not there goes behind the last newline. -/
theorem takes_appended : Takes "B" "2" "A=1\n" := by
  have hcut : Cut "B" (textLines "A=1\n") ["A=1"] "" [] := by
    refine ⟨rfl, ?_, ?_⟩ <;> decide
  refine ⟨⟨by decide, by decide, by decide, by decide, by decide⟩, by decide, ["A=1"], "", [], hcut, ?_⟩
  rw [if_pos (.inr (by decide))]
  refine ⟨by decide, by decide, fun k _ hk v hv => ?_⟩
  have hnone : last k (lineEntries lineBreaks "") = none := by rfl
  rw [hnone] at hv
  cases hv

theorem upserted_iff_appended : Upserted "B" "2" "A=1\n" :=
  (upserted_iff ⟨by decide, by decide, by decide⟩).mpr takes_appended

/-- A last line without a newline takes the assignment into its own value. -/
theorem append_joins_line :
    ¬∀ key value text : String, Admitted key → Admitted value → Upserted key value text := by
  intro h
  have hread := (h "B" "2" "A=1" ⟨by decide, by decide, by decide⟩ ⟨by decide, by decide, by decide⟩).kv
  revert hread
  decide +kernel

end MilvusOnprem.EnvUpsert
