import MilvusOnprem.EnvLines
import Mathlib.Data.List.DropRight

/-!
# A setting that all peers share

What a file has for a key when it sets the key once, as a plain word. An update
keeps this, and so does the copy that a joiner gets of the leader's file, whatever
else is in it.
-/
namespace MilvusOnprem.SharedSettings

open PythonText MilvusOnprem.Topology ClusterEnv EnvFile EnvLines Joining
open MigratePulsar (fileText)

/-- A value that every reader takes as it is written. -/
def Plain (value : String) : Prop := ∀ c ∈ value.toList, isKept c = true

instance (value : String) : Decidable (Plain value) :=
  inferInstanceAs (Decidable (∀ c ∈ value.toList, isKept c = true))

/-- A key that every reader takes as it is written. -/
def IsWord (key : Key) : Prop :=
  key.text ≠ "" ∧ ∀ c ∈ key.text.toList, isKept c = true ∧ c ≠ '#'

instance (key : Key) : Decidable (IsWord key) :=
  inferInstanceAs (Decidable (key.text ≠ "" ∧ ∀ c ∈ key.text.toList, isKept c = true ∧ c ≠ '#'))

/-- The entries that the loop of `_read_cluster_env` finds on a line of the file. -/
def entriesOf (line : String) : List (String × String) :=
  (splitLines (line ++ "\n")).filterMap envEntry

/-- The line does not set the key. -/
def Silent (key : Key) (line : String) : Prop := ∀ kv ∈ entriesOf line, kv.1 ≠ key.text

/-- The file sets the key to a plain value on one line, or nowhere. -/
inductive Sets (key : Key) : Option String → Lines → Prop
  | nil : Sets key none []
  | other {value line lines} : Silent key line → Sets key value lines → Sets key value (line :: lines)
  | here {value lines} : Plain value → Sets key none lines →
      Sets key (some value) (key.line value :: lines)

variable {key k : Key} {value v : Option String} {word line : String} {lines : Lines}

/-! ## Lines -/

def lineBreaks : List ℕ := [0x0A, 0x0B, 0x0C, 0x0D, 0x1C, 0x1D, 0x1E, 0x85, 0x2028, 0x2029]

theorem splitLines_eq (s : String) :
    splitLines s = (splitLinesFrom lineBreaks s.toList []).map String.ofList := rfl

theorem isSpace_of_break {c : Char} (h : c.toNat ∈ lineBreaks) : isSpace c = true :=
  List.contains_iff_mem.mpr ((by decide : lineBreaks ⊆ spaces) h)

/-- A text that a reader keeps on one line. -/
def Unbroken (s : String) : Prop := ∀ c ∈ s.toList, c.toNat ∉ lineBreaks

instance (s : String) : Decidable (Unbroken s) :=
  inferInstanceAs (Decidable (∀ c ∈ s.toList, c.toNat ∉ lineBreaks))

theorem Unbroken.ne_return {s : String} (h : Unbroken s) :
    ∀ c ∈ s.toList, c ≠ '\r' ∧ c.toNat ∉ lineBreaks := by
  intro c hc
  refine ⟨?_, h c hc⟩
  rintro rfl
  exact h _ hc (by decide)

theorem unbroken_append {s t : String} (hs : Unbroken s) (ht : Unbroken t) : Unbroken (s ++ t) := by
  intro c hc
  rw [String.toList_append] at hc
  rcases List.mem_append.mp hc with hc | hc
  · exact hs c hc
  · exact ht c hc

theorem unbroken_of_kept {s : String} (h : ∀ c ∈ s.toList, isKept c = true) : Unbroken s := by
  intro c hc hbreak
  have hkept := h c hc
  rw [isKept, isSpace_of_break hbreak] at hkept
  cases hkept

theorem unbroken_assignment {s t : String} (hs : Unbroken s) (ht : Unbroken t) :
    Unbroken (s ++ "=" ++ t) :=
  unbroken_append (unbroken_append hs (by decide)) ht

theorem splitLines_unbroken {s : String} (h : Unbroken s) : splitLines (s ++ "\n") = [s] := by
  rw [splitLines_eq, String.toList_append, show "\n".toList = ['\n'] from rfl,
    splitLinesFrom_line [] h.ne_return (by decide)]
  simp

theorem entriesOf_unbroken {s : String} (h : Unbroken s) : entriesOf s = (envEntry s).toList := by
  rw [entriesOf, splitLines_unbroken h]
  cases he : envEntry s <;> simp [he]

/-- The first line goes on with what follows it; the others are made of what follows. -/
theorem splitLines_prefix {pre : String} (h : Unbroken pre) (s : String) :
    ∃ (x : String) (rest : List String), splitLines (pre ++ s ++ "\n") = (pre ++ x) :: rest ∧
      ∀ t ∈ rest, ∀ c ∈ t.toList, c ∈ s.toList ∨ c = '\n' := by
  obtain ⟨x, rest, hx, -, hrest⟩ := @splitLinesFrom_head lineBreaks (s.toList ++ ['\n'])
    pre.toList.reverse (.inl (by simp))
  refine ⟨String.ofList x, rest.map String.ofList, ?_, ?_⟩
  · rw [splitLines_eq, String.toList_append, String.toList_append, List.append_assoc,
      splitLinesFrom_prefix h.ne_return, List.append_nil]
    refine (congrArg (List.map String.ofList) hx).trans ?_
    rw [List.reverse_reverse, List.map_cons, List.cons.injEq]
    exact ⟨String.toList_injective (by simp), rfl⟩
  · intro t ht c hc
    obtain ⟨r, hr, rfl⟩ := List.mem_map.mp ht
    have hmem := hrest r hr c (by simpa using hc)
    simpa using hmem

theorem strip_key (h : IsWord key) : strip key.text = key.text :=
  strip_kept fun c hc => (h.2 c hc).1

theorem unbroken_key (h : IsWord key) : Unbroken key.text := unbroken_of_kept fun c hc => (h.2 c hc).1

/-- The entry of a line that was written. -/
theorem entriesOf_line (hkey : IsWord key) (hword : Plain word) :
    entriesOf (key.line word) = [(key.text, word)] := by
  have hline : Unbroken (key.line word) :=
    unbroken_assignment (unbroken_key hkey) (unbroken_of_kept hword)
  rw [entriesOf_unbroken hline, envEntry_line hkey.2 hword]
  rfl

/-- A line of the key sets it. -/
theorem not_silent_of_isLine (hkey : IsWord key) (h : key.isLine line = true) : ¬Silent key line := by
  intro hsilent
  have hline : line = key.text ++ "=" ++ removePrefix (key.text ++ "=") line :=
    (append_removePrefix h).symm
  obtain ⟨x, rest, hx, -⟩ := splitLines_prefix
    (unbroken_append (unbroken_key hkey) (t := "=") (by decide)) (removePrefix (key.text ++ "=") line)
  have hentry := envEntry_assignment hkey.1 (strip_key hkey) key.plain x
  have hhash : startsWith key.text "#" = false := by
    cases htext : key.text.toList with
    | nil => exact absurd (String.toList_injective htext) hkey.1
    | cons c cs =>
        have hc := (hkey.2 c (by rw [htext]; exact List.mem_cons_self)).2
        simp [startsWith, htext, List.isPrefixOf, hc.symm]
  rcases hentry with ⟨hcomment, -⟩ | ⟨w, hw⟩
  · rw [hhash] at hcomment
    cases hcomment
  · refine hsilent (key.text, w) ?_ rfl
    rw [entriesOf, hline, hx, List.filterMap_cons_some hw]
    exact List.mem_cons_self

theorem isLine_of_silent (hkey : IsWord key) (h : Silent key line) : key.isLine line = false := by
  rw [Bool.eq_false_iff]
  exact fun hline => not_silent_of_isLine hkey hline h

theorem silent_line (hk : IsWord k) (hne : k ≠ key) (hword : Plain word) :
    Silent key (k.line word) := by
  intro kv hkv
  rw [entriesOf_line hk hword, List.mem_singleton] at hkv
  rw [hkv]
  intro heq
  apply hne
  cases k
  cases key
  cases heq
  rfl

/-! ## Updates -/

theorem Sets.plain (h : Sets key (some word) lines) : Plain word := by
  generalize hv : some word = v at h
  induction h with
  | nil => cases hv
  | other _ _ ih => exact ih hv
  | here hword _ =>
      cases hv
      exact hword

/-- What the daemon's readers and updates find. -/
theorem Sets.valueOf (hkey : IsWord key) (h : Sets key value lines) : valueOf key lines = value := by
  induction h with
  | nil => rfl
  | other hsilent _ ih =>
      simpa [EnvFile.valueOf, isLine_of_silent hkey hsilent] using ih
  | here _ _ => simp [EnvFile.valueOf]

theorem Sets.upsertKv_self (hkey : IsWord key) (h : Sets key value lines) (hword : Plain word) :
    Sets key (some word) (upsertKv key word lines) := by
  induction h with
  | nil => exact .here hword .nil
  | other hsilent _ ih =>
      rw [upsertKv, if_neg (by rw [isLine_of_silent hkey hsilent]; exact Bool.false_ne_true)]
      exact .other hsilent ih
  | here _ hrest =>
      rw [upsertKv, if_pos (by simp)]
      exact .here hword hrest

theorem Sets.upsertKv_other (hk : IsWord k) (hne : k ≠ key) (h : Sets key value lines)
    (hword : Plain word) : Sets key value (upsertKv k word lines) := by
  have hwritten := silent_line hk hne hword
  induction h with
  | nil => exact .other hwritten .nil
  | other hsilent hrest ih =>
      unfold upsertKv
      split_ifs
      · exact .other hwritten hrest
      · exact .other hsilent ih
  | here hplain _ ih =>
      rw [upsertKv, if_neg (by simp [hne])]
      exact .here hplain ih

/-! ## Lines that assign nothing -/

/-- A text without an equals sign. -/
def Bare (s : String) : Prop := '=' ∉ s.toList

instance (s : String) : Decidable (Bare s) := inferInstanceAs (Decidable ('=' ∉ s.toList))

theorem bare_append {s t : String} (hs : Bare s) (ht : Bare t) : Bare (s ++ t) := by
  intro h
  rw [String.toList_append] at h
  rcases List.mem_append.mp h with h | h
  · exact hs h
  · exact ht h

theorem bare_join {parts : List String} (h : ∀ s ∈ parts, Bare s) : Bare (join "," parts) := by
  intro hmem
  rcases mem_toList_join hmem with hsep | ⟨s, hs, hc⟩
  · exact absurd hsep (by decide)
  · exact h s hs hc

theorem silent_bare (h : Bare line) : Silent key line := by
  intro kv hkv
  obtain ⟨piece, hpiece, hentry⟩ := List.mem_filterMap.mp hkv
  have hbare : '=' ∉ piece.toList := by
    intro hmem
    rw [splitLines_eq] at hpiece
    obtain ⟨r, hr, rfl⟩ := List.mem_map.mp hpiece
    rw [String.toList_ofList] at hmem
    rcases mem_splitLinesFrom hr hmem with hnil | ⟨hline, -⟩
    · cases hnil
    · rw [String.toList_append] at hline
      rcases List.mem_append.mp hline with hline | hline
      · exact h hline
      · revert hline
        decide
  rw [envEntry_none hbare] at hentry
  cases hentry

/-- An assignment to another key, whatever line breaks are in its value. -/
theorem silent_assignment {name s : String} (hne : name ≠ "") (hstrip : strip name = name)
    (hname : Bare name) (hunbroken : Unbroken name) (hs : Bare s) (hother : name ≠ key.text) :
    Silent key (name ++ "=" ++ s) := by
  obtain ⟨x, rest, hx, hrest⟩ := splitLines_prefix (unbroken_append hunbroken (t := "=") (by decide)) s
  intro kv hkv
  rw [entriesOf, hx] at hkv
  obtain ⟨piece, hpiece, hentry⟩ := List.mem_filterMap.mp hkv
  rcases List.mem_cons.mp hpiece with rfl | hpiece
  · rcases envEntry_assignment hne hstrip hname x with ⟨-, hnone⟩ | ⟨w, hw⟩
    · rw [hnone] at hentry
      cases hentry
    · rw [hw] at hentry
      cases hentry
      exact hother
  · have hbare : '=' ∉ piece.toList := by
      intro hmem
      rcases hrest piece hpiece _ hmem with hin | heq
      · exact hs hin
      · exact absurd heq (by decide)
    rw [envEntry_none hbare] at hentry
    cases hentry

theorem Sets.append {pre : Lines} (hpre : ∀ line ∈ pre, Silent key line) (h : Sets key value lines) :
    Sets key value (pre ++ lines) := by
  induction pre with
  | nil => exact h
  | cons line pre ih =>
      exact .other (hpre line List.mem_cons_self)
        (ih fun l hl => hpre l (List.mem_cons_of_mem line hl))

theorem Sets.silent (h : Sets key none lines) : ∀ line ∈ lines, Silent key line := by
  generalize hv : none = v at h
  induction h with
  | nil =>
      intro line hline
      cases hline
  | other hsilent _ ih =>
      intro line hline
      rcases List.mem_cons.mp hline with rfl | hline
      · exact hsilent
      · exact ih hv line hline
  | here _ _ => cases hv

/-! ## Lines that hold line breaks -/

theorem split_join_lines {parts : List String} (hne : parts ≠ []) :
    split '\n' (join "\n" parts) = parts.flatMap (split '\n') := by
  induction parts with
  | nil => exact absurd rfl hne
  | cons s rest ih =>
      cases rest with
      | nil => rw [join, List.flatMap_singleton]
      | cons t rest =>
          have hrest := ih (List.cons_ne_nil t rest)
          rw [List.flatMap_cons, ← hrest, join_cons_cons, split, String.toList_append,
            String.toList_append, List.append_assoc, show "\n".toList = ['\n'] from rfl,
            List.singleton_append, List.splitOn_append_cons_self, List.map_append]
          rfl

theorem fileText_split (line : String) : fileText (split '\n' line) = line ++ "\n" := by
  have hchars : ∀ cs : List Char, (cs.splitOn '\n').flatMap (fun p => p ++ ['\n']) = cs ++ ['\n'] := by
    intro cs
    induction cs with
    | nil => rfl
    | cons c cs ih =>
        rw [List.splitOn_cons_eq_if_modifyHead]
        split_ifs with hc
        · rw [List.flatMap_cons, ih, beq_iff_eq.mp hc]
          rfl
        · obtain ⟨p, ps, hps⟩ := List.exists_cons_of_ne_nil (List.splitOn_ne_nil '\n' cs)
          rw [hps] at ih ⊢
          rw [List.modifyHead_cons, List.flatMap_cons, List.cons_append, List.cons_append,
            ← @List.flatMap_cons _ _ p ps fun p => p ++ ['\n'], ih, List.cons_append]
  apply String.toList_injective
  rw [String.toList_append, show "\n".toList = ['\n'] from rfl, ← hchars line.toList]
  simp [fileText, split, String.toList_join, List.flatMap_map]

theorem silent_split (h : Silent key line) : ∀ piece ∈ split '\n' line, Silent key piece := by
  intro piece hpiece kv hkv
  apply h kv
  obtain ⟨t, ht, hentry⟩ := List.mem_filterMap.mp hkv
  refine List.mem_filterMap.mpr ⟨t, ?_, hentry⟩
  rw [splitLines_eq, ← fileText_split, splitLinesFrom_fileText (by decide), List.map_flatMap,
    List.mem_flatMap]
  exact ⟨piece, hpiece, ht⟩

theorem Sets.flatMap_split (hkey : IsWord key) (h : Sets key value lines) :
    Sets key value (lines.flatMap (split '\n')) := by
  induction h with
  | nil => exact .nil
  | other hsilent _ ih => exact ih.append (silent_split hsilent)
  | @here word lines hword hrest ih =>
      have hline : split '\n' (key.line word) = [key.line word] := by
        have hone : ∀ c ∈ (key.line word).toList, (c == '\n') = false := by
          intro c hc
          rw [beq_eq_false_iff_ne]
          rintro rfl
          exact unbroken_assignment (unbroken_key hkey) (unbroken_of_kept hword) _ hc (by decide)
        rw [PythonText.split, List.splitOn_eq_splitOnP, List.splitOnP_eq_singleton hone]
        simp
      rw [List.flatMap_cons, hline]
      exact .here hword ih

/-! ## The leader's file as a dictionary -/

/-- The step of the loop of `_read_cluster_env`. -/
def assign (out : List (String × String)) (kv : String × String) : List (String × String) :=
  if kv.1 = "" then out else dictSet kv.1 kv.2 out

theorem parseClusterEnv_fileText (lines : Lines) :
    parseClusterEnv (fileText lines) = (lines.flatMap entriesOf).foldl assign [] := by
  rw [parseClusterEnv, splitLines_eq, splitLinesFrom_fileText (by decide), List.map_flatMap,
    List.filterMap_flatMap]
  rfl

/-- What a dictionary has for the key. -/
def found (key : Key) (es : List (String × String)) : List (String × String) :=
  es.filter fun e => e.1 = key.text

theorem found_assign_other {kv : String × String} (h : kv.1 ≠ key.text) (es : List (String × String)) :
    found key (assign es kv) = found key es := by
  have hset : found key (dictSet kv.1 kv.2 es) = found key es := by
    induction es with
    | nil => simp [dictSet, found, h]
    | cons e es ih =>
        unfold dictSet
        split_ifs with he
        · simp [found, h, he]
        · simp only [found, List.filter_cons] at ih ⊢
          rw [ih]
  unfold assign
  split_ifs
  · rfl
  · exact hset

theorem found_assign_self {es : List (String × String)} (hkey : IsWord key) (h : found key es = [])
    (w : String) : found key (assign es (key.text, w)) = [(key.text, w)] := by
  rw [assign, if_neg hkey.1]
  induction es with
  | nil => simp [dictSet, found]
  | cons e es ih =>
      rw [found, List.filter_cons] at h
      split_ifs at h with he
      have hne : ¬e.1 = key.text := by simpa using he
      rw [dictSet, if_neg hne, found, List.filter_cons, if_neg he]
      exact ih h

theorem found_silent (hsilent : ∀ line ∈ lines, Silent key line) (out : List (String × String)) :
    found key ((lines.flatMap entriesOf).foldl assign out) = found key out := by
  have hne : ∀ kv ∈ lines.flatMap entriesOf, kv.1 ≠ key.text := by
    intro kv hkv
    obtain ⟨line, hline, hmem⟩ := List.mem_flatMap.mp hkv
    exact hsilent line hline kv hmem
  generalize lines.flatMap entriesOf = kvs at hne
  induction kvs generalizing out with
  | nil => rfl
  | cons kv kvs ih =>
      rw [List.foldl_cons, ih _ fun x hx => hne x (List.mem_cons_of_mem kv hx),
        found_assign_other (hne kv List.mem_cons_self)]

/-- The dictionary has the value that the file sets. -/
theorem Sets.found (hkey : IsWord key) (h : Sets key value lines) {out : List (String × String)}
    (hout : found key out = []) :
    SharedSettings.found key ((lines.flatMap entriesOf).foldl assign out) =
      value.toList.map (Prod.mk key.text) := by
  induction h generalizing out with
  | nil => exact hout
  | @other value line lines hsilent _ ih =>
      rw [List.flatMap_cons, List.foldl_append]
      apply ih
      have hone := @found_silent key [line] (by simpa using hsilent) out
      rw [List.flatMap_singleton] at hone
      rw [hone, hout]
  | here hword hrest _ =>
      rw [List.flatMap_cons, entriesOf_line hkey hword, List.singleton_append, List.foldl_cons,
        found_silent hrest.silent, found_assign_self hkey hout]
      rfl

/-! ## The keys and values of the dictionary -/

theorem mem_stripChars {p : Char → Bool} {s : String} {c : Char} (h : c ∈ (stripChars p s).toList) :
    c ∈ s.toList := by
  rw [stripChars, String.toList_ofList, List.mem_reverse] at h
  have hmem := (List.dropWhile_suffix _).mem h
  rw [List.mem_reverse] at hmem
  exact (List.dropWhile_suffix _).mem hmem

theorem stripChars_idem (p : Char → Bool) (s : String) : stripChars p (stripChars p s) = stripChars p s := by
  have hfront : ∀ cs : List Char, ((cs.dropWhile p).reverse.dropWhile p).reverse.dropWhile p =
      ((cs.dropWhile p).reverse.dropWhile p).reverse := by
    intro cs
    have hprefix : ((cs.dropWhile p).reverse.dropWhile p).reverse <+: cs.dropWhile p := by
      rw [← List.reverse_suffix, List.reverse_reverse]
      exact List.dropWhile_suffix _
    cases htext : ((cs.dropWhile p).reverse.dropWhile p).reverse with
    | nil => rfl
    | cons c rest =>
        rw [htext] at hprefix
        obtain ⟨t, ht⟩ := hprefix
        have hhead := List.head?_dropWhile_not p cs
        rw [← ht] at hhead
        exact List.dropWhile_cons_of_neg (by simpa using hhead)
  rw [stripChars, stripChars, String.toList_ofList, hfront s.toList, List.reverse_reverse,
    List.dropWhile_idempotent]

/-- A key and a value that are read back from an assignment as they are. -/
structure Clean (e : String × String) : Prop where
  named : e.1 ≠ ""
  stripped : strip e.1 = e.1
  bare : Bare e.1
  unbroken : Unbroken e.1 ∧ Unbroken e.2

theorem clean_envEntry {s : String} {e : String × String} (hs : Unbroken s) (hne : e.1 ≠ "")
    (h : envEntry s = some e) : Clean e := by
  have hstrip : ∀ c ∈ (strip s).toList, c.toNat ∉ lineBreaks := fun c hc => hs c (mem_stripChars hc)
  rw [envEntry] at h
  generalize strip s = line at h hstrip
  split_ifs at h
  obtain ⟨kv, hkv, rfl⟩ := Option.map_eq_some_iff.mp h
  rw [partition] at hkv
  split_ifs at hkv
  rw [Option.some.injEq] at hkv
  subst hkv
  refine ⟨hne, stripChars_idem _ _, ?_, fun c hc => ?_, fun c hc => ?_⟩
  · intro hmem
    have hin := mem_stripChars hmem
    rw [String.toList_ofList] at hin
    have hne := List.mem_takeWhile_imp hin
    exact of_decide_eq_true hne rfl
  · have hin := mem_stripChars hc
    rw [String.toList_ofList] at hin
    exact hstrip c ((List.takeWhile_prefix _).mem hin)
  · have hin := mem_stripChars (mem_stripChars (mem_stripChars hc))
    rw [String.toList_ofList] at hin
    exact hstrip c ((List.dropWhile_suffix _).mem (List.mem_of_mem_drop hin))

theorem clean_parse (lines : Lines) : ∀ e ∈ parseClusterEnv (fileText lines), Clean e := by
  have hline : ∀ kv ∈ lines.flatMap entriesOf, kv.1 ≠ "" → Clean kv := by
    intro kv hkv hne
    obtain ⟨line, -, hmem⟩ := List.mem_flatMap.mp hkv
    obtain ⟨piece, hpiece, hentry⟩ := List.mem_filterMap.mp hmem
    refine clean_envEntry (fun c hc => ?_) hne hentry
    rw [splitLines_eq] at hpiece
    obtain ⟨r, hr, rfl⟩ := List.mem_map.mp hpiece
    rw [String.toList_ofList] at hc
    rcases mem_splitLinesFrom hr hc with hnil | ⟨-, hbreak⟩
    · cases hnil
    · exact hbreak
  rw [parseClusterEnv_fileText]
  generalize lines.flatMap entriesOf = kvs at hline
  have hfold : ∀ out : List (String × String), (∀ e ∈ out, Clean e) →
      ∀ e ∈ kvs.foldl assign out, Clean e := by
    induction kvs with
    | nil => exact fun out hout => hout
    | cons kv kvs ih =>
        intro out hout
        rw [List.foldl_cons]
        apply ih fun x hx => hline x (List.mem_cons_of_mem kv hx)
        unfold assign
        split_ifs with hempty
        · exact hout
        · intro e he
          rcases mem_dictSet he with rfl | he
          · exact hline kv List.mem_cons_self hempty
          · exact hout e he
  exact hfold [] fun e he => by cases he

/-- The lines that are written out of a dictionary. -/
theorem sets_written (hword : ∀ w, value = some w → Plain w)
    {es : List (String × String)} (hclean : ∀ e ∈ es, Clean e)
    (hfound : found key es = value.toList.map (Prod.mk key.text)) :
    Sets key value (es.map fun kv => kv.1 ++ "=" ++ kv.2) := by
  induction es generalizing value with
  | nil =>
      cases value with
      | none => exact .nil
      | some w => cases hfound
  | cons e es ih =>
      have hrest : ∀ x ∈ es, Clean x := fun x hx => hclean x (List.mem_cons_of_mem e hx)
      rw [found, List.filter_cons] at hfound
      split_ifs at hfound with he
      · cases value with
        | none => cases hfound
        | some w =>
            obtain ⟨rfl, htail⟩ := List.cons.inj hfound
            exact .here (hword w rfl) (ih (fun _ h => by cases h) hrest htail)
      · refine .other ?_ (ih hword hrest hfound)
        obtain ⟨hnamed, hstripped, hbare, hunbroken⟩ := hclean e List.mem_cons_self
        intro kv hkv
        rw [entriesOf_unbroken (unbroken_assignment hunbroken.1 hunbroken.2)] at hkv
        rcases envEntry_assignment hnamed hstripped hbare e.2 with ⟨-, hnone⟩ | ⟨w, hw⟩
        · rw [hnone] at hkv
          cases hkv
        · rw [hw] at hkv
          cases List.mem_singleton.mp hkv
          simpa using he

/-! ## The copy of a joiner -/

/-- The file that `cmd_join` writes out of the text it is issued. -/
def installed (clusterEnv : String) : Lines := (split '\n' clusterEnv).dropLast

/-- What the leader writes above the shared settings. -/
def joinerHead (nodeName localIp ips issuedAt : String) (names : List String) : Lines :=
  [rule, "# milvus-onprem cluster.env (joiner copy)", "# Issued by leader at " ++ issuedAt,
    rule, "", "NODE_NAME=" ++ nodeName, "LOCAL_IP=" ++ localIp, "PEER_IPS=" ++ ips,
    "PEER_NAMES=" ++ join "," names, "ETCD_INITIAL_CLUSTER_STATE=existing", ""]

theorem buildJoinerClusterEnv_eq {leaderEnv : List (String × String)}
    {nodeName localIp issuedAt env : String} {ips : List Json} {names : List String}
    (h : buildJoinerClusterEnv leaderEnv nodeName localIp ips names issuedAt = .ok env) :
    ∃ text, joinValues ips = .ok text ∧
      env = join "\n" (joinerHead nodeName localIp text issuedAt names ++
        ((leaderEnv.filter fun kv => kv.1 ∉ perPeerKeys).map fun kv => kv.1 ++ "=" ++ kv.2) ++ [""]) := by
  unfold buildJoinerClusterEnv at h
  cases hjoin : joinValues ips with
  | error e =>
      simp only [hjoin, bind, Except.bind] at h
      split_ifs at h
  | ok text =>
      simp only [hjoin, bind, Except.bind] at h
      split_ifs at h
      cases h
      exact ⟨text, rfl, rfl⟩

theorem of_map_ok {α β ε : Type*} {f : α → β} {x : Except ε α} {b : β} (h : x.map f = .ok b) :
    ∃ a, x = .ok a ∧ f a = b := by
  cases x with
  | error e => cases h
  | ok a =>
      cases h
      exact ⟨a, rfl, rfl⟩

theorem bare_joinValues {values : List Json} {text : String} (h : joinValues values = .ok text)
    (hbare : ∀ s, Json.str s ∈ values → Bare s) : Bare text := by
  obtain ⟨texts, hm, rfl⟩ := of_map_ok h
  apply bare_join
  clear h
  induction values generalizing texts with
  | nil =>
      cases hm
      intro s hs
      cases hs
  | cons v vs ih =>
      rw [List.mapM_cons] at hm
      cases v with
      | str s =>
          simp only [bind, Except.bind] at hm
          split at hm
          · cases hm
          · next rest hrest =>
              cases hm
              intro t ht
              rcases List.mem_cons.mp ht with rfl | ht
              · exact hbare t List.mem_cons_self
              · exact ih (fun s hs => hbare s (List.mem_cons_of_mem _ hs)) rest hrest t ht
      | _ => cases hm

theorem silent_rule : Silent key rule := by
  have hnone : entriesOf rule = [] := by decide +kernel
  intro kv hkv
  rw [hnone] at hkv
  cases hkv

theorem silent_joinerHead {nodeName localIp ips issuedAt : String} {names : List String}
    (hper : key.text ∉ perPeerKeys) (hname : Bare nodeName) (hlocal : Bare localIp) (hips : Bare ips)
    (hissued : Bare issuedAt) (hnames : ∀ s ∈ names, Bare s) :
    ∀ line ∈ joinerHead nodeName localIp ips issuedAt names, Silent key line := by
  have hother : ∀ name ∈ perPeerKeys, name ≠ key.text := fun name hmem heq => hper (heq ▸ hmem)
  have hassigned : ∀ name ∈ perPeerKeys, ∀ s, Bare s → Silent key (name ++ "=" ++ s) := by
    intro name hmem s hs
    have hplain : ∀ name ∈ perPeerKeys, name ≠ "" ∧ strip name = name ∧ Bare name ∧ Unbroken name := by
      decide +kernel
    obtain ⟨hne, hstrip, hbare, hunbroken⟩ := hplain name hmem
    exact silent_assignment hne hstrip hbare hunbroken hs (hother name hmem)
  intro line hline
  simp only [joinerHead, List.mem_cons, List.not_mem_nil, or_false] at hline
  rcases hline with rfl | rfl | rfl | rfl | rfl | rfl | rfl | rfl | rfl | rfl | rfl
  · exact silent_rule
  · exact silent_bare (by decide)
  · exact silent_bare (bare_append (by decide) hissued)
  · exact silent_rule
  · exact silent_bare (by decide)
  · exact hassigned "NODE_NAME" (by decide) nodeName hname
  · exact hassigned "LOCAL_IP" (by decide) localIp hlocal
  · exact hassigned "PEER_IPS" (by decide) ips hips
  · exact hassigned "PEER_NAMES" (by decide) _ (bare_join hnames)
  · exact hassigned "ETCD_INITIAL_CLUSTER_STATE" (by decide) "existing" (by decide)
  · exact silent_bare (by decide)

/-- Peers whose names and ips assign nothing. -/
def BarePeers (peers : List (String × Json)) : Prop :=
  ∀ e ∈ peers, Bare e.1 ∧ ∀ ip, ipOf e.2 = some ip → Bare ip

theorem mem_combinedIps {peers ips : List (String × Json)} (h : combinedIps peers = .ok ips)
    {e : String × Json} (he : e ∈ ips) :
    ∃ info, (e.1, info) ∈ peers ∧ infoGet "ip" info = .ok (some e.2) := by
  induction peers generalizing ips with
  | nil =>
      cases h
      cases he
  | cons x rest ih =>
      obtain ⟨name, info⟩ := x
      simp only [combinedIps, bind, Except.bind] at h
      split at h
      · cases h
      · next v hv =>
          split at h
          · cases h
          · next ips' hrest =>
              cases h
              have htail : e ∈ ips' → ∃ i, (e.1, i) ∈ (name, info) :: rest ∧
                  infoGet "ip" i = .ok (some e.2) := by
                intro hin
                obtain ⟨i, hi, hget⟩ := ih hrest hin
                exact ⟨i, List.mem_cons_of_mem _ hi, hget⟩
              split_ifs at he with htruthy
              · rcases List.mem_cons.mp he with rfl | he
                · refine ⟨info, List.mem_cons_self, ?_⟩
                  cases v with
                  | none => cases htruthy
                  | some w => exact hv
                · exact htail he
              · exact htail he

/-- A setting of the leader's file is in the copy of a joiner. -/
theorem Sets.joinerEnv (hkey : IsWord key) (hper : key.text ∉ perPeerKeys)
    (h : Sets key value lines) {c : JoinCall} {name issuedAt env : String}
    {others : List (String × Json)} (hname : Bare name) (hip : Bare c.joinerIp)
    (hothers : BarePeers others) (hissued : Bare issuedAt)
    (henv : c.joinerEnv name others (some (fileText lines)) issuedAt = .ok env) :
    Sets key value (installed env) := by
  simp only [JoinCall.joinerEnv, orderedPeerNamesAndIpsAfterJoin, bind, Except.bind] at henv
  cases hips : combinedIps others with
  | error e =>
      rw [hips] at henv
      cases henv
  | ok ips =>
      simp only [hips, readClusterEnv] at henv
      obtain ⟨text, hjoin, rfl⟩ := buildJoinerClusterEnv_eq henv
      have hpair : ∀ e ∈ (dictSet name (.str c.joinerIp) ips).insertionSort
          (fun a b => keyLe (nodeSortKey a.1) (nodeSortKey b.1) = true),
          Bare e.1 ∧ ∀ s, e.2 = .str s → Bare s := by
        intro e he
        rcases mem_dictSet ((List.mem_insertionSort _).mp he) with rfl | hin
        · exact ⟨hname, fun s hs => by cases hs; exact hip⟩
        · obtain ⟨info, hinfo, hget⟩ := mem_combinedIps hips hin
          obtain ⟨hbare, hbareIp⟩ := hothers _ hinfo
          exact ⟨hbare, fun s hs => hbareIp s (infoGet_ip (hs ▸ hget))⟩
      have htext : Bare text := by
        refine bare_joinValues hjoin fun s hs => ?_
        obtain ⟨e, he, hes⟩ := List.mem_map.mp hs
        exact (hpair e he).2 s hes
      have hnames : ∀ s ∈ ((dictSet name (.str c.joinerIp) ips).insertionSort
          (fun a b => keyLe (nodeSortKey a.1) (nodeSortKey b.1) = true)).map Prod.fst, Bare s := by
        intro s hs
        obtain ⟨e, he, rfl⟩ := List.mem_map.mp hs
        exact (hpair e he).1
      have hshared : Sets key value (((parseClusterEnv (fileText lines)).filter fun kv =>
          kv.1 ∉ perPeerKeys).map fun kv => kv.1 ++ "=" ++ kv.2) := by
        refine sets_written (fun w hw => Sets.plain (hw ▸ h))
          (fun e he => clean_parse lines e (List.mem_of_mem_filter he)) ?_
        have hfound := h.found hkey (show SharedSettings.found key [] = [] from rfl)
        rw [← parseClusterEnv_fileText] at hfound
        rw [← hfound, SharedSettings.found, SharedSettings.found, List.filter_filter]
        refine List.filter_congr fun e _ => ?_
        by_cases he : e.1 = key.text
        · simp [he, hper]
        · simp [he]
      have hlines := (hshared.append
        (silent_joinerHead hper hname hip htext hissued hnames)).flatMap_split hkey
      rw [installed, split_join_lines (by simp), List.flatMap_append, List.flatMap_singleton,
        show split '\n' "" = [""] from by decide, List.dropLast_concat]
      exact hlines

end MilvusOnprem.SharedSettings
