import MilvusOnprem.ClusterEnv

/-!
# Rewriting cluster.env

`_upsert_kv` on the lines of a file. Every line of the file ends with a newline,
and the values that are written hold no line break, so a file is the list of its
lines. A key holds no equals sign, which the type of keys says.
-/
namespace MilvusOnprem.EnvFile

open PythonText ClusterEnv

abbrev Lines := List String

structure Key where
  text : String
  plain : '=' ∉ text.toList
deriving DecidableEq

def PEER_IPS : Key := ⟨"PEER_IPS", by decide⟩
def PEER_NAMES : Key := ⟨"PEER_NAMES", by decide⟩
def PULSAR_HOST : Key := ⟨"PULSAR_HOST", by decide⟩
def CLUSTER_TOKEN : Key := ⟨"CLUSTER_TOKEN", by decide⟩
def MILVUS_IMAGE_TAG : Key := ⟨"MILVUS_IMAGE_TAG", by decide⟩

/-- `f"{key}={value}"` -/
def Key.line (key : Key) (value : String) : String := key.text ++ "=" ++ value

/-- `line.startswith(f"{key}=")` -/
def Key.isLine (key : Key) (line : String) : Bool := startsWith line (key.text ++ "=")

/-- The edit of `_upsert_kv`: the first line of the key is replaced, and a file
without one gets a new last line. -/
def upsertKv (key : Key) (value : String) : Lines → Lines
  | [] => [key.line value]
  | line :: lines =>
      if key.isLine line then key.line value :: lines else line :: upsertKv key value lines

/-- What stands after the equals sign on the first line of a key. -/
def valueOf (key : Key) (lines : Lines) : Option String :=
  (lines.find? key.isLine).map (removePrefix (key.text ++ "="))

/-- `_read_cluster_env_value` and `_read_kv` on the lines: the first line with
the key counts, blanks and quotes around the value are dropped. -/
def readValue (key : Key) (dflt : String) (lines : Lines) : String :=
  match (lines.filterMap envEntry).find? fun kv => kv.1 = key.text with
  | some kv => kv.2
  | none => dflt

/-! ## Reading a written line -/

theorem takeWhile_key {ks : List Char} (h : '=' ∉ ks) (rest : List Char) :
    (ks ++ '=' :: rest).takeWhile (fun c => c ≠ '=') = ks := by
  induction ks with
  | nil => rfl
  | cons c cs ih =>
      have hc : c ≠ '=' := fun he => h (he ▸ List.mem_cons_self)
      have hcs : '=' ∉ cs := fun hm => h (List.mem_cons_of_mem c hm)
      rw [List.cons_append, List.takeWhile_cons_of_pos (by simpa using hc), ih hcs]

/-- A character that the readers drop nowhere. -/
def isKept (c : Char) : Bool := !isSpace c && c ≠ '"' && c ≠ '\''

theorem stripOf_kept {value : String} (h : ∀ c ∈ value.toList, isKept c = true) {q : Char}
    (hq : isKept q = false) : stripOf q value = value := by
  apply stripChars_eq_self
  intro c hc
  rw [decide_eq_false_iff_not]
  rintro rfl
  rw [h c hc] at hq
  cases hq

theorem strip_kept {value : String} (h : ∀ c ∈ value.toList, isKept c = true) :
    strip value = value := by
  apply stripChars_eq_self
  intro c hc
  have hc' := h c hc
  simp only [isKept, Bool.and_eq_true, Bool.not_eq_true'] at hc'
  exact hc'.1.1

/-- What a reader makes of a line that was written. -/
theorem envEntry_line {key : Key} {value : String}
    (hkey : ∀ c ∈ key.text.toList, isKept c = true ∧ c ≠ '#')
    (hvalue : ∀ c ∈ value.toList, isKept c = true) :
    envEntry (key.line value) = some (key.text, value) := by
  have hchars : (key.line value).toList = key.text.toList ++ '=' :: value.toList := by
    simp [Key.line]
  have hline : ∀ c ∈ (key.line value).toList, isKept c = true := by
    rw [hchars]
    intro c hc
    rcases List.mem_append.mp hc with hc | hc
    · exact (hkey c hc).1
    · rcases List.mem_cons.mp hc with rfl | hc
      · decide
      · exact hvalue c hc
  have hguard : ¬(key.line value = "" ∨ startsWith (key.line value) "#" = true) := by
    rw [startsWith, hchars]
    rintro (hempty | hhash)
    · have hnil := congrArg String.toList hempty
      rw [hchars] at hnil
      simp at hnil
    · cases htext : key.text.toList with
      | nil =>
          rw [htext] at hhash
          revert hhash
          simp
      | cons c cs =>
          rw [htext] at hhash hkey
          have hne := (hkey c List.mem_cons_self).2
          revert hhash
          simp [hne.symm]
  have hpart : partition '=' (key.line value) = some (key.text, value) := by
    have hne : ∀ c ∈ key.text.toList, decide (c ≠ '=') = true := fun c hc =>
      decide_eq_true fun he => key.plain (he ▸ hc)
    rw [partition, hchars, if_pos (by simp), takeWhile_key key.plain,
      List.dropWhile_append_of_pos hne]
    simp
  have hquotes : stripOf '\'' (stripOf '"' (strip value)) = value := by
    rw [strip_kept hvalue, stripOf_kept hvalue (by decide), stripOf_kept hvalue (by decide)]
  rw [envEntry, strip_kept hline]
  simp only [if_neg hguard, hpart, Option.map_some, strip_kept fun c hc => (hkey c hc).1, hquotes]

/-! ## Reading after writing -/

/-- A line that is written for one key is the line of no other key. -/
@[simp] theorem isLine_line (k key : Key) (value : String) :
    k.isLine (key.line value) = decide (k = key) := by
  by_cases h : k = key
  · subst h
    rw [decide_eq_true rfl]
    exact startsWith_append _ _
  · rw [decide_eq_false h, Bool.eq_false_iff]
    intro hpre
    obtain ⟨rest, hrest⟩ := List.isPrefixOf_iff_prefix.mp hpre
    simp only [Key.line, String.toList_append, List.append_assoc] at hrest
    have htake := congrArg (List.takeWhile fun c => c ≠ '=') hrest
    have htext : k.text.toList = key.text.toList := by
      simpa only [show "=".toList = ['='] from rfl, List.singleton_append, takeWhile_key k.plain,
        takeWhile_key key.plain] using htake
    apply h
    cases k
    cases key
    cases String.toList_injective htext
    rfl

@[simp] theorem removePrefix_line (key : Key) (value : String) :
    removePrefix (key.text ++ "=") (key.line value) = value := removePrefix_append _ _

/-- An update sets its key and no other. -/
theorem valueOf_upsertKv (k key : Key) (value : String) (lines : Lines) :
    valueOf k (upsertKv key value lines) = if k = key then some value else valueOf k lines := by
  induction lines with
  | nil =>
      by_cases h : k = key
      · subst h
        simp [upsertKv, valueOf]
      · simp [upsertKv, valueOf, h]
  | cons line lines ih =>
      unfold upsertKv
      split_ifs with hline hk hk
      · subst hk
        simp [valueOf]
      · have hother : k.isLine line = false := by
          rw [Bool.eq_false_iff]
          intro hkline
          obtain ⟨r, hr⟩ := List.isPrefixOf_iff_prefix.mp hkline
          obtain ⟨t, ht⟩ := List.isPrefixOf_iff_prefix.mp hline
          have heq : k.isLine (key.line (String.ofList t)) = true := by
            rw [Key.isLine, startsWith, List.isPrefixOf_iff_prefix]
            exact ⟨r, by rw [hr, ← ht, Key.line]; simp⟩
          rw [isLine_line, decide_eq_true_eq] at heq
          exact hk heq
        simp [valueOf, hk, hother]
      · subst hk
        simpa [valueOf, hline] using ih
      · cases hkline : k.isLine line with
        | true => simp [valueOf, hkline]
        | false => simpa [valueOf, hkline, hk] using ih

@[simp] theorem valueOf_upsertKv_self (key : Key) (value : String) (lines : Lines) :
    valueOf key (upsertKv key value lines) = some value := by
  rw [valueOf_upsertKv, if_pos rfl]

theorem valueOf_upsertKv_of_ne {k key : Key} (h : k ≠ key) (value : String) (lines : Lines) :
    valueOf k (upsertKv key value lines) = valueOf k lines := by
  rw [valueOf_upsertKv, if_neg h]

example : upsertKv PULSAR_HOST "node-2" ["A=1", "PULSAR_HOST=node-1"] =
    ["A=1", "PULSAR_HOST=node-2"] := by decide

end MilvusOnprem.EnvFile
