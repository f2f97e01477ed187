import MilvusOnprem.ImageTag
import MilvusOnprem.EnvLines

/-!
# Files that differ in the token

Two files that have the same lines but for those of the token. Every reader of
another key finds the same in both, whatever the texts of the tokens are, as long
as they hold no line break.
-/
namespace MilvusOnprem.TokenLines

open PythonText ClusterEnv EnvFile EnvLines
open MigratePulsar (fileText)
open ImageTag (registeredTag)

def OneLine (value : String) : Prop := ∀ c ∈ value.toList, c ≠ '\n' ∧ c ≠ '\r'

instance (value : String) : Decidable (OneLine value) :=
  inferInstanceAs (Decidable (∀ c ∈ value.toList, c ≠ '\n' ∧ c ≠ '\r'))

def TokenLine (line : String) : Prop := ∃ value, line = CLUSTER_TOKEN.line value ∧ OneLine value

/-- The same line, or a line of the token in both. -/
def SameLine (a b : String) : Prop := a = b ∨ TokenLine a ∧ TokenLine b

def SameFile (f g : Lines) : Prop := List.Forall₂ SameLine f g

theorem sameFile_refl (f : Lines) : SameFile f f := by
  induction f with
  | nil => exact .nil
  | cons line lines ih => exact .cons (.inl rfl) ih

/-! ## The lines of a text -/

/-- The lines that a reader gets out of one line of the file. -/
def pieces (line : String) : List String := fileLines (line ++ "\n")

theorem fileLines_fileText (lines : Lines) : fileLines (fileText lines) = lines.flatMap pieces := by
  rw [fileLines, splitLinesFrom_fileText (by decide), List.map_flatMap]
  rfl

theorem pieces_oneLine {line : String} (h : OneLine line) : pieces line = [line] := by
  have hbreaks : ∀ c ∈ line.toList, c ≠ '\r' ∧ c.toNat ∉ [0x0A, 0x0D] := by
    intro c hc
    obtain ⟨hn, hr⟩ := h c hc
    refine ⟨hr, ?_⟩
    simp only [List.mem_cons, List.not_mem_nil, or_false, not_or]
    constructor
    · exact fun heq => hn (Char.ext (UInt32.toNat_inj.mp heq))
    · exact fun heq => hr (Char.ext (UInt32.toNat_inj.mp heq))
  rw [pieces, fileLines, String.toList_append, show "\n".toList = ['\n'] from rfl,
    splitLinesFrom_line [] hbreaks (by decide)]
  simp

/-! ## The entry of the token's line -/

theorem oneLine_token {value : String} (h : OneLine value) : OneLine (CLUSTER_TOKEN.line value) := by
  intro c hc
  rw [Key.line, String.toList_append, String.toList_append] at hc
  rcases List.mem_append.mp hc with hc | hc
  · exact (by decide : ∀ c ∈ CLUSTER_TOKEN.text.toList ++ "=".toList, c ≠ '\n' ∧ c ≠ '\r') c hc
  · exact h c hc

theorem envEntry_token (value : String) :
    ∃ v, envEntry (CLUSTER_TOKEN.line value) = some (CLUSTER_TOKEN.text, v) := by
  refine (envEntry_assignment (by decide) (by decide) CLUSTER_TOKEN.plain value).resolve_left ?_
  rintro ⟨hcomment, -⟩
  revert hcomment
  decide

/-! ## What the readers find -/

/-- The first entry of a key. -/
def entryAt (key : String) (lines : Lines) : Option (String × String) :=
  ((lines.flatMap pieces).filterMap envEntry).find? fun kv => kv.1 = key

theorem entryAt_token {key : String} (hkey : key ≠ CLUSTER_TOKEN.text) {line : String}
    (h : TokenLine line) (lines : Lines) : entryAt key (line :: lines) = entryAt key lines := by
  obtain ⟨value, rfl, hvalue⟩ := h
  obtain ⟨v, hv⟩ := envEntry_token value
  have hne : ¬CLUSTER_TOKEN.text = key := fun heq => hkey heq.symm
  simp only [entryAt, List.flatMap_cons, pieces_oneLine (oneLine_token hvalue), List.singleton_append,
    List.filterMap_cons_some hv]
  rw [List.find?_cons_of_neg (by simpa using hne)]

theorem entryAt_same {key : String} (hkey : key ≠ CLUSTER_TOKEN.text) {f g : Lines}
    (h : SameFile f g) : entryAt key f = entryAt key g := by
  induction h with
  | nil => rfl
  | cons hline _ ih =>
      rcases hline with rfl | ⟨ha, hb⟩
      · simp only [entryAt, List.flatMap_cons, List.filterMap_append, List.find?_append] at ih ⊢
        rw [ih]
      · rw [entryAt_token hkey ha, entryAt_token hkey hb, ih]

/-- A reader of another key finds the same value. -/
theorem readClusterEnvValue_same {key : String} (hkey : key ≠ CLUSTER_TOKEN.text) {f g : Lines}
    (h : SameFile f g) (dflt : String) : readClusterEnvValue (some (fileText f)) key dflt =
      readClusterEnvValue (some (fileText g)) key dflt := by
  have hentry := entryAt_same hkey h
  simp only [entryAt, ← fileLines_fileText] at hentry
  simp only [readClusterEnvValue, hentry]

theorem valueOf_same {key : Key} (hkey : key ≠ CLUSTER_TOKEN) {f g : Lines} (h : SameFile f g) :
    valueOf key f = valueOf key g := by
  have hskip : ∀ (line : String) (lines : Lines), TokenLine line →
      valueOf key (line :: lines) = valueOf key lines := by
    rintro line lines ⟨value, rfl, -⟩
    simp [valueOf, hkey]
  induction h with
  | nil => rfl
  | @cons a b f g hline _ ih =>
      rcases hline with rfl | ⟨ha, hb⟩
      · cases hkline : key.isLine a with
        | true => simp [valueOf, hkline]
        | false => simpa [valueOf, hkline] using ih
      · rw [hskip a f ha, hskip b g hb, ih]

theorem registeredTag_same {f g : Lines} (h : SameFile f g) : registeredTag f = registeredTag g := by
  rw [registeredTag, registeredTag, valueOf_same (by decide) h]

/-- The same new token in both files. -/
theorem upsertKv_same (token : String) {f g : Lines} (h : SameFile f g) :
    SameFile (upsertKv CLUSTER_TOKEN token f) (upsertKv CLUSTER_TOKEN token g) := by
  have htoken : ∀ line, TokenLine line → CLUSTER_TOKEN.isLine line = true := by
    rintro line ⟨value, rfl, -⟩
    simp
  induction h with
  | nil => exact sameFile_refl _
  | cons hline hrest ih =>
      rcases hline with rfl | ⟨ha, hb⟩
      · unfold upsertKv
        split_ifs
        · exact .cons (.inl rfl) hrest
        · exact .cons (.inl rfl) ih
      · rw [upsertKv, upsertKv, if_pos (htoken _ ha), if_pos (htoken _ hb)]
        exact .cons (.inl rfl) hrest

end MilvusOnprem.TokenLines
