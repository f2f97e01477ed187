import MilvusOnprem.EnvText
import MilvusOnprem.ShellSource
import MilvusOnprem.JobPolling

/-!
# The two edits of cluster.env

`env_upsert_kv` of the shell beside `_upsert_kv` of the daemon. The shell first
wants a file to end with a newline; a command substitution has no newline at its
end, so what it compares with a newline never is one. The lines of the key are
rewritten by a substitution that has the value as its replacement, in which an
ampersand stands for the matched line and a backslash escapes.
-/
namespace MilvusOnprem.ShellUpsert

open PythonText EnvText ShellSource Assignments
open JobPolling (substituted)

/-- A key of the file that the shell can assign to. -/
structure Variable where
  name : String
  isName : isName name.toList = true
deriving DecidableEq

/-- `$(tail -c 1 "$CLUSTER_ENV")` -/
def lastByte (text : List Char) : List Char := substituted text.getLast?.toList

/-- The newline that is added in front of the edit. -/
def endLine (text : List Char) : List Char :=
  if text ≠ [] ∧ lastByte text ≠ ['\n'] then text ++ ['\n'] else text

/-- What a backslash and a character stand for in a replacement. The case
conversions and the numeric escapes are not followed, and a group that the pattern
does not have is an error. -/
def escape (line : List Char) (c : Char) : Option (List Char) :=
  if c = '0' then some line
  else if c.isDigit || "LUluEcdox".toList.contains c then none
  else if c = 'n' then some ['\n']
  else if c = 't' then some ['\t']
  else if c = 'r' then some ['\r']
  else if c = 'f' then some ['\x0c']
  else if c = 'v' then some ['\x0b']
  else if c = 'a' then some ['\x07']
  else some [c]

/-- The replacement of a matched line. A bar ends the command in the middle of the
value, and what follows is no command. -/
def replacement (line : List Char) : List Char → Option (List Char)
  | [] => some []
  | '\\' :: c :: cs => (escape line c).bind fun x => (replacement line cs).map (x ++ ·)
  | c :: cs =>
      if c = '\\' ∨ c = '|' ∨ c = '\n' then none
      else (replacement line cs).map ((if c = '&' then line else [c]) ++ ·)

/-- `^{key}=` -/
def hits (key : Variable) (line : List Char) : Bool := (key.name ++ "=").toList.isPrefixOf line

/-- `s|^{key}=.*|{key}={value}|` on a line with its newline. -/
def sedLine (key : Variable) (value : String) (line : List Char) : Option (List Char) :=
  if hits key line then
    (replacement (line.takeWhile fun c => c ≠ '\n') value.toList).map fun x =>
      (key.name ++ "=").toList ++ x ++ line.dropWhile fun c => c ≠ '\n'
  else some line

/-- `env_upsert_kv` on the text of the file, if `sed` accepts the command. -/
def envUpsertKv (key : Variable) (value : String) (text : String) : Option String :=
  let cs := endLine text.toList
  let lines := keepEnds cs []
  if lines.any (hits key) then
    (lines.mapM (sedLine key value)).map fun lines => String.ofList lines.flatten
  else some (String.ofList (cs ++ (assignment key.name value).toList ++ ['\n']))

/-- Both edits give every variable the same value and the key its own, and a second
edit changes neither file. -/
structure SameEdit (key : Variable) (value text : String) : Prop where
  sourced : ∃ shellText es es', envUpsertKv key value text = some shellText ∧
    source (upsertKv key.name value text) = some es ∧ source shellText = some es' ∧
    (∀ name, last name es = last name es') ∧ last key.name es = some value
  python : upsertKv key.name value (upsertKv key.name value text) = upsertKv key.name value text
  shell : ∀ shellText, envUpsertKv key value text = some shellText →
    envUpsertKv key value shellText = some shellText

/-! ## The newlines of the shell's file -/

/-- What a substitution gives is never a newline. -/
theorem lastByte_ne_newline (text : List Char) : lastByte text ≠ ['\n'] := by
  rw [lastByte]
  cases text.getLast? with
  | none => simp [substituted]
  | some c =>
      by_cases hnull : c = '\x00'
      · subst hnull
        decide
      · by_cases hc : c = '\n'
        · subst hc
          decide
        · simp [substituted, hnull, hc]

theorem endLine_eq {text : List Char} (h : text ≠ []) : endLine text = text ++ ['\n'] :=
  if_pos ⟨h, lastByte_ne_newline text⟩

theorem keepEnds_flatten (cs line : List Char) : (keepEnds cs line).flatten = line.reverse ++ cs := by
  induction cs generalizing line with
  | nil => by_cases h : line = [] <;> simp [keepEnds, h]
  | cons c cs ih =>
      rw [keepEnds]
      split_ifs <;> simp [ih]

/-- A line keeps its newline. -/
theorem sedLine_newlines {key : Variable} {value : String} {line line' : List Char}
    (h : sedLine key value line = some line') : line.count '\n' ≤ line'.count '\n' := by
  rw [sedLine] at h
  split_ifs at h
  · obtain ⟨x, -, rfl⟩ := Option.map_eq_some_iff.mp h
    have hbody : (line.takeWhile fun c => c ≠ '\n').count '\n' = 0 := by
      rw [List.count_eq_zero]
      intro hmem
      exact absurd (List.mem_takeWhile_imp hmem) (by simp)
    calc line.count '\n'
        = (line.takeWhile fun c => c ≠ '\n').count '\n' +
            (line.dropWhile fun c => c ≠ '\n').count '\n' := by
          rw [← List.count_append, List.takeWhile_append_dropWhile]
      _ ≤ _ := by
          rw [hbody, List.count_append]
          omega
  · cases h
    exact le_rfl

theorem sedLines_newlines {key : Variable} {value : String} {lines lines' : List (List Char)}
    (h : lines.mapM (sedLine key value) = some lines') :
    lines.flatten.count '\n' ≤ lines'.flatten.count '\n' := by
  induction lines generalizing lines' with
  | nil => exact Nat.zero_le _
  | cons line lines ih =>
      rw [List.mapM_cons] at h
      obtain ⟨line', hline, h⟩ := Option.bind_eq_some_iff.mp h
      obtain ⟨rest, hrest, h⟩ := Option.bind_eq_some_iff.mp h
      cases h
      rw [List.flatten_cons, List.flatten_cons, List.count_append, List.count_append]
      exact Nat.add_le_add (sedLine_newlines hline) (ih hrest)

/-- The edit keeps all newlines, also the one that it has added. -/
theorem envUpsertKv_newlines {key : Variable} {value text shellText : String}
    (h : envUpsertKv key value text = some shellText) :
    (endLine text.toList).count '\n' ≤ shellText.toList.count '\n' := by
  rw [envUpsertKv] at h
  split_ifs at h
  · obtain ⟨lines, hlines, rfl⟩ := Option.map_eq_some_iff.mp h
    have hcount := sedLines_newlines hlines
    rw [keepEnds_flatten, List.reverse_nil, List.nil_append] at hcount
    rwa [String.toList_ofList]
  · cases h
    rw [String.toList_ofList, List.count_append, List.count_append]
    omega

/-- A second edit of the shell never leaves the file alone: it adds an empty line. -/
theorem envUpsertKv_again (key : Variable) (value text : String) :
    envUpsertKv key value text ≠ some text := by
  intro h
  have hcount := envUpsertKv_newlines h
  by_cases hempty : text.toList = []
  · have hline : envUpsertKv key value text =
        some (String.ofList ((assignment key.name value).toList ++ ['\n'])) := by
      rw [envUpsertKv, hempty]
      rfl
    rw [hline] at h
    have hlist := congrArg String.toList (Option.some.inj h)
    rw [String.toList_ofList, hempty] at hlist
    simp at hlist
  · rw [endLine_eq hempty, List.count_append] at hcount
    have hone : ['\n'].count '\n' = 1 := by decide
    omega

/-- The two edits are never the same operation. -/
theorem edits_never_same (key : Variable) (value text : String) : ¬SameEdit key value text := by
  rintro ⟨⟨shellText, es, es', hedit, -⟩, -, hshell⟩
  exact envUpsertKv_again key value shellText (hshell shellText hedit)

/-- A line that the shell has written is followed by an empty one after the next edit. -/
theorem second_edit_grows : ∃ (key : Variable) (value text : String), '\n' ∉ value.toList ∧
    source text = some [(key.name, "0")] ∧ ¬SameEdit key value text := by
  refine ⟨⟨"A", by decide⟩, "1", "A=0\n", by decide, by decide +kernel, fun h => ?_⟩
  have hfirst : envUpsertKv ⟨"A", by decide⟩ "1" "A=0\n" = some "A=1\n\n" := by decide +kernel
  have hsecond : envUpsertKv ⟨"A", by decide⟩ "1" "A=1\n\n" = some "A=1\n\n\n" := by decide +kernel
  have hsame := hsecond.symm.trans (h.shell _ hfirst)
  revert hsame
  decide

end MilvusOnprem.ShellUpsert
