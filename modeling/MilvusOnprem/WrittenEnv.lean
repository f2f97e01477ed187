import MilvusOnprem.EnvStore

/-!
# Files that are written line by line

A `cluster.env` is first written by commands that echo its lines, or by a builder that joins
them. Lines that are comments, or settings of words, with keys that differ, are a file of the
store, and its map is what the settings say.
-/
namespace MilvusOnprem.WrittenEnv

open PythonText EnvText EnvFormat EnvStore ShellSource Assignments IssuedEnv
open SharedSettings (lineBreaks Unbroken)

/-- A line that is written: an empty one, a comment, a comment with a value, a setting with a
fixed value, and a setting with a value that the writer has. -/
inductive Echo (A : Type)
  | blank
  | note (text : String)
  | noteOf (text : String) (value : A → Word)
  | fixed (key text : String)
  | setting (key : String) (value : A → Word)

namespace Echo

variable {A : Type} (a : A)

def text : Echo A → String
  | .blank => ""
  | .note text => text
  | .noteOf text value => text ++ (value a).value
  | .fixed key text => assignment key text
  | .setting key value => assignment key (value a).value

def entry : Echo A → Option (String × String)
  | .blank | .note _ | .noteOf _ _ => none
  | .fixed key text => some (key, text)
  | .setting key value => some (key, (value a).value)

def key : Echo A → Option String
  | .blank | .note _ | .noteOf _ _ => none
  | .fixed key _ | .setting key _ => some key

end Echo

/-- The text of the lines, each with its newline. -/
def echoed {A : Type} (a : A) (es : List (Echo A)) : String := String.join (es.map fun e => e.text a ++ "\n")

/-- Parts that are joined, with an empty one at the end, each have their separator. -/
theorem join_ended (sep : String) (parts : List String) :
    join sep (parts ++ [""]) = String.join (parts.map (· ++ sep)) := by
  induction parts with
  | nil => rfl
  | cons s parts ih =>
      rw [List.map_cons, String.join_cons, ← ih]
      cases parts with
      | nil => simp [join]
      | cons t parts => rfl

/-! ## Lines that can be read -/

/-- A comment without line breaks. -/
def noteChars (cs : List Char) : Bool :=
  ['#'].isPrefixOf cs && cs.all fun c => !lineBreaks.contains c.toNat && c ≠ '\x00'

def isNote (text : String) : Bool := noteChars text.toList

theorem isNote_ofList {cs : List Char} (h : noteChars cs = true) : isNote (String.ofList cs) = true := by
  rwa [isNote, String.toList_ofList]

namespace Echo

variable {A : Type}

def noted : Echo A → Bool
  | .note text | .noteOf text _ => isNote text
  | .blank | .fixed _ _ | .setting _ _ => true

def named : Echo A → Bool
  | .blank | .note _ | .noteOf _ _ => true
  | .fixed key text => isName key.toList && isWord text
  | .setting key _ => isName key.toList

theorem entry_key (a : A) (e : Echo A) : (e.entry a).map Prod.fst = e.key := by cases e <;> rfl

end Echo

section Lines

variable {A : Type} (a : A)

/-- A comment, as a line. -/
theorem exists_noteLine {text value : String} (hnote : isNote text = true) (hvalue : Unbroken value)
    (hnull : '\x00' ∉ value.toList) : ∃ line : Line, line.render = text ++ value ∧ Unbroken line.render ∧
      readEntries [line] = [] ∧ shellEntries [line] = [] := by
  rw [isNote, noteChars, Bool.and_eq_true, List.all_eq_true] at hnote
  obtain ⟨rest, hrest⟩ := List.isPrefixOf_iff_prefix.mp hnote.1
  have hchars : ∀ c ∈ text.toList, c.toNat ∉ lineBreaks ∧ c ≠ '\x00' := by
    intro c hc
    have hok := hnote.2 c hc
    rw [Bool.and_eq_true, Bool.not_eq_true', decide_eq_true_eq] at hok
    exact ⟨fun hbreak => Bool.eq_false_iff.mp hok.1 (List.contains_iff_mem.mpr hbreak), hok.2⟩
  have hrests : ∀ c ∈ rest, c ∈ text.toList := by
    intro c hc
    rw [← hrest]
    exact List.mem_append_right _ hc
  have hbreak : '\n'.toNat ∈ lineBreaks := by decide
  have hline : '\n' ∉ rest ++ value.toList := by
    intro hm
    rcases List.mem_append.mp hm with hm | hm
    · exact (hchars _ (hrests _ hm)).1 hbreak
    · exact hvalue _ hm hbreak
  have hnone : '\x00' ∉ rest ++ value.toList := by
    intro hm
    rcases List.mem_append.mp hm with hm | hm
    · exact (hchars _ (hrests _ hm)).2 rfl
    · exact hnull hm
  have hrender : "" ++ "#" ++ String.ofList (rest ++ value.toList) = text ++ value := by
    apply String.toList_injective
    have hhash : "#".toList = ['#'] := rfl
    rw [String.empty_append, String.toList_append, String.toList_append, @String.toList_ofList (rest ++ value.toList),
      ← hrest, hhash, List.append_assoc]
  refine ⟨.comment "" (String.ofList (rest ++ value.toList)) (by simp) (by rwa [String.toList_ofList])
    (by rwa [String.toList_ofList]), hrender, ?_, rfl, rfl⟩
  rw [Line.render, hrender]
  exact SharedSettings.unbroken_append (fun c hc => (hchars c hc).1) hvalue

theorem exists_wordLine (w : Word) {key : String} (hkey : isName key.toList = true) : ∃ line : Line,
    line.render = assignment key w.value ∧ Unbroken line.render ∧
      readEntries [line] = shellEntries [line] ∧ shellEntries [line] = [(key, w.value)] :=
  ⟨Update.line ⟨w, ⟨key, hkey⟩⟩, Update.render_line _, Update.unbroken_line _, Update.alike_line _, rfl⟩

theorem exists_line {e : Echo A} (hnoted : e.noted = true) (hnamed : e.named = true) : ∃ line : Line,
    line.render = e.text a ∧ Unbroken line.render ∧ readEntries [line] = shellEntries [line] ∧
      shellEntries [line] = (e.entry a).toList := by
  cases e with
  | blank =>
      have hblank : Unbroken SyncedRole.noLine.render := by simp [Unbroken, SyncedRole.noLine, Line.render]
      exact ⟨SyncedRole.noLine, rfl, hblank, read_noLine.trans shell_noLine.symm, shell_noLine⟩
  | note text =>
      have hempty : Unbroken "" ∧ '\x00' ∉ "".toList := by simp [Unbroken]
      obtain ⟨line, hrender, hunbroken, hread, hshell⟩ := exists_noteLine hnoted hempty.1 hempty.2
      exact ⟨line, hrender.trans String.append_empty, hunbroken, hread.trans hshell.symm, hshell⟩
  | noteOf text value =>
      obtain ⟨line, hrender, hunbroken, hread, hshell⟩ :=
        exists_noteLine hnoted (value a).unbroken (value a).literal.noNull
      exact ⟨line, hrender, hunbroken, hread.trans hshell.symm, hshell⟩
  | fixed key text =>
      rw [Echo.named, Bool.and_eq_true] at hnamed
      obtain ⟨w, rfl⟩ := exists_word (plain_of_word hnamed.2)
      exact exists_wordLine w hnamed.1
  | setting key value => exact exists_wordLine (value a) hnamed

/-- What a line sets is a word. -/
theorem exists_entryWord {e : Echo A} (hnamed : e.named = true) {kv : String × String} (h : e.entry a = some kv) :
    ∃ w : Word, w.value = kv.2 := by
  cases e with
  | fixed key text =>
      rw [Echo.named, Bool.and_eq_true] at hnamed
      cases h
      exact exists_word (plain_of_word hnamed.2)
  | setting key value =>
      cases h
      exact ⟨value a, rfl⟩
  | _ => cases h

/-- Lines that can be read, of keys that differ, are a file of the store. -/
theorem exists_file {es : List (Echo A)} (hnoted : ∀ e ∈ es, e.noted = true) (hnamed : ∀ e ∈ es, e.named = true)
    (hkeys : (es.filterMap Echo.key).Nodup) :
    ∃ f : EnvFile, f.text = echoed a es ∧ shellEntries f.lines = es.filterMap (Echo.entry a) := by
  have hlines : ∃ lines : List Line, lines.map Line.render = es.map (Echo.text a) ∧
      (∀ line ∈ lines, Unbroken line.render) ∧ (∀ line ∈ lines, readEntries [line] = shellEntries [line]) ∧
      shellEntries lines = es.filterMap (Echo.entry a) := by
    clear hkeys
    induction es with
    | nil => exact ⟨[], rfl, fun _ h => absurd h List.not_mem_nil, fun _ h => absurd h List.not_mem_nil, rfl⟩
    | cons e es ih =>
        rw [List.forall_mem_cons] at hnoted hnamed
        obtain ⟨line, hrender, hunbroken, halike, hentries⟩ := exists_line a hnoted.1 hnamed.1
        obtain ⟨lines, hrenders, hunbrokens, halikes, hall⟩ := ih hnoted.2 hnamed.2
        refine ⟨line :: lines, ?_, List.forall_mem_cons.mpr ⟨hunbroken, hunbrokens⟩,
          List.forall_mem_cons.mpr ⟨halike, halikes⟩, ?_⟩
        · rw [List.map_cons, List.map_cons, hrender, hrenders]
        · rw [shellEntries_cons, hentries, hall, List.filterMap_cons]
          cases e.entry a <;> rfl
  obtain ⟨lines, hrender, hunbroken, halike, hentries⟩ := hlines
  have honce : ((shellEntries lines).map Prod.fst).Nodup := by
    have hfirst : (es.filterMap (Echo.entry a)).map Prod.fst = es.filterMap Echo.key := by
      rw [List.map_filterMap]
      exact congrArg (List.filterMap · es) (funext (Echo.entry_key a))
    rwa [hentries, hfirst]
  refine ⟨⟨lines, hunbroken, halike, honce⟩, ?_, hentries⟩
  apply String.toList_injective
  calc _ = charsOf (lines.map Line.render ++ [""]) := charsOf_text _
    _ = (join "\n" (es.map (Echo.text a) ++ [""])).toList := by rw [hrender, toList_join_newline]
    _ = (echoed a es).toList := by rw [join_ended, List.map_map]; rfl

end Lines

end MilvusOnprem.WrittenEnv
