import MilvusOnprem.ShellSource
import MilvusOnprem.PythonText

/-!
# The words of a command line

A shell reads a line of commands that are joined by `&&` into lists of words. Text that it
would expand, and every operator besides `&&`, is not followed. Words that were quoted by
`shlex.quote` come back as they were, whatever their characters are.
-/
namespace MilvusOnprem.ShellWords

open PythonText ShellSource

/-- A character that needs no quotes. -/
def isSafe (c : Char) : Bool := isNameChar c || "@%+=:,.-/".toList.contains c

/-- `'` inside single quotes -/
def quoteChar (c : Char) : List Char := if c = '\'' then "'\"'\"'".toList else [c]

/-- `shlex.quote` -/
def quote (s : String) : String :=
  if s = "" then "''"
  else if s.toList.all isSafe then s
  else String.ofList ('\'' :: s.toList.flatMap quoteChar ++ ['\''])

/-- `" ".join(shlex.quote(a) for a in args)` -/
def quoteAll (args : List String) : String := join " " (args.map quote)

/-! ## The shell -/

/-- What the next character belongs to. -/
inductive Mode
  | gap
  | bare
  | single
  | double
  | ampersand
deriving DecidableEq

/-- The characters of bare text that begin an expansion, a pattern or a comment. -/
def isActive (c : Char) : Bool := "$`\\~*?[]\x7b\x7d#!^".toList.contains c

/-- What is read on between double quotes. -/
def isActiveQuoted (c : Char) : Bool := "$`\\!".toList.contains c

/-- A character of the first word of the first command. -/
def keep (c : Char) : List (List (List Char)) → List (List (List Char)) :=
  List.modifyHead (List.modifyHead (c :: ·))

/-- The first command begins with one more word, still empty. -/
def openWord : List (List (List Char)) → List (List (List Char)) := List.modifyHead ([] :: ·)

/-- The commands of a line, each with its words. A text inside a word is read into the first
word of the first command. -/
def read : Mode → List Char → Option (List (List (List Char)))
  | .gap, [] => some [[]]
  | .bare, [] => some [[[]]]
  | .single, [] | .double, [] | .ampersand, [] => none
  | .gap, c :: cs =>
      if isBlank c then read .gap cs
      else if c = '&' then read .ampersand cs
      else if c = '\'' then read .single cs
      else if c = '"' then read .double cs
      else if isActive c || isMeta c || c = '\n' then none
      else (read .bare cs).map (keep c)
  | .bare, c :: cs =>
      if isBlank c then (read .gap cs).map openWord
      else if c = '&' then (read .ampersand cs).map openWord
      else if c = '\'' then read .single cs
      else if c = '"' then read .double cs
      else if isActive c || isMeta c || c = '\n' then none
      else (read .bare cs).map (keep c)
  | .single, c :: cs => if c = '\'' then read .bare cs else (read .single cs).map (keep c)
  | .double, c :: cs =>
      if c = '"' then read .bare cs
      else if isActiveQuoted c then none
      else (read .double cs).map (keep c)
  | .ampersand, c :: cs => if c = '&' then (read .gap cs).map ([] :: ·) else none

def reserved : List String :=
  ["if", "then", "elif", "else", "fi", "for", "in", "until", "while", "do", "done", "case", "esac", "select",
    "function", "time", "coproc", "\x7b", "\x7d", "!", "[["]

/-- The first word names a program: it is no reserved word and no assignment. -/
def isCommand : List String → Bool
  | [] => false
  | name :: _ => !reserved.contains name && !name.toList.contains '='

/-- The commands of a line `a && b && …`, if the line is followed. -/
def commands (line : String) : Option (List (List String)) :=
  ((read .gap line.toList).map (List.map (List.map String.ofList))).filter fun cs => cs.all isCommand

/-! ## Quoted words -/

/-- The text stands in front of the first word of the first command. -/
def keepAll (s : List Char) : List (List (List Char)) → List (List (List Char)) :=
  List.modifyHead (List.modifyHead (s ++ ·))

@[simp] theorem keepAll_nil : keepAll [] = id := by
  funext cs
  cases cs with
  | nil => rfl
  | cons c cs => cases c <;> rfl

theorem keepAll_cons (c : Char) (s : List Char) : keepAll (c :: s) = keep c ∘ keepAll s := by
  funext cs
  cases cs with
  | nil => rfl
  | cons c cs => cases c <;> rfl

theorem safe_notMem {c : Char} {cs : List Char} (h : isSafe c = true) (hcs : ∀ d ∈ cs, isSafe d = false) :
    cs.contains c = false := by
  rw [← Bool.not_eq_true, List.contains_iff_mem]
  intro hmem
  rw [hcs c hmem] at h
  cases h

theorem safe_ne {c d : Char} (h : isSafe c = true) (hd : isSafe d = false) : c ≠ d := by
  rintro rfl
  rw [h] at hd
  cases hd

/-- A safe character is no blank and no operator, opens no quote and begins no expansion. -/
theorem read_safe {m : Mode} (hm : m = .gap ∨ m = .bare) {c : Char} (h : isSafe c = true) (cs : List Char) :
    read m (c :: cs) = (read .bare cs).map (keep c) := by
  have hblank : isBlank c = false := by
    simp [isBlank, safe_ne h (d := ' ') (by decide), safe_ne h (d := '\t') (by decide)]
  have hactive : isActive c = false := safe_notMem h (by decide)
  have hmeta : isMeta c = false := safe_notMem h (by decide)
  have hamp : c ≠ '&' := safe_ne h (by decide)
  have hsingle : c ≠ '\'' := safe_ne h (by decide)
  have hdouble : c ≠ '"' := safe_ne h (by decide)
  have hline : c ≠ '\n' := safe_ne h (by decide)
  rcases hm with rfl | rfl <;> simp [read, hblank, hactive, hmeta, hamp, hsingle, hdouble, hline]

theorem read_safeText {s : List Char} (h : s.all isSafe = true) (rest : List Char) :
    read .bare (s ++ rest) = (read .bare rest).map (keepAll s) := by
  induction s with
  | nil => simp
  | cons c s ih =>
      obtain ⟨hc, hs⟩ := (Bool.and_eq_true _ _).mp h
      rw [List.cons_append, read_safe (.inr rfl) hc, ih hs, Option.map_map, keepAll_cons]

/-- Between single quotes every character stands for itself, and a quote is closed, read
between double quotes and opened again. -/
theorem read_quoted (s rest : List Char) :
    read .single (s.flatMap quoteChar ++ '\'' :: rest) = (read .bare rest).map (keepAll s) := by
  induction s with
  | nil => simp [read]
  | cons c s ih =>
      rw [keepAll_cons, ← Option.map_map, ← ih, List.flatMap_cons, List.append_assoc]
      by_cases hc : c = '\''
      · subst hc
        simp [quoteChar, read, isBlank, isActiveQuoted]
      · simp [quoteChar, read, hc]

/-- A quoted word is read as it was, however it goes on behind it. -/
theorem read_quote (s : String) (rest : List Char) :
    read .gap ((quote s).toList ++ rest) = (read .bare rest).map (keepAll s.toList) := by
  unfold quote
  split_ifs with hempty hsafe
  · subst hempty
    simp [read, isBlank]
  · cases hs : s.toList with
    | nil => exact absurd (String.toList_eq_nil_iff.mp hs) hempty
    | cons c cs =>
        rw [hs] at hsafe
        obtain ⟨hc, hcs⟩ := (Bool.and_eq_true _ _).mp hsafe
        rw [List.cons_append, read_safe (.inl rfl) hc, ← read_safe (.inr rfl) hc]
        exact read_safeText hsafe rest
  · rw [String.toList_ofList, List.append_assoc, List.cons_append, List.singleton_append]
    have hopen : read .gap ('\'' :: (s.toList.flatMap quoteChar ++ '\'' :: rest)) =
        read .single (s.toList.flatMap quoteChar ++ '\'' :: rest) := by
      simp [read, isBlank]
    rw [hopen, read_quoted]

/-! ## Quoted commands -/

/-- The text of words, each with what follows it. -/
theorem quoteAll_cons (a : String) (args : List String) (rest : List Char) :
    (quoteAll (a :: args)).toList ++ rest =
      (quote a).toList ++ (if args = [] then rest else ' ' :: ((quoteAll args).toList ++ rest)) := by
  cases args with
  | nil => rfl
  | cons b args => simp [quoteAll, join]

/-- A list of quoted words is read as it was. Behind it the line ends, or another command
follows. -/
theorem read_quoteAll {args : List String} (hne : args ≠ []) {rest : List Char}
    {behind : List (List (List Char))} (hrest : read .bare rest = some ([[]] :: behind)) :
    read .gap ((quoteAll args).toList ++ rest) = some (args.map String.toList :: behind) := by
  induction args with
  | nil => exact absurd rfl hne
  | cons a args ih =>
      rw [quoteAll_cons, read_quote]
      split_ifs with hlast
      · subst hlast
        rw [hrest]
        simp [keepAll]
      · have hgap : read .bare (' ' :: ((quoteAll args).toList ++ rest)) =
            (read .gap ((quoteAll args).toList ++ rest)).map openWord := by
          simp [read, isBlank]
        rw [hgap, ih hlast]
        simp [keepAll, openWord]

/-- The words of two commands survive the shell. -/
theorem commands_quoteAll {first second : List String} (hfirst : isCommand first = true)
    (hsecond : isCommand second = true) :
    commands (quoteAll first ++ " && " ++ quoteAll second) = some [first, second] := by
  have hnil : ∀ {args : List String}, isCommand args = true → args ≠ [] := by
    rintro args h rfl
    cases h
  have hlast : read .gap ((quoteAll second).toList ++ []) = some [second.map String.toList] :=
    read_quoteAll (hnil hsecond) rfl
  have hnext : read .bare (" && ".toList ++ (quoteAll second).toList) =
      some ([[]] :: [second.map String.toList]) := by
    rw [List.append_nil] at hlast
    simp [read, isBlank, hlast, openWord]
  have hline := read_quoteAll (hnil hfirst) hnext
  have hwords : ∀ args : List String, (args.map String.toList).map String.ofList = args := by
    intro args
    simp [Function.comp_def]
  unfold commands
  rw [String.toList_append, String.toList_append, List.append_assoc, hline]
  simp only [Option.map_some, List.map_cons, List.map_nil, hwords]
  rw [Option.filter_some, if_pos]
  simp [hfirst, hsecond]

/-- A character that is no quote is in a quoted text only if it is in the text. -/
theorem mem_quote {s : String} {c : Char} (hsingle : c ≠ '\'') (hdouble : c ≠ '"') (h : c ∈ (quote s).toList) :
    c ∈ s.toList := by
  unfold quote at h
  split_ifs at h with hempty hsafe
  · simp [hsingle] at h
  · exact h
  · rw [String.toList_ofList] at h
    simp only [List.cons_append, List.mem_cons, List.mem_append, List.mem_flatMap, List.not_mem_nil, or_false,
      hsingle, false_or] at h
    obtain ⟨d, hd, hc⟩ := h
    unfold quoteChar at hc
    split_ifs at hc with heq
    · simp [hsingle, hdouble] at hc
    · rwa [List.mem_singleton.mp hc]

theorem mem_quoteAll {args : List String} {c : Char} (hsingle : c ≠ '\'') (hdouble : c ≠ '"') (hblank : c ≠ ' ')
    (h : c ∈ (quoteAll args).toList) : ∃ a ∈ args, c ∈ a.toList := by
  rcases mem_toList_join h with hc | ⟨p, hp, hc⟩
  · simp [hblank] at hc
  · obtain ⟨a, ha, rfl⟩ := List.mem_map.mp hp
    exact ⟨a, ha, mem_quote hsingle hdouble hc⟩

end MilvusOnprem.ShellWords
