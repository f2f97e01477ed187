import MilvusOnprem.Assignments
import Mathlib.Data.List.DropRight
import Mathlib.Data.List.Basic

/-!
# Sourcing assignments

What a POSIX-like shell makes of a text of assignments that it sources. A line is
blank, a comment, or a list of words `NAME=VALUE`, and every value is read to the
end of its word with its quotes and backslashes taken away. A line that does
something else is not followed: one that runs a command, expands a dollar sign, a
backquote or a tilde, or leaves a quote or a backslash open at its end.
-/
namespace MilvusOnprem.ShellSource

open Assignments

/-- How the next character of a value is read. A tilde is expanded at the start of
a value and behind a colon. -/
inductive Quoting
  | bare (tilde : Bool)
  | single
  | double
  | escaped
  | escapedDouble
deriving DecidableEq

def isBlank (c : Char) : Bool := c = ' ' || c = '\t'

def isNameStart (c : Char) : Bool :=
  ('a'.toNat ≤ c.toNat && c.toNat ≤ 'z'.toNat) || ('A'.toNat ≤ c.toNat && c.toNat ≤ 'Z'.toNat) || c = '_'

def isNameChar (c : Char) : Bool := isNameStart c || ('0'.toNat ≤ c.toNat && c.toNat ≤ '9'.toNat)

def isName : List Char → Bool
  | [] => false
  | c :: cs => isNameStart c && cs.all isNameChar

/-- The characters that end a word and mean something between words. -/
def isMeta (c : Char) : Bool := ";&|<>()".toList.contains c

/-- Whether a dollar sign in front of this text begins an expansion. -/
def expands : List Char → Bool
  | [] => false
  | c :: _ => isNameChar c || "\x7b([@*#?-$!".toList.contains c

/-- Bare text knows two more kinds of quotes that a dollar sign opens. -/
def expandsBare (cs : List Char) : Bool := expands cs || cs.head?.any fun c => c = '\'' || c = '"'

/-- What a backslash escapes between double quotes. -/
def isEscapable (c : Char) : Bool := "$\"\\`".toList.contains c

/-- A value without its quotes, and the rest of the line behind the word. -/
def scanValue : Quoting → List Char → Option (List Char × List Char)
  | .bare _, [] => some ([], [])
  | _, [] => none
  | .single, c :: cs =>
      if c = '\'' then scanValue (.bare false) cs
      else (scanValue .single cs).map fun r => (c :: r.1, r.2)
  | .double, c :: cs =>
      if c = '"' then scanValue (.bare false) cs
      else if c = '\\' then scanValue .escapedDouble cs
      else if c = '`' || (c = '$' && expands cs) then none
      else (scanValue .double cs).map fun r => (c :: r.1, r.2)
  | .escaped, c :: cs => (scanValue (.bare false) cs).map fun r => (c :: r.1, r.2)
  | .escapedDouble, c :: cs =>
      if isEscapable c then (scanValue .double cs).map fun r => (c :: r.1, r.2)
      else (scanValue .double cs).map fun r => ('\\' :: c :: r.1, r.2)
  | .bare tilde, c :: cs =>
      if isBlank c then some ([], c :: cs)
      else if c = '\'' then scanValue .single cs
      else if c = '"' then scanValue .double cs
      else if c = '\\' then scanValue .escaped cs
      else if isMeta c || c = '`' || (c = '$' && expandsBare cs) || (c = '~' && tilde) then none
      else (scanValue (.bare (c = ':')) cs).map fun r => (c :: r.1, r.2)

/-- The assignments on a line; the number bounds the words. -/
def words : ℕ → List Char → Option (List (String × String))
  | 0, _ => none
  | n + 1, cs =>
      match cs.dropWhile isBlank with
      | [] => some []
      | '#' :: _ => some []
      | c :: cs =>
          let name := (c :: cs).takeWhile isNameChar
          match (c :: cs).dropWhile isNameChar with
          | '=' :: rest =>
              if isName name then
                (scanValue (.bare true) rest).bind fun r =>
                  (words n r.2).map ((String.ofList name, String.ofList r.1) :: ·)
              else none
          | _ => none

def sourceLine (line : List Char) : Option (List (String × String)) :=
  if '\x00' ∈ line then none else words (line.length + 1) line

/-- The assignments of lines in their order, if all of the lines are followed. -/
def sourceLines (lines : List (List Char)) : Option (List (String × String)) :=
  (lines.mapM sourceLine).map List.flatten

def source (text : String) : Option (List (String × String)) := sourceLines (text.toList.splitOn '\n')

/-- Whether a text stands for itself as a value. -/
def literalFrom : Bool → List Char → Bool
  | _, [] => true
  | tilde, c :: cs =>
      !(isBlank c || c = '\'' || c = '"' || c = '\\' || isMeta c || c = '`' ||
        (c = '$' && expandsBare cs) || (c = '~' && tilde)) && literalFrom (c = ':') cs

/-- A value that is written as it is. -/
structure Literal (value : String) : Prop where
  scanned : literalFrom true value.toList = true
  oneLine : '\n' ∉ value.toList
  noNull : '\x00' ∉ value.toList

/-! ## One value -/

theorem scan_literal {tilde : Bool} {cs : List Char} (h : literalFrom tilde cs = true) :
    scanValue (.bare tilde) cs = some (cs, []) := by
  induction cs generalizing tilde with
  | nil => rfl
  | cons c cs ih =>
      simp only [literalFrom, Bool.and_eq_true, Bool.not_eq_true', Bool.or_eq_false_iff,
        decide_eq_false_iff_not] at h
      obtain ⟨⟨⟨⟨⟨⟨⟨⟨hblank, hsingle⟩, hdouble⟩, hback⟩, hmeta⟩, hquote⟩, hdollar⟩, htilde⟩, hcs⟩ := h
      simp [scanValue, hblank, hsingle, hdouble, hback, hmeta, hquote, hdollar, htilde, ih hcs]

/-- The closing quote that is still to be read. -/
def Quoting.closing : Quoting → ℕ
  | .single | .double => 1
  | _ => 0

theorem scan_length {q : Quoting} {cs : List Char} {r : List Char × List Char}
    (h : scanValue q cs = some r) : r.1.length + r.2.length + q.closing ≤ cs.length := by
  fun_induction scanValue q cs generalizing r with
  -- the text ends, or the word does
  | case1 tilde =>
      cases h
      exact le_rfl
  | case12 tilde c cs hblank =>
      cases h
      simp [Quoting.closing]
  | case2 | case7 | case16 => cases h
  -- a quote or a backslash is dropped
  | case3 cs ih | case5 cs ih | case6 cs _ ih | case13 tilde cs _ ih | case14 tilde cs _ _ ih
  | case15 tilde cs _ _ _ ih =>
      have hlen := ih h
      simp only [Quoting.closing, List.length_cons] at hlen ⊢
      omega
  -- a character is kept
  | case4 c cs _ ih | case8 c cs _ _ _ ih | case9 c cs ih | case10 c cs _ ih | case11 c cs _ ih
  | case17 tilde c cs _ _ _ _ _ ih =>
      obtain ⟨r, hr, rfl⟩ := Option.map_eq_some_iff.mp h
      have hlen := ih hr
      simp only [Quoting.closing, List.length_cons] at hlen ⊢
      omega

/-- Only a text that stands for itself gives a value of its own length. -/
theorem literal_of_length {tilde : Bool} {cs : List Char} {r : List Char × List Char}
    (h : scanValue (.bare tilde) cs = some r) (hlen : cs.length ≤ r.1.length) :
    literalFrom tilde cs = true := by
  induction cs generalizing tilde r with
  | nil => rfl
  | cons c cs ih =>
      -- a quote or a backslash in front leaves less than the text behind it
      have hdropped : ∀ q : Quoting, scanValue q cs ≠ some r := by
        intro q hq
        have hrest := scan_length hq
        rw [List.length_cons] at hlen
        omega
      rw [scanValue] at h
      split_ifs at h with hblank hsingle hdouble hback hstop
      · cases h
        simp at hlen
      · exact absurd h (hdropped _)
      · exact absurd h (hdropped _)
      · exact absurd h (hdropped _)
      · obtain ⟨r, hr, rfl⟩ := Option.map_eq_some_iff.mp h
        have hcs := ih hr (by simpa using hlen)
        simp_all [literalFrom, imp_iff_not_or]

/-! ## Lines -/

/-- Every value on a line is shorter than the line. -/
theorem words_length {n : ℕ} {cs : List Char} {es : List (String × String)} (h : words n cs = some es) :
    ∀ e ∈ es, e.2.toList.length < cs.length := by
  induction n generalizing cs es with
  | zero => cases h
  | succ n ih =>
      rw [words] at h
      have hskip := (List.dropWhile_suffix (l := cs) isBlank).length_le
      split at h
      · cases h
        exact nofun
      · cases h
        exact nofun
      next c rest hcs hc =>
        rw [hc] at hskip
        dsimp only at h
        split at h
        · next rest' hrest =>
            have hname := (List.dropWhile_suffix (l := c :: rest) isNameChar).length_le
            rw [hrest, List.length_cons] at hname
            split_ifs at h with hisName
            obtain ⟨r, hr, h⟩ := Option.bind_eq_some_iff.mp h
            obtain ⟨es', hes', rfl⟩ := Option.map_eq_some_iff.mp h
            have hlen := scan_length hr
            intro e he
            rcases List.mem_cons.mp he with rfl | he
            · rw [String.toList_ofList]
              omega
            · have hmem := ih hes' e he
              omega
        · cases h

theorem takeWhile_name {name : List Char} (h : isName name = true) (rest : List Char) :
    (name ++ '=' :: rest).takeWhile isNameChar = name ∧
      (name ++ '=' :: rest).dropWhile isNameChar = '=' :: rest := by
  have hall : ∀ c ∈ name, isNameChar c = true := by
    cases name with
    | nil => simp
    | cons c cs =>
        simp only [isName, Bool.and_eq_true, List.all_eq_true] at h
        intro d hd
        rcases List.mem_cons.mp hd with rfl | hd
        · rw [isNameChar, h.1, Bool.true_or]
        · exact h.2 d hd
  have hstop : isNameChar '=' = false := by decide
  rw [List.takeWhile_append_of_pos hall, List.dropWhile_append_of_pos hall,
    List.takeWhile_cons_of_neg (by simp [hstop]), List.dropWhile_cons_of_neg (by simp [hstop])]
  exact ⟨List.append_nil name, rfl⟩

/-- A line that begins with an assignment. -/
theorem words_assignment {name : List Char} (h : isName name = true) (n : ℕ) (rest : List Char) :
    words (n + 1) (name ++ '=' :: rest) = (scanValue (.bare true) rest).bind fun r =>
      (words n r.2).map ((String.ofList name, String.ofList r.1) :: ·) := by
  obtain ⟨htake, hdrop⟩ := takeWhile_name h rest
  cases name with
  | nil => cases h
  | cons c cs =>
      have hstart : isNameStart c = true := (Bool.and_eq_true _ _ ▸ h).1
      have hblank : isBlank c = false := by
        rw [Bool.eq_false_iff]
        intro hb
        rw [isBlank, Bool.or_eq_true, decide_eq_true_eq, decide_eq_true_eq] at hb
        rcases hb with rfl | rfl <;> revert hstart <;> decide
      have hhash : c ≠ '#' := by
        rintro rfl
        revert hstart
        decide
      have hskip : (c :: cs ++ '=' :: rest).dropWhile isBlank = c :: (cs ++ '=' :: rest) := by
        rw [List.cons_append, List.dropWhile_cons_of_neg (by simp [hblank])]
      rw [words, hskip]
      rw [List.cons_append] at htake hdrop
      split
      · next heq => cases heq
      · next heq => exact absurd (List.cons.inj heq).1 hhash
      · next heq =>
          obtain ⟨rfl, rfl⟩ := List.cons.inj heq
          dsimp only
          rw [htake, hdrop]
          exact if_pos h

/-- The number of words does not matter once it is larger than the line. -/
theorem words_fuel {n m : ℕ} {cs : List Char} (hn : cs.length < n) (hm : cs.length < m) :
    words n cs = words m cs := by
  induction n generalizing m cs with
  | zero => exact absurd hn (Nat.not_lt_zero _)
  | succ n ih =>
      obtain ⟨m, rfl⟩ := Nat.exists_eq_succ_of_ne_zero (Nat.ne_zero_of_lt hm)
      have hskip := (List.dropWhile_suffix (l := cs) isBlank).length_le
      rw [words, words]
      split
      · rfl
      · rfl
      · next c rest hcs hc =>
        rw [hc] at hskip
        dsimp only
        split
        · next rest' hrest =>
            have hname := (List.dropWhile_suffix (l := c :: rest) isNameChar).length_le
            rw [hrest, List.length_cons] at hname
            split_ifs with hisName
            · refine Option.bind_congr fun r hr => ?_
              have hlen := scan_length hr
              have hwords : words n r.2 = words m r.2 := ih (by omega) (by omega)
              rw [hwords]
            · rfl
        · rfl

/-- Blanks in front of a line are skipped. -/
theorem sourceLine_blank {blank : List Char} (h : ∀ c ∈ blank, isBlank c = true) (line : List Char) :
    sourceLine (blank ++ line) = sourceLine line := by
  have hnull : '\x00' ∉ blank := fun hmem => absurd (h _ hmem) (by decide)
  have hwords : ∀ n, words (n + 1) (blank ++ line) = words (n + 1) line := by
    intro n
    rw [words, words, List.dropWhile_append_of_pos h]
  have hiff : '\x00' ∈ blank ++ line ↔ '\x00' ∈ line := by
    rw [List.mem_append, or_iff_right hnull]
  simp only [sourceLine, hiff]
  split_ifs
  · rfl
  · rw [hwords]
    refine words_fuel ?_ (Nat.lt_succ_self _)
    rw [List.length_append]
    omega

theorem isNameChar_null : isNameChar '\x00' = false := by decide

theorem null_notMem_name {name : List Char} (h : isName name = true) : '\x00' ∉ name := by
  intro hmem
  obtain ⟨htake, -⟩ := takeWhile_name h []
  rw [← htake] at hmem
  exact absurd (List.mem_takeWhile_imp hmem) (by rw [isNameChar_null]; exact Bool.false_ne_true)

theorem sourceLine_assignment {name : List Char} (h : isName name = true) {rest : List Char}
    (hnull : '\x00' ∉ rest) : sourceLine (name ++ '=' :: rest) =
      (scanValue (.bare true) rest).bind fun r =>
        (words (name ++ '=' :: rest).length r.2).map ((String.ofList name, String.ofList r.1) :: ·) := by
  have hline : '\x00' ∉ name ++ '=' :: rest := by
    intro hmem
    rcases List.mem_append.mp hmem with hmem | hmem
    · exact null_notMem_name h hmem
    · rcases List.mem_cons.mp hmem with heq | hmem
      · revert heq
        decide
      · exact hnull hmem
  rw [sourceLine, if_neg hline, words_assignment h]

/-- The line of one assignment whose value is read to the end. -/
theorem sourceLine_scanned {name rest value : List Char} (h : isName name = true)
    (hnull : '\x00' ∉ rest) (hscan : scanValue (.bare true) rest = some (value, [])) :
    sourceLine (name ++ '=' :: rest) = some [(String.ofList name, String.ofList value)] := by
  rw [sourceLine_assignment h hnull, hscan, Option.bind_some, List.length_append, List.length_cons,
    ← Nat.add_assoc, words]
  rfl

theorem sourceLine_literal {name value : String} (hname : isName name.toList = true)
    (h : Literal value) : sourceLine (name.toList ++ '=' :: value.toList) = some [(name, value)] := by
  rw [sourceLine_scanned hname h.noNull (scan_literal h.scanned), String.ofList_toList,
    String.ofList_toList]

/-- A line that is written for a value gives shorter values only, unless the value
stands for itself. -/
theorem literal_of_sourceLine {name value : String} {es : List (String × String)}
    (hname : isName name.toList = true) (hline : '\n' ∉ value.toList)
    (h : sourceLine (name.toList ++ '=' :: value.toList) = some es) {e : String × String}
    (he : e ∈ es) (hvalue : value.toList.length ≤ e.2.toList.length) : Literal value := by
  have hnull : '\x00' ∉ value.toList := by
    intro hmem
    rw [sourceLine, if_pos (List.mem_append_right _ (List.mem_cons_of_mem _ hmem))] at h
    cases h
  rw [sourceLine_assignment hname hnull] at h
  obtain ⟨r, hr, h⟩ := Option.bind_eq_some_iff.mp h
  obtain ⟨es', hes', rfl⟩ := Option.map_eq_some_iff.mp h
  have hlen := scan_length hr
  rcases List.mem_cons.mp he with rfl | he
  · rw [String.toList_ofList] at hvalue
    exact ⟨literal_of_length hr hvalue, hline, hnull⟩
  · have hshort := words_length hes' e he
    omega

/-- A line of an assignment assigns to its variable. -/
theorem last_sourceLine {name value : String} {es : List (String × String)}
    (hname : isName name.toList = true)
    (h : sourceLine (name.toList ++ '=' :: value.toList) = some es) : ∃ v, last name es = some v := by
  have hnull : '\x00' ∉ value.toList := by
    intro hmem
    rw [sourceLine, if_pos (List.mem_append_right _ (List.mem_cons_of_mem _ hmem))] at h
    cases h
  rw [sourceLine_assignment hname hnull] at h
  obtain ⟨r, hr, h⟩ := Option.bind_eq_some_iff.mp h
  obtain ⟨es', hes', rfl⟩ := Option.map_eq_some_iff.mp h
  rw [String.ofList_toList, last_cons, if_pos rfl]
  cases last name es' with
  | none => exact ⟨_, rfl⟩
  | some v => exact ⟨v, rfl⟩

/-! ## Quoted values -/

/-- Whether a text stands for itself between double quotes. -/
def plainFrom : List Char → Bool
  | [] => true
  | c :: cs => !(c = '"' || c = '\\' || c = '`' || (c = '$' && expands cs)) && plainFrom cs

theorem scan_single {cs : List Char} (h : '\'' ∉ cs) :
    scanValue .single (cs ++ ['\'']) = some (cs, []) := by
  induction cs with
  | nil => rfl
  | cons c cs ih =>
      have hc : c ≠ '\'' := fun he => h (he ▸ List.mem_cons_self)
      rw [List.cons_append, scanValue, if_neg hc, ih fun hm => h (List.mem_cons_of_mem c hm)]
      rfl

theorem scan_double {cs : List Char} (h : plainFrom cs = true) :
    scanValue .double (cs ++ ['"']) = some (cs, []) := by
  induction cs with
  | nil => rfl
  | cons c cs ih =>
      simp only [plainFrom, Bool.and_eq_true, Bool.not_eq_true', Bool.or_eq_false_iff,
        decide_eq_false_iff_not] at h
      obtain ⟨⟨⟨⟨hquote, hback⟩, htick⟩, hdollar⟩, hcs⟩ := h
      have hclose : expands (cs ++ ['"']) = expands cs := by
        cases cs with
        | nil => decide
        | cons d ds => rfl
      rw [List.cons_append, scanValue, hclose]
      simp [hquote, hback, htick, hdollar, ih hcs]

/-! ## Texts -/

theorem sourceLines_cons (line : List Char) (lines : List (List Char)) :
    sourceLines (line :: lines) =
      (sourceLine line).bind fun es => (sourceLines lines).map (es ++ ·) := by
  rw [sourceLines, List.mapM_cons]
  cases hline : sourceLine line with
  | none => rfl
  | some es => cases hlines : lines.mapM sourceLine <;> simp [sourceLines, hlines]

theorem sourceLines_append (xs ys : List (List Char)) :
    sourceLines (xs ++ ys) =
      (sourceLines xs).bind fun es => (sourceLines ys).map (es ++ ·) := by
  induction xs with
  | nil =>
      rw [List.nil_append, show sourceLines [] = some [] from rfl, Option.bind_some]
      cases sourceLines ys <;> rfl
  | cons line lines ih =>
      rw [List.cons_append, sourceLines_cons, sourceLines_cons, ih]
      cases sourceLine line with
      | none => rfl
      | some es =>
          cases sourceLines lines with
          | none => rfl
          | some es' => cases sourceLines ys <;> simp

example : source "A=1 # one\nB='x y'\"$\"\\z\n" = some [("A", "1"), ("B", "x y$z")] := by
  decide +kernel

example : source "A=$HOME\n" = none := by decide +kernel

end MilvusOnprem.ShellSource
