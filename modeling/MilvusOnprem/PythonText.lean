import Mathlib.Data.List.Infix
import Mathlib.Data.Int.Basic

/-!
# The string operations of the daemon's language

Python's `str` is a sequence of code points, so its methods are written on the
character list of a `String`. `strip`, `splitlines` and the digit class `\d` use
the Unicode tables; `lower` maps ASCII letters only, since every text the code
searches for after it is ASCII and no other letter is lowered to such a text.
-/
namespace MilvusOnprem.PythonText

/-- Whether all characters of a list have a property is decided by going through the list. -/
instance decidableForallMem (p : Char → Prop) [DecidablePred p] (cs : List Char) :
    Decidable (∀ c ∈ cs, p c) := List.decidableBAll p cs

/-- The code points of `str.isspace`. -/
def spaces : List ℕ :=
  [0x09, 0x0A, 0x0B, 0x0C, 0x0D, 0x1C, 0x1D, 0x1E, 0x1F, 0x20, 0x85, 0xA0, 0x1680,
    0x2000, 0x2001, 0x2002, 0x2003, 0x2004, 0x2005, 0x2006, 0x2007, 0x2008, 0x2009, 0x200A,
    0x2028, 0x2029, 0x202F, 0x205F, 0x3000]

def isSpace (c : Char) : Bool := spaces.contains c.toNat

/-- The zeros of the decimal digit ranges (category `Nd`). -/
def decimalZeros : List ℕ :=
  [0x30, 0x660, 0x6F0, 0x7C0, 0x966, 0x9E6, 0xA66, 0xAE6, 0xB66, 0xBE6, 0xC66, 0xCE6, 0xD66,
    0xDE6, 0xE50, 0xED0, 0xF20, 0x1040, 0x1090, 0x17E0, 0x1810, 0x1946, 0x19D0, 0x1A80, 0x1A90,
    0x1B50, 0x1BB0, 0x1C40, 0x1C50, 0xA620, 0xA8D0, 0xA900, 0xA9D0, 0xA9F0, 0xAA50, 0xABF0,
    0xFF10, 0x104A0, 0x10D30, 0x11066, 0x110F0, 0x11136, 0x111D0, 0x112F0, 0x11450, 0x114D0,
    0x11650, 0x116C0, 0x11730, 0x118E0, 0x11950, 0x11C50, 0x11D50, 0x11DA0, 0x11F50, 0x16A60,
    0x16AC0, 0x16B50, 0x1D7CE, 0x1D7D8, 0x1D7E2, 0x1D7EC, 0x1D7F6, 0x1E140, 0x1E2F0, 0x1E4F0,
    0x1E950, 0x1FBF0]

/-- The value of a character matched by `\d`. -/
def decimalDigit (c : Char) : Option ℕ :=
  decimalZeros.findSome? fun z => if z ≤ c.toNat ∧ c.toNat < z + 10 then some (c.toNat - z) else none

/-- `int(s)` on a text of one or more digits, and nothing on any other. -/
def parseDigits (cs : List Char) : Option ℕ :=
  if cs = [] then none
  else cs.foldlM (fun n c => (decimalDigit c).map fun d => 10 * n + d) 0

/-- What `$` leaves to be matched: one final newline is ignored. -/
def dropFinalNewline (cs : List Char) : List Char :=
  if cs.getLast? = some '\n' then cs.dropLast else cs

def stripChars (p : Char → Bool) (s : String) : String :=
  String.ofList ((s.toList.dropWhile p).reverse.dropWhile p).reverse

/-- `s.strip()` -/
def strip (s : String) : String := stripChars isSpace s

/-- `s.strip(q)` for a single character. -/
def stripOf (q : Char) (s : String) : String := stripChars (fun c => c = q) s

/-- `int(s)`: blanks around it, a sign and single underscores between digits are
allowed. -/
def parseInt (s : String) : Option ℤ :=
  let digits := fun ds : List Char =>
    let groups := ds.splitOn '_'
    if groups.contains [] then none else parseDigits groups.flatten
  match (strip s).toList with
  | '-' :: ds => (digits ds).map fun n => -(n : ℤ)
  | '+' :: ds => (digits ds).map fun n => (n : ℤ)
  | ds => (digits ds).map fun n => (n : ℤ)

/-- `s.lstrip(q)` for a single character. -/
def lstripOf (q : Char) (s : String) : String := String.ofList (s.toList.dropWhile fun c => c = q)

def lowerChar (c : Char) : Char :=
  if 65 ≤ c.toNat ∧ c.toNat ≤ 90 then Char.ofNat (c.toNat + 32) else c

def lower (s : String) : String := String.ofList (s.toList.map lowerChar)

/-- `needle in s` -/
def contains (s needle : String) : Bool := s.toList.tails.any fun t => needle.toList.isPrefixOf t

def startsWith (s pre : String) : Bool := pre.toList.isPrefixOf s.toList

/-- `s.removeprefix(pre)` -/
def removePrefix (pre s : String) : String :=
  if startsWith s pre then String.ofList (s.toList.drop pre.toList.length) else s

@[simp] theorem startsWith_append (pre s : String) : startsWith (pre ++ s) pre = true := by
  simp [startsWith]

@[simp] theorem removePrefix_append (pre s : String) : removePrefix pre (pre ++ s) = s := by
  simp [removePrefix]

theorem removePrefix_injective {pre s t : String} (hs : startsWith s pre = true)
    (ht : startsWith t pre = true) (h : removePrefix pre s = removePrefix pre t) : s = t := by
  obtain ⟨u, hu⟩ := List.isPrefixOf_iff_prefix.mp hs
  obtain ⟨v, hv⟩ := List.isPrefixOf_iff_prefix.mp ht
  have hsu : s = pre ++ String.ofList u := String.toList_injective (by simp [hu])
  have htv : t = pre ++ String.ofList v := String.toList_injective (by simp [hv])
  rw [hsu, htv, removePrefix_append, removePrefix_append] at h
  rw [hsu, htv, h]

theorem append_removePrefix {pre s : String} (h : startsWith s pre = true) :
    pre ++ removePrefix pre s = s :=
  removePrefix_injective (startsWith_append pre _) h (removePrefix_append pre _)

/-- `s.partition(sep)` for a single character: the texts around the first
occurrence, or nothing when there is none. -/
def partition (sep : Char) (s : String) : Option (String × String) :=
  if sep ∈ s.toList then
    some (String.ofList (s.toList.takeWhile fun c => c ≠ sep),
      String.ofList ((s.toList.dropWhile fun c => c ≠ sep).drop 1))
  else none

/-- The lines of a text whose line boundaries are the given code points, a
carriage return with its newline counting once. `line` is the current line,
reversed. -/
def splitLinesFrom (breaks : List ℕ) : List Char → List Char → List (List Char)
  | [], [] => []
  | [], line => [line.reverse]
  | '\r' :: '\n' :: cs, line => line.reverse :: splitLinesFrom breaks cs []
  | c :: cs, line =>
      if breaks.contains c.toNat then line.reverse :: splitLinesFrom breaks cs []
      else splitLinesFrom breaks cs (c :: line)

/-- `s.splitlines()` -/
def splitLines (s : String) : List String :=
  (splitLinesFrom [0x0A, 0x0B, 0x0C, 0x0D, 0x1C, 0x1D, 0x1E, 0x85, 0x2028, 0x2029]
    s.toList []).map String.ofList

/-- The lines a file opened in text mode is iterated by. -/
def fileLines (s : String) : List String :=
  (splitLinesFrom [0x0A, 0x0D] s.toList []).map String.ofList

/-- `s.split(sep)` for a single character. -/
def split (sep : Char) (s : String) : List String :=
  (s.toList.splitOn sep).map String.ofList

/-- `sep.join(parts)` -/
def join (sep : String) : List String → String
  | [] => ""
  | [s] => s
  | s :: t :: rest => s ++ sep ++ join sep (t :: rest)

/-- `repr(s)`, where every character outside ASCII counts as printable. -/
def repr (s : String) : String :=
  let q := if s.toList.contains '\'' && !s.toList.contains '"' then '"' else '\''
  let hex := fun d => if d < 10 then Char.ofNat (48 + d) else Char.ofNat (87 + d)
  let body := s.toList.flatMap fun c =>
    if c = '\\' ∨ c = q then ['\\', c]
    else if c = '\n' then ['\\', 'n']
    else if c = '\r' then ['\\', 'r']
    else if c = '\t' then ['\\', 't']
    else if c.toNat < 32 ∨ c.toNat = 127 then
      ['\\', 'x', hex (c.toNat / 16), hex (c.toNat % 16)]
    else [c]
  String.ofList (q :: body ++ [q])

/-- `s[:n]` -/
def prefixOf (n : ℕ) (s : String) : String := String.ofList (s.toList.take n)

/-! ## Joining and searching -/

theorem join_cons_cons (sep s t : String) (rest : List String) :
    join sep (s :: t :: rest) = s ++ sep ++ join sep (t :: rest) := rfl

/-- Joining texts without the separator and splitting again gives the texts. -/
theorem split_join (sep : Char) {parts : List String} (hne : parts ≠ [])
    (h : ∀ p ∈ parts, sep ∉ p.toList) :
    split sep (join (String.ofList [sep]) parts) = parts := by
  induction parts with
  | nil => exact absurd rfl hne
  | cons p rest ih =>
      have hp : ∀ x ∈ p.toList, (x == sep) = false := by
        intro x hx
        rw [beq_eq_false_iff_ne]
        exact fun he => h p List.mem_cons_self (he ▸ hx)
      cases rest with
      | nil =>
          rw [split, List.splitOn_eq_splitOnP, join, List.splitOnP_eq_singleton hp]
          simp
      | cons q rest =>
          have hrest := ih (List.cons_ne_nil q rest) fun s hs => h s (List.mem_cons_of_mem p hs)
          rw [split, List.splitOn_eq_splitOnP] at hrest ⊢
          rw [join_cons_cons, String.toList_append, String.toList_append, String.toList_ofList,
            List.append_assoc, List.singleton_append,
            List.splitOnP_append_cons_of_forall_mem hp sep (by simp), List.map_cons, hrest,
            String.ofList_toList]

theorem mem_toList_join {sep : String} {parts : List String} {c : Char}
    (h : c ∈ (join sep parts).toList) : c ∈ sep.toList ∨ ∃ p ∈ parts, c ∈ p.toList := by
  induction parts with
  | nil => simp [join] at h
  | cons p rest ih =>
      cases rest with
      | nil => exact .inr ⟨p, List.mem_cons_self, h⟩
      | cons q rest =>
          rw [join_cons_cons, String.toList_append, String.toList_append, List.mem_append,
            List.mem_append] at h
          rcases h with (h | h) | h
          · exact .inr ⟨p, List.mem_cons_self, h⟩
          · exact .inl h
          · exact (ih h).imp_right fun ⟨s, hs, hc⟩ => ⟨s, List.mem_cons_of_mem p hs, hc⟩

theorem mem_join_of_mem {sep p : String} {parts : List String} (h : p ∈ parts) {c : Char}
    (hc : c ∈ p.toList) : c ∈ (join sep parts).toList := by
  induction parts with
  | nil => cases h
  | cons q rest ih =>
      cases rest with
      | nil => exact List.mem_singleton.mp h ▸ hc
      | cons r rest =>
          rw [join_cons_cons, String.toList_append, List.mem_append]
          rcases List.mem_cons.mp h with h | h
          · left
            rw [String.toList_append, List.mem_append]
            exact .inl (h ▸ hc)
          · exact .inr (ih h)

theorem mem_splitOn {sep c : Char} {cs part : List Char} (hpart : part ∈ cs.splitOn sep)
    (hc : c ∈ part) : c ∈ cs ∧ c ≠ sep := by
  induction cs generalizing part with
  | nil =>
      rw [List.splitOn_nil, List.mem_singleton] at hpart
      rw [hpart] at hc
      cases hc
  | cons x xs ih =>
      rw [List.splitOn_cons_eq_if_modifyHead] at hpart
      split_ifs at hpart with hx
      · rcases List.mem_cons.mp hpart with hpart | hpart
        · rw [hpart] at hc
          cases hc
        · exact (ih hpart hc).imp_left (List.mem_cons_of_mem x)
      · obtain ⟨p, ps, hps⟩ := List.exists_cons_of_ne_nil (List.splitOn_ne_nil sep xs)
        rw [hps, List.modifyHead_cons] at hpart
        rcases List.mem_cons.mp hpart with hpart | hpart
        · rw [hpart] at hc
          rcases List.mem_cons.mp hc with hc | hc
          · exact ⟨hc ▸ List.mem_cons_self, by simpa [hc] using hx⟩
          · exact (ih (hps ▸ List.mem_cons_self) hc).imp_left (List.mem_cons_of_mem x)
        · exact (ih (hps ▸ List.mem_cons_of_mem p hpart) hc).imp_left (List.mem_cons_of_mem x)

theorem exists_part_of_mem {sep c : Char} {cs : List Char} (hc : c ∈ cs) (hne : c ≠ sep) :
    ∃ part ∈ cs.splitOn sep, c ∈ part := by
  induction cs with
  | nil => cases hc
  | cons x xs ih =>
      rw [List.splitOn_cons_eq_if_modifyHead]
      rcases List.mem_cons.mp hc with hx | hx
      · rw [if_neg (by simpa [← hx] using hne)]
        obtain ⟨p, ps, hps⟩ := List.exists_cons_of_ne_nil (List.splitOn_ne_nil sep xs)
        exact ⟨x :: p, by rw [hps, List.modifyHead_cons]; exact List.mem_cons_self,
          hx ▸ List.mem_cons_self⟩
      · obtain ⟨part, hpart, hmem⟩ := ih hx
        split_ifs
        · exact ⟨part, List.mem_cons_of_mem _ hpart, hmem⟩
        · obtain ⟨p, ps, hps⟩ := List.exists_cons_of_ne_nil (List.splitOn_ne_nil sep xs)
          rw [hps] at hpart ⊢
          rw [List.modifyHead_cons]
          rcases List.mem_cons.mp hpart with hp | hp
          · exact ⟨x :: p, List.mem_cons_self, List.mem_cons_of_mem x (hp ▸ hmem)⟩
          · exact ⟨part, List.mem_cons_of_mem _ hp, hmem⟩

/-- The characters of a part are characters of the text and not the separator. -/
theorem mem_split {sep c : Char} {s part : String} (hpart : part ∈ split sep s)
    (hc : c ∈ part.toList) : c ∈ s.toList ∧ c ≠ sep := by
  obtain ⟨cs, hcs, rfl⟩ := List.mem_map.mp hpart
  exact mem_splitOn hcs (by simpa using hc)

theorem contains_iff {s needle : String} :
    contains s needle = true ↔ needle.toList <:+: s.toList := by
  simp only [contains, List.any_eq_true, List.mem_tails, List.isPrefixOf_iff_prefix]
  rw [List.infix_iff_prefix_suffix]
  exact ⟨fun ⟨t, h₁, h₂⟩ => ⟨t, h₂, h₁⟩, fun ⟨t, h₁, h₂⟩ => ⟨t, h₂, h₁⟩⟩

theorem parseDigits_chars {cs : List Char} {n : ℕ} (h : parseDigits cs = some n) :
    ∀ c ∈ cs, (decimalDigit c).isSome = true := by
  unfold parseDigits at h
  split_ifs at h
  clear * - h
  generalize 0 = m at h
  induction cs generalizing m with
  | nil =>
      intro c hc
      cases hc
  | cons d ds ih =>
      rw [List.foldlM_cons] at h
      obtain ⟨k, hk, hrest⟩ := Option.bind_eq_some_iff.mp h
      obtain ⟨v, hv, -⟩ := Option.map_eq_some_iff.mp hk
      intro c hc
      rcases List.mem_cons.mp hc with hc | hc
      · rw [hc, hv]
        rfl
      · exact ih k hrest c hc

theorem splitLinesFrom_line {breaks : List ℕ} {cs : List Char} (line : List Char)
    (h : ∀ c ∈ cs, c ≠ '\r' ∧ c.toNat ∉ breaks) (hn : '\n'.toNat ∈ breaks) :
    splitLinesFrom breaks (cs ++ ['\n']) line = [line.reverse ++ cs] := by
  induction cs generalizing line with
  | nil => simp_all [splitLinesFrom]
  | cons c cs ih =>
      obtain ⟨hr, hc⟩ := h c List.mem_cons_self
      have hrest := ih (c :: line) fun d hd => h d (List.mem_cons_of_mem c hd)
      rw [List.cons_append, splitLinesFrom]
      · simp [hc, hrest]
      · exact fun _ he => absurd he hr

theorem stripChars_eq_self {p : Char → Bool} {s : String} (h : ∀ c ∈ s.toList, p c = false) :
    stripChars p s = s := by
  have hdrop : ∀ cs : List Char, (∀ c ∈ cs, p c = false) → cs.dropWhile p = cs := by
    intro cs hcs
    cases cs with
    | nil => rfl
    | cons c cs => exact List.dropWhile_cons_of_neg (by simp [hcs c List.mem_cons_self])
  rw [stripChars, hdrop _ h, hdrop _ fun c hc => h c (List.mem_reverse.mp hc),
    List.reverse_reverse, String.ofList_toList]

example : contains (lower "Error: No Decommission") "no decommission" = true := by decide
example : strip " \t a b\n" = "a b" := by decide

end MilvusOnprem.PythonText
