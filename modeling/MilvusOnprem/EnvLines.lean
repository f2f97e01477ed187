import MilvusOnprem.MigratePulsar

/-!
# The lines of a cluster.env and what they set

The lines that a reader gets out of a text, and the entries of a line that
assigns to a key. The readers split at different line breaks, so a line of the
file may be several lines to a reader.
-/
namespace MilvusOnprem.EnvLines

open PythonText ClusterEnv EnvFile
open MigratePulsar (fileText)

/-! ## The lines of a text -/

section SplitLines

variable {breaks : List ℕ} {cs line : List Char}

/-- A character that is no first half of a line break. -/
theorem splitLinesFrom_cons {c : Char} (line : List Char) (h : ∀ rest, c = '\r' → cs ≠ '\n' :: rest) :
    splitLinesFrom breaks (c :: cs) line =
      if breaks.contains c.toNat then line.reverse :: splitLinesFrom breaks cs []
      else splitLinesFrom breaks cs (c :: line) := by
  rw [splitLinesFrom]
  exact h

/-- What follows a line break is split on its own. -/
theorem splitLinesFrom_append (hn : 10 ∈ breaks) (rest cs line : List Char) :
    splitLinesFrom breaks (cs ++ '\n' :: rest) line =
      splitLinesFrom breaks (cs ++ ['\n']) line ++ splitLinesFrom breaks rest [] := by
  -- the break that follows joins a carriage return at the end
  have hfirst : ∀ (c : Char) (cs tail : List Char), (∀ more, c = '\r' → cs = '\n' :: more → False) →
      ¬(c = '\r' ∧ cs = []) → ∀ more, c = '\r' → cs ++ '\n' :: tail ≠ '\n' :: more := by
    intro c cs tail hcr hnonempty more hc hmore
    cases cs with
    | nil => exact hnonempty ⟨hc, rfl⟩
    | cons d ds =>
        rw [List.cons_append, List.cons.injEq] at hmore
        exact hcr ds hc (by rw [hmore.1])
  fun_induction splitLinesFrom breaks cs line with
  | case1 => simp [splitLinesFrom, hn]
  | case2 line hne => simp [splitLinesFrom, hn]
  | case3 cs line ih => simp [splitLinesFrom, ih]
  | case4 c cs line hcr hc ih =>
      by_cases hlast : c = '\r' ∧ cs = []
      · obtain ⟨rfl, rfl⟩ := hlast
        simp [splitLinesFrom]
      · rw [List.cons_append, List.cons_append, splitLinesFrom_cons line (hfirst c cs rest hcr hlast),
          splitLinesFrom_cons line (hfirst c cs [] hcr hlast), if_pos hc, if_pos hc, ih,
          List.cons_append]
  | case5 c cs line hcr hc ih =>
      by_cases hlast : c = '\r' ∧ cs = []
      · obtain ⟨rfl, rfl⟩ := hlast
        simp [splitLinesFrom]
      · rw [List.cons_append, List.cons_append, splitLinesFrom_cons line (hfirst c cs rest hcr hlast),
          splitLinesFrom_cons line (hfirst c cs [] hcr hlast), if_neg hc, if_neg hc, ih]

theorem splitLinesFrom_fileText (hn : 10 ∈ breaks) (lines : Lines) :
    splitLinesFrom breaks (fileText lines).toList [] =
      lines.flatMap fun line => splitLinesFrom breaks (line ++ "\n").toList [] := by
  induction lines with
  | nil => rfl
  | cons line lines ih =>
      have htext : (fileText (line :: lines)).toList =
          line.toList ++ '\n' :: (fileText lines).toList := by
        simp [fileText, String.join_cons]
      rw [htext, splitLinesFrom_append hn, ih, List.flatMap_cons, String.toList_append]
      rfl

/-- The characters of a line are those of the text that break no line. -/
theorem mem_splitLinesFrom {r : List Char} {c : Char} (hr : r ∈ splitLinesFrom breaks cs line)
    (hc : c ∈ r) : c ∈ line ∨ c ∈ cs ∧ c.toNat ∉ breaks := by
  fun_induction splitLinesFrom breaks cs line with
  | case1 => cases hr
  | case2 line hne =>
      rw [List.mem_singleton.mp hr, List.mem_reverse] at hc
      exact .inl hc
  | case3 cs line ih =>
      rcases List.mem_cons.mp hr with rfl | hr
      · exact .inl (List.mem_reverse.mp hc)
      · rcases ih hr with hnil | ⟨hcs, hb⟩
        · cases hnil
        · exact .inr ⟨List.mem_cons_of_mem _ (List.mem_cons_of_mem _ hcs), hb⟩
  | case4 d cs line hcr hd ih =>
      rcases List.mem_cons.mp hr with rfl | hr
      · exact .inl (List.mem_reverse.mp hc)
      · rcases ih hr with hnil | ⟨hcs, hb⟩
        · cases hnil
        · exact .inr ⟨List.mem_cons_of_mem _ hcs, hb⟩
  | case5 d cs line hcr hd ih =>
      rcases ih hr with hline | ⟨hcs, hb⟩
      · rcases List.mem_cons.mp hline with rfl | hline
        · exact .inr ⟨List.mem_cons_self, by simpa using hd⟩
        · exact .inl hline
      · exact .inr ⟨List.mem_cons_of_mem _ hcs, hb⟩

/-- The current line goes on with what follows it. -/
theorem splitLinesFrom_head (hne : cs ≠ [] ∨ line ≠ []) :
    ∃ x rest, splitLinesFrom breaks cs line = (line.reverse ++ x) :: rest ∧ (∀ c ∈ x, c ∈ cs) ∧
      ∀ r ∈ rest, ∀ c ∈ r, c ∈ cs := by
  have hrest : ∀ cs : List Char, ∀ r ∈ splitLinesFrom breaks cs [], ∀ c ∈ r, c ∈ cs := by
    intro cs r hr c hc
    rcases mem_splitLinesFrom hr hc with hnil | ⟨hcs, -⟩
    · cases hnil
    · exact hcs
  fun_induction splitLinesFrom breaks cs line with
  | case1 => simp at hne
  | case2 line hline => exact ⟨[], [], by simp, by simp, by simp⟩
  | case3 cs line ih =>
      refine ⟨[], _, by rw [List.append_nil], by simp, fun r hr c hc => ?_⟩
      exact List.mem_cons_of_mem _ (List.mem_cons_of_mem _ (hrest cs r hr c hc))
  | case4 d cs line hcr hd ih =>
      refine ⟨[], _, by rw [List.append_nil], by simp, fun r hr c hc => ?_⟩
      exact List.mem_cons_of_mem _ (hrest cs r hr c hc)
  | case5 d cs line hcr hd ih =>
      obtain ⟨x, rest, hx, hmem, hmem'⟩ := ih (.inr (List.cons_ne_nil d line))
      refine ⟨d :: x, rest, by rw [hx]; simp, fun c hc => ?_, fun r hr c hc => ?_⟩
      · rcases List.mem_cons.mp hc with rfl | hc
        · exact List.mem_cons_self
        · exact List.mem_cons_of_mem _ (hmem c hc)
      · exact List.mem_cons_of_mem _ (hmem' r hr c hc)

theorem splitLinesFrom_prefix {pre : List Char} (h : ∀ c ∈ pre, c ≠ '\r' ∧ c.toNat ∉ breaks)
    (cs line : List Char) :
    splitLinesFrom breaks (pre ++ cs) line = splitLinesFrom breaks cs (pre.reverse ++ line) := by
  induction pre generalizing line with
  | nil => rfl
  | cons c pre ih =>
      obtain ⟨hr, hb⟩ := h c List.mem_cons_self
      rw [List.cons_append, splitLinesFrom_cons line fun _ hcr => absurd hcr hr,
        if_neg (by simpa using hb), ih fun d hd => h d (List.mem_cons_of_mem c hd)]
      simp

end SplitLines

/-! ## The entry of an assignment -/

/-- A text that a strip leaves alone starts with no blank. -/
theorem isSpace_head {s : String} (h : strip s = s) {c : Char} {cs : List Char}
    (hs : s.toList = c :: cs) : isSpace c = false := by
  rw [Bool.eq_false_iff]
  intro hc
  have hlen := congrArg List.length (congrArg String.toList h)
  rw [strip, stripChars, String.toList_ofList, hs, List.dropWhile_cons_of_pos hc,
    List.length_reverse] at hlen
  have hle : ((cs.dropWhile isSpace).reverse.dropWhile isSpace).length ≤ cs.length :=
    calc ((cs.dropWhile isSpace).reverse.dropWhile isSpace).length
        ≤ (cs.dropWhile isSpace).reverse.length := (List.dropWhile_suffix _).length_le
      _ = (cs.dropWhile isSpace).length := List.length_reverse
      _ ≤ cs.length := (List.dropWhile_suffix _).length_le
  rw [hlen, List.length_cons] at hle
  exact absurd hle (by omega)

/-- A strip of an assignment leaves its key and the equals sign. -/
theorem strip_assignment {k : String} (hne : k ≠ "") (hk : strip k = k) (value : String) :
    ∃ rest, (strip (k ++ "=" ++ value)).toList = k.toList ++ '=' :: rest := by
  have hchars : (k ++ "=" ++ value).toList = k.toList ++ '=' :: value.toList := by
    simp
  have hdrop : (k ++ "=" ++ value).toList.dropWhile isSpace = k.toList ++ '=' :: value.toList := by
    rw [hchars]
    cases htext : k.toList with
    | nil => exact absurd (String.toList_injective htext) hne
    | cons c cs =>
        exact List.dropWhile_cons_of_neg (by rw [isSpace_head hk htext]; exact Bool.false_ne_true)
  have hback : ∃ rest, ((k.toList ++ '=' :: value.toList).reverse.dropWhile isSpace).reverse =
      k.toList ++ '=' :: rest := by
    rw [List.reverse_append, List.reverse_cons, List.append_assoc, List.dropWhile_append]
    split_ifs with hblank
    · exact ⟨[], by simp [show isSpace '=' = false from by decide]⟩
    · exact ⟨(value.toList.reverse.dropWhile isSpace).reverse, by simp⟩
  obtain ⟨rest, hrest⟩ := hback
  exact ⟨rest, by rw [strip, stripChars, hdrop, hrest, String.toList_ofList]⟩

/-- An assignment is read as one to its key, unless it is a comment. -/
theorem envEntry_assignment {k : String} (hne : k ≠ "") (hk : strip k = k) (heq : '=' ∉ k.toList)
    (value : String) : (startsWith k "#" = true ∧ envEntry (k ++ "=" ++ value) = none) ∨
      ∃ w, envEntry (k ++ "=" ++ value) = some (k, w) := by
  obtain ⟨rest, hrest⟩ := strip_assignment hne hk value
  have hempty : strip (k ++ "=" ++ value) ≠ "" := by
    intro h
    rw [h] at hrest
    simp at hrest
  have hhash : startsWith (strip (k ++ "=" ++ value)) "#" = startsWith k "#" := by
    rw [startsWith, startsWith, hrest]
    cases htext : k.toList with
    | nil => exact absurd (String.toList_injective htext) hne
    | cons c cs => rfl
  have hmem : '=' ∈ (strip (k ++ "=" ++ value)).toList := by
    rw [hrest]
    exact List.mem_append_right _ List.mem_cons_self
  have hkey : (strip (k ++ "=" ++ value)).toList.takeWhile (fun c => c ≠ '=') = k.toList := by
    rw [hrest, takeWhile_key heq]
  by_cases hcomment : startsWith k "#" = true
  · refine .inl ⟨hcomment, ?_⟩
    rw [envEntry, hhash, if_pos (.inr hcomment)]
  · right
    rw [envEntry, hhash, if_neg (by simp [hempty, hcomment]), partition, if_pos hmem, hkey,
      Option.map_some, String.ofList_toList, hk]
    exact ⟨_, Eq.refl _⟩

/-- A line without an equals sign has no entry. -/
theorem envEntry_none {line : String} (h : '=' ∉ line.toList) : envEntry line = none := by
  have hstrip : '=' ∉ (strip line).toList := by
    intro hmem
    rw [strip, stripChars, String.toList_ofList, List.mem_reverse] at hmem
    have hdrop := (List.dropWhile_suffix _).mem hmem
    rw [List.mem_reverse] at hdrop
    exact h ((List.dropWhile_suffix _).mem hdrop)
  rw [envEntry]
  split_ifs
  · rfl
  · rw [partition, if_neg hstrip, Option.map_none]

end MilvusOnprem.EnvLines
