import MilvusOnprem.EnvFormat

/-!
# Sourcing an edited file

What a shell makes of the line that `_upsert_kv` writes. On a line of its own it assigns to
its key first. Behind the text of another line it belongs to the value of that line, and only
the words behind it can name the key. Such words are shorter than the value that was written.
-/
namespace MilvusOnprem.EditedSource

open PythonText EnvText EnvUpsert EnvFormat ShellSource Assignments

/-! ## What a line holds -/

/-- A value has the characters of its word, and maybe a backslash that was kept. -/
theorem scan_chars {q : Quoting} {cs : List Char} {r : List Char × List Char} (h : scanValue q cs = some r) :
    (∀ c ∈ r.1, c ∈ cs ∨ c = '\\') ∧ ∀ c ∈ r.2, c ∈ cs := by
  fun_induction scanValue q cs generalizing r with
  | case1 tilde => cases h; simp
  | case12 tilde c cs hblank => cases h; simp
  | case2 | case7 | case16 => cases h
  -- a quote or a backslash is dropped
  | case3 cs ih | case5 cs ih | case6 cs _ ih | case13 tilde cs _ ih | case14 tilde cs _ _ ih
  | case15 tilde cs _ _ _ ih =>
      obtain ⟨hvalue, hrest⟩ := ih h
      exact ⟨fun c hc => (hvalue c hc).imp_left (List.mem_cons_of_mem _),
        fun c hc => List.mem_cons_of_mem _ (hrest c hc)⟩
  -- a character is kept
  | case4 c cs _ ih | case8 c cs _ _ _ ih | case9 c cs ih | case10 c cs _ ih | case17 tilde c cs _ _ _ _ _ ih =>
      obtain ⟨r, hr, rfl⟩ := Option.map_eq_some_iff.mp h
      obtain ⟨hvalue, hrest⟩ := ih hr
      refine ⟨fun d hd => ?_, fun d hd => List.mem_cons_of_mem _ (hrest d hd)⟩
      rcases List.mem_cons.mp hd with rfl | hd
      · exact .inl List.mem_cons_self
      · exact (hvalue d hd).imp_left (List.mem_cons_of_mem _)
  | case11 c cs _ ih =>
      obtain ⟨r, hr, rfl⟩ := Option.map_eq_some_iff.mp h
      obtain ⟨hvalue, hrest⟩ := ih hr
      refine ⟨fun d hd => ?_, fun d hd => List.mem_cons_of_mem _ (hrest d hd)⟩
      rcases List.mem_cons.mp hd with rfl | hd
      · exact .inr rfl
      · rcases List.mem_cons.mp hd with rfl | hd
        · exact .inl List.mem_cons_self
        · exact (hvalue d hd).imp_left (List.mem_cons_of_mem _)

theorem words_chars {n : ℕ} {cs : List Char} {es : List (String × String)} (h : words n cs = some es) :
    ∀ e ∈ es, ∀ c ∈ e.2.toList, c ∈ cs ∨ c = '\\' := by
  induction n generalizing cs es with
  | zero => cases h
  | succ n ih =>
      rw [words] at h
      have hskip := List.dropWhile_suffix (l := cs) isBlank
      split at h
      · cases h
        exact fun e he => absurd he List.not_mem_nil
      · cases h
        exact fun e he => absurd he List.not_mem_nil
      next c rest hcs hc =>
        rw [hc] at hskip
        dsimp only at h
        split at h
        · next rest' hrest =>
            have hname := List.dropWhile_suffix (l := c :: rest) isNameChar
            rw [hrest] at hname
            have hmem : ∀ d ∈ rest', d ∈ cs := fun d hd =>
              hskip.mem (hname.mem (List.mem_cons_of_mem _ hd))
            split_ifs at h with hisName
            obtain ⟨r, hr, h⟩ := Option.bind_eq_some_iff.mp h
            obtain ⟨es', hes', rfl⟩ := Option.map_eq_some_iff.mp h
            obtain ⟨hvalue, hbehind⟩ := scan_chars hr
            intro e he d hd
            rcases List.mem_cons.mp he with rfl | he
            · rw [String.toList_ofList] at hd
              exact (hvalue d hd).imp_left (hmem d)
            · exact (ih hes' e he d hd).imp_left fun hd => hmem d (hbehind d hd)
        · cases h

theorem sourceLine_chars {line : List Char} {es : List (String × String)} (h : sourceLine line = some es) :
    ∀ e ∈ es, ∀ c ∈ e.2.toList, c ∈ line ∨ c = '\\' := by
  rw [sourceLine] at h
  split_ifs at h
  exact words_chars h

/-- The entries of a text are the entries of its lines. -/
theorem mem_sourceLines {lines : List (List Char)} {es : List (String × String)}
    (h : sourceLines lines = some es) {e : String × String} (he : e ∈ es) :
    ∃ line ∈ lines, ∃ es', sourceLine line = some es' ∧ e ∈ es' := by
  induction lines generalizing es with
  | nil =>
      cases h
      cases he
  | cons line lines ih =>
      rw [sourceLines_cons] at h
      obtain ⟨es', hes', h⟩ := Option.bind_eq_some_iff.mp h
      obtain ⟨rest, hrest, rfl⟩ := Option.map_eq_some_iff.mp h
      rcases List.mem_append.mp he with he | he
      · exact ⟨line, List.mem_cons_self, es', hes', he⟩
      · obtain ⟨other, hother, es'', hes'', he'⟩ := ih hrest he
        exact ⟨other, List.mem_cons_of_mem _ hother, es'', hes'', he'⟩

/-! ## A line of its own -/

section Line

variable {key value : String} {line : Line} {es : List (String × String)}

/-- The edit has the line for itself: the line sets the key, or it is blank. -/
def Own (key : String) (line : Line) : Prop :=
  line.names key = true ∨ ∃ spaces h, line = .blank spaces h

/-- On a line of its own an assignment is read as if nothing stood before it. -/
theorem sourceLine_own (hkey : isName key.toList = true) (h : Own key line) :
    sourceLine (written key value line.render).toList = sourceLine (assignment key value).toList := by
  rw [written, sets_render hkey]
  rcases h with hnames | ⟨spaces, hspaces, rfl⟩
  · rw [if_pos hnames]
  · rw [if_neg (by simp [Line.names]), String.toList_append, Line.render, sourceLine_blank hspaces]

/-- An assignment gives its key a value, and the words behind it are shorter than what
was written. -/
theorem sourceLine_head (hkey : isName key.toList = true) (hvalue : '\n' ∉ value.toList)
    (h : sourceLine (assignment key value).toList = some es) :
    ∃ x rest, es = (key, x) :: rest ∧ (∀ e ∈ rest, e.2.toList.length < value.toList.length) ∧
      (value.toList.length ≤ x.toList.length → Literal value ∧ x = value ∧ rest = []) := by
  rw [toList_assignment] at h
  have hnull : '\x00' ∉ value.toList := by
    intro hmem
    rw [sourceLine, if_pos (List.mem_append_right _ (List.mem_cons_of_mem _ hmem))] at h
    cases h
  have hwords := h
  rw [sourceLine_assignment hkey hnull] at hwords
  obtain ⟨r, hr, hwords⟩ := Option.bind_eq_some_iff.mp hwords
  obtain ⟨rest, hrest, rfl⟩ := Option.map_eq_some_iff.mp hwords
  rw [String.ofList_toList] at h ⊢
  have hscan := scan_length hr
  refine ⟨_, rest, rfl, fun e he => ?_, fun hlen => ?_⟩
  · have hshort := words_length hrest e he
    simp only [Quoting.closing] at hscan
    omega
  · have hliteral := literal_of_sourceLine hkey hvalue h List.mem_cons_self hlen
    rw [sourceLine_literal hkey hliteral, Option.some.injEq, List.cons.injEq, Prod.mk.injEq] at h
    exact ⟨hliteral, h.1.2.symm, h.2.symm⟩

theorem sourceLine_assigned (hkey : isName key.toList = true) (h : Literal value) :
    sourceLine (assignment key value).toList = some [(key, value)] := by
  rw [toList_assignment]
  exact sourceLine_literal hkey h

/-! ## Behind another text -/

/-- Characters without a meaning are kept. -/
theorem scan_kept {cs : List Char} (h : ∀ c ∈ cs, isNameChar c = true ∨ c = '=') (tilde : Bool) (rest : List Char) :
    ∃ tilde', scanValue (.bare tilde) (cs ++ rest) =
      (scanValue (.bare tilde') rest).map fun r => (cs ++ r.1, r.2) := by
  induction cs generalizing tilde with
  | nil => exact ⟨tilde, by simp⟩
  | cons c cs ih =>
      have hc := h c List.mem_cons_self
      have hne : ∀ d, isNameChar d = false → d ≠ '=' → c ≠ d := by
        rintro d hd hsign rfl
        rcases hc with hc | hc
        · rw [hd] at hc
          cases hc
        · exact hsign hc
      have hblank : isBlank c = false := by
        rw [isBlank, Bool.or_eq_false_iff, decide_eq_false_iff_not, decide_eq_false_iff_not]
        exact ⟨hne _ (by decide) (by decide), hne _ (by decide) (by decide)⟩
      have hmeta : isMeta c = false := by
        rw [isMeta, Bool.eq_false_iff, ne_eq, List.contains_iff_mem]
        have hnone : ∀ d ∈ ";&|<>()".toList, isNameChar d = false ∧ d ≠ '=' := by decide
        exact fun hmem => hne c (hnone c hmem).1 (hnone c hmem).2 rfl
      obtain ⟨tilde', hscan⟩ := ih (fun d hd => h d (List.mem_cons_of_mem _ hd)) (c = ':')
      refine ⟨tilde', ?_⟩
      rw [List.cons_append, scanValue, hscan]
      simp only [hblank, hmeta, hne '\'' (by decide) (by decide), hne '"' (by decide) (by decide),
        hne '\\' (by decide) (by decide), hne '`' (by decide) (by decide), hne '$' (by decide) (by decide),
        hne '~' (by decide) (by decide), decide_false, Bool.false_and, Bool.or_false, Bool.false_eq_true,
        if_false, Option.map_map]
      rfl

theorem scan_single_append {cs : List Char} (h : '\'' ∉ cs) (rest : List Char) :
    scanValue .single (cs ++ '\'' :: rest) =
      (scanValue (.bare false) rest).map fun r => (cs ++ r.1, r.2) := by
  induction cs with
  | nil => simp [scanValue]
  | cons c cs ih =>
      have hc : c ≠ '\'' := fun he => h (he ▸ List.mem_cons_self)
      rw [List.cons_append, scanValue, if_neg hc, ih fun hm => h (List.mem_cons_of_mem c hm), Option.map_map]
      rfl

theorem scan_double_append {cs : List Char} (h : plainFrom cs = true) (rest : List Char) :
    scanValue .double (cs ++ '"' :: rest) =
      (scanValue (.bare false) rest).map fun r => (cs ++ r.1, r.2) := by
  induction cs with
  | nil => simp [scanValue]
  | cons c cs ih =>
      simp only [plainFrom, Bool.and_eq_true, Bool.not_eq_true', Bool.or_eq_false_iff,
        decide_eq_false_iff_not] at h
      obtain ⟨⟨⟨⟨hquote, hback⟩, htick⟩, hdollar⟩, hcs⟩ := h
      have hclose : expands (cs ++ '"' :: rest) = expands cs := by
        cases cs with
        | nil => exact (by decide : expands ['"'] = false)
        | cons d ds => rfl
      rw [List.cons_append, scanValue, hclose, ih hcs]
      simp only [hquote, hback, htick, hdollar, decide_false, Bool.false_or, Bool.false_eq_true, if_false,
        Option.map_map]
      rfl

/-- What stands behind a written value is read on in it. -/
theorem scan_write_append {style : Style} {cs rest : List Char} {r : List Char × List Char}
    (hfits : style.fits cs = true) (h : scanValue (.bare true) (style.write cs ++ rest) = some r) :
    ∃ tilde r', scanValue (.bare tilde) rest = some r' ∧ r = (cs ++ r'.1, r'.2) := by
  cases style with
  | bare =>
      have hbare : ∀ (cs : List Char) (tilde : Bool) (r : List Char × List Char),
          literalFrom tilde cs = true → scanValue (.bare tilde) (cs ++ rest) = some r →
            ∃ tilde' r', scanValue (.bare tilde') rest = some r' ∧ r = (cs ++ r'.1, r'.2) := by
        intro cs
        induction cs with
        | nil => exact fun tilde r _ h => ⟨tilde, r, h, rfl⟩
        | cons c cs ih =>
            intro tilde r hliteral h
            simp only [literalFrom, Bool.and_eq_true, Bool.not_eq_true', Bool.or_eq_false_iff,
              decide_eq_false_iff_not] at hliteral
            obtain ⟨⟨⟨⟨⟨⟨⟨⟨hblank, hsingle⟩, hdouble⟩, hback⟩, -⟩, -⟩, -⟩, -⟩, hcs⟩ := hliteral
            rw [List.cons_append, scanValue, if_neg (by simp [hblank]), if_neg hsingle, if_neg hdouble,
              if_neg hback] at h
            split_ifs at h
            obtain ⟨r, hr, rfl⟩ := Option.map_eq_some_iff.mp h
            obtain ⟨tilde', r', hr', rfl⟩ := ih _ _ hcs hr
            exact ⟨tilde', r', hr', rfl⟩
      exact hbare cs true r hfits h
  | single =>
      rw [Style.write, List.cons_append, List.append_assoc, List.singleton_append] at h
      have hscan : scanValue (.bare true) ('\'' :: (cs ++ '\'' :: rest)) = scanValue .single (cs ++ '\'' :: rest) := by
        rw [scanValue, if_neg (by decide), if_pos rfl]
      rw [hscan, scan_single_append (by simpa [Style.fits] using hfits)] at h
      obtain ⟨r', hr', rfl⟩ := Option.map_eq_some_iff.mp h
      exact ⟨false, r', hr', rfl⟩
  | double =>
      rw [Style.write, List.cons_append, List.append_assoc, List.singleton_append] at h
      have hscan : scanValue (.bare true) ('"' :: (cs ++ '"' :: rest)) = scanValue .double (cs ++ '"' :: rest) := by
        rw [scanValue, if_neg (by decide), if_neg (by decide), if_pos rfl]
      rw [hscan, scan_double_append hfits] at h
      obtain ⟨r', hr', rfl⟩ := Option.map_eq_some_iff.mp h
      exact ⟨false, r', hr', rfl⟩

theorem literalFrom_of_true {tilde : Bool} {cs : List Char} (h : literalFrom true cs = true) :
    literalFrom tilde cs = true := by
  cases cs with
  | nil => rfl
  | cons c cs =>
      rw [literalFrom] at h ⊢
      cases tilde <;> simp_all

/-- The value of the setting that an assignment is written behind. -/
theorem sourceLine_behind {s : Setting} (hkey : isName key.toList = true)
    (h : sourceLine (assignment s.name s.value ++ assignment key value).toList = some es) :
    ∃ x rest, es = (s.name, s.text ++ assignment key x) :: rest ∧
      (∀ e ∈ rest, e.2.toList.length < value.toList.length) ∧ (Literal value → x = value ∧ rest = []) := by
  have hchars : (assignment s.name s.value ++ assignment key value).toList =
      s.name.toList ++ '=' :: (s.style.write s.text.toList ++ (key.toList ++ ['=']) ++ value.toList) := by
    rw [String.toList_append, toList_assignment, toList_assignment, Setting.value, String.toList_ofList]
    simp
  rw [hchars] at h
  have hnull : '\x00' ∉ s.style.write s.text.toList ++ (key.toList ++ ['=']) ++ value.toList := by
    intro hmem
    rw [sourceLine, if_pos (List.mem_append_right _ (List.mem_cons_of_mem _ hmem))] at h
    cases h
  rw [sourceLine_assignment s.isName hnull, List.append_assoc] at h
  obtain ⟨r, hr, h⟩ := Option.bind_eq_some_iff.mp h
  obtain ⟨rest, hrest, rfl⟩ := Option.map_eq_some_iff.mp h
  obtain ⟨tilde, r', hr', rfl⟩ := scan_write_append s.fits hr
  have hplain : ∀ c ∈ key.toList ++ ['='], isNameChar c = true ∨ c = '=' := by
    intro c hc
    rcases List.mem_append.mp hc with hc | hc
    · exact .inl (isNameChar_of_mem hkey hc)
    · exact .inr (List.mem_singleton.mp hc)
  obtain ⟨tilde', hscan⟩ := scan_kept hplain tilde value.toList
  rw [hscan] at hr'
  obtain ⟨r'', hr'', rfl⟩ := Option.map_eq_some_iff.mp hr'
  refine ⟨String.ofList r''.1, rest, ?_, fun e he => ?_, fun hliteral => ?_⟩
  · rw [String.ofList_toList, List.cons.injEq, Prod.mk.injEq]
    refine ⟨⟨rfl, ?_⟩, rfl⟩
    apply String.toList_injective
    rw [String.toList_append, toList_assignment, String.toList_ofList, String.toList_ofList]
    simp
  · have hlen := scan_length hr''
    have hshort := words_length hrest e he
    simp only [Quoting.closing] at hlen
    exact hshort.trans_le (by simp only; omega)
  · rw [scan_literal (literalFrom_of_true hliteral.scanned), Option.some.injEq] at hr''
    subst hr''
    refine ⟨String.ofList_toList, ?_⟩
    rw [List.length_append, List.length_cons, ← Nat.add_assoc, words] at hrest
    exact (Option.some.inj hrest).symm

/-- What is read of a line with another text: its own variable, if it is a setting, and
words that are shorter than the value. -/
theorem sourceLine_joined (hkey : isName key.toList = true) (hown : ¬Own key line)
    (h : sourceLine (written key value line.render).toList = some es) :
    (∀ e ∈ es, line.names e.1 = true ∨ e.2.toList.length < value.toList.length) ∧
      (Literal value → es = (shellEntries [line]).map fun e => (e.1, e.2 ++ assignment key value)) := by
  rw [Own, not_or] at hown
  rw [written, sets_render hkey, if_neg hown.1] at h
  cases line with
  | blank spaces hspaces => exact absurd ⟨spaces, hspaces, rfl⟩ hown.2
  | comment indent text hindent oneLine noNull =>
      have hchars : ((Line.comment indent text hindent oneLine noNull).render ++ assignment key value).toList =
          indent.toList ++ '#' :: (text.toList ++ (assignment key value).toList) := by
        simp [Line.render]
      rw [hchars, sourceLine_blank hindent, sourceLine] at h
      split_ifs at h
      rw [words] at h
      cases h
      exact ⟨fun e he => absurd he List.not_mem_nil, fun _ => rfl⟩
  | setting s =>
      obtain ⟨x, rest, rfl, hrest, hliteral⟩ := sourceLine_behind hkey h
      refine ⟨fun e he => ?_, fun hvalue => ?_⟩
      · rcases List.mem_cons.mp he with rfl | he
        · exact .inl (decide_eq_true rfl)
        · exact .inr (hrest e he)
      · obtain ⟨rfl, rfl⟩ := hliteral hvalue
        rfl

end Line

/-! ## The lines of an edited file -/

section Edited

variable {key value text : String} {lines before behind : List String} {line : String}

theorem mem_charsOf {lines : List String} {c : Char} (h : c ∈ charsOf lines) :
    c = '\n' ∨ ∃ line ∈ lines, c ∈ line.toList := by
  induction lines with
  | nil => cases h
  | cons line lines ih =>
      cases lines with
      | nil => exact .inr ⟨line, List.mem_cons_self, by simpa [charsOf] using h⟩
      | cons next lines =>
          rw [charsOf_cons (List.cons_ne_nil _ _), List.mem_append, List.mem_cons] at h
          rcases h with h | h | h
          · exact .inr ⟨line, List.mem_cons_self, h⟩
          · exact .inl h
          · rcases ih h with hc | ⟨other, hother, hc⟩
            · exact .inl hc
            · exact .inr ⟨other, List.mem_cons_of_mem _ hother, hc⟩

/-- Behind the edited line no line sets the key. -/
theorem Cut.alone (hcut : Cut key lines before line behind) (hcount : lines.countP (sets key) ≤ 1) :
    ∀ other ∈ behind, sets key other = false := by
  obtain ⟨rfl, -, hfound⟩ := hcut
  intro other hother
  rcases hfound with hfound | rfl
  · rw [List.countP_append, List.countP_cons_of_pos hfound] at hcount
    have hnone : behind.countP (sets key) = 0 := by omega
    exact Bool.eq_false_iff.mpr (List.countP_eq_zero.mp hnone other hother)
  · cases hother

/-- The lines of the edited file are the new line and lines that do not set the key. -/
theorem mem_editLines (hcut : Cut key lines before line behind) (hcount : lines.countP (sets key) ≤ 1)
    {other : String} (h : other ∈ editLines key value lines) :
    other = written key value line ∨ other = "" ∨ other ∈ lines ∧ sets key other = false := by
  rw [editLines_cut hcut, List.mem_append, List.mem_cons] at h
  rcases h with h | h | h
  · exact .inr (.inr ⟨hcut.lines ▸ List.mem_append_left _ h, hcut.before other h⟩)
  · exact .inl h
  · split_ifs at h
    · exact .inr (.inl (List.mem_singleton.mp h))
    · exact .inr (.inr ⟨hcut.lines ▸ List.mem_append_right _ (List.mem_cons_of_mem _ h),
        Cut.alone hcut hcount other h⟩)

theorem sourceLines_edit (hcut : Cut key lines before line behind) (value : String) :
    sourceLines ((editLines key value lines).map String.toList) =
      (sourceLines (before.map String.toList)).bind fun es =>
        (sourceLine (written key value line).toList).bind fun ws =>
          (sourceLines (behind.map String.toList)).map fun es' => es ++ (ws ++ es') := by
  have hbehind : sourceLines ((if behind = [] then [""] else behind).map String.toList) =
      sourceLines (behind.map String.toList) := by
    split_ifs with hlast
    · rw [hlast]
      decide
    · rfl
  rw [editLines_cut hcut, List.map_append, List.map_cons, sourceLines_append, sourceLines_cons, hbehind]
  cases sourceLines (before.map String.toList) with
  | none => rfl
  | some es =>
      cases sourceLine (written key value line).toList with
      | none => rfl
      | some ws => cases sourceLines (behind.map String.toList) <;> rfl

theorem notMem_textLines_return {text line : String} (h : line ∈ textLines text) : '\r' ∉ line.toList := by
  obtain ⟨cs, hcs, rfl⟩ := List.mem_map.mp h
  intro hmem
  rw [String.toList_ofList] at hmem
  exact notMem_universal _ (mem_splitOn hcs hmem).1

theorem notMem_written {c : Char} (hline : c ∉ line.toList) (hassign : c ∉ (assignment key value).toList) :
    c ∉ (written key value line).toList := by
  rw [written]
  split_ifs
  · exact hassign
  · rw [String.toList_append, List.mem_append, not_or]
    exact ⟨hline, hassign⟩

theorem notMem_assignment {c : Char} (hkey : isName key.toList = true) (hc : isNameChar c = false) (hsign : c ≠ '=')
    (hvalue : c ∉ value.toList) : c ∉ (assignment key value).toList := by
  rw [toList_assignment, List.mem_append, List.mem_cons]
  rintro (hmem | rfl | hmem)
  · rw [isNameChar_of_mem hkey hmem] at hc
    cases hc
  · exact hsign rfl
  · exact hvalue hmem

/-- A character of an edited line stands in the value or in the file. -/
theorem notMem_editLines {c : Char} (hcut : Cut key lines before line behind)
    (hlines : ∀ other ∈ lines, c ∉ other.toList) (hassign : c ∉ (assignment key value).toList) :
    ∀ other ∈ editLines key value lines, c ∉ other.toList := by
  intro other hother
  rw [editLines_cut hcut, List.mem_append, List.mem_cons] at hother
  rcases hother with hother | rfl | hother
  · exact hlines other (hcut.lines ▸ List.mem_append_left _ hother)
  · exact notMem_written (hlines line (hcut.lines ▸ List.mem_append_right _ List.mem_cons_self)) hassign
  · split_ifs at hother
    · rw [List.mem_singleton.mp hother]
      exact List.not_mem_nil
    · exact hlines other (hcut.lines ▸ List.mem_append_right _ (List.mem_cons_of_mem _ hother))

/-- The file after the edit, for a shell. -/
theorem source_upsertKv (hkey : isName key.toList = true) (hn : '\n' ∉ value.toList) :
    source (upsertKv key value text) = sourceLines ((editLines key value (textLines text)).map String.toList) := by
  obtain ⟨before, line, behind, hcut⟩ := exists_cut key (textLines_ne_nil text)
  have hof : upsertKv key value text = String.ofList (charsOf (editLines key value (textLines text))) := by
    apply String.toList_injective
    rw [toList_upsertKv, String.toList_ofList]
  rw [hof, source_charsOf (editLines_ne_nil (textLines_ne_nil text))]
  exact notMem_editLines hcut (fun _ => notMem_textLines) (notMem_assignment hkey (by decide) (by decide) hn)

/-- The file after the edit, for the next edit. -/
theorem textLines_upsertKv (hkey : isName key.toList = true) (hn : '\n' ∉ value.toList)
    (hr : '\r' ∉ value.toList) : textLines (upsertKv key value text) = editLines key value (textLines text) := by
  obtain ⟨before, line, behind, hcut⟩ := exists_cut key (textLines_ne_nil text)
  have hnewline := notMem_editLines hcut (fun _ => notMem_textLines)
    (notMem_assignment hkey (by decide) (by decide) hn)
  have hreturn := notMem_editLines hcut (fun _ => notMem_textLines_return)
    (notMem_assignment hkey (by decide) (by decide) hr)
  have hchars : '\r' ∉ charsOf (editLines key value (textLines text)) := by
    intro hmem
    rcases mem_charsOf hmem with hc | ⟨other, hother, hc⟩
    · exact absurd hc (by decide)
    · exact hreturn other hother hc
  rw [textLines, toList_upsertKv, universal_eq_self hchars,
    splitOn_charsOf (editLines_ne_nil (textLines_ne_nil text)) hnewline]
  simp

theorem universal_newline (cs ds : List Char) :
    ∃ cs', universal (cs ++ '\n' :: ds) = cs' ++ '\n' :: universal ds := by
  fun_induction universal cs with
  | case1 => exact ⟨[], rfl⟩
  | case2 cs ih =>
      obtain ⟨cs', h⟩ := ih
      exact ⟨'\n' :: cs', by rw [List.cons_append, List.cons_append, universal, h]; rfl⟩
  | case3 c cs hcr ih =>
      obtain ⟨cs', h⟩ := ih
      by_cases hc : c = '\r'
      · subst hc
        cases cs with
        -- the carriage return and the newline are one line break
        | nil => exact ⟨[], rfl⟩
        | cons d cs =>
            have hd : d ≠ '\n' := fun he => hcr cs rfl (by rw [he])
            refine ⟨'\n' :: cs', ?_⟩
            rw [List.cons_append, List.cons_append, universal, if_pos rfl, ← List.cons_append, h]
            · rfl
            · intro rest _ he
              exact hd (List.cons.inj he).1
      · refine ⟨c :: cs', ?_⟩
        rw [List.cons_append, universal, if_neg hc, h]
        · rfl
        · exact fun rest he => absurd he hc

theorem charsOf_concat {lines : List String} (h : lines ≠ []) (last : String) :
    charsOf (lines ++ [last]) = charsOf lines ++ '\n' :: last.toList := by
  induction lines with
  | nil => exact absurd rfl h
  | cons line lines ih =>
      cases lines with
      | nil => simp [charsOf]
      | cons next lines =>
          rw [List.cons_append, charsOf_cons (by simp), ih (List.cons_ne_nil _ _),
            charsOf_cons (List.cons_ne_nil _ _), List.append_assoc]
          rfl

/-- The last line of the file after the edit. -/
theorem getLast_upsertKv (hcut : Cut key (textLines text) before line behind) :
    (textLines (upsertKv key value text)).getLast? = some (behind.getLast?.getD "") := by
  have htail : ∃ init, (if behind = [] then [""] else behind) = init ++ [behind.getLast?.getD ""] := by
    rcases List.eq_nil_or_concat behind with rfl | ⟨init, l, rfl⟩
    · exact ⟨[], rfl⟩
    · exact ⟨init, by simp⟩
  obtain ⟨init, hinit⟩ := htail
  have hlast : '\r' ∉ (behind.getLast?.getD "").toList ∧ '\n' ∉ (behind.getLast?.getD "").toList := by
    cases hbehind : behind.getLast? with
    | none => exact ⟨List.not_mem_nil, List.not_mem_nil⟩
    | some l =>
        have hmem : l ∈ textLines text :=
          hcut.lines ▸ List.mem_append_right _ (List.mem_cons_of_mem _ (List.mem_of_getLast? hbehind))
        exact ⟨notMem_textLines_return hmem, notMem_textLines hmem⟩
  generalize behind.getLast?.getD "" = l at hinit hlast
  have hchars : (upsertKv key value text).toList =
      charsOf (before ++ written key value line :: init) ++ '\n' :: l.toList := by
    rw [toList_upsertKv, editLines_cut hcut, hinit, ← charsOf_concat (by simp)]
    simp
  obtain ⟨cs, hcs⟩ := universal_newline (charsOf (before ++ written key value line :: init)) l.toList
  have hnone : ∀ c ∈ l.toList, (c == '\n') = false := by
    intro c hc
    rw [beq_eq_false_iff_ne]
    rintro rfl
    exact hlast.2 hc
  rw [textLines, hchars, hcs, universal_eq_self hlast.1, List.splitOn_eq_splitOnP,
    List.splitOnP_append_cons _ _ (by simp), List.splitOnP_eq_singleton hnone, List.map_append, List.map_singleton,
    List.getLast?_concat, String.ofList_toList]

end Edited

end MilvusOnprem.EditedSource
