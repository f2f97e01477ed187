import MilvusOnprem.EnvText

/-!
# The values of an edited text

What stands behind a key in the text of `cluster.env` once `_upsert_kv` has edited
it. An edit that finds no line of its key appends one, and on a file whose last
line does not end the appended assignment becomes part of that line.
-/
namespace MilvusOnprem.EnvEdits

open PythonText EnvFile EnvText

/-- A text without a line break of text mode. -/
def OneLine (s : String) : Prop := '\n' ∉ s.toList ∧ '\r' ∉ s.toList

instance : DecidablePred OneLine := fun s =>
  inferInstanceAs (Decidable ('\n' ∉ s.toList ∧ '\r' ∉ s.toList))

/-- What stands after the equals sign on the first line of a key. -/
def valueIn (key : Key) (text : String) : Option String := valueOf key (textLines text)

/-- The edit has a line of its own: the key has one already, or the text ends with
a newline or is empty. -/
def fits (key : Key) (text : String) : Bool :=
  (textLines text).any key.isLine || (textLines text).getLast? = some ""

/-! ## The edited lines -/

theorem isLine_own {k key : Key} {line : String} (hline : key.isLine line = true) (hk : k ≠ key) :
    k.isLine line = false := by
  have hsame := valueOf_upsertKv_of_ne hk "" [line]
  simp only [EnvFile.upsertKv, hline, if_true, valueOf, List.find?_cons, isLine_line, hk,
    decide_false, List.find?_nil, Option.map_none] at hsame
  cases hl : k.isLine line with
  | false => rfl
  | true =>
      rw [hl] at hsame
      cases hsame

theorem isLine_empty (key : Key) : key.isLine "" = false := by
  simp [Key.isLine, startsWith]

theorem valueOf_append (key : Key) (lines lines' : Lines) :
    valueOf key (lines ++ lines') = (valueOf key lines).or (valueOf key lines') := by
  rw [valueOf, List.find?_append, Option.map_or]
  rfl

theorem valueOf_cons_of_not {key : Key} {line : String} (h : key.isLine line = false) (lines : Lines) :
    valueOf key (line :: lines) = valueOf key lines := by
  rw [valueOf, List.find?_cons_of_neg (by rw [h]; exact Bool.false_ne_true)]
  rfl

theorem valueOf_eq_none {key : Key} {lines : Lines} (h : ∀ line ∈ lines, key.isLine line = false) :
    valueOf key lines = none := by
  rw [valueOf, Option.map_eq_none_iff, List.find?_eq_none]
  intro line hline
  rw [h line hline]
  exact Bool.false_ne_true

/-- Where an edit has a line of its own, it writes the bare assignment. -/
theorem written_own {key : Key} {lines before behind : Lines} {line : String}
    (h : Cut key.text lines before line behind)
    (hfits : lines.any key.isLine = true ∨ lines.getLast? = some "") (value : String) :
    written key.text value line = key.line value ∧ (key.isLine line = true ∨ line = "") := by
  have hsets : sets key.text line = key.isLine line := rfl
  cases hline : key.isLine line with
  | true => exact ⟨by rw [written, hsets, hline, if_pos rfl]; rfl, .inl rfl⟩
  | false =>
      have hbehind : behind = [] := h.found.resolve_left (by rw [hsets, hline]; exact Bool.false_ne_true)
      have hnone : lines.any key.isLine = false := by
        rw [h.lines, hbehind, List.any_append, List.any_cons, List.any_nil, hline, Bool.or_false,
          Bool.or_false, List.any_eq_false]
        intro other hother
        rw [show key.isLine other = false from h.before other hother]
        exact Bool.false_ne_true
      have hlast := hfits.resolve_left (by rw [hnone]; exact Bool.false_ne_true)
      rw [h.lines, hbehind, List.getLast?_concat, Option.some.injEq] at hlast
      refine ⟨?_, .inr hlast⟩
      rw [written, hsets, hline, if_neg Bool.false_ne_true, hlast, String.empty_append]
      rfl

/-- An edit with a line of its own sets its key and no other. -/
theorem valueOf_editLines (k key : Key) (value : String) {lines : Lines}
    (h : lines.any key.isLine = true ∨ lines.getLast? = some "") :
    valueOf k (editLines key.text value lines) =
      if k = key then some value else valueOf k lines := by
  have hne : lines ≠ [] := by
    rintro rfl
    simp at h
  obtain ⟨before, line, behind, hcut⟩ := exists_cut key.text hne
  obtain ⟨hwritten, hline⟩ := written_own hcut h value
  rw [editLines_cut hcut, hwritten, valueOf_append]
  by_cases hk : k = key
  · subst hk
    rw [if_pos rfl, valueOf_eq_none fun other hother => hcut.before other hother, Option.none_or]
    simp [valueOf]
  · have hother : k.isLine line = false := by
      rcases hline with hline | rfl
      · exact isLine_own hline hk
      · exact isLine_empty k
    have hrest : valueOf k (if behind = [] then [""] else behind) = valueOf k behind := by
      split_ifs with hbehind
      · rw [hbehind, valueOf_cons_of_not (isLine_empty k)]
      · rfl
    rw [if_neg hk, valueOf_cons_of_not (by rw [isLine_line, decide_eq_false hk]), hrest, hcut.lines,
      valueOf_append, valueOf_cons_of_not hother]

/-! ## The text that is written -/

theorem universal_eq_self {cs : List Char} (h : '\r' ∉ cs) : universal cs = cs := by
  induction cs with
  | nil => rfl
  | cons c cs ih =>
      have hc : c ≠ '\r' := fun he => h (he ▸ List.mem_cons_self)
      rw [universal, if_neg hc, ih fun hm => h (List.mem_cons_of_mem c hm)]
      exact fun rest he => absurd he hc

theorem notMem_charsOf {x : Char} (hx : x ≠ '\n') {lines : Lines}
    (h : ∀ line ∈ lines, x ∉ line.toList) : x ∉ charsOf lines := by
  induction lines with
  | nil => simp [charsOf]
  | cons line lines ih =>
      have hrest := ih fun l hl => h l (List.mem_cons_of_mem line hl)
      have hline := h line List.mem_cons_self
      cases lines with
      | nil => simpa [charsOf] using hline
      | cons next lines =>
          rw [charsOf_cons (List.cons_ne_nil _ _), List.mem_append, List.mem_cons]
          rintro (hm | hm | hm)
          · exact hline hm
          · exact hx hm
          · exact hrest hm

/-- A text is read back as the lines it was made of. -/
theorem textLines_of_charsOf {text : String} {lines : Lines} (hne : lines ≠ [])
    (h : ∀ line ∈ lines, OneLine line) (htext : text.toList = charsOf lines) :
    textLines text = lines := by
  have hcr : '\r' ∉ text.toList := by
    rw [htext]
    exact notMem_charsOf (by decide) fun line hline => (h line hline).2
  rw [textLines, universal_eq_self hcr, htext, charsOf, List.splitOn_intercalate]
  · simp [Function.comp_def]
  · intro cs hcs
    obtain ⟨line, hline, rfl⟩ := List.mem_map.mp hcs
    exact (h line hline).1
  · simpa using hne

theorem oneLine_textLines {text line : String} (h : line ∈ textLines text) : OneLine line := by
  refine ⟨notMem_textLines h, fun hm => ?_⟩
  obtain ⟨cs, hcs, rfl⟩ := List.mem_map.mp h
  rw [String.toList_ofList] at hm
  exact notMem_universal _ ((mem_splitOn hcs hm).1)

theorem OneLine.append {s t : String} (hs : OneLine s) (ht : OneLine t) : OneLine (s ++ t) := by
  constructor
  · rw [String.toList_append, List.mem_append]
    exact not_or.mpr ⟨hs.1, ht.1⟩
  · rw [String.toList_append, List.mem_append]
    exact not_or.mpr ⟨hs.2, ht.2⟩

theorem oneLine_editLines {key value : String} (hkey : OneLine key) (hvalue : OneLine value)
    {lines : Lines} (h : ∀ line ∈ lines, OneLine line) :
    ∀ line ∈ editLines key value lines, OneLine line := by
  intro line hline
  by_cases hne : lines = []
  · subst hne
    cases hline
  obtain ⟨before, edited, behind, hcut⟩ := exists_cut key hne
  have hassigned : OneLine (assignment key value) := (hkey.append (by decide)).append hvalue
  rw [editLines_cut hcut] at hline
  rw [hcut.lines] at h
  rcases List.mem_append.mp hline with hm | hm
  · exact h line (List.mem_append_left _ hm)
  rcases List.mem_cons.mp hm with rfl | hm
  · unfold written
    split_ifs
    · exact hassigned
    · exact (h edited (List.mem_append_right _ List.mem_cons_self)).append hassigned
  · split_ifs at hm with hlast
    · rw [List.mem_singleton.mp hm]
      decide
    · exact h line (List.mem_append_right _ (List.mem_cons_of_mem _ hm))

/-- The lines of the text after an edit. -/
theorem textLines_upsertKv {key value : String} (hkey : OneLine key) (hvalue : OneLine value)
    (text : String) :
    textLines (EnvText.upsertKv key value text) = editLines key value (textLines text) :=
  textLines_of_charsOf (editLines_ne_nil (textLines_ne_nil text))
    (oneLine_editLines hkey hvalue fun _ => oneLine_textLines) (toList_upsertKv key value text)

/-- An edit with a line of its own sets its key in the text and no other. -/
theorem valueIn_upsertKv {key : Key} {value text : String} (hkey : OneLine key.text)
    (hvalue : OneLine value) (hfits : fits key text = true) (k : Key) :
    valueIn k (EnvText.upsertKv key.text value text) = if k = key then some value else valueIn k text := by
  rw [valueIn, textLines_upsertKv hkey hvalue]
  refine valueOf_editLines k key value ?_
  simpa [fits] using hfits

end MilvusOnprem.EnvEdits
