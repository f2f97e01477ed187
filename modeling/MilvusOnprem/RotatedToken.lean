import MilvusOnprem.EnvFormat
import MilvusOnprem.TokenRotation

/-!
# What a rotated token goes through

The rotation writes the new token into `cluster.env` as it is. A shell sources the
file, the readers of the daemon trim and unquote its values, and a request shows the
token in a header that is trimmed too. The token is the same to all of them only if
none of them finds anything in it to take away.
-/
namespace MilvusOnprem.RotatedToken

open PythonText ClusterEnv EnvText EnvUpsert EnvFormat ShellSource Assignments TokenRotation
open SharedSettings (lineBreaks Unbroken)

def tokenKey : String := "CLUSTER_TOKEN"

/-- The one check of `run_rotate_token` and of the body of `/rotate-self`. -/
def isLongEnough (newToken : String) : Bool := 32 ≤ newToken.length

/-- The file after the edit of `rotate_self`. -/
def rotated (newToken : String) (lines : List Line) : String :=
  upsertKv tokenKey newToken (fileOf lines)

/-- A shell and the readers have the new token and what they had for the other keys,
and a daemon that has the token accepts it. -/
structure Carried (newToken : String) (lines : List Line) : Prop where
  sourced : ∃ es es', source (fileOf lines) = some es ∧ source (rotated newToken lines) = some es' ∧
    last tokenKey es' = some newToken ∧ ∀ name ≠ tokenKey, last name es' = last name es
  read : Upserted tokenKey newToken (fileOf lines)
  accepted : requireToken (some (bearer newToken)) newToken = .ok ()

/-! ## The tokens that are carried -/

/-- The new line is one that a shell reads as the token, unless a later line says it. -/
def ShellTakes (newToken : String) (before behind : List Line) : Prop :=
  (Literal newToken ∧ ∀ v ∈ last tokenKey (shellEntries behind), v = newToken) ∨
    last tokenKey (shellEntries behind) = some newToken ∧
      ∃ es, sourceLine (assignment tokenKey newToken).toList = some es ∧
        ∀ name ≠ tokenKey, ∀ v ∈ last name es,
          last name (shellEntries behind) ≠ none ∨ last name (shellEntries before) = some v

/-- Where the edit takes place: at the first line that sets the token, or at the last
line. -/
structure Place (lines before : List Line) (line : Line) (behind : List Line) : Prop where
  lines : lines = before ++ line :: behind
  before : ∀ other ∈ before, other.names tokenKey = false
  found : line.names tokenKey = true ∨ behind = []

/-- The token survives: the readers find nothing in it to take away, it is written on a
line of its own, no later line sets another token, and a shell reads the line so. -/
structure Survives (newToken : String) (lines : List Line) : Prop where
  stripped : strip newToken = newToken
  ascii : isAscii newToken = true
  unbroken : Unbroken newToken
  unquoted : unwrapped newToken = newToken
  placed : ∃ before line behind, Place lines before line behind ∧
    (line.names tokenKey = true ∨ strip line.render = "") ∧
    (∀ v ∈ last tokenKey (readEntries behind), v = newToken) ∧ ShellTakes newToken before behind

/-! ## The edited file -/

section Edited

variable {newToken : String} {lines before behind : List Line} {line : Line}

theorem isName_tokenKey : ShellSource.isName tokenKey.toList = true := by decide

theorem exists_place (h : lines ≠ []) : ∃ before line behind, Place lines before line behind := by
  induction lines with
  | nil => exact absurd rfl h
  | cons line lines ih =>
      cases hnames : line.names tokenKey with
      | true => exact ⟨[], line, lines, rfl, by simp, .inl hnames⟩
      | false =>
          cases lines with
          | nil => exact ⟨[], line, [], rfl, by simp, .inr rfl⟩
          | cons next lines =>
              obtain ⟨before, edited, behind, hplace⟩ := ih (List.cons_ne_nil _ _)
              refine ⟨line :: before, edited, behind, by rw [hplace.lines]; rfl, ?_, hplace.found⟩
              intro other hother
              rcases List.mem_cons.mp hother with rfl | hother
              · exact hnames
              · exact hplace.before other hother

theorem Place.cut (hplace : Place lines before line behind)
    (hbreaks : ∀ line ∈ lines, Unbroken line.render) :
    Cut tokenKey (textLines (fileOf lines)) (before.map Line.render) line.render
      (behind.map Line.render) := by
  have hne : lines ≠ [] := by
    rw [hplace.lines]
    simp
  refine ⟨?_, ?_, ?_⟩
  · rw [textLines_fileOf hne hbreaks, hplace.lines, List.map_append, List.map_cons]
  · intro text htext
    obtain ⟨other, hother, rfl⟩ := List.mem_map.mp htext
    rw [sets_render isName_tokenKey, hplace.before other hother]
  · rw [sets_render isName_tokenKey]
    exact hplace.found.imp_right fun h => by rw [h]; rfl

/-- What the readers find in the edited file. -/
theorem upserted_iff_read (hplace : Place lines before line behind)
    (hbreaks : ∀ line ∈ lines, Unbroken line.render) :
    Upserted tokenKey newToken (fileOf lines) ↔
      (last tokenKey (readEntries before ++
          lineEntries lineBreaks (written tokenKey newToken line.render) ++ readEntries behind) =
        some newToken ∧
        ∀ k ≠ tokenKey, k ≠ "" → last k (readEntries before ++
            lineEntries lineBreaks (written tokenKey newToken line.render) ++ readEntries behind) =
          last k (readEntries before ++ readEntries [line] ++ readEntries behind)) ∧
      first tokenKey (readEntries before ++
          lineEntries fileBreaks (written tokenKey newToken line.render) ++ readEntries behind) =
        some newToken ∧
        ∀ k ≠ tokenKey, first k (readEntries before ++
            lineEntries fileBreaks (written tokenKey newToken line.render) ++ readEntries behind) =
          first k (readEntries before ++ readEntries [line] ++ readEntries behind) := by
  have hmem : ∀ other, other ∈ before ∨ other = line ∨ other ∈ behind → other ∈ lines := by
    intro other hother
    rw [hplace.lines, List.mem_append, List.mem_cons]
    exact hother
  have htext : ∀ ls : List Line, (∀ l ∈ ls, l ∈ lines) → textEntries (ls.map Line.render) = readEntries ls :=
    fun ls hls => flatMap_entries (by decide) (by decide) fun l hl => hbreaks l (hls l hl)
  have hfile : ∀ ls : List Line, (∀ l ∈ ls, l ∈ lines) → fileEntries (ls.map Line.render) = readEntries ls :=
    fun ls hls => flatMap_entries (by decide) (by decide) fun l hl => unbroken_file (hbreaks l (hls l hl))
  have hline := hbreaks line (hmem line (.inr (.inl rfl)))
  rw [upserted_iff_entries (hplace.cut hbreaks),
    htext before fun l hl => hmem l (.inl hl), htext behind fun l hl => hmem l (.inr (.inr hl)),
    hfile before fun l hl => hmem l (.inl hl), hfile behind fun l hl => hmem l (.inr (.inr hl)),
    lineEntries_render (by decide) (by decide) hline,
    lineEntries_render (by decide) (by decide) (unbroken_file hline)]
  exact and_iff_right (by decide)

/-- What a shell finds in the edited file. -/
theorem source_rotated (hplace : Place lines before line behind)
    (hbreaks : ∀ line ∈ lines, Unbroken line.render) (htoken : Unbroken newToken) :
    source (rotated newToken lines) =
      (sourceLine (written tokenKey newToken line.render).toList).map fun es =>
        shellEntries before ++ es ++ shellEntries behind := by
  have hassign : '\n' ∉ (assignment tokenKey newToken).toList := by
    rw [toList_assignment]
    intro hmem
    rcases List.mem_append.mp hmem with hmem | hmem
    · exact absurd hmem (by decide)
    · rcases List.mem_cons.mp hmem with heq | hmem
      · exact absurd heq (by decide)
      · exact htoken _ hmem (by decide)
  have hwritten : '\n' ∉ (written tokenKey newToken line.render).toList := by
    rw [written]
    split_ifs
    · exact hassign
    · rw [String.toList_append, List.mem_append, not_or]
      exact ⟨newline_notMem_render line, hassign⟩
  have hbehind : sourceLines ((if behind.map Line.render = [] then [""] else behind.map Line.render).map
      String.toList) = some (shellEntries behind) := by
    split_ifs with hlast
    · rw [List.map_eq_nil_iff.mp hlast]
      decide
    · rw [List.map_map]
      exact sourceLines_render behind
  have hbefore : sourceLines ((before.map Line.render).map String.toList) = some (shellEntries before) := by
    rw [List.map_map]
    exact sourceLines_render before
  have hof : rotated newToken lines = String.ofList (charsOf (before.map Line.render ++
      written tokenKey newToken line.render ::
        if behind.map Line.render = [] then [""] else behind.map Line.render)) := by
    apply String.toList_injective
    rw [rotated, toList_upsertKv, editLines_cut (hplace.cut hbreaks), String.toList_ofList]
  rw [hof, source_charsOf (by simp), List.map_append, List.map_cons, sourceLines_append,
    sourceLines_cons, hbefore, hbehind, Option.bind_some]
  · cases sourceLine (written tokenKey newToken line.render).toList with
    | none => rfl
    | some es => simp
  · intro text htext
    rw [List.mem_append, List.mem_cons] at htext
    rcases htext with htext | rfl | htext
    · obtain ⟨other, -, rfl⟩ := List.mem_map.mp htext
      exact newline_notMem_render other
    · exact hwritten
    · split_ifs at htext
      · rw [List.mem_singleton.mp htext]
        decide
      · obtain ⟨other, -, rfl⟩ := List.mem_map.mp htext
        exact newline_notMem_render other

theorem findable_tokenKey : Findable tokenKey := findable_name isName_tokenKey

/-- A line that is blank for the readers is blank for a shell. -/
theorem blank_of_strip (h : strip line.render = "") : ∃ spaces hspaces, line = .blank spaces hspaces := by
  have hspace := isSpace_of_strip h
  cases line with
  | blank spaces hspaces => exact ⟨spaces, hspaces, rfl⟩
  | comment indent text hindent oneLine noNull =>
      have hhash : '#' ∈ (Line.comment indent text hindent oneLine noNull).render.toList := by
        simp [Line.render]
      exact absurd (hspace _ hhash) (by decide)
  | setting s =>
      have hsign : '=' ∈ (Line.setting s).render.toList := by
        rw [Line.render, toList_assignment]
        exact List.mem_append_right _ List.mem_cons_self
      exact absurd (hspace _ hsign) (by decide)

/-- On a line of its own the token is what a shell reads from the new line. -/
theorem sourceLine_own (hown : line.names tokenKey = true ∨ strip line.render = "") :
    sourceLine (written tokenKey newToken line.render).toList =
      sourceLine (assignment tokenKey newToken).toList := by
  rw [written]
  split_ifs with hsets
  · rfl
  · rw [sets_render isName_tokenKey] at hsets
    obtain ⟨spaces, hspaces, rfl⟩ := blank_of_strip (hown.resolve_left hsets)
    rw [String.toList_append, Line.render, sourceLine_blank hspaces]

/-- The line that is edited says nothing about other keys. -/
theorem own_keys (hown : line.names tokenKey = true ∨ strip line.render = "") :
    (∀ e ∈ readEntries [line], e.1 = tokenKey) ∧ ∀ e ∈ shellEntries [line], e.1 = tokenKey := by
  rcases hown with hnames | hblank
  · obtain ⟨s, rfl, hs⟩ := names_iff.mp hnames
    simp [readEntries, shellEntries, hs]
  · obtain ⟨spaces, hspaces, rfl⟩ := blank_of_strip hblank
    simp [readEntries, shellEntries]

/-- Behind another text the token is lost to the readers. -/
theorem lost_of_joined (hplace : Place lines before line behind)
    (hbreaks : ∀ line ∈ lines, Unbroken line.render) (htoken : Unbroken newToken)
    (hown : ¬(line.names tokenKey = true ∨ strip line.render = "")) :
    ¬Upserted tokenKey newToken (fileOf lines) := by
  rw [not_or] at hown
  have hlast : behind = [] := hplace.found.resolve_left hown.1
  have hline : Unbroken line.render :=
    hbreaks line (hplace.lines ▸ List.mem_append_right _ List.mem_cons_self)
  have hwritten : written tokenKey newToken line.render = line.render ++ assignment tokenKey newToken :=
    if_neg (by rw [sets_render isName_tokenKey]; exact hown.1)
  have hbroken : ∀ c ∈ (line.render ++ assignment tokenKey newToken).toList, c.toNat ∉ fileBreaks :=
    unbroken_file (SharedSettings.unbroken_append hline
      (SharedSettings.unbroken_assignment findable_tokenKey.unbroken htoken))
  have hentry : ∀ e ∈ envEntry (line.render ++ assignment tokenKey newToken), e.1 ≠ tokenKey := by
    intro e he
    cases line with
    | blank spaces hspaces =>
        refine absurd ?_ hown.2
        rw [Line.render, strip, stripChars,
          List.dropWhile_eq_nil_iff.mpr fun c hc => isSpace_of_blank (hspaces c hc)]
        rfl
    | comment indent text hindent oneLine noNull =>
        rw [Line.render, String.append_assoc, envEntry_comment hindent] at he
        cases he
    | setting s =>
        have hs : envEntry (Line.setting s).render = some (s.name, unwrapped s.value) :=
          Option.toList_eq_singleton_iff.mp (envEntry_render (.setting s))
        obtain ⟨v, hv⟩ := envEntry_append hs (assignment tokenKey newToken)
        rw [hv] at he
        cases Option.some.inj he
        exact fun hname => hown.1 (names_iff.mpr ⟨s, rfl, hname⟩)
  rw [upserted_iff_read hplace hbreaks, hwritten, hlast,
    lineEntries_unbroken (by decide) (by decide) hbroken]
  rintro ⟨-, hfirst, -⟩
  have hmem := mem_of_first hfirst
  rw [show readEntries [] = [] from rfl, List.append_nil, List.mem_append, Option.mem_toList] at hmem
  rcases hmem with hmem | hmem
  · exact readEntries_key hplace.before _ hmem rfl
  · exact hentry _ hmem rfl

/-- The readers on a line of its own. -/
theorem own_read_iff (hplace : Place lines before line behind)
    (hbreaks : ∀ line ∈ lines, Unbroken line.render) (htoken : Unbroken newToken)
    (hown : line.names tokenKey = true ∨ strip line.render = "") :
    Upserted tokenKey newToken (fileOf lines) ↔
      unwrapped newToken = newToken ∧ ∀ v ∈ last tokenKey (readEntries behind), v = newToken := by
  have hline : Unbroken line.render :=
    hbreaks line (hplace.lines ▸ List.mem_append_right _ List.mem_cons_self)
  have hsets : sets tokenKey line.render = true ∨ strip line.render = "" := by
    rwa [sets_render isName_tokenKey]
  obtain ⟨htext, hfile, -⟩ := written_own findable_tokenKey htoken (unbroken_file hline) hsets
  obtain ⟨hkeys, -⟩ := own_keys hown
  have hbefore : first tokenKey (readEntries before) = none :=
    first_eq_none.mpr (readEntries_key hplace.before)
  have hfirst : first tokenKey (readEntries before ++ [(tokenKey, unwrapped newToken)] ++
      readEntries behind) = some (unwrapped newToken) := by
    rw [first_append, first_append, hbefore, first_singleton, if_pos rfl, Option.none_or,
      Option.some_or]
  have hother : ∀ k ≠ tokenKey, ∀ es : List (String × String), (∀ e ∈ es, e.1 = tokenKey) →
      last k (readEntries before ++ es ++ readEntries behind) =
          (last k (readEntries behind)).or (last k (readEntries before)) ∧
        first k (readEntries before ++ es ++ readEntries behind) =
          (first k (readEntries before)).or (first k (readEntries behind)) := by
    intro k hk es hes
    have hlast : last k es = none := last_eq_none.mpr fun e he => (hes e he).trans_ne hk.symm
    have hnone : first k es = none := first_eq_none.mpr fun e he => (hes e he).trans_ne hk.symm
    rw [last_append, last_append, hlast, Option.none_or, first_append, first_append, hnone,
      Option.or_none]
    exact ⟨rfl, rfl⟩
  have hself : ∀ e ∈ [(tokenKey, unwrapped newToken)], e.1 = tokenKey := by simp
  rw [upserted_iff_read hplace hbreaks, htext, hfile, hfirst, last_append, last_append,
    last_singleton, if_pos rfl, Option.some_or]
  constructor
  · rintro ⟨⟨hdict, -⟩, henv, -⟩
    have hunquoted := Option.some.inj henv
    rw [hunquoted] at hdict
    exact ⟨hunquoted, or_some_iff.mp hdict⟩
  · rintro ⟨hunquoted, hbehind⟩
    rw [hunquoted] at hself ⊢
    refine ⟨⟨or_some_iff.mpr hbehind, fun k hk _ => ?_⟩, rfl, fun k hk => ?_⟩
    · rw [(hother k hk _ hself).1, (hother k hk _ hkeys).1]
    · rw [(hother k hk _ hself).2, (hother k hk _ hkeys).2]

/-- A shell on a line of its own. -/
theorem own_source_iff (hplace : Place lines before line behind)
    (hbreaks : ∀ line ∈ lines, Unbroken line.render) (htoken : Unbroken newToken)
    (hown : line.names tokenKey = true ∨ strip line.render = "") :
    (∃ es es', source (fileOf lines) = some es ∧ source (rotated newToken lines) = some es' ∧
        last tokenKey es' = some newToken ∧ ∀ name ≠ tokenKey, last name es' = last name es) ↔
      ShellTakes newToken before behind := by
  have hedited := source_rotated hplace hbreaks htoken
  rw [sourceLine_own hown] at hedited
  have hbefore : last tokenKey (shellEntries before) = none :=
    last_eq_none.mpr (shellEntries_key hplace.before)
  have hfile : shellEntries lines = shellEntries before ++ shellEntries [line] ++ shellEntries behind := by
    rw [hplace.lines, ← shellEntries_append, ← shellEntries_append, List.append_assoc]
    rfl
  have hold : ∀ name ≠ tokenKey, last name (shellEntries lines) =
      (last name (shellEntries behind)).or (last name (shellEntries before)) := by
    intro name hname
    have hnone : last name (shellEntries [line]) = none :=
      last_eq_none.mpr fun e he => ((own_keys hown).2 e he).trans_ne hname.symm
    rw [hfile, last_append, last_append, hnone, Option.none_or]
  have hnew : ∀ (es : List (String × String)) (name : String),
      last name (shellEntries before ++ es ++ shellEntries behind) =
        (last name (shellEntries behind)).or ((last name es).or (last name (shellEntries before))) := by
    intro es name
    rw [last_append, last_append]
  have hliteral : Literal newToken →
      sourceLine (assignment tokenKey newToken).toList = some [(tokenKey, newToken)] := by
    intro h
    rw [toList_assignment]
    exact sourceLine_literal isName_tokenKey h
  have honeLine : '\n' ∉ newToken.toList := fun hmem => htoken _ hmem (by decide)
  rw [source_fileOf, hedited]
  constructor
  · rintro ⟨es, es', hes, hes', htake, hothers⟩
    cases Option.some.inj hes
    obtain ⟨ws, hws, rfl⟩ := Option.map_eq_some_iff.mp hes'
    rw [hnew, hbefore, Option.or_none] at htake
    cases hbehind : last tokenKey (shellEntries behind) with
    | none =>
        rw [hbehind, Option.none_or] at htake
        rw [toList_assignment] at hws
        have hvalue := literal_of_sourceLine isName_tokenKey honeLine hws (mem_of_last htake) le_rfl
        exact .inl ⟨hvalue, by rw [hbehind]; exact nofun⟩
    | some v =>
        rw [hbehind, Option.some_or] at htake
        refine .inr ⟨hbehind.trans htake, ws, hws, fun name hname v' hv' => ?_⟩
        have hsame := hothers name hname
        rw [hnew, hold name hname] at hsame
        exact or_eq_or_iff.mp hsame.symm v' hv'
  · rintro (⟨hvalue, hbehind⟩ | ⟨hbehind, ws, hws, hstray⟩)
    · rw [hliteral hvalue, Option.map_some]
      refine ⟨_, _, rfl, rfl, ?_, fun name hname => ?_⟩
      · rw [hnew, last_singleton, if_pos rfl, Option.some_or]
        exact or_some_iff.mpr hbehind
      · rw [hnew, hold name hname, last_singleton, if_neg hname.symm, Option.none_or]
    · rw [hws, Option.map_some]
      refine ⟨_, _, rfl, rfl, ?_, fun name hname => ?_⟩
      · rw [hnew, hbehind, Option.some_or]
      · rw [hnew, hold name hname]
        exact (or_eq_or_iff.mpr (hstray name hname)).symm

end Edited

theorem survives_of_carried {newToken : String} {lines : List Line} (hne : lines ≠ [])
    (hbreaks : ∀ line ∈ lines, Unbroken line.render) (h : Carried newToken lines) :
    Survives newToken lines := by
  obtain ⟨hsource, hread, haccept⟩ := h
  obtain ⟨hstripped, hascii⟩ := (requireToken_bearer newToken newToken).mp haccept
  have htoken := hread.findable.2
  obtain ⟨before, line, behind, hplace⟩ := exists_place hne
  have hown : line.names tokenKey = true ∨ strip line.render = "" := by
    by_contra hlost
    exact lost_of_joined hplace hbreaks htoken hlost hread
  obtain ⟨hunquoted, hbehind⟩ := (own_read_iff hplace hbreaks htoken hown).mp hread
  exact ⟨hstripped, hascii, htoken, hunquoted, before, line, behind, hplace, hown, hbehind,
    (own_source_iff hplace hbreaks htoken hown).mp hsource⟩

theorem carried_of_survives {newToken : String} {lines : List Line}
    (hbreaks : ∀ line ∈ lines, Unbroken line.render) (h : Survives newToken lines) :
    Carried newToken lines := by
  obtain ⟨hstripped, hascii, htoken, hunquoted, before, line, behind, hplace, hown, hbehind,
    htakes⟩ := h
  exact ⟨(own_source_iff hplace hbreaks htoken hown).mpr htakes,
    (own_read_iff hplace hbreaks htoken hown).mpr ⟨hunquoted, hbehind⟩,
    (requireToken_bearer newToken newToken).mpr ⟨hstripped, hascii⟩⟩

/-- The token is carried through the rotation if and only if it survives it. -/
theorem carried_iff {newToken : String} {lines : List Line} (hne : lines ≠ [])
    (hbreaks : ∀ line ∈ lines, Unbroken line.render) :
    Carried newToken lines ↔ Survives newToken lines :=
  ⟨survives_of_carried hne hbreaks, carried_of_survives hbreaks⟩

/-- A file with one line for the token. -/
def tokenLine (token : String) (h : literalFrom true token.toList = true) (hline : '\n' ∉ token.toList)
    (hnull : '\x00' ∉ token.toList) : Line :=
  .setting ⟨tokenKey, .bare, token, isName_tokenKey, h, hline, hnull⟩

def oldFile : List Line :=
  [tokenLine "old" (by decide) (by decide) (by decide), .blank "" (by simp)]

theorem unbroken_oldFile : ∀ line ∈ oldFile, Unbroken line.render := by decide +kernel

/-- A plain token takes the place of the old one. -/
theorem survives_oldFile {newToken : String} (hstrip : strip newToken = newToken)
    (hascii : isAscii newToken = true) (hunbroken : Unbroken newToken)
    (hunquoted : unwrapped newToken = newToken) (hliteral : Literal newToken) :
    Survives newToken oldFile :=
  ⟨hstrip, hascii, hunbroken, hunquoted, [], _, _, ⟨rfl, by simp, .inl (by decide)⟩,
    .inl (by decide), by simp [readEntries, last], .inl ⟨hliteral, by simp [shellEntries, last]⟩⟩

theorem carried_iff_oldFile : Carried "0123456789abcdef0123456789abcdef" oldFile :=
  (carried_iff (List.cons_ne_nil _ _) unbroken_oldFile).mpr
    (survives_oldFile (by decide) (by decide) (by decide) (by decide) ⟨by decide, by decide, by decide⟩)

/-- A token in quotes is another token to every reader. -/
theorem quoted_token_changes : ∃ (newToken : String) (lines : List Line), isLongEnough newToken = true ∧
    (∀ line ∈ lines, Unbroken line.render) ∧ ¬Carried newToken lines := by
  refine ⟨"\"aaaaaaaaaaaaaaaaaaaaaaaaaaaaaaaa\"", oldFile, by decide, by decide +kernel, fun h => ?_⟩
  have hread := h.read.kv
  revert hread
  decide +kernel

end MilvusOnprem.RotatedToken
