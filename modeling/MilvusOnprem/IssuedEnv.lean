import MilvusOnprem.ReadersAgree
import MilvusOnprem.JobPolling

/-!
# The cluster.env of a joiner

The leader parses its own file, which takes the quotes off the values, and writes the
values bare into the file of a joiner. The joiner's shell gets from it what the leader's
shell has only for values that mean the same without their quotes.
-/
namespace MilvusOnprem.IssuedEnv

open PythonText ClusterEnv EnvLines EnvText EnvUpsert EnvFormat ReadersAgree ShellSource Assignments
open SharedSettings (lineBreaks Unbroken)
open JobPolling (substituted)

/-- `printf '%s\n' "$cluster_env_body" > "$CLUSTER_ENV"`, where the body comes out of a
command substitution. -/
def cmdJoinFile (clusterEnv : String) : String := String.ofList (substituted clusterEnv.toList ++ ['\n'])

/-- The joiner's shell has the leader's value for every shared key, and the text that is
issued is read as the same dictionary. -/
structure Issued (lines : List Line) (text : String) : Prop where
  sourced : ∃ es es', source (fileOf lines) = some es ∧ source (cmdJoinFile text) = some es' ∧
    ∀ key ∉ perPeerKeys, last key es' = last key es
  reread : ∀ key ∉ perPeerKeys, dictValue text key = dictValue (fileOf lines) key

/-- A name, an address or a date. -/
def isWord (s : String) : Bool := s.toList.all fun c => isNameChar c || ".-:".toList.contains c

/-- What a leader issues: the text for a list of peers after the join. -/
structure Issues (lines : List Line) (text : String) : Prop where
  built : ∃ nodeName localIp ips names issuedAt, isWord issuedAt = true ∧
    (∀ name ∈ names, isWord name = true) ∧ (∀ ip, Json.str ip ∈ ips → isWord ip = true) ∧
    buildJoinerClusterEnv (parseClusterEnv (fileOf lines)) nodeName localIp ips names issuedAt = .ok text

/-- The values that can be issued: what the dictionary has is what the leader's shell
has, it stands for itself as a bare word, and nothing is taken away from it when it is
read again. -/
def Shareable (lines : List Line) : Prop :=
  ∀ kv ∈ parseClusterEnv (fileOf lines), kv.1 ∉ perPeerKeys →
    isName kv.1.toList = true ∧ Literal kv.2 ∧ unwrapped kv.2 = kv.2 ∧
      last kv.1 (shellEntries lines) = some kv.2

/-! ## The dictionary of the leader -/

theorem mem_dictSet_keys {k key : String} {v : String} {es : List (String × String)} :
    key ∈ (dictSet k v es).map Prod.fst ↔ key = k ∨ key ∈ es.map Prod.fst := by
  induction es with
  | nil => simp [dictSet]
  | cons e es ih =>
      unfold dictSet
      split_ifs with he
      · simp [he]
      · rw [List.map_cons, List.mem_cons, ih, List.map_cons, List.mem_cons]
        tauto

theorem dictSet_nodup {k v : String} {es : List (String × String)} (h : (es.map Prod.fst).Nodup) :
    ((dictSet k v es).map Prod.fst).Nodup := by
  induction es with
  | nil => simp [dictSet]
  | cons e es ih =>
      rw [List.map_cons, List.nodup_cons] at h
      unfold dictSet
      split_ifs with he
      · rw [List.map_cons, List.nodup_cons]
        exact ⟨he ▸ h.1, h.2⟩
      · rw [List.map_cons, List.nodup_cons, mem_dictSet_keys]
        exact ⟨not_or.mpr ⟨he, h.1⟩, ih h.2⟩

/-- What a dictionary holds after a loop over assignments. -/
theorem parse_invariant (text : String) : ((parseClusterEnv text).map Prod.fst).Nodup ∧
    ∀ e ∈ parseClusterEnv text, e.1 ≠ "" ∧ e ∈ entriesAt lineBreaks text.toList := by
  have hfold : ∀ (es out : List (String × String)), (out.map Prod.fst).Nodup →
      ((es.foldl (fun out kv => if kv.1 = "" then out else dictSet kv.1 kv.2 out) out).map Prod.fst).Nodup ∧
        ∀ e ∈ es.foldl (fun out kv => if kv.1 = "" then out else dictSet kv.1 kv.2 out) out,
          e ∈ out ∨ e.1 ≠ "" ∧ e ∈ es := by
    intro es
    induction es with
    | nil => exact fun out hout => ⟨hout, fun e he => .inl he⟩
    | cons kv es ih =>
        intro out hout
        rw [List.foldl_cons]
        split_ifs with hname
        · obtain ⟨hnodup, hmem⟩ := ih out hout
          exact ⟨hnodup, fun e he => (hmem e he).imp_right fun h => ⟨h.1, List.mem_cons_of_mem kv h.2⟩⟩
        · obtain ⟨hnodup, hmem⟩ := ih (dictSet kv.1 kv.2 out) (dictSet_nodup hout)
          refine ⟨hnodup, fun e he => ?_⟩
          rcases hmem e he with h | h
          · rcases mem_dictSet h with rfl | h
            · exact .inr ⟨hname, List.mem_cons_self⟩
            · exact .inl h
          · exact .inr ⟨h.1, List.mem_cons_of_mem kv h.2⟩
  obtain ⟨hnodup, hmem⟩ := hfold (entriesAt lineBreaks text.toList) [] List.nodup_nil
  exact ⟨hnodup, fun e he => (hmem e he).resolve_left (List.not_mem_nil)⟩

/-- Every key that a line of the leader sets is in the dictionary. -/
theorem dictValue_isSome {lines : List Line} {s : Setting} (h : Line.setting s ∈ lines) :
    dictValue (fileOf lines) s.name ≠ none := by
  rw [dictValue_eq_last, if_neg (findable_name s.isName).named, fileOf, String.toList_ofList,
    entriesAt_charsOf (by decide) (by decide)]
  obtain ⟨v, hv, -⟩ := last_dictPieces_setting s
  intro hnone
  refine last_eq_none.mp hnone (s.name, v) (List.mem_flatMap.mpr ⟨_, List.mem_map_of_mem h, ?_⟩) rfl
  exact mem_of_last hv

theorem dictValue_of_mem {text : String} {kv : String × String} (h : kv ∈ parseClusterEnv text) :
    dictValue text kv.1 = some kv.2 := first_of_mem (parse_invariant text).1 h

/-! ## The text that is issued -/

/-- The settings of the leader that are copied. -/
def shared (lines : List Line) : List (String × String) :=
  (parseClusterEnv (fileOf lines)).filter fun kv => kv.1 ∉ perPeerKeys

def isPlain (c : Char) : Bool := isNameChar c || ".-:,".toList.contains c

theorem plain_of_word {s : String} (h : isWord s = true) : ∀ c ∈ s.toList, isPlain c = true := by
  intro c hc
  have hword := List.all_eq_true.mp h c hc
  rw [Bool.or_eq_true] at hword
  rw [isPlain, Bool.or_eq_true]
  refine hword.imp_right fun hmem => ?_
  rw [List.contains_iff_mem] at hmem ⊢
  revert hmem
  simp only [show ".-:".toList = ['.', '-', ':'] from rfl, show ".-:,".toList = ['.', '-', ':', ','] from rfl,
    List.mem_cons, List.not_mem_nil, or_false]
  tauto

theorem plain_join {parts : List String} (h : ∀ s ∈ parts, isWord s = true) :
    ∀ c ∈ (join "," parts).toList, isPlain c = true := by
  intro c hc
  rcases mem_toList_join hc with hc | ⟨s, hs, hc⟩
  · rw [List.mem_singleton.mp hc]
    decide
  · exact plain_of_word (h s hs) c hc

/-- The characters of a plain text mean nothing to a shell or a reader. -/
theorem plain_range {c : Char} (h : isPlain c = true) : isNameChar c = true ∨
    c = '.' ∨ c = '-' ∨ c = ':' ∨ c = ',' := by
  rw [isPlain, Bool.or_eq_true, List.contains_iff_mem] at h
  simpa using h

theorem plain_toNat {c : Char} (h : isPlain c = true) : 44 ≤ c.toNat ∧ c.toNat ≤ 122 := by
  rcases plain_range h with h | rfl | rfl | rfl | rfl
  · obtain ⟨hlow, hhigh, -⟩ := isNameChar_range h
    exact ⟨le_trans (by decide) hlow, hhigh⟩
  all_goals decide

theorem literalFrom_plain {tilde : Bool} {cs : List Char} (h : ∀ c ∈ cs, isPlain c = true) :
    literalFrom tilde cs = true := by
  induction cs generalizing tilde with
  | nil => rfl
  | cons c cs ih =>
      have hc := h c List.mem_cons_self
      have hne : ∀ d, isPlain d = false → c ≠ d := by
        rintro d hd rfl
        rw [hc] at hd
        cases hd
      have hmeta : isMeta c = false := by
        rw [isMeta, Bool.eq_false_iff, ne_eq, List.contains_iff_mem]
        have hnone : ∀ d ∈ ";&|<>()".toList, isPlain d = false := by decide
        exact fun hmem => hne c (hnone c hmem) rfl
      have hblank : isBlank c = false := by
        rw [isBlank, Bool.or_eq_false_iff, decide_eq_false_iff_not, decide_eq_false_iff_not]
        exact ⟨hne _ (by decide), hne _ (by decide)⟩
      rw [literalFrom, hblank, hmeta, ih fun d hd => h d (List.mem_cons_of_mem c hd),
        decide_eq_false (hne '\'' (by decide)), decide_eq_false (hne '"' (by decide)),
        decide_eq_false (hne '\\' (by decide)), decide_eq_false (hne '`' (by decide)),
        decide_eq_false (hne '$' (by decide)), decide_eq_false (hne '~' (by decide))]
      rfl

theorem unbroken_plain {s : String} (h : ∀ c ∈ s.toList, isPlain c = true) : Unbroken s := by
  intro c hc
  obtain ⟨hlow, hhigh⟩ := plain_toNat (h c hc)
  generalize c.toNat = n at hlow hhigh
  simp only [lineBreaks, List.mem_cons, List.not_mem_nil, or_false]
  omega

theorem unwrapped_plain {s : String} (h : ∀ c ∈ s.toList, isPlain c = true) : unwrapped s = s := by
  have hspace : strip s = s := by
    refine stripChars_eq_self fun c hc => ?_
    rcases plain_range (h c hc) with hname | rfl | rfl | rfl | rfl
    · obtain ⟨hlow, hhigh, -⟩ := isNameChar_range hname
      have hnone : ∀ n ∈ spaces, ¬(48 ≤ n ∧ n ≤ 122) := by decide
      rw [isSpace, Bool.eq_false_iff, ne_eq, List.contains_iff_mem]
      exact fun hmem => hnone _ hmem ⟨hlow, hhigh⟩
    all_goals decide
  have hquote : ∀ q, isPlain q = false → stripOf q s = s := by
    intro q hq
    refine stripChars_eq_self fun c hc => decide_eq_false ?_
    rintro rfl
    rw [h c hc] at hq
    cases hq
  rw [unwrapped, hspace, hquote '"' (by decide), hquote '\'' (by decide)]

/-- A line of the head that sets a variable to a plain text. -/
def plainLine (name text : String) (hname : isName name.toList = true)
    (h : ∀ c ∈ text.toList, isPlain c = true) : Line :=
  .setting ⟨name, .bare, text, hname, literalFrom_plain h, fun hm => absurd (plain_toNat (h _ hm)).1 (by decide),
    fun hm => absurd (plain_toNat (h _ hm)).1 (by decide)⟩

theorem render_plainLine {name text : String} (hname : isName name.toList = true)
    (h : ∀ c ∈ text.toList, isPlain c = true) :
    (plainLine name text hname h).render = assignment name text := by
  rw [plainLine, Line.render, Setting.value, Style.write, String.ofList_toList]

theorem readEntries_plainLine {name text : String} (hname : isName name.toList = true)
    (h : ∀ c ∈ text.toList, isPlain c = true) (lines : List Line) :
    readEntries (plainLine name text hname h :: lines) = (name, text) :: readEntries lines := by
  have hvalue : unwrapped (String.ofList (Style.bare.write text.toList)) = text := by
    rw [Style.write, String.ofList_toList, unwrapped_plain h]
  calc readEntries (plainLine name text hname h :: lines)
      = (name, unwrapped (String.ofList (Style.bare.write text.toList))) :: readEntries lines := rfl
    _ = (name, text) :: readEntries lines := by rw [hvalue]

/-- The head of an issued text sets per-peer keys only. -/
theorem head_lines {nodeName localIp ips issuedAt : String} {names : List String}
    (hnode : isWord nodeName = true) (hlocal : isWord localIp = true)
    (hips : ∀ c ∈ ips.toList, isPlain c = true) (hissued : isWord issuedAt = true)
    (hnames : ∀ name ∈ names, isWord name = true) : ∃ head : List Line,
    head.map Line.render = SharedSettings.joinerHead nodeName localIp ips issuedAt names ∧
      readEntries head = [("NODE_NAME", nodeName), ("LOCAL_IP", localIp), ("PEER_IPS", ips),
        ("PEER_NAMES", join "," names), ("ETCD_INITIAL_CLUSTER_STATE", "existing")] ∧
      (∀ line ∈ head, Unbroken line.render) ∧
      ∀ key ∉ perPeerKeys, ∀ line ∈ head, line.names key = false := by
  have hdate := plain_of_word hissued
  have hdateUnbroken : Unbroken ("" ++ "#" ++ (" Issued by leader at " ++ issuedAt)) :=
    SharedSettings.unbroken_append (by decide)
      (SharedSettings.unbroken_append (by decide) (unbroken_plain hdate))
  have hdateChar : ∀ c : Char, c.toNat < 32 → c ∉ (" Issued by leader at " ++ issuedAt).toList := by
    intro c hc hmem
    rw [String.toList_append, List.mem_append] at hmem
    rcases hmem with hmem | hmem
    · have hhigh : ∀ d ∈ " Issued by leader at ".toList, 32 ≤ d.toNat := by decide
      exact absurd (hhigh c hmem) (Nat.not_le.mpr hc)
    · exact absurd (le_trans (by decide) (plain_toNat (hdate c hmem)).1) (Nat.not_le.mpr hc)
  have hset : ∀ (name text : String) (hname : isName name.toList = true)
      (h : ∀ c ∈ text.toList, isPlain c = true), Unbroken (plainLine name text hname h).render := by
    intro name text hname h
    rw [render_plainLine]
    exact SharedSettings.unbroken_assignment (findable_name hname).unbroken (unbroken_plain h)
  refine ⟨[.comment "" " =============================================================================" (by simp)
      (by decide) (by decide),
    .comment "" " milvus-onprem cluster.env (joiner copy)" (by simp) (by decide) (by decide),
    .comment "" (" Issued by leader at " ++ issuedAt) (by simp) ?_ ?_,
    .comment "" " =============================================================================" (by simp)
      (by decide) (by decide),
    .blank "" (by simp), plainLine "NODE_NAME" nodeName (by decide) (plain_of_word hnode),
    plainLine "LOCAL_IP" localIp (by decide) (plain_of_word hlocal), plainLine "PEER_IPS" ips (by decide) hips,
    plainLine "PEER_NAMES" (join "," names) (by decide) (plain_join hnames),
    plainLine "ETCD_INITIAL_CLUSTER_STATE" "existing" (by decide) (by decide), .blank "" (by simp)], ?_, ?_, ?_, ?_⟩
  · exact hdateChar _ (by decide)
  · exact hdateChar _ (by decide)
  · simp only [List.map_cons, List.map_nil, render_plainLine, SharedSettings.joinerHead]
    rfl
  · have hcomment : ∀ indent text h hline hnull lines,
        readEntries (.comment indent text h hline hnull :: lines) = readEntries lines := fun _ _ _ _ _ _ => rfl
    have hblank : ∀ spaces h lines, readEntries (.blank spaces h :: lines) = readEntries lines := fun _ _ _ => rfl
    rw [hcomment, hcomment, hcomment, hcomment, hblank, readEntries_plainLine, readEntries_plainLine,
      readEntries_plainLine, readEntries_plainLine, readEntries_plainLine, hblank]
    rfl
  · intro line hline
    simp only [List.mem_cons, List.not_mem_nil, or_false] at hline
    rcases hline with rfl | rfl | rfl | rfl | rfl | rfl | rfl | rfl | rfl | rfl | rfl
    · decide +kernel
    · decide +kernel
    · exact hdateUnbroken
    · decide +kernel
    · decide
    · exact hset _ _ _ _
    · exact hset _ _ _ _
    · exact hset _ _ _ _
    · exact hset _ _ _ _
    · exact hset _ _ _ _
    · decide
  · intro key hkey line hline
    have hother : ∀ name ∈ perPeerKeys, ∀ text hname h, (plainLine name text hname h).names key = false := by
      intro name hname text _ _
      exact decide_eq_false fun he => hkey (he ▸ hname)
    simp only [List.mem_cons, List.not_mem_nil, or_false] at hline
    rcases hline with rfl | rfl | rfl | rfl | rfl | rfl | rfl | rfl | rfl | rfl | rfl
    · rfl
    · rfl
    · rfl
    · rfl
    · rfl
    · exact hother _ (by decide) _ _ _
    · exact hother _ (by decide) _ _ _
    · exact hother _ (by decide) _ _ _
    · exact hother _ (by decide) _ _ _
    · exact hother _ (by decide) _ _ _
    · rfl

theorem toList_join_newline (parts : List String) : (join "\n" parts).toList = charsOf parts :=
  toList_join '\n' parts

theorem joinValues_texts {values : List Json} {text : String} (h : joinValues values = .ok text) :
    ∃ texts, text = join "," texts ∧ values = texts.map Json.str := by
  obtain ⟨texts, hm, rfl⟩ := SharedSettings.of_map_ok h
  refine ⟨texts, rfl, ?_⟩
  clear h
  induction values generalizing texts with
  | nil =>
      cases hm
      rfl
  | cons v vs ih =>
      rw [List.mapM_cons] at hm
      cases v with
      | str s =>
          simp only [bind, Except.bind] at hm
          split at hm
          · cases hm
          · next rest hrest =>
              cases hm
              rw [List.map_cons, ← ih rest hrest]
      | _ => cases hm

/-- The builder's lists hold the joiner. -/
theorem self_listed {leaderEnv : List (String × String)} {nodeName localIp issuedAt env : String}
    {ips : List Json} {names : List String}
    (h : buildJoinerClusterEnv leaderEnv nodeName localIp ips names issuedAt = .ok env) :
    nodeName ∈ names ∧ Json.str localIp ∈ ips := by
  unfold buildJoinerClusterEnv at h
  split_ifs at h with hlength hip hname
  · cases hjoin : joinValues ips with
    | error e =>
        rw [hjoin] at h
        cases h
    | ok text => exact ⟨hname, hip⟩
  · cases hjoin : joinValues ips with
    | error e =>
        rw [hjoin] at h
        cases h
    | ok text =>
        rw [hjoin] at h
        cases h

/-- A text that is built is a head and the shared settings. -/
theorem built_text {leaderEnv : List (String × String)} {nodeName localIp issuedAt text : String}
    {ips : List Json} {names : List String} (hissued : isWord issuedAt = true)
    (hnames : ∀ name ∈ names, isWord name = true) (hips : ∀ ip, Json.str ip ∈ ips → isWord ip = true)
    (h : buildJoinerClusterEnv leaderEnv nodeName localIp ips names issuedAt = .ok text) :
    ∃ (texts : List String) (head : List Line), ips = texts.map Json.str ∧
      head.map Line.render = SharedSettings.joinerHead nodeName localIp (join "," texts) issuedAt names ∧
      readEntries head = [("NODE_NAME", nodeName), ("LOCAL_IP", localIp), ("PEER_IPS", join "," texts),
        ("PEER_NAMES", join "," names), ("ETCD_INITIAL_CLUSTER_STATE", "existing")] ∧
      (∀ line ∈ head, Unbroken line.render) ∧
      (∀ key ∉ perPeerKeys, ∀ line ∈ head, line.names key = false) ∧
      text.toList = charsOf (head.map Line.render ++
        (leaderEnv.filter fun kv => kv.1 ∉ perPeerKeys).map (fun kv => assignment kv.1 kv.2) ++ [""]) := by
  obtain ⟨hnode, hlocal⟩ := self_listed h
  obtain ⟨ipText, hjoin, rfl⟩ := SharedSettings.buildJoinerClusterEnv_eq h
  obtain ⟨texts, rfl, rfl⟩ := joinValues_texts hjoin
  obtain ⟨head, hhead, hentries, hunbroken, hkeys⟩ := head_lines (hnames _ hnode) (hips _ hlocal)
    (plain_join fun t ht => hips t (List.mem_map_of_mem ht)) hissued hnames
  exact ⟨texts, head, rfl, hhead, hentries, hunbroken, hkeys, by rw [hhead, toList_join_newline]; rfl⟩

/-- An issued text is a head and the shared settings. -/
theorem issued_text {lines : List Line} {text : String} (h : Issues lines text) :
    ∃ head : List Line, (∀ line ∈ head, Unbroken line.render) ∧
      (∀ key ∉ perPeerKeys, ∀ line ∈ head, line.names key = false) ∧
      text.toList = charsOf (head.map Line.render ++
        (shared lines).map (fun kv => assignment kv.1 kv.2) ++ [""]) := by
  obtain ⟨nodeName, localIp, ips, names, issuedAt, hissued, hnames, hips, hbuilt⟩ := h.built
  obtain ⟨-, head, -, -, -, hunbroken, hkeys, htext⟩ := built_text hissued hnames hips hbuilt
  exact ⟨head, hunbroken, hkeys, htext⟩

/-! ## Sourcing an issued text -/

/-- What is in the dictionary of the leader. -/
theorem mem_shared {file : String} {kv : String × String}
    (h : kv ∈ (parseClusterEnv file).filter fun kv => kv.1 ∉ perPeerKeys) :
    kv ∈ parseClusterEnv file ∧ kv.1 ∉ perPeerKeys ∧ Findable kv.1 ∧ Unbroken kv.2 := by
  obtain ⟨hmem, hper⟩ := List.mem_filter.mp h
  obtain ⟨hname, hentry⟩ := (parse_invariant file).2 kv hmem
  exact ⟨hmem, of_decide_eq_true hper, findable_of_mem hname hentry⟩

theorem charsOf_concat_empty {lines : List String} (h : lines ≠ []) :
    charsOf (lines ++ [""]) = charsOf lines ++ ['\n'] := by
  induction lines with
  | nil => exact absurd rfl h
  | cons line lines ih =>
      cases lines with
      | nil => simp [charsOf]
      | cons next lines =>
          rw [List.cons_append, charsOf_cons (by simp), ih (List.cons_ne_nil _ _),
            charsOf_cons (List.cons_ne_nil _ _), List.append_assoc, List.cons_append]

/-- Newlines at the end of a text do not matter to a shell. -/
theorem source_newline (cs : List Char) :
    source (String.ofList (cs ++ ['\n'])) = source (String.ofList cs) := by
  have hne : (cs.splitOn '\n').map String.ofList ≠ [] := by
    simp [List.splitOn_ne_nil]
  have hparts : ∀ line ∈ (cs.splitOn '\n').map String.ofList, '\n' ∉ line.toList := by
    intro line hline hmem
    obtain ⟨part, hpart, rfl⟩ := List.mem_map.mp hline
    rw [String.toList_ofList] at hmem
    exact (mem_splitOn hpart hmem).2 rfl
  have hcs : charsOf ((cs.splitOn '\n').map String.ofList) = cs := by
    rw [charsOf, List.map_map, show String.toList ∘ String.ofList = id from funext fun _ =>
      String.toList_ofList, List.map_id, List.intercalate_splitOn]
  have hended : source (String.ofList (cs ++ ['\n'])) = sourceLines
      (((cs.splitOn '\n').map String.ofList ++ [""]).map String.toList) := by
    rw [← source_charsOf (by simp), charsOf_concat_empty hne, hcs]
    intro line hline
    rcases List.mem_append.mp hline with hline | hline
    · exact hparts line hline
    · rw [List.mem_singleton.mp hline]
      decide
  have hplain : source (String.ofList cs) =
      sourceLines (((cs.splitOn '\n').map String.ofList).map String.toList) := by
    rw [← source_charsOf hne hparts, hcs]
  rw [hended, hplain, List.map_append, sourceLines_append,
    show sourceLines ([""].map String.toList) = some [] from by decide]
  cases sourceLines (((cs.splitOn '\n').map String.ofList).map String.toList) <;> simp

theorem source_cmdJoinFile {text : String} (h : '\x00' ∉ text.toList) :
    source (cmdJoinFile text) = source text := by
  have hfilter : (text.toList.filter fun c => c ≠ '\x00') = text.toList :=
    List.filter_eq_self.mpr fun c hc => decide_eq_true fun he => h (he ▸ hc)
  have hnewlines : ∀ (n : ℕ) (cs : List Char),
      source (String.ofList (cs ++ List.replicate n '\n')) = source (String.ofList cs) := by
    intro n cs
    induction n with
    | zero => rw [List.replicate_zero, List.append_nil]
    | succ n ih => rw [List.replicate_succ', ← List.append_assoc, source_newline, ih]
  have htail : text.toList.rtakeWhile (fun c => c = '\n') =
      List.replicate (text.toList.rtakeWhile fun c => c = '\n').length '\n' :=
    List.eq_replicate_iff.mpr ⟨rfl, fun c hc => by simpa using List.mem_rtakeWhile_imp hc⟩
  have hcut : text.toList.rdropWhile (fun c => c = '\n') ++ text.toList.rtakeWhile (fun c => c = '\n') =
      text.toList := List.rdropWhile_append_rtakeWhile
  calc source (cmdJoinFile text)
      = source (String.ofList (text.toList.rdropWhile fun c => c = '\n')) := by
        rw [cmdJoinFile, source_newline, substituted, hfilter, List.rdropWhile]
    _ = source (String.ofList (text.toList.rdropWhile (fun c => c = '\n') ++
          text.toList.rtakeWhile fun c => c = '\n')) := by
        rw [htail, hnewlines]
    _ = source text := by
        rw [hcut, String.ofList_toList]

/-- The entries of a text that is built, for a reader that splits at some of the line breaks. -/
theorem entriesAt_built {breaks : List ℕ} {file text : String} {head : List Line} (hn : 10 ∈ breaks)
    (hr : 13 ∈ breaks) (hbreaks : ∀ n ∈ breaks, n ∈ lineBreaks) (hhead : ∀ line ∈ head, Unbroken line.render)
    (htext : text.toList = charsOf (head.map Line.render ++ ((parseClusterEnv file).filter fun kv =>
      kv.1 ∉ perPeerKeys).map (fun kv => assignment kv.1 kv.2) ++ [""])) :
    entriesAt breaks text.toList = readEntries head ++ ((parseClusterEnv file).filter fun kv =>
      kv.1 ∉ perPeerKeys).map fun kv => (kv.1, unwrapped kv.2) := by
  have hlines : (head.map Line.render).flatMap (lineEntries breaks) = readEntries head :=
    flatMap_entries hn hr fun line hline c hc hmem => hhead line hline c hc (hbreaks _ hmem)
  have hshared : (((parseClusterEnv file).filter fun kv => kv.1 ∉ perPeerKeys).map fun kv =>
      assignment kv.1 kv.2).flatMap (lineEntries breaks) =
      ((parseClusterEnv file).filter fun kv => kv.1 ∉ perPeerKeys).map fun kv => (kv.1, unwrapped kv.2) := by
    rw [List.flatMap_map, ← List.flatMap_singleton' (List.map _ _), List.flatMap_map]
    refine List.flatMap_congr fun kv hkv => ?_
    obtain ⟨-, -, hfindable, hvalue⟩ := mem_shared hkv
    have hline : Unbroken (assignment kv.1 kv.2) :=
      SharedSettings.unbroken_assignment hfindable.unbroken hvalue
    rw [lineEntries_unbroken hn hr fun c hc hmem => hline c hc (hbreaks _ hmem), envEntry_assigned hfindable]
    rfl
  have hend : [""].flatMap (lineEntries breaks) = [] := by
    rw [List.flatMap_singleton, lineEntries_unbroken hn hr (by simp), envEntry_empty]
    rfl
  rw [htext, entriesAt_charsOf hn hr, List.flatMap_append, List.flatMap_append, hlines, hshared, hend,
    List.append_nil]

section Text

variable {lines : List Line} {text key : String}

/-- The line of a setting that is issued. -/
def sharedLine (kv : String × String) : List Char := kv.1.toList ++ '=' :: kv.2.toList

theorem null_notMem_render (line : Line) : '\x00' ∉ line.render.toList := by
  intro hmem
  have hline := sourceLine_render line
  rw [sourceLine, if_pos hmem] at hline
  cases hline

theorem null_notMem_text (h : Issues lines text)
    (hnull : ∀ kv ∈ shared lines, '\x00' ∉ sharedLine kv) : '\x00' ∉ text.toList := by
  obtain ⟨head, -, -, htext⟩ := issued_text h
  rw [htext, ← toList_join_newline]
  intro hmem
  rcases mem_toList_join hmem with hmem | ⟨line, hline, hmem⟩
  · revert hmem
    decide
  · rw [List.mem_append, List.mem_append] at hline
    rcases hline with (hline | hline) | hline
    · obtain ⟨l, -, rfl⟩ := List.mem_map.mp hline
      exact null_notMem_render l hmem
    · obtain ⟨kv, hkv, rfl⟩ := List.mem_map.mp hline
      rw [toList_assignment] at hmem
      exact hnull kv hkv hmem
    · rw [List.mem_singleton.mp hline] at hmem
      exact List.not_mem_nil hmem

/-- What a shell makes of an issued text. -/
theorem source_issued (h : Issues lines text) : ∃ head : List Line,
    (∀ key ∉ perPeerKeys, last key (shellEntries head) = none) ∧
      source text = (sourceLines ((shared lines).map sharedLine)).map (shellEntries head ++ ·) := by
  obtain ⟨head, -, hkeys, htext⟩ := issued_text h
  refine ⟨head, fun key hkey => last_eq_none.mpr (shellEntries_key (hkeys key hkey)), ?_⟩
  have hnewline : ∀ line ∈ head.map Line.render ++
      (shared lines).map (fun kv => assignment kv.1 kv.2) ++ [""], '\n' ∉ line.toList := by
    intro line hline
    rw [List.mem_append, List.mem_append] at hline
    rcases hline with (hline | hline) | hline
    · obtain ⟨l, -, rfl⟩ := List.mem_map.mp hline
      exact newline_notMem_render l
    · obtain ⟨kv, hkv, rfl⟩ := List.mem_map.mp hline
      obtain ⟨-, -, hkey, hvalue⟩ := mem_shared hkv
      exact fun hmem => SharedSettings.unbroken_assignment hkey.unbroken hvalue _ hmem (by decide)
    · rw [List.mem_singleton.mp hline]
      exact nofun
  have hshared : ((shared lines).map fun kv => assignment kv.1 kv.2).map String.toList =
      (shared lines).map sharedLine := by
    rw [List.map_map]
    exact List.map_congr_left fun kv _ => toList_assignment kv.1 kv.2
  rw [← String.ofList_toList (s := text), htext, source_charsOf (by simp) hnewline, List.map_append,
    List.map_append, sourceLines_append, sourceLines_append, hshared, List.map_map,
    show sourceLines (head.map (String.toList ∘ Line.render)) = _ from sourceLines_render head,
    Option.bind_some, show sourceLines ([""].map String.toList) = some [] from by decide]
  cases sourceLines ((shared lines).map sharedLine) <;> simp

/-- What a reader makes of an issued text. -/
theorem dictValue_issued (h : Issues lines text) (hkey : key ∉ perPeerKeys) (hne : key ≠ "") :
    dictValue text key = last key ((shared lines).map fun kv => (kv.1, unwrapped kv.2)) := by
  obtain ⟨head, hunbroken, hkeys, htext⟩ := issued_text h
  rw [dictValue_eq_last, if_neg hne, entriesAt_built (by decide) (by decide) (fun _ hn => hn) hunbroken htext,
    last_append, last_eq_none.mpr (readEntries_key (hkeys key hkey)), Option.or_none]
  rfl

theorem shared_nodup : ((shared lines).map Prod.fst).Nodup :=
  (parse_invariant (fileOf lines)).1.sublist (List.filter_sublist.map Prod.fst)

theorem dictValue_shared (hkey : key ∉ perPeerKeys) :
    dictValue (fileOf lines) key = last key (shared lines) := by
  cases hvalue : dictValue (fileOf lines) key with
  | none =>
      refine (last_eq_none.mpr fun e he => ?_).symm
      exact first_eq_none.mp hvalue e (List.mem_filter.mp he).1
  | some v =>
      have hmem : (key, v) ∈ shared lines :=
        List.mem_filter.mpr ⟨mem_of_first hvalue, decide_eq_true hkey⟩
      exact (last_of_mem shared_nodup hmem).symm

end Text

/-! ## Values without their quotes -/

theorem stripChars_sublist (p : Char → Bool) (s : String) : (stripChars p s).toList.Sublist s.toList := by
  have heq : (stripChars p s).toList = (s.toList.dropWhile p).rdropWhile p := String.toList_ofList
  rw [heq]
  exact (List.rdropWhile_prefix _ _).sublist.trans (List.dropWhile_sublist _)

theorem unwrapped_sublist (s : String) : (unwrapped s).toList.Sublist s.toList :=
  (stripChars_sublist _ _).trans ((stripChars_sublist _ _).trans (stripChars_sublist _ s))

/-- Quotes of another kind are kept. -/
theorem stripChars_quoted_kept {p : Char → Bool} {q : Char} (h : p q = false) (cs : List Char) :
    stripChars p (String.ofList (q :: (cs ++ [q]))) = String.ofList (q :: (cs ++ [q])) := by
  have hkept := stripChars_kept h [] (cs ++ [q])
  rwa [List.rdropWhile_concat_neg _ _ _ (by simp [h])] at hkept

theorem stripChars_quoted {p : Char → Bool} {q : Char} (h : p q = true) (cs : List Char) :
    stripChars p (String.ofList (q :: (cs ++ [q]))) = stripChars p (String.ofList cs) := by
  rw [← stripChars_dropWhile, List.dropWhile_cons_of_pos h, stripChars_dropWhile,
    ← stripChars_rdropWhile, List.rdropWhile_concat_pos _ _ _ h, stripChars_rdropWhile]

theorem stripOf_quoted (q : Char) (text : String) :
    stripOf q (String.ofList (q :: (text.toList ++ [q]))) = stripOf q text := by
  rw [stripOf, stripOf, stripChars_quoted (decide_eq_true rfl), String.ofList_toList]

/-- A reader gets no more than a shell. -/
theorem unwrapped_length (s : Setting) : (unwrapped s.value).toList.length ≤ s.text.toList.length := by
  obtain ⟨name, style, text, -, -, -, -⟩ := s
  cases style with
  | bare =>
      rw [Setting.value, Style.write, String.ofList_toList]
      exact (unwrapped_sublist text).length_le
  | single =>
      have hspace := stripChars_quoted_kept (p := isSpace) (q := '\'') (by decide) text.toList
      have hdouble := stripChars_quoted_kept (p := fun c => c = '"') (q := '\'') (by decide) text.toList
      rw [Setting.value, Style.write, unwrapped, strip, hspace, stripOf, stripOf, hdouble, ← stripOf,
        stripOf_quoted]
      exact (stripChars_sublist _ text).length_le
  | double =>
      have hspace := stripChars_quoted_kept (p := isSpace) (q := '"') (by decide) text.toList
      rw [Setting.value, Style.write, unwrapped, strip, hspace, stripOf_quoted]
      exact ((stripChars_sublist _ _).trans (stripChars_sublist _ text)).length_le

/-! ## Lines of literal values -/

theorem sourceLines_literal {kvs : List (String × String)}
    (h : ∀ kv ∈ kvs, isName kv.1.toList = true ∧ Literal kv.2) :
    sourceLines (kvs.map sharedLine) = some kvs := by
  induction kvs with
  | nil => rfl
  | cons kv kvs ih =>
      obtain ⟨hname, hliteral⟩ := h kv List.mem_cons_self
      rw [List.map_cons, sourceLines_cons, sharedLine, sourceLine_literal hname hliteral,
        ih fun e he => h e (List.mem_cons_of_mem kv he)]
      rfl

/-- If no value gets shorter on its way through a shell, all values are literal. The
last line has the last word on its own key, so it goes first. -/
theorem literal_of_sourceLines {kvs es : List (String × String)} (hkeys : (kvs.map Prod.fst).Nodup)
    (hlines : ∀ kv ∈ kvs, isName kv.1.toList = true ∧ '\n' ∉ kv.2.toList)
    (h : sourceLines (kvs.map sharedLine) = some es)
    (hlong : ∀ kv ∈ kvs, ∃ w, last kv.1 es = some w ∧ kv.2.toList.length ≤ w.toList.length) :
    ∀ kv ∈ kvs, Literal kv.2 := by
  induction kvs using List.reverseRecOn generalizing es with
  | nil => exact nofun
  | append_singleton kvs kv ih =>
      have hlast : kv ∈ kvs ++ [kv] := List.mem_append_right _ List.mem_cons_self
      obtain ⟨hname, hnewline⟩ := hlines kv hlast
      rw [List.map_append, sourceLines_append, List.map_singleton] at h
      obtain ⟨init, hinit, h⟩ := Option.bind_eq_some_iff.mp h
      obtain ⟨es', hes', rfl⟩ := Option.map_eq_some_iff.mp h
      rw [sourceLines_cons, show sourceLines [] = some [] from rfl] at hes'
      obtain ⟨own, hown, hes'⟩ := Option.bind_eq_some_iff.mp hes'
      rw [Option.map_some, List.append_nil] at hes'
      rw [← Option.some.inj hes'] at hlong
      have hliteral : Literal kv.2 := by
        obtain ⟨w, hw, hlen⟩ := hlong kv hlast
        obtain ⟨v, hv⟩ := last_sourceLine hname hown
        rw [last_append, hv, Option.some_or] at hw
        cases Option.some.inj hw
        exact literal_of_sourceLine hname hnewline hown (mem_of_last hv) hlen
      have howned : own = [kv] := by
        have hself := sourceLine_literal hname hliteral
        exact Option.some.inj (hown.symm.trans hself)
      rw [List.map_append, List.nodup_append] at hkeys
      intro e he
      rcases List.mem_append.mp he with he | he
      · refine ih hkeys.1 (fun kv hkv => hlines kv (List.mem_append_left _ hkv)) hinit ?_ e he
        intro kv' hkv'
        obtain ⟨w, hw, hlen⟩ := hlong kv' (List.mem_append_left _ hkv')
        have hne : kv.1 ≠ kv'.1 := fun heq =>
          hkeys.2.2 _ (List.mem_map_of_mem hkv') _ (List.mem_map_of_mem List.mem_cons_self) heq.symm
        rw [howned, last_append, last_singleton, if_neg hne, Option.none_or] at hw
        exact ⟨w, hw, hlen⟩
      · rw [List.mem_singleton.mp he]
        exact hliteral

/-- The setting that a reader and a shell have. -/
theorem read_setting {lines : List Line} {key v : String} (h : last key (readEntries lines) = some v) :
    ∃ s : Setting, s.name = key ∧ unwrapped s.value = v ∧
      last key (shellEntries lines) = some s.text := by
  have hsome : ¬∀ line ∈ lines, line.names key = false := by
    intro hnone
    rw [last_eq_none.mpr (readEntries_key hnone)] at h
    cases h
  obtain ⟨before, s, behind, rfl, hs, hbehind⟩ := exists_last hsome
  have hread : readEntries (.setting s :: behind) = (s.name, unwrapped s.value) :: readEntries behind := rfl
  have hshell : shellEntries (.setting s :: behind) = (s.name, s.text) :: shellEntries behind := rfl
  refine ⟨s, hs, ?_, ?_⟩
  · rw [readEntries_append, hread, last_append, last_cons, last_eq_none.mpr (readEntries_key hbehind),
      if_pos hs, Option.none_or, Option.some_or] at h
    exact Option.some.inj h
  · rw [shellEntries_append, hshell, last_append, last_cons, last_eq_none.mpr (shellEntries_key hbehind),
      if_pos hs, Option.none_or, Option.some_or]

/-- A setting that is issued comes from a line, unless a line hides others. -/
theorem shared_setting {lines : List Line} (h : ∀ line ∈ lines, Unbroken line.render)
    {kv : String × String} (hkv : kv ∈ shared lines) : ∃ s : Setting, s.name = kv.1 ∧
      unwrapped s.value = kv.2 ∧ last kv.1 (shellEntries lines) = some s.text := by
  obtain ⟨hmem, -, hfindable, -⟩ := mem_shared hkv
  have hvalue := dictValue_of_mem hmem
  rw [dictValue_eq_last, if_neg hfindable.named, fileOf, String.toList_ofList,
    entriesAt_charsOf (by decide) (by decide), flatMap_entries (by decide) (by decide) h] at hvalue
  exact read_setting hvalue

/-! ## What is issued -/

section Issues

variable {lines : List Line} {text : String}

theorem issued_of_shareable (h : Issues lines text) (hshare : Shareable lines) : Issued lines text := by
  have hkv : ∀ kv ∈ shared lines, isName kv.1.toList = true ∧ Literal kv.2 ∧ unwrapped kv.2 = kv.2 ∧
      last kv.1 (shellEntries lines) = some kv.2 := by
    intro kv hkv
    obtain ⟨hmem, hper, -⟩ := mem_shared hkv
    exact hshare kv hmem hper
  have hnull : ∀ kv ∈ shared lines, '\x00' ∉ sharedLine kv := by
    intro kv hmem hnull
    obtain ⟨hname, hliteral, -⟩ := hkv kv hmem
    have hline : sourceLine (sharedLine kv) = some [kv] := sourceLine_literal hname hliteral
    rw [sourceLine, if_pos hnull] at hline
    cases hline
  constructor
  · obtain ⟨head, hhead, hsource⟩ := source_issued h
    have hliteral := sourceLines_literal fun kv hmem => ⟨(hkv kv hmem).1, (hkv kv hmem).2.1⟩
    rw [hliteral, Option.map_some] at hsource
    refine ⟨shellEntries lines, shellEntries head ++ shared lines, source_fileOf lines,
      (source_cmdJoinFile (null_notMem_text h hnull)).trans hsource, fun key hkey => ?_⟩
    rw [last_append, hhead key hkey, Option.or_none]
    cases hlast : last key (shared lines) with
    | some v => exact ((hkv _ (mem_of_last hlast)).2.2.2).symm
    | none =>
        refine (last_eq_none.mpr fun e he hname => ?_).symm
        obtain ⟨line, hline, he⟩ := List.mem_filterMap.mp he
        cases line with
        | setting s =>
            cases Option.some.inj he
            apply dictValue_isSome hline
            rw [show s.name = key from hname, dictValue_shared hkey, hlast]
        | _ => cases he
  · intro key hkey
    by_cases hne : key = ""
    · rw [dictValue_eq_last, dictValue_eq_last, if_pos hne, if_pos hne]
    · have hsame : (shared lines).map (fun kv => (kv.1, unwrapped kv.2)) = shared lines := by
        refine (List.map_congr_left fun kv hmem => ?_).trans (List.map_id _)
        rw [(hkv kv hmem).2.2.1]
        rfl
      rw [dictValue_issued h hkey hne, hsame, dictValue_shared hkey]

theorem shareable_of_issued (h : Issues lines text) (hbreaks : ∀ line ∈ lines, Unbroken line.render)
    (hissued : Issued lines text) : Shareable lines := by
  have hname : ∀ kv ∈ shared lines, isName kv.1.toList = true := by
    intro kv hkv
    obtain ⟨s, hs, -⟩ := shared_setting hbreaks hkv
    exact hs ▸ s.isName
  have hnull : ∀ kv ∈ shared lines, '\x00' ∉ sharedLine kv := by
    intro kv hkv hmem
    obtain ⟨s, hs, hvalue, -⟩ := shared_setting hbreaks hkv
    rcases List.mem_append.mp hmem with hmem | hmem
    · exact null_notMem_name (hname kv hkv) hmem
    · rcases List.mem_cons.mp hmem with heq | hmem
      · exact absurd heq (by decide)
      · rw [← hvalue] at hmem
        have hwritten := (unwrapped_sublist s.value).mem hmem
        rw [Setting.value, String.toList_ofList] at hwritten
        exact notMem_write s.noNull (by decide) (by decide) hwritten
  obtain ⟨es, es', hes, hes', hlast⟩ := hissued.sourced
  rw [source_fileOf] at hes
  obtain rfl := Option.some.inj hes
  obtain ⟨head, hhead, hsource⟩ := source_issued h
  rw [source_cmdJoinFile (null_notMem_text h hnull), hsource] at hes'
  obtain ⟨own, hown, rfl⟩ := Option.map_eq_some_iff.mp hes'
  have hkeep : ∀ kv ∈ shared lines, last kv.1 own = last kv.1 (shellEntries lines) := by
    intro kv hkv
    obtain ⟨-, hper, -⟩ := mem_shared hkv
    rw [← hlast kv.1 hper, last_append, hhead kv.1 hper, Option.or_none]
  have hliteral : ∀ kv ∈ shared lines, Literal kv.2 := by
    refine literal_of_sourceLines shared_nodup (fun kv hkv => ⟨hname kv hkv, ?_⟩) hown fun kv hkv => ?_
    · obtain ⟨-, -, -, hvalue⟩ := mem_shared hkv
      exact fun hmem => hvalue _ hmem (by decide)
    · obtain ⟨s, -, hvalue, hshell⟩ := shared_setting hbreaks hkv
      exact ⟨s.text, (hkeep kv hkv).trans hshell, hvalue ▸ unwrapped_length s⟩
  have hall := sourceLines_literal fun kv hkv => ⟨hname kv hkv, hliteral kv hkv⟩
  cases Option.some.inj (hown.symm.trans hall)
  intro kv hmem hper
  have hkv : kv ∈ shared lines := List.mem_filter.mpr ⟨hmem, decide_eq_true hper⟩
  obtain ⟨-, -, hfindable, -⟩ := mem_shared hkv
  refine ⟨hname kv hkv, hliteral kv hkv, ?_, ?_⟩
  · have hreread := hissued.reread kv.1 hper
    have hissuedKeys : (((shared lines).map fun kv => (kv.1, unwrapped kv.2)).map Prod.fst).Nodup := by
      rw [List.map_map]
      exact shared_nodup
    rw [dictValue_issued h hper hfindable.named, dictValue_of_mem hmem,
      last_of_mem hissuedKeys (List.mem_map_of_mem hkv)] at hreread
    exact Option.some.inj hreread
  · rw [← hkeep kv hkv]
    exact last_of_mem shared_nodup hkv

end Issues

/-- The joiner has the settings of the leader if they stand for themselves without their
quotes, and, where no other line break hides a line, only then. -/
theorem issued_iff {lines : List Line} {text : String} (h : Issues lines text) :
    (Shareable lines → Issued lines text) ∧
      ((∀ line ∈ lines, Unbroken line.render) → Issued lines text → Shareable lines) :=
  ⟨issued_of_shareable h, shareable_of_issued h⟩

/-- What a leader issues to a second node. -/
theorem exists_issues (lines : List Line) : ∃ text, Issues lines text := by
  have hnames : ∀ name ∈ ["node-1", "node-2"], isWord name = true := by decide
  have hips : ∀ ip, Json.str ip ∈ [Json.str "10.0.0.1", Json.str "10.0.0.2"] → isWord ip = true := by
    intro ip hip
    simp only [List.mem_cons, List.not_mem_nil, or_false, Json.str.injEq] at hip
    rcases hip with rfl | rfl <;> decide
  exact ⟨_, "node-2", "10.0.0.2", [.str "10.0.0.1", .str "10.0.0.2"], ["node-1", "node-2"],
    "2025-01-01T00:00:00", by decide, hnames, hips, rfl⟩

/-- A port is issued as it is. -/
theorem issued_iff_port : ∃ text, Issued [bareLine "MINIO_PORT" "9000" (by decide) (by decide)
    (by decide) (by decide)] text := by
  obtain ⟨text, htext⟩ := exists_issues
    [bareLine "MINIO_PORT" "9000" (by decide) (by decide) (by decide) (by decide)]
  refine ⟨text, (issued_iff htext).1 fun kv hkv _ => ?_⟩
  have hparsed : parseClusterEnv (fileOf [bareLine "MINIO_PORT" "9000" (by decide) (by decide) (by decide)
      (by decide)]) = [("MINIO_PORT", "9000")] := by decide +kernel
  rw [hparsed, List.mem_singleton] at hkv
  subst hkv
  exact ⟨by decide, ⟨by decide, by decide, by decide⟩, by decide +kernel, by decide⟩

/-- The blank that a leader has in quotes is a blank between words to the joiner. -/
theorem quoted_blank_not_issued : ¬∀ lines text, Issues lines text → Issued lines text := by
  intro h
  let lines : List Line := [.setting ⟨"NOTE", .single, "a b", by decide, by decide, by decide, by decide⟩]
  obtain ⟨text, htext⟩ := exists_issues lines
  have hparsed : ("NOTE", "a b") ∈ parseClusterEnv (fileOf lines) := by decide +kernel
  have hbreaks : ∀ line ∈ lines, Unbroken line.render := by decide +kernel
  obtain ⟨-, hliteral, -⟩ := shareable_of_issued htext hbreaks (h lines text htext) _ hparsed (by decide)
  exact absurd hliteral.scanned (by decide)

end MilvusOnprem.IssuedEnv
