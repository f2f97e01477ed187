import MilvusOnprem.WrittenEnv

/-!
# The cluster.env of a joiner as a store

`cmd_join` writes the body that the leader has issued and then sets what belongs to its own
host. From a leader's file of the store whose values are words it gets a file of the store: the
shared settings of the leader, and the joiner's own.
-/
namespace MilvusOnprem.JoinedEnv

open PythonText ClusterEnv EnvText EnvFormat EnvStore WrittenEnv ShellSource ShellUpsert Assignments IssuedEnv
open JobPolling (substituted)
open SharedSettings (Unbroken)

/-- What a join is about: the answer of the leader, and the host of the joiner. `dataRoot` is empty
when the flag is not given. -/
structure JoinArgs where
  issuedAt : String
  nodeName : String
  localIp : String
  names : List String
  ips : List String
  words : ∀ s ∈ issuedAt :: nodeName :: localIp :: (names ++ ips), isWord s = true
  repoRoot : Word
  dataRoot : Word

theorem isName_repoRoot : isName "HOST_REPO_ROOT".toList = true := by decide

theorem isName_dataRoot : isName "DATA_ROOT".toList = true := by decide

namespace JoinArgs

variable (j : JoinArgs)

def repoRootUpdate : Update := ⟨j.repoRoot, ⟨"HOST_REPO_ROOT", isName_repoRoot⟩⟩

def dataRootUpdate : Update := ⟨j.dataRoot, ⟨"DATA_ROOT", isName_dataRoot⟩⟩

/-- The edits of `cmd_join`. -/
def edits : List Edit :=
  .envUpsertKv j.repoRootUpdate :: if j.dataRoot.value = "" then [] else [.envUpsertKv j.dataRootUpdate]

/-- The file of the joiner from the text of the leader's, unless the leader refuses. -/
def cmdJoin (leader : String) : Option String :=
  match buildJoinerClusterEnv (parseClusterEnv leader) j.nodeName j.localIp (j.ips.map Json.str) j.names
      j.issuedAt with
  | .ok body => j.edits.foldlM Edit.apply (cmdJoinFile body)
  | .error _ => none

/-- The leader refuses lists that are not parallel, or without the joiner. -/
def accepted : Prop := j.names.length = j.ips.length ∧ j.localIp ∈ j.ips ∧ j.nodeName ∈ j.names

instance : Decidable j.accepted := inferInstanceAs (Decidable (_ ∧ _ ∧ _))

/-- The settings above the shared ones. -/
def own : List (String × String) :=
  [("NODE_NAME", j.nodeName), ("LOCAL_IP", j.localIp), ("PEER_IPS", join "," j.ips),
    ("PEER_NAMES", join "," j.names), ("ETCD_INITIAL_CLUSTER_STATE", "existing")]

/-- The map of what the leader issues. -/
def issued (m : String → Option String) (key : String) : Option String :=
  if key ∈ perPeerKeys then last key j.own else m key

/-- The map of the joiner's file. -/
def joined (m : String → Option String) : Option (String → Option String) :=
  if j.accepted then some (j.edits.foldl Edit.effect (j.issued m)) else none

end JoinArgs

/-- A map whose values can be written without quotes. -/
def Worded (m : String → Option String) : Prop := ∀ key v, m key = some v → ∃ w : Word, w.value = v

theorem worded_update {m : String → Option String} (h : Worded m) (u : Update) :
    Worded (Function.update m u.key.name (some u.value)) := by
  intro key v hv
  by_cases hkey : key = u.key.name
  · subst hkey
    rw [Function.update_self] at hv
    exact ⟨u.toWord, Option.some.inj hv⟩
  · rw [Function.update_of_ne hkey] at hv
    exact h key v hv

theorem Worded.effect {m : String → Option String} (h : Worded m) (e : Edit) : Worded (e.effect m) := by
  cases e with
  | upsertKv u => exact worded_update h u
  | envUpsertKv u => exact worded_update h u
  | sed u =>
      rw [Edit.effect]
      split_ifs
      · exact worded_update h u
      · exact h

theorem Worded.run {m : String → Option String} (h : Worded m) (edits : List Edit) :
    Worded (edits.foldl Edit.effect m) := by
  induction edits generalizing m with
  | nil => exact h
  | cons e edits ih => exact ih (h.effect e)

/-! ## The body that is written -/

/-- Only blank lines are of no text. -/
theorem entries_empty {line : Line} (h : line.render = "") : shellEntries [line] = [] := by
  cases line with
  | blank spaces hspaces => rfl
  | comment indent text hindent hline hnull => rfl
  | setting s =>
      have hsign : '=' ∈ (Line.render (.setting s)).toList := by
        rw [Line.render, EnvUpsert.toList_assignment]
        exact List.mem_append_right _ List.mem_cons_self
      rw [h] at hsign
      exact absurd hsign List.not_mem_nil

theorem null_notMem_file (f : EnvFile) : '\x00' ∉ f.text.toList := by
  rw [toList_text]
  intro hmem
  obtain ⟨line, hline, hchar⟩ := List.mem_flatten.mp hmem
  obtain ⟨l, -, rfl⟩ := List.mem_map.mp hline
  rw [List.mem_append, List.mem_singleton] at hchar
  rcases hchar with hchar | hchar
  · exact null_notMem_render l hchar
  · exact absurd hchar (by decide)

theorem toList_cmdJoinFile {text : String} (h : '\x00' ∉ text.toList) :
    (cmdJoinFile text).toList = text.toList.rdropWhile (fun c => c = '\n') ++ ['\n'] := by
  have hfilter : (text.toList.filter fun c => c ≠ '\x00') = text.toList :=
    List.filter_eq_self.mpr fun c hc => decide_eq_true fun he => h (he ▸ hc)
  rw [cmdJoinFile, String.toList_ofList, substituted, hfilter, List.rdropWhile]

/-- A substitution drops the blank lines at the end, and one newline is put back. -/
theorem exists_substituted (f : EnvFile) : ∃ f' : EnvFile, cmdJoinFile f.text = f'.text ∧ f'.lookup = f.lookup := by
  obtain ⟨lines, unbroken, alike, once⟩ := f
  induction lines using List.reverseRecOn with
  | nil =>
      have hempty : cmdJoinFile "" = "\n" := by decide +kernel
      exact ⟨EnvFile.addBlank ⟨[], unbroken, alike, once⟩, hempty, EnvFile.lookup_addBlank _⟩
  | append_singleton lines line ih =>
      have honce : ((shellEntries lines).map Prod.fst).Nodup := by
        rw [shellEntries_append, List.map_append] at once
        exact once.of_append_left
      have hunbroken : ∀ l ∈ lines, Unbroken l.render := fun l hl => unbroken l (List.mem_append_left _ hl)
      have halike : ∀ l ∈ lines, readEntries [l] = shellEntries [l] := fun l hl => alike l (List.mem_append_left _ hl)
      obtain ⟨f', hfile, hlookup⟩ := ih hunbroken halike honce
      have htext : EnvFile.text ⟨lines ++ [line], unbroken, alike, once⟩ =
          EnvFile.text ⟨lines, hunbroken, halike, honce⟩ ++ line.render ++ "\n" := by
        apply String.toList_injective
        rw [toList_text, String.toList_append, String.toList_append, toList_text]
        simp
      have hnull := null_notMem_file ⟨lines ++ [line], unbroken, alike, once⟩
      by_cases hempty : line.render = ""
      · -- the newline of the blank line goes, and the rest is a shorter file
        refine ⟨f', hfile ▸ String.toList_injective ?_, hlookup.trans (funext fun key => ?_)⟩
        · rw [toList_cmdJoinFile hnull, toList_cmdJoinFile (null_notMem_file _), htext, hempty, String.append_empty,
            String.toList_append, show "\n".toList = ['\n'] from rfl, List.rdropWhile_concat_pos _ _ _ (by simp)]
        · rw [EnvFile.lookup, EnvFile.lookup, shellEntries_append, entries_empty hempty, List.append_nil]
      · -- a line with a text stays, and so does all before it
        refine ⟨_, String.toList_injective ?_, rfl⟩
        obtain ⟨cs, c, hchars⟩ : ∃ cs c, line.render.toList = cs ++ [c] := by
          have hne : line.render.toList ≠ [] := fun h => hempty (String.toList_eq_nil_iff.mp h)
          exact ⟨_, _, (List.dropLast_append_getLast hne).symm⟩
        have hc : c ≠ '\n' := by
          rintro rfl
          apply newline_notMem_render line
          rw [hchars]
          exact List.mem_append_right _ (List.mem_singleton.mpr rfl)
        rw [toList_cmdJoinFile hnull, htext, String.toList_append, String.toList_append, hchars,
          show "\n".toList = ['\n'] from rfl, List.rdropWhile_concat_pos _ _ _ (by simp), ← List.append_assoc,
          List.rdropWhile_concat_neg _ _ _ (by simpa using hc)]

/-! ## The settings that are shared -/

/-- Settings of words, as lines. -/
theorem exists_settings {kvs : List (String × String)}
    (h : ∀ kv ∈ kvs, isName kv.1.toList = true ∧ ∃ w : Word, w.value = kv.2) :
    ∃ es : List (Echo Unit), es.map (Echo.text ()) = kvs.map (fun kv => assignment kv.1 kv.2) ∧
      es.filterMap (Echo.entry ()) = kvs ∧ es.filterMap Echo.key = kvs.map Prod.fst ∧
      (∀ e ∈ es, e.noted = true) ∧ ∀ e ∈ es, e.named = true := by
  induction kvs with
  | nil => exact ⟨[], rfl, rfl, rfl, by simp, by simp⟩
  | cons kv kvs ih =>
      rw [List.forall_mem_cons] at h
      obtain ⟨⟨hname, w, hw⟩, hrest⟩ := h
      obtain ⟨es, htexts, hentries, hkeys, hnoted, hnamed⟩ := ih hrest
      have hentry : (Echo.setting kv.1 (fun _ : Unit => w) :: es).filterMap (Echo.entry ()) =
          (kv.1, w.value) :: es.filterMap (Echo.entry ()) := rfl
      have hkey : (Echo.setting kv.1 (fun _ : Unit => w) :: es).filterMap Echo.key =
          kv.1 :: es.filterMap Echo.key := rfl
      refine ⟨.setting kv.1 (fun _ => w) :: es, ?_, ?_, ?_, List.forall_mem_cons.mpr ⟨rfl, hnoted⟩,
        List.forall_mem_cons.mpr ⟨hname, hnamed⟩⟩
      · rw [List.map_cons, List.map_cons, htexts, Echo.text, hw]
      · rw [hentry, hentries, hw]
      · rw [hkey, hkeys, List.map_cons]

/-! ## The file of the joiner -/

theorem joinValues_strings (texts : List String) : joinValues (texts.map Json.str) = .ok (join "," texts) := by
  obtain ⟨text, hjoin⟩ := @joinValues_ok (texts.map Json.str) fun v hv => by
    obtain ⟨s, -, rfl⟩ := List.mem_map.mp hv
    exact ⟨s, rfl⟩
  obtain ⟨texts', rfl, hsame⟩ := joinValues_texts hjoin
  have hinj : Function.Injective Json.str := fun _ _ h => Json.str.inj h
  rw [hjoin, List.map_injective_iff.mpr hinj hsame]

namespace JoinArgs

variable (j : JoinArgs)

theorem refused (h : ¬j.accepted) (leader : String) : j.cmdJoin leader = none := by
  have herror : ∃ e, buildJoinerClusterEnv (parseClusterEnv leader) j.nodeName j.localIp (j.ips.map Json.str) j.names
      j.issuedAt = .error e := by
    unfold buildJoinerClusterEnv
    by_cases hlength : j.names.length = j.ips.length
    · rw [List.length_map, if_neg (not_not.mpr hlength), joinValues_strings]
      by_cases hip : Json.str j.localIp ∈ j.ips.map Json.str
      · have hname : j.nodeName ∉ j.names := by
          intro hname
          obtain ⟨ip, hmem, hsame⟩ := List.mem_map.mp hip
          exact h ⟨hlength, Json.str.inj hsame ▸ hmem, hname⟩
        rw [if_neg (not_not.mpr hip), if_pos hname]
        exact ⟨_, rfl⟩
      · rw [if_pos hip]
        exact ⟨_, rfl⟩
    · rw [List.length_map, if_pos hlength]
      exact ⟨_, rfl⟩
  obtain ⟨e, he⟩ := herror
  rw [cmdJoin, he]

theorem built (h : j.accepted) (leaderEnv : List (String × String)) :
    buildJoinerClusterEnv leaderEnv j.nodeName j.localIp (j.ips.map Json.str) j.names j.issuedAt =
      .ok (join "\n" (SharedSettings.joinerHead j.nodeName j.localIp (join "," j.ips) j.issuedAt j.names ++
        ((leaderEnv.filter fun kv => kv.1 ∉ perPeerKeys).map fun kv => assignment kv.1 kv.2) ++ [""])) := by
  obtain ⟨hlength, hip, hname⟩ := h
  unfold buildJoinerClusterEnv
  rw [List.length_map, if_neg (not_not.mpr hlength), if_neg (not_not.mpr (List.mem_map_of_mem hip)),
    if_neg (not_not.mpr hname), joinValues_strings]
  rfl

theorem word_of (s : String) (h : s ∈ j.issuedAt :: j.nodeName :: j.localIp :: (j.names ++ j.ips)) :
    ∃ w : Word, w.value = s := exists_word (plain_of_word (j.words s h))

theorem word_list {texts : List String} (h : ∀ s ∈ texts, s ∈ j.names ++ j.ips) :
    ∃ w : Word, w.value = join "," texts := by
  refine exists_word (plain_join fun s hs => j.words s ?_)
  exact List.mem_cons_of_mem _ (List.mem_cons_of_mem _ (List.mem_cons_of_mem _ (h s hs)))

/-- The lines above the shared settings. -/
theorem exists_head : ∃ es : List (Echo Unit),
    es.map (Echo.text ()) = SharedSettings.joinerHead j.nodeName j.localIp (join "," j.ips) j.issuedAt j.names ∧
      es.filterMap (Echo.entry ()) = j.own ∧ es.filterMap Echo.key = j.own.map Prod.fst ∧
      (∀ e ∈ es, e.noted = true) ∧ ∀ e ∈ es, e.named = true := by
  obtain ⟨date, hdate⟩ := j.word_of j.issuedAt (by simp)
  obtain ⟨name, hname⟩ := j.word_of j.nodeName (by simp)
  obtain ⟨ip, hip⟩ := j.word_of j.localIp (by simp)
  obtain ⟨ips, hips⟩ := j.word_list fun s hs => List.mem_append_right _ hs
  obtain ⟨names, hnames⟩ := j.word_list fun s hs => List.mem_append_left _ hs
  have hrule : isNote rule = true := isNote_ofList (by decide +kernel)
  have hcopy : isNote "# milvus-onprem cluster.env (joiner copy)" = true := isNote_ofList (by decide +kernel)
  have hissued : isNote "# Issued by leader at " = true := isNote_ofList (by decide +kernel)
  refine ⟨[.note rule, .note "# milvus-onprem cluster.env (joiner copy)",
    .noteOf "# Issued by leader at " fun _ => date, .note rule, .blank, .setting "NODE_NAME" fun _ => name,
    .setting "LOCAL_IP" fun _ => ip, .setting "PEER_IPS" fun _ => ips, .setting "PEER_NAMES" fun _ => names,
    .fixed "ETCD_INITIAL_CLUSTER_STATE" "existing", .blank], ?_, ?_, rfl, ?_, List.all_eq_true.mp rfl⟩
  · simp only [List.map_cons, List.map_nil, Echo.text, hdate, hname, hip, hips, hnames]
    rfl
  · rw [own, ← hname, ← hip, ← hips, ← hnames]
    rfl
  · simp only [List.forall_mem_cons, Echo.noted, hrule, hcopy, hissued, true_and, List.not_mem_nil,
      IsEmpty.forall_iff, implies_true]

/-- The body that the leader issues is a file of the store. -/
theorem exists_issued (f : EnvFile) (hworded : Worded f.lookup) (h : j.accepted) :
    ∃ body f', buildJoinerClusterEnv (parseClusterEnv f.text) j.nodeName j.localIp (j.ips.map Json.str) j.names
        j.issuedAt = .ok body ∧ EnvFile.text f' = body ∧ f'.lookup = j.issued f.lookup := by
  have hshape : ((parseClusterEnv f.text).filter fun kv => kv.1 ∉ perPeerKeys) =
      shared (f.lines ++ [SyncedRole.noLine]) := by
    rw [shared, EnvFile.text]
  have hshared : ∀ kv ∈ (parseClusterEnv f.text).filter fun kv => kv.1 ∉ perPeerKeys,
      isName kv.1.toList = true ∧ ∃ w : Word, w.value = kv.2 := by
    intro kv hkv
    have hvalue := (f.holds.dict kv.1).symm.trans (dictValue_of_mem (mem_shared hkv).1)
    obtain ⟨line, -, hline⟩ := List.mem_filterMap.mp (mem_of_last hvalue)
    refine ⟨?_, hworded kv.1 kv.2 hvalue⟩
    cases line with
    | setting s => exact congrArg Prod.fst (Option.some.inj hline) ▸ s.isName
    | _ => cases hline
  obtain ⟨head, hheadTexts, hheadEntries, hheadKeys, hheadNoted, hheadNamed⟩ := j.exists_head
  obtain ⟨es, htexts, hentries, hkeys, hnoted, hnamed⟩ := exists_settings hshared
  have hown : ∀ key ∈ j.own.map Prod.fst, key ∈ perPeerKeys := by
    have hnames : j.own.map Prod.fst = ["NODE_NAME", "LOCAL_IP", "PEER_IPS", "PEER_NAMES",
      "ETCD_INITIAL_CLUSTER_STATE"] := rfl
    rw [hnames]
    decide
  have hnodup : ((head ++ es).filterMap Echo.key).Nodup := by
    rw [List.filterMap_append, hheadKeys, hkeys, List.nodup_append]
    refine ⟨?_, hshape ▸ shared_nodup, ?_⟩
    · show ["NODE_NAME", "LOCAL_IP", "PEER_IPS", "PEER_NAMES", "ETCD_INITIAL_CLUSTER_STATE"].Nodup
      decide
    · intro key hkey other hother
      obtain ⟨kv, hkv, rfl⟩ := List.mem_map.mp hother
      intro hsame
      exact (mem_shared hkv).2.1 (hsame ▸ hown key hkey)
  obtain ⟨f', htext, hfile⟩ := exists_file () (List.forall_mem_append.mpr ⟨hheadNoted, hnoted⟩)
    (List.forall_mem_append.mpr ⟨hheadNamed, hnamed⟩) hnodup
  refine ⟨_, f', j.built h _, ?_, funext fun key => ?_⟩
  · rw [htext, echoed, join_ended, ← hheadTexts, ← htexts, ← List.map_append, List.map_map]
    rfl
  · have hdict : last key ((parseClusterEnv f.text).filter fun kv => kv.1 ∉ perPeerKeys) =
        if key ∈ perPeerKeys then none else f.lookup key := by
      split_ifs with hkey
      · exact last_eq_none.mpr fun kv hkv hsame => (mem_shared hkv).2.1 (hsame ▸ hkey)
      · rw [hshape, ← dictValue_shared hkey]
        exact f.holds.dict key
    rw [EnvFile.lookup, hfile, List.filterMap_append, last_append, hheadEntries, hentries, hdict, issued]
    split_ifs with hkey
    · rfl
    · have hnone : last key j.own = none := by
        refine last_eq_none.mpr fun kv hkv hsame => hkey ?_
        have hmem : kv.1 ∈ j.own.map Prod.fst := List.mem_map_of_mem hkv
        rw [← hsame]
        exact hown kv.1 hmem
      rw [hnone, Option.or_none]

theorem worded_issued {m : String → Option String} (h : Worded m) : Worded (j.issued m) := by
  intro key v hv
  rw [issued] at hv
  split_ifs at hv
  · have hmem := mem_of_last hv
    obtain ⟨state, hstate⟩ := @exists_word "existing" (by decide)
    simp only [own, List.mem_cons, Prod.mk.injEq, List.not_mem_nil, or_false] at hmem
    rcases hmem with ⟨-, rfl⟩ | ⟨-, rfl⟩ | ⟨-, rfl⟩ | ⟨-, rfl⟩ | ⟨-, rfl⟩
    · exact j.word_of j.nodeName (by simp)
    · exact j.word_of j.localIp (by simp)
    · exact j.word_list fun s hs => List.mem_append_right _ hs
    · exact j.word_list fun s hs => List.mem_append_left _ hs
    · exact ⟨state, hstate⟩
  · exact h key v hv

/-- A join gives a file of the store, with what it should hold. -/
theorem exists_joined (f : EnvFile) (hworded : Worded f.lookup) :
    (j.cmdJoin f.text = none ∧ j.joined f.lookup = none) ∨ ∃ f' : EnvFile,
      j.cmdJoin f.text = some f'.text ∧ j.joined f.lookup = some f'.lookup ∧ Worded f'.lookup := by
  by_cases h : j.accepted
  · obtain ⟨body, f₁, hbuilt, rfl, hissued⟩ := j.exists_issued f hworded h
    obtain ⟨f₂, hfile, hsame⟩ := exists_substituted f₁
    obtain ⟨f', hrun, hlookup⟩ := f₂.exists_run j.edits
    right
    refine ⟨f', ?_, ?_, ?_⟩
    · rw [cmdJoin, hbuilt]
      exact (congrArg (j.edits.foldlM Edit.apply) hfile).trans hrun
    · rw [joined, if_pos h, hlookup, hsame, hissued]
    · rw [hlookup, hsame, hissued]
      exact (j.worded_issued hworded).run j.edits
  · left
    exact ⟨j.refused h _, if_neg h⟩

end JoinArgs

end MilvusOnprem.JoinedEnv
