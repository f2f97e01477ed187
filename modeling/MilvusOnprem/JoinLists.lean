import MilvusOnprem.EnvSync
import MilvusOnprem.PoolOrder
import MilvusOnprem.SharedSettings

/-!
# The lists of peers after a join

The leader pairs the names and the ips for a joiner before the other peers know of it.
Later a daemon pairs them from its mirror, and `recreate_minio_local` from a fresh read of
the prefix. All of them sort by `_node_sort_key`, which tells different names apart.
-/
namespace MilvusOnprem.JoinLists

open PythonText ClusterEnv MilvusOnprem.Topology TopologyWatcher Joining OrderedPeers
open EnvSync (joinable orderedPeers newPeerIps)
open SharedSettings (joinerHead buildJoinerClusterEnv_eq)

/-- `_current_peer_ips_and_names` -/
def currentPeerIpsAndNames (peers : Mirror) : Except Exc (List (String × Json)) :=
  combinedIps (byNode peers.entries)

/-- The list `fresh` of `recreate_minio_local`, from the answer to the range scan. -/
def freshPeers (raw : List (String × String)) : Except Exc (List (String × Json)) :=
  combinedIps (byNode (parseTopology raw))

/-- Each name is there once, and its info is an object whose ip is a text or counts as
missing. -/
structure WellFormed (peers : List (String × Json)) : Prop where
  names : (peers.map Prod.fst).Nodup
  infos : ∀ e ∈ peers, ∃ fields, e.2 = .obj fields ∧ joinable (.obj fields) = true

/-- The peers with an ip. -/
def used (peers : List (String × Json)) : List (String × String) :=
  peers.filterMap fun e => (usedIp e.2).map fun ip => (e.1, ip)

/-- The pairs as the code has them, with the ips as JSON texts. -/
def asJson (pairs : List (String × String)) : List (String × Json) := pairs.map fun p => (p.1, .str p.2)

/-! ## The loop that drops the peers without an ip -/

theorem mem_used {peers : List (String × Json)} {name ip : String} :
    (name, ip) ∈ used peers ↔ ∃ info, (name, info) ∈ peers ∧ usedIp info = some ip := by
  simp only [used, List.mem_filterMap, Option.map_eq_some_iff, Prod.mk.injEq]
  constructor
  · rintro ⟨e, he, ip', hip, hname, heq⟩
    subst hname heq
    exact ⟨e.2, he, hip⟩
  · rintro ⟨info, hinfo, hip⟩
    exact ⟨(name, info), hinfo, ip, hip, rfl, rfl⟩

theorem mem_asJson {pairs : List (String × String)} {name ip : String} :
    (name, Json.str ip) ∈ asJson pairs ↔ (name, ip) ∈ pairs := by
  simp [asJson]

theorem combinedIps_used {peers : List (String × Json)}
    (h : ∀ e ∈ peers, ∃ fields, e.2 = .obj fields ∧ joinable (.obj fields) = true) :
    combinedIps peers = .ok (asJson (used peers)) := by
  induction peers with
  | nil => rfl
  | cons e rest ih =>
      obtain ⟨name, info⟩ := e
      obtain ⟨fields, rfl, hjoin⟩ := h (name, info) List.mem_cons_self
      have hrest := ih fun e he => h e (List.mem_cons_of_mem _ he)
      rw [used, List.filterMap_cons, ← used]
      simp only [combinedIps, infoGet, hrest, bind, Except.bind, Except.ok.injEq]
      cases hip : Json.field "ip" fields with
      | none =>
          have hnone : usedIp (.obj fields) = none := by simp only [usedIp, hip]
          rw [hnone]
          rfl
      | some v =>
          cases htruthy : v.truthy with
          | false =>
              have hnone : usedIp (.obj fields) = none := by simp [usedIp, hip, htruthy]
              rw [hnone, Option.getD_some, htruthy]
              rfl
          | true =>
              have hused : usedIp (.obj fields) = some (ipText v) := by simp [usedIp, hip, htruthy]
              have htext : v = .str (ipText v) := by
                simp only [joinable, hip] at hjoin
                split at hjoin
                · next hv =>
                    rw [Option.some.inj hv]
                    rfl
                · next hv => cases hv
                · next w hv =>
                    rw [← Option.some.inj hv, htruthy] at hjoin
                    cases hjoin
              rw [hused, Option.getD_some, htruthy]
              calc (name, v) :: asJson (used rest)
                  = (name, Json.str (ipText v)) :: asJson (used rest) := by rw [← htext]
                _ = _ := rfl

theorem used_pairwise {peers : List (String × Json)} (hnames : (peers.map Prod.fst).Nodup) :
    (used (byNode peers)).Pairwise Before := by
  refine (byNode_pairwise (List.pairwise_map.mp hnames)).filterMap _ ?_
  intro a a' hab b hb b' hb'
  obtain ⟨ip, -, rfl⟩ := Option.map_eq_some_iff.mp hb
  obtain ⟨ip', -, rfl⟩ := Option.map_eq_some_iff.mp hb'
  exact hab

theorem asJson_pairwise {pairs : List (String × String)} (h : pairs.Pairwise Before) :
    (asJson pairs).Pairwise Before := h.map _ fun _ _ hab => hab

/-! ## One list -/

section Agreement

variable {peers : List (String × Json)}

theorem WellFormed.perm (h : WellFormed peers) {peers' : List (String × Json)} (hperm : peers'.Perm peers) :
    WellFormed peers' :=
  ⟨(hperm.map Prod.fst).nodup_iff.mpr h.names, fun e he => h.infos e (hperm.mem_iff.mp he)⟩

theorem WellFormed.joined (h : WellFormed peers) {name ip : String} {info : Json}
    (hname : name ∉ peers.map Prod.fst) (hinfo : ipOf info = some ip) :
    WellFormed ((name, info) :: peers) := by
  refine ⟨List.nodup_cons.mpr ⟨hname, h.names⟩, fun e he => ?_⟩
  rcases List.mem_cons.mp he with rfl | he
  · cases info with
    | obj fields =>
        refine ⟨fields, rfl, ?_⟩
        simp only [ipOf] at hinfo
        split at hinfo
        · next v hv => simp only [joinable, hv]
        · cases hinfo
    | _ => cases hinfo
  · exact h.infos e he

/-- The peers with an ip do not depend on the order of the entries. -/
theorem used_perm (h : WellFormed peers) {peers' : List (String × Json)} (hperm : peers'.Perm peers) :
    used (byNode peers') = used (byNode peers) := by
  refine eq_of_before (used_pairwise (h.perm hperm).names) (used_pairwise h.names) ?_
  rintro ⟨name, ip⟩
  rw [mem_used, mem_used]
  refine exists_congr fun info => and_congr_left fun _ => ?_
  rw [byNode, byNode, List.mem_insertionSort, List.mem_insertionSort, hperm.mem_iff]

theorem combinedIps_byNode (h : WellFormed peers) {peers' : List (String × Json)}
    (hperm : peers'.Perm peers) :
    combinedIps (byNode peers') = .ok (asJson (used (byNode peers))) := by
  have hinfos : ∀ e ∈ byNode peers', ∃ fields, e.2 = .obj fields ∧ joinable (.obj fields) = true :=
    fun e he => h.infos e (hperm.mem_iff.mp ((List.mem_insertionSort _).mp he))
  rw [combinedIps_used hinfos, used_perm h hperm]

/-- The leader's list for a joiner is the list with the joiner's entry. -/
theorem orderedPeerNamesAndIpsAfterJoin_eq (h : WellFormed peers) {name ip : String} {info : Json}
    (hname : name ∉ peers.map Prod.fst) (hne : ip ≠ "") (hinfo : ipOf info = some ip) :
    orderedPeerNamesAndIpsAfterJoin peers name ip =
      .ok (asJson (used (byNode ((name, info) :: peers)))) := by
  have hfree : ∀ e ∈ asJson (used peers), e.1 ≠ name := by
    intro e he
    obtain ⟨⟨n, ip'⟩, hp, rfl⟩ := List.mem_map.mp he
    obtain ⟨info', hinfo', -⟩ := mem_used.mp hp
    rintro rfl
    exact hname (List.mem_map.mpr ⟨_, hinfo', rfl⟩)
  rw [orderedPeerNamesAndIpsAfterJoin, combinedIps_used h.infos]
  simp only [bind, Except.bind, Except.ok.injEq]
  rw [PoolOrder.dictSet_of_notMem _ hfree]
  apply eq_of_before
  · refine byNode_pairwise (List.pairwise_append.mpr ⟨?_, List.pairwise_singleton _ _, ?_⟩)
    · refine ((List.pairwise_map.mp h.names).filterMap _ ?_).map _ fun _ _ hab => hab
      intro a a' hab b hb b' hb'
      obtain ⟨ip, -, rfl⟩ := Option.map_eq_some_iff.mp hb
      obtain ⟨ip', -, rfl⟩ := Option.map_eq_some_iff.mp hb'
      exact hab
    · intro e he e' he'
      rw [List.mem_singleton.mp he']
      exact hfree e he
  · exact asJson_pairwise (used_pairwise (h.joined hname hinfo).names)
  · have htext : ∀ (pairs : List (String × String)) (e : String × Json),
        e ∈ asJson pairs ↔ ∃ ip', e.2 = .str ip' ∧ (e.1, ip') ∈ pairs := by
      rintro pairs ⟨n, v⟩
      simp only [asJson, List.mem_map, Prod.mk.injEq, Prod.exists]
      constructor
      · rintro ⟨n', ip', hp, rfl, rfl⟩
        exact ⟨ip', rfl, hp⟩
      · rintro ⟨ip', rfl, hp⟩
        exact ⟨n, ip', hp, rfl, rfl⟩
    rintro ⟨n, v⟩
    rw [List.mem_insertionSort, List.mem_append, List.mem_singleton, htext, htext]
    simp only [mem_used, byNode, List.mem_insertionSort, List.mem_cons, Prod.mk.injEq]
    constructor
    · rintro (⟨ip', rfl, info', hinfo', hused⟩ | ⟨rfl, rfl⟩)
      · exact ⟨ip', rfl, info', .inr hinfo', hused⟩
      · exact ⟨ip, rfl, info, .inl ⟨rfl, rfl⟩, (usedIp_of_ipOf hinfo hne).1⟩
    · rintro ⟨ip', rfl, info', ⟨rfl, rfl⟩ | hinfo', hused⟩
      · rw [(usedIp_of_ipOf hinfo hne).1] at hused
        exact .inr ⟨rfl, by rw [Option.some.inj hused]⟩
      · exact .inl ⟨ip', rfl, info', hinfo', hused⟩

/-- What the other handlers have for the mirror. -/
theorem orderedPeers_eq (h : WellFormed peers) {mirror : Mirror} (hperm : mirror.entries.Perm peers) :
    orderedPeers mirror = .ok (used (byNode peers)) := by
  have hinfos : ∀ e ∈ mirror.entries, ∃ fields, e.2 = .obj fields ∧ joinable (.obj fields) = true :=
    fun e he => h.infos e (hperm.mem_iff.mp he)
  obtain ⟨ips, hips⟩ := sortedPeers_objects fun e he => (hinfos e he).imp fun _ hf => hf.1
  have hjoinable : mirror.entries.all (fun e => joinable e.2) = true := by
    refine List.all_eq_true.mpr fun e he => ?_
    obtain ⟨fields, hfields, hjoin⟩ := hinfos e he
    rw [hfields, hjoin]
  rw [orderedPeers, hips]
  simp only [hjoinable, if_true]
  rw [withIps_ok hips, ← used_perm h hperm]
  rfl

theorem joinValues_asJson (pairs : List (String × String)) :
    joinValues ((asJson pairs).map Prod.snd) = .ok (newPeerIps pairs) := by
  have hvalues : ∀ texts : List String, joinValues (texts.map Json.str) = .ok (join "," texts) := by
    intro texts
    have hm : ∀ f : Json → Except Exc String, (∀ s, f (.str s) = .ok s) → (texts.map Json.str).mapM f = .ok texts := by
      intro f hf
      induction texts with
      | nil => rfl
      | cons s texts ih =>
          rw [List.map_cons, List.mapM_cons, ih, hf]
          rfl
    rw [joinValues, hm _ fun _ => rfl]
    rfl
  rw [newPeerIps, ← hvalues, asJson, List.map_map, List.map_map]
  rfl

/-- The text that the leader issues has the two lists. -/
theorem issued_lists {c : JoinCall} {name issuedAt env : String} {others : List (String × Json)}
    {file : Option String} {pairs : List (String × String)}
    (hpairs : orderedPeerNamesAndIpsAfterJoin others name c.joinerIp = .ok (asJson pairs))
    (henv : c.joinerEnv name others file issuedAt = .ok env) :
    ∃ shared, env = join "\n" (joinerHead name c.joinerIp (newPeerIps pairs) issuedAt (pairs.map Prod.fst) ++
      shared) := by
  simp only [JoinCall.joinerEnv, hpairs, bind, Except.bind] at henv
  cases file with
  | none => cases henv
  | some text =>
      simp only [readClusterEnv] at henv
      obtain ⟨ips, hips, rfl⟩ := buildJoinerClusterEnv_eq henv
      rw [joinValues_asJson, Except.ok.injEq] at hips
      have hnames : (asJson pairs).map Prod.fst = pairs.map Prod.fst := by
        rw [asJson, List.map_map]
        rfl
      rw [← hips, hnames, List.append_assoc]
      exact ⟨_, rfl⟩

/-- From a file that it can read the leader issues the text. -/
theorem joinerEnv_issued {c : JoinCall} {name : String} {others : List (String × Json)}
    {pairs : List (String × String)}
    (hpairs : orderedPeerNamesAndIpsAfterJoin others name c.joinerIp = .ok (asJson pairs))
    (hself : (name, c.joinerIp) ∈ pairs) (text issuedAt : String) :
    ∃ env, c.joinerEnv name others (some text) issuedAt = .ok env := by
  have hstrings : ∀ e ∈ asJson pairs, ∃ s, e.2 = .str s := by
    intro e he
    obtain ⟨p, -, rfl⟩ := List.mem_map.mp he
    exact ⟨p.2, rfl⟩
  obtain ⟨env, henv⟩ := buildJoinerClusterEnv_ok (parseClusterEnv text) issuedAt
    (mem_asJson.mpr hself) hstrings
  refine ⟨env, ?_⟩
  simp only [JoinCall.joinerEnv, hpairs, readClusterEnv, bind, Except.bind]
  exact henv

/-- The leader issues the lists that every daemon derives from its mirror and that
`recreate_minio_local` derives from a fresh read, in whatever order the entries are. -/
theorem join_lists_agree (h : WellFormed peers) {c : JoinCall} {name : String} {info : Json}
    (hname : name ∉ peers.map Prod.fst) (haccepted : c.start = .queued)
    (hinfo : ipOf info = some c.joinerIp) :
    ∃ pairs : List (String × String),
      (∀ others, others.Perm peers →
        orderedPeerNamesAndIpsAfterJoin others name c.joinerIp = .ok (asJson pairs) ∧
          (∀ file issuedAt env, c.joinerEnv name others file issuedAt = .ok env →
            ∃ shared, env = join "\n" (joinerHead name c.joinerIp (newPeerIps pairs) issuedAt
              (pairs.map Prod.fst) ++ shared)) ∧
          ∀ text issuedAt, ∃ env, c.joinerEnv name others (some text) issuedAt = .ok env) ∧
      (∀ mirror : Mirror, mirror.entries.Perm ((name, info) :: peers) →
        currentPeerIpsAndNames mirror = .ok (asJson pairs) ∧ orderedPeers mirror = .ok pairs) ∧
      ∀ raw, (parseTopology raw).Perm ((name, info) :: peers) → freshPeers raw = .ok (asJson pairs) := by
  have hne : c.joinerIp ≠ "" := by
    intro hip
    rw [JoinCall.start, hip, if_neg (by decide)] at haccepted
    cases haccepted
  have hall := h.joined hname hinfo
  refine ⟨used (byNode ((name, info) :: peers)), fun others hperm => ?_, fun mirror hperm => ?_,
    fun raw hperm => combinedIps_byNode hall hperm⟩
  · have hlists : orderedPeerNamesAndIpsAfterJoin others name c.joinerIp =
        .ok (asJson (used (byNode ((name, info) :: peers)))) := by
      have hname' : name ∉ others.map Prod.fst := fun hm => hname ((hperm.map Prod.fst).mem_iff.mp hm)
      rw [orderedPeerNamesAndIpsAfterJoin_eq (h.perm hperm) hname' hne hinfo,
        used_perm hall (hperm.cons (name, info))]
    have hself : (name, c.joinerIp) ∈ used (byNode ((name, info) :: peers)) :=
      mem_used.mpr ⟨info, (List.mem_insertionSort _).mpr List.mem_cons_self, (usedIp_of_ipOf hinfo hne).1⟩
    exact ⟨hlists, fun file issuedAt env henv => issued_lists hlists henv, joinerEnv_issued hlists hself⟩
  · exact ⟨combinedIps_byNode hall hperm, orderedPeers_eq hall hperm⟩

end Agreement

/-- A node with two digits, one whose suffix is no number, and one without an ip. -/
def mixedPeers : List (String × Json) :=
  [("node-10", .obj [("ip", .str "10.0.0.10")]), ("node-b", .obj [("ip", .str "10.0.0.7")]),
    ("node-1", .obj [("ip", .str "10.0.0.1")]), ("node-3", .obj [("name", .str "node-3")])]

def secondJoiner : JoinCall := ⟨bootConfig, "10.0.0.2", none⟩

theorem join_lists_agree_mixed : ∃ pairs : List (String × String),
    (∀ others, others.Perm mixedPeers →
      orderedPeerNamesAndIpsAfterJoin others "node-2" secondJoiner.joinerIp = .ok (asJson pairs) ∧
        (∀ file issuedAt env, secondJoiner.joinerEnv "node-2" others file issuedAt = .ok env →
          ∃ shared, env = join "\n" (joinerHead "node-2" secondJoiner.joinerIp (newPeerIps pairs) issuedAt
            (pairs.map Prod.fst) ++ shared)) ∧
        ∀ text issuedAt, ∃ env, secondJoiner.joinerEnv "node-2" others (some text) issuedAt = .ok env) ∧
    (∀ mirror : Mirror, mirror.entries.Perm
        (("node-2", .obj [("ip", .str "10.0.0.2")]) :: mixedPeers) →
      currentPeerIpsAndNames mirror = .ok (asJson pairs) ∧ orderedPeers mirror = .ok pairs) ∧
    ∀ raw, (parseTopology raw).Perm (("node-2", .obj [("ip", .str "10.0.0.2")]) :: mixedPeers) →
      freshPeers raw = .ok (asJson pairs) := by
  have hinfos : ∀ e ∈ mixedPeers, ∃ fields, e.2 = .obj fields ∧ joinable (.obj fields) = true := by
    intro e he
    simp only [mixedPeers, List.mem_cons, List.not_mem_nil, or_false] at he
    rcases he with rfl | rfl | rfl | rfl <;> exact ⟨_, rfl, rfl⟩
  exact join_lists_agree ⟨by decide, hinfos⟩ (by decide) (by decide) rfl

end MilvusOnprem.JoinLists
