import MilvusOnprem.EtcdClient

/-!
# Reading cluster.env and issuing it to a joiner

The readers of `joining.py` and `remove_node.py`, and the text the leader
builds for a joiner. A file is its text, or nothing when it does not exist; the
two readers differ in which line of a repeated key they keep. The list of ips
given to the builder holds decoded JSON values, since they come out of topology
entries, and a value that is not a string makes the join of the list fail.
-/
namespace MilvusOnprem.ClusterEnv

open PythonText

/-- Assignment to a dictionary kept in insertion order. -/
def dictSet {V : Type} (k : String) (v : V) : List (String × V) → List (String × V)
  | [] => [(k, v)]
  | e :: es => if e.1 = k then (k, v) :: es else e :: dictSet k v es

/-- The key and the value of one line, both trimmed, or nothing for a blank, a
comment or a line without an equals sign. -/
def envEntry (line : String) : Option (String × String) :=
  let line := strip line
  if line = "" ∨ startsWith line "#" then none
  else (partition '=' line).map fun kv =>
    (strip kv.1, stripOf '\'' (stripOf '"' (strip kv.2)))

/-- The loop of `_read_cluster_env` over the lines. -/
def parseClusterEnv (text : String) : List (String × String) :=
  ((splitLines text).filterMap envEntry).foldl
    (fun out kv => if kv.1 = "" then out else dictSet kv.1 kv.2 out) []

/-- `joining._read_cluster_env` -/
def readClusterEnv : Option String → Except Exc (List (String × String))
  | none =>
      .error (.joinError
        "daemon can't read /repo/cluster.env; check the bind mount in compose")
  | some text => .ok (parseClusterEnv text)

/-- `remove_node._read_cluster_env_value`: the first line with the key counts. -/
def readClusterEnvValue (file : Option String) (key dflt : String) : String :=
  match file with
  | none => dflt
  | some text =>
      match ((fileLines text).filterMap envEntry).find? fun kv => kv.1 = key with
      | some kv => kv.2
      | none => dflt

def perPeerKeys : List String :=
  ["PEER_IPS", "PEER_NAMES", "NODE_NAME", "LOCAL_IP", "ETCD_INITIAL_CLUSTER_STATE",
    "HOST_REPO_ROOT"]

/-- `",".join(values)`, which fails on a value that is not a string. -/
def joinValues (values : List Json) : Except Exc String :=
  (values.mapM fun (v : Json) => match v with
    | Json.str s => Except.ok s
    | _ => Except.error Exc.typeError).map (join ",")

def rule : String :=
  "# ============================================================================="

/-- `_build_joiner_cluster_env`; `issuedAt` is the formatted current time. -/
def buildJoinerClusterEnv (leaderEnv : List (String × String)) (nodeName localIp : String)
    (allPeerIps : List Json) (allPeerNames : List String) (issuedAt : String) :
    Except Exc String :=
  if allPeerNames.length ≠ allPeerIps.length then
    .error (.joinError
      ("internal: PEER_NAMES (" ++ toString allPeerNames.length ++ ") and PEER_IPS (" ++
        toString allPeerIps.length ++ ") length mismatch when building joiner cluster.env"))
  else if Json.str localIp ∉ allPeerIps then do
    let ips ← joinValues allPeerIps
    .error (.joinError
      ("internal: refusing to issue cluster.env that omits the joiner's own IP. local_ip=" ++
        localIp ++ ", PEER_IPS=[" ++ ips ++ "], PEER_NAMES=[" ++ join "," allPeerNames ++
        "]. This is the BUG-D pattern (joiner not in PEER_IPS) — refusing here prevents the " ++
        "downstream role_detect-dies-silent cascade."))
  else if nodeName ∉ allPeerNames then
    .error (.joinError
      ("internal: refusing to issue cluster.env that omits the joiner's own NODE_NAME. " ++
        "node_name=" ++ nodeName ++ ", PEER_NAMES=[" ++ join "," allPeerNames ++ "]"))
  else do
    let ips ← joinValues allPeerIps
    let head := [rule, "# milvus-onprem cluster.env (joiner copy)", "# Issued by leader at " ++ issuedAt,
      rule, "", "NODE_NAME=" ++ nodeName, "LOCAL_IP=" ++ localIp, "PEER_IPS=" ++ ips,
      "PEER_NAMES=" ++ join "," allPeerNames, "ETCD_INITIAL_CLUSTER_STATE=existing", ""]
    let shared := (leaderEnv.filter fun kv => kv.1 ∉ perPeerKeys).map fun kv => kv.1 ++ "=" ++ kv.2
    .ok (join "\n" (head ++ shared ++ [""]))

/-! ## When the builder succeeds -/

theorem mem_dictSet_self {V : Type} (k : String) (v : V) (es : List (String × V)) :
    (k, v) ∈ dictSet k v es := by
  induction es with
  | nil => exact List.mem_singleton.mpr rfl
  | cons e es ih =>
      unfold dictSet
      split_ifs
      · exact List.mem_cons_self
      · exact List.mem_cons_of_mem e ih

theorem mem_dictSet {V : Type} {k : String} {v : V} {es : List (String × V)} {e : String × V}
    (h : e ∈ dictSet k v es) : e = (k, v) ∨ e ∈ es := by
  induction es with
  | nil => exact .inl (List.mem_singleton.mp h)
  | cons x xs ih =>
      unfold dictSet at h
      split_ifs at h
      · exact (List.mem_cons.mp h).imp_right (List.mem_cons_of_mem x)
      · rcases List.mem_cons.mp h with h | h
        · exact .inr (h ▸ List.mem_cons_self)
        · exact (ih h).imp_right (List.mem_cons_of_mem x)

/-- A list of texts can be joined. -/
theorem joinValues_ok {values : List Json} (h : ∀ v ∈ values, ∃ s, v = .str s) :
    ∃ text, joinValues values = .ok text := by
  have hm : ∃ texts, (values.mapM fun (v : Json) => match v with
      | Json.str s => Except.ok s
      | _ => Except.error Exc.typeError) = .ok texts := by
    induction values with
    | nil => exact ⟨[], rfl⟩
    | cons v vs ih =>
        obtain ⟨s, hs⟩ := h v List.mem_cons_self
        obtain ⟨texts, ht⟩ := ih fun w hw => h w (List.mem_cons_of_mem v hw)
        refine ⟨s :: texts, ?_⟩
        rw [List.mapM_cons, hs, ht]
        rfl
  obtain ⟨texts, ht⟩ := hm
  exact ⟨join "," texts, by rw [joinValues, ht]; rfl⟩

/-- The builder succeeds on ips that are texts and lists that hold the joiner. -/
theorem buildJoinerClusterEnv_ok (leaderEnv : List (String × String)) {nodeName localIp : String}
    {pairs : List (String × Json)} (issuedAt : String) (hself : (nodeName, .str localIp) ∈ pairs)
    (hips : ∀ e ∈ pairs, ∃ s, e.2 = .str s) :
    ∃ text, buildJoinerClusterEnv leaderEnv nodeName localIp (pairs.map Prod.snd)
      (pairs.map Prod.fst) issuedAt = .ok text := by
  have hip : Json.str localIp ∈ pairs.map Prod.snd := List.mem_map_of_mem hself
  have hname : nodeName ∈ pairs.map Prod.fst := List.mem_map_of_mem hself
  have htexts : ∃ text, joinValues (pairs.map Prod.snd) = .ok text := by
    apply joinValues_ok
    intro v hv
    obtain ⟨e, he, hev⟩ := List.mem_map.mp hv
    rw [← hev]
    exact hips e he
  obtain ⟨ips, hjoin⟩ := htexts
  unfold buildJoinerClusterEnv
  rw [if_neg (by simp), if_neg (not_not_intro hip), if_neg (not_not_intro hname), hjoin]
  exact ⟨_, rfl⟩

example : readClusterEnv (some "# a\n\nA=1\n B = \"x y\" \nA=2\nbad\n") =
    .ok [("A", "2"), ("B", "x y")] := by decide +kernel

end MilvusOnprem.ClusterEnv
