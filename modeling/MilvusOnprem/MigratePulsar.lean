import MilvusOnprem.OrderedPeers
import MilvusOnprem.TopologyWatcher
import MilvusOnprem.TokenRotation
import MilvusOnprem.RemoveNode

/-!
# Migrating Pulsar

`run_migrate_pulsar` over the files of all peers. Which daemons answer the
preflight, what becomes of each `sync-pulsar-host` request and which daemons
answer the verification are inputs of a run, so a run may stop after any prefix
of its sequence, and a request that fails may have rewritten the file. The files
a run starts from are arbitrary, so they may be what any earlier jobs left.
Nothing else writes `PULSAR_HOST`. Log and progress are left out.
-/
namespace MilvusOnprem.MigratePulsar

open PythonText MilvusOnprem.Topology Joining OrderedPeers EnvFile TopologyWatcher TokenRotation

/-- The leader's config, its leader flag and the snapshot it read, and the
parameters of the job. -/
structure Migration where
  localIp : String
  isLeader : Bool
  peers : Mirror
  toNode : Option String
  forceWhenOldHostDead : Bool

/-- The `cluster.env` of the peer at an ip. -/
abbrev Files := String → Lines

/-- What the run meets at every peer: the answer to the preflight, what becomes
of the request, the answer to the verification. -/
structure Network where
  healthy : String × String → Bool
  sync : String × String → Rpc
  verifies : String × String → Bool

/-- The text of a file. -/
def fileText (lines : Lines) : String := String.join (lines.map fun line => line ++ "\n")

/-- `(info or {}).get("ip")`, if it is set. -/
def ipOrEmpty : Option Json → Except Exc (Option String)
  | none => .ok none
  | some info =>
      if info.truthy then
        (infoGet "ip" info).map fun ip => ip.bind fun v => if v.truthy then some (ipText v) else none
      else .ok none

/-- `u.split("@", 1)[0]` of a label. -/
def labelName (label : String) : String := String.ofList (label.toList.takeWhile fun c => c ≠ '@')

/-- `_preflight_peers_reachable` over the peers with an ip. -/
def preflight (net : Network) (peers : List (String × String)) : List String :=
  (peers.filter fun p => !net.healthy p).map fun p => p.1 ++ "@" ++ p.2

/-- What `apply_pulsar_host_change` does to the file of a peer. -/
def applyChange (newHost : String) (lines : Lines) : SelfRun → Lines × Except String Unit
  | .unwritten err => (lines, .error err)
  | .written err => (upsertKv PULSAR_HOST newHost lines, .error err)
  | .works => (upsertKv PULSAR_HOST newHost lines, .ok ())

/-- `_rpc_sync_pulsar_host`; the endpoint answers 500 when the change raises. -/
def rpcSyncPulsarHost (newHost : String) (lines : Lines) : Rpc → Lines × Except String Unit
  | .dropped err => (lines, .error err)
  | .lost run err => ((applyChange newHost lines run).1, .error err)
  | .answered run => applyChange newHost lines run

def syncFailed (name ip err : String) : Exc :=
  .runtimeError ("sync-pulsar-host on " ++ name ++ " (" ++ ip ++ ") failed: " ++
    err ++ ". Migration aborted; " ++
    "some peers may have applied and some may not. " ++
    "Inspect cluster.env on each peer's PULSAR_HOST " ++
    "and rerun migrate-pulsar after fixing the stuck " ++
    "peer.")

/-- The apply loop, which stops at the first request that fails. -/
def applyAll (newHost : String) (sync : String × String → Rpc) :
    List (String × String) → Files → Files × Except Exc Unit
  | [], files => (files, .ok ())
  | p :: rest, files =>
      let x := rpcSyncPulsarHost newHost (files p.2) (sync p)
      let files' := Function.update files p.2 x.1
      match x.2 with
      | .error err => (files', .error (syncFailed p.1 p.2 err))
      | .ok () => applyAll newHost sync rest files'

/-- What a peer reports as its `PULSAR_HOST`. -/
def reported (files : Files) (ip : String) : String := readValue PULSAR_HOST "node-1" (files ip)

/-- `_verify_pulsar_host_everywhere` over the peers with an ip. -/
def verify (net : Network) (files : Files) (expected : String) (peers : List (String × String)) :
    List String :=
  (peers.filter fun p => !(net.verifies p && reported files p.2 = expected)).map fun p =>
    p.1 ++ "@" ++ p.2 ++ "=" ++
      if net.verifies p then PythonText.repr (reported files p.2) else "None"

namespace Migration

/-- The value the leader's own file has. -/
def currentHost (j : Migration) (files : Files) : String := reported files j.localIp

/-- The names the preflight finds unreachable. -/
def unreachableNames (net : Network) (peers : List (String × String)) : List String :=
  (preflight net peers).map labelName

/-- Whether the old host is left out because it is dead. -/
def skipsOldHost (j : Migration) (net : Network) (old : String)
    (peers : List (String × String)) : Bool :=
  j.forceWhenOldHostDead && (unreachableNames net peers).contains old

/-- The order of the apply: the new host, the other peers, the old host. -/
def sequenced (toNode targetIp old : String) (oldIp : Option String) (skip : Bool)
    (sorted : List (String × String)) : List (String × String) :=
  (toNode, targetIp) :: sorted.filter (fun p => p.1 ≠ toNode ∧ p.1 ≠ old) ++
    match oldIp with
    | some ip => if skip then [] else [(old, ip)]
    | none => []

def unreachablePeers (unreachable : List String) : Exc :=
  .runtimeError ("preflight: cannot reach daemon on " ++ toString unreachable.length ++ " " ++
    "peer(s): [" ++ join ", " (unreachable.map PythonText.repr) ++
    "]. Migration aborted before any " ++
    "side effects. Wait for `./milvus-onprem status` to " ++
    "report all peers reachable, then retry.")

def mismatched (toNode : String) (mismatches : List String) : Exc :=
  .runtimeError ("post-verify FAILED. Expected PULSAR_HOST=" ++ toNode ++ " on " ++
    "every peer; mismatches: [" ++ join ", " (mismatches.map PythonText.repr) ++
    "]. The cluster is " ++
    "in a partially-migrated state — operator action " ++
    "required.")

/-- The apply and the verification. -/
def migrate (j : Migration) (net : Network) (toNode targetIp old : String) (oldIp : Option String)
    (peers : List (String × String)) (files : Files) : Files × Except Exc Unit :=
  let skip := j.skipsOldHost net old peers
  let sorted := peers.insertionSort fun a b => keyLe (nodeSortKey a.1) (nodeSortKey b.1) = true
  match applyAll toNode net.sync (sequenced toNode targetIp old oldIp skip sorted) files with
  | (files', .error e) => (files', .error e)
  | (files', .ok ()) =>
      let mismatches := verify net files' toNode (peers.filter fun p => !(skip && p.1 = old))
      if mismatches ≠ [] then (files', .error (mismatched toNode mismatches)) else (files', .ok ())

/-- The preflight, and what follows it. -/
def preflighted (j : Migration) (net : Network) (toNode targetIp old : String)
    (oldIp : Option String) (files : Files) : Files × Except Exc Unit :=
  match withIps j.peers.entries with
  | .error e => (files, .error e)
  | .ok peers =>
      if ¬ (j.forceWhenOldHostDead ∧ unreachableNames net peers = [old]) ∧ preflight net peers ≠ [] then
        (files, .error (unreachablePeers (preflight net peers)))
      else j.migrate net toNode targetIp old oldIp peers files

def notPulsar : Exc :=
  .permissionError ("migrate-pulsar is only meaningful on a 2.5 deploy " ++
    "(MQ_TYPE=pulsar). 2.6 (Woodpecker) has no singleton " ++
    "broker to migrate.")

def notInTopology (toNode : String) (names : List String) : Exc :=
  .valueError ("to_node=" ++ PythonText.repr toNode ++ " is not in topology. Known peers: " ++
    "[" ++ join ", " (names.map PythonText.repr) ++ "]")

/-- The look at the leader's own file, and what follows it. -/
def located (j : Migration) (net : Network) (toNode targetIp : String) (files : Files) :
    Files × Except Exc Unit :=
  -- nothing to do, as far as the leader's own file says
  if j.currentHost files = toNode then (files, .ok ())
  else
    match ipOrEmpty (j.peers.get (j.currentHost files)) with
    | .error e => (files, .error e)
    | .ok oldIp => j.preflighted net toNode targetIp (j.currentHost files) oldIp files

/-- The run once its parameter is checked. -/
def targeted (j : Migration) (net : Network) (toNode : String) (files : Files) :
    Files × Except Exc Unit :=
  if RemoveNode.isPulsarDeploy (some (fileText (files j.localIp))) = false then
    (files, .error notPulsar)
  else if j.isLeader = false then
    (files, .error (.permissionError
      "migrate-pulsar must run on the leader (HTTP layer should redirect)"))
  else
    match j.peers.get toNode with
    | none => (files, .error (notInTopology toNode (j.peers.entries.map Prod.fst)))
    | some info =>
        match ipOrEmpty (some info) with
        | .error e => (files, .error e)
        | .ok none =>
            (files, .error (.valueError ("topology entry for " ++ toNode ++ " has no ip")))
        | .ok (some targetIp) => j.located net toNode targetIp files

/-- `run_migrate_pulsar` -/
def run (j : Migration) (net : Network) (files : Files) : Files × Except Exc Unit :=
  match j.toNode with
  | none => (files, .error (.valueError "migrate-pulsar requires a 'to_node' param"))
  | some toNode =>
      if toNode = "" then (files, .error (.valueError "migrate-pulsar requires a 'to_node' param"))
      else j.targeted net toNode files

/-! ## What a run that returns has done -/

/-- The old host counts as dead in a run: the job was told so, and the preflight
found it unreachable. -/
def OldHostDead (j : Migration) (net : Network) (files : Files) (name : String) : Prop :=
  some (j.currentHost files) ≠ j.toNode ∧ name = j.currentHost files ∧
    ∃ peers, withIps j.peers.entries = .ok peers ∧ j.skipsOldHost net name peers = true

/-- Every peer with an ip reports the new host, a dead old host aside. -/
def Migrated (j : Migration) (net : Network) (before files : Files) : Prop :=
  ∀ name info ip toNode, j.toNode = some toNode → j.peers.get name = some info →
    usedIp info = some ip → reported files ip = toNode ∨ j.OldHostDead net before name

/-- A verification without mismatches has seen the value on every peer. -/
theorem verify_nil {net : Network} {files : Files} {expected : String}
    {peers : List (String × String)} (h : verify net files expected peers = []) :
    ∀ p ∈ peers, reported files p.2 = expected := by
  intro p hp
  rw [verify, List.map_eq_nil_iff, List.filter_eq_nil_iff] at h
  have hseen : (net.verifies p && decide (reported files p.2 = expected)) = true := by
    simpa using h p hp
  exact of_decide_eq_true (Bool.and_elim_right hseen)

/-- An apply and a verification that return have set every peer that was not
left out. -/
theorem migrate_ok {j : Migration} {net : Network} {toNode targetIp old : String}
    {oldIp : Option String} {peers : List (String × String)} {files : Files}
    (h : (j.migrate net toNode targetIp old oldIp peers files).2 = .ok ()) :
    ∀ p ∈ peers, reported (j.migrate net toNode targetIp old oldIp peers files).1 p.2 = toNode ∨
      p.1 = old ∧ j.skipsOldHost net old peers = true := by
  unfold migrate at h ⊢
  simp only at h ⊢
  split at h
  · cases h
  · next files' happly =>
      split_ifs at h with hmismatch
      rw [not_not] at hmismatch
      rw [if_neg (not_not_intro hmismatch)]
      intro p hp
      by_cases hskip : p.1 = old ∧ j.skipsOldHost net old peers = true
      · exact .inr hskip
      · refine .inl (verify_nil hmismatch p (List.mem_filter.mpr ⟨hp, ?_⟩))
        simpa [or_iff_not_imp_right] using hskip

/-- A run that returns has looked at the leader's own file. -/
theorem run_located {j : Migration} {net : Network} {files : Files}
    (h : (j.run net files).2 = .ok ()) :
    ∃ toNode targetIp, j.toNode = some toNode ∧
      j.run net files = j.located net toNode targetIp files := by
  unfold run at h ⊢
  cases hto : j.toNode with
  | none =>
      simp only [hto] at h
      cases h
  | some toNode =>
      simp only [hto] at h ⊢
      split_ifs at h ⊢
      unfold targeted at h ⊢
      split_ifs at h ⊢
      split at h
      · cases h
      · split at h
        · cases h
        · cases h
        · next info hinfo targetIp hip =>
            refine ⟨toNode, targetIp, rfl, ?_⟩
            rfl

/-- A run that finds another host in the leader's file and returns has migrated
every peer. -/
theorem migrated_of_moved {j : Migration} {net : Network} {toNode targetIp : String}
    {files : Files} (hto : j.toNode = some toNode) (hmoved : j.currentHost files ≠ toNode)
    (h : (j.located net toNode targetIp files).2 = .ok ()) :
    j.Migrated net files (j.located net toNode targetIp files).1 := by
  unfold located at h ⊢
  rw [if_neg hmoved] at h ⊢
  cases hold : ipOrEmpty (j.peers.get (j.currentHost files)) with
  | error e =>
      simp only [hold] at h
      cases h
  | ok oldIp =>
      simp only [hold] at h ⊢
      unfold preflighted at h ⊢
      cases hpeers : withIps j.peers.entries with
      | error e =>
          simp only [hpeers] at h
          cases h
      | ok peers =>
          simp only [hpeers] at h ⊢
          split_ifs at h ⊢
          intro name info ip toNode' hto' hinfo hip
          cases hto.symm.trans hto'
          have hmem : (name, ip) ∈ peers := by
            rw [withIps_ok hpeers, List.mem_filterMap]
            exact ⟨(name, info), OrderedMap.mem_entries.mpr hinfo, by rw [hip]; rfl⟩
          refine (migrate_ok h (name, ip) hmem).imp_right ?_
          rintro ⟨rfl, hskip⟩
          exact ⟨fun he => hmoved (Option.some.inj (he.trans hto)), rfl, peers, hpeers, hskip⟩

/-- A run that returns has migrated every peer with an ip if and only if the
leader's own file did not yet name the new host when it started, or every peer's
file did. -/
theorem migrated_iff {j : Migration} {net : Network} {files : Files}
    (h : (j.run net files).2 = .ok ()) :
    j.Migrated net files (j.run net files).1 ↔
      some (j.currentHost files) ≠ j.toNode ∨
        ∀ name info ip, j.peers.get name = some info → usedIp info = some ip →
          some (reported files ip) = j.toNode := by
  obtain ⟨toNode, targetIp, hto, hrun⟩ := run_located h
  rw [hrun] at h ⊢
  by_cases hcurrent : j.currentHost files = toNode
  · have hsame : j.located net toNode targetIp files = (files, .ok ()) := if_pos hcurrent
    rw [hsame]
    constructor
    · intro hmigrated
      refine .inr fun name info ip hinfo hip => ?_
      rcases hmigrated name info ip toNode hto hinfo hip with hset | ⟨hne, -⟩
      · rw [hset, hto]
      · exact absurd (by rw [hcurrent, hto]) hne
    · rintro (hne | hall) name info ip toNode' hto' hinfo hip
      · exact absurd (by rw [hcurrent, hto]) hne
      · exact .inl (Option.some.inj ((hall name info ip hinfo hip).trans hto'))
  · have hmoved : some (j.currentHost files) ≠ j.toNode := by
      rw [hto]
      exact fun he => hcurrent (Option.some.inj he)
    exact iff_of_true (migrated_of_moved hto hcurrent h) (.inl hmoved)

/-! ## Runs in a cluster of three -/

/-- A migration from `node-2` to the leader `node-1`. -/
def toLeader : Migration where
  localIp := "10.0.0.1"
  isLeader := true
  peers := OrderedMap.empty.putAll [("node-1", .obj [("ip", .str "10.0.0.1")]),
    ("node-2", .obj [("ip", .str "10.0.0.2")]), ("node-3", .obj [("ip", .str "10.0.0.3")])]
  toNode := some "node-1"
  forceWhenOldHostDead := false

def onSecond : Files := fun _ => ["MQ_TYPE=pulsar", "PULSAR_HOST=node-2"]

def allReachable : Network := ⟨fun _ => true, fun _ => .answered .works, fun _ => true⟩

/-- `node-3` answers the preflight, and its request fails before the file is
rewritten. -/
def thirdFails : Network where
  healthy := fun _ => true
  sync := fun p => if p.1 = "node-3" then .dropped "ConnectError: " else .answered .works
  verifies := fun _ => true

theorem migrated_iff_toLeader :
    toLeader.Migrated allReachable onSecond (toLeader.run allReachable onSecond).1 := by
  refine (migrated_iff (by decide +kernel)).mpr (.inl ?_)
  decide +kernel

/-- The run fails at `node-3` after the leader has applied the change. Once
everything works, it is run again and returns at once, and `node-3` still names
the old host. -/
theorem rerun_returns_early :
    (toLeader.run thirdFails onSecond).2 ≠ .ok () ∧
    (toLeader.run allReachable (toLeader.run thirdFails onSecond).1).2 = .ok () ∧
    ¬toLeader.Migrated allReachable (toLeader.run thirdFails onSecond).1
      (toLeader.run allReachable (toLeader.run thirdFails onSecond).1).1 := by
  refine ⟨by decide +kernel, by decide +kernel, fun h => ?_⟩
  have hthird : reported (toLeader.run allReachable (toLeader.run thirdFails onSecond).1).1
      "10.0.0.3" ≠ "node-1" := by
    decide +kernel
  have hleader : toLeader.currentHost (toLeader.run thirdFails onSecond).1 = "node-1" := by
    decide +kernel
  rcases h "node-3" (.obj [("ip", .str "10.0.0.3")]) "10.0.0.3" "node-1" rfl (by decide +kernel)
    rfl with hset | ⟨hne, -⟩
  · exact hthird hset
  · exact hne (by rw [hleader]; rfl)

end Migration
end MilvusOnprem.MigratePulsar
