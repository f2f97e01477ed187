import MilvusOnprem.RotationLogs
import MilvusOnprem.Cluster
import MilvusOnprem.LeaderElection
import MilvusOnprem.TokenRotation
import MilvusOnprem.TokenLines

/-!
# The token and etcd

All that the daemons write to etcd: the leader key, the topology, the anchor of
the version, and the records of the jobs with their parameters and logs. The
parts have different keys, so each has its own store. The daemons' files and
configs hold the token, and the model has what reads them: joins, removals, the
anchor, and the rotations with the handlers of their requests. What other jobs log
is an input.

Two runs with the same steps may differ in the tokens. They write the same if no
rotation is created with different tokens in them: its parameters are a part of
its record.
-/
namespace MilvusOnprem.TokenSecrecy

open PythonText EtcdClient MilvusOnprem.Topology Joining EnvFile RotationLogs GuardedRuns
open ClusterEnv (readClusterEnvValue readClusterEnv)
open MigratePulsar (fileText)
open ImageTag (registeredTag)
open TokenRotation (requireToken bearer)
open TokenLines

def JOBS_PREFIX : String := "/cluster/jobs/"

def LEADER_KEY : String := "/cluster/leader"

def CLUSTER_VERSION_KEY : String := "/cluster/milvus_version"

/-! ## What is written -/

/-- A value: a text, the record of a job, or nothing for a delete. -/
inductive Value where
  | text (s : String)
  | record (job : Jobs.Job)
  | gone
deriving DecidableEq

abbrev Write := String × Value

/-- The write of a request that etcd executes. -/
def requestWrites (s : Etcd) : Request → List Write
  | .putIfAbsent key value => if s.kv.get key = none then [(key, .text value)] else []
  | .delete key => if s.kv.get key = none then [] else [(key, .gone)]
  | _ => []

def attemptWrites (s : Etcd) (r : Option Request) (a : Attempt) : List Write :=
  if a.reaches then r.toList.flatMap (requestWrites s) else []

def clusterWrites (w : Cluster.World) : Cluster.Act → List Write
  | .joinAttempt id _ a =>
      (w.joins.get id).toList.flatMap fun x => attemptWrites w.etcd (x.call.request x.thread.pc) a
  | .removalAttempt id a =>
      (w.removals.get id).toList.flatMap fun x =>
        attemptWrites w.etcd (RemoveNode.RemoveJob.request x.thread.pc) a
  | .registerAttempt a =>
      attemptWrites w.etcd ((Cluster.registerClient w.bootstrap).request w.registration.pc) a
  | _ => []

/-- The leader key changes by a claim and by the death of its lease. -/
def electionWrites (before after : Option (String × ℕ)) : List Write :=
  match before, after with
  | none, some v => [(LEADER_KEY, .text v.1)]
  | some _, none => [(LEADER_KEY, .gone)]
  | _, _ => []

def jobWrite : Jobs.Request → List Write
  | .put job => [(JOBS_PREFIX ++ job.id, .record job)]
  | .delete id => [(JOBS_PREFIX ++ id, .gone)]
  | .list => []

/-- A request on jobs is executed when it is answered or lands later. -/
def jobWrites (w : Jobs.World) : Jobs.Act → List Write
  | .ownerAttempt id .answered =>
      (w.owners.get id).toList.flatMap fun o => o.call.toList.flatMap fun job => jobWrite (.put job)
  | .flushAttempt id .answered =>
      (w.owners.get id).toList.flatMap fun o => o.flusher.puts.flatMap fun job => jobWrite (.put job)
  | .sweepAttempt sid .answered =>
      (w.sweeps.get sid).toList.flatMap fun s => s.call.toList.flatMap jobWrite
  | .land k => w.strays[k]?.toList.flatMap jobWrite
  | _ => []

/-! ## The system -/

/-- A daemon's config, with its token, and its `cluster.env`. -/
structure Host where
  config : DaemonConfig
  file : Lines
deriving DecidableEq

structure World where
  cluster : Cluster.World
  election : LeaderElection.World
  jobs : Jobs.World
  hosts : ℕ → Host
  version : Option String
  anchoring : List String
  rotations : OrderedMap String Worker
  handlings : OrderedMap ℕ Handling
  written : List Write

inductive Act where
  | cluster (a : Cluster.Act)
  | election (a : LeaderElection.Act)
  | jobs (a : Jobs.Act)
  | edit (d : ℕ) (file : Lines)
  | recreate (d : ℕ) (token : String)
  | registers (d : ℕ) (now : Decimal)
  | anchorReads (d : ℕ)
  | anchorPuts (k : ℕ)
  | upgradePuts (id target : String)
  | rotateStarts (id : String) (d : ℕ) (isLeader : Bool) (peers : List (String × Json))
  | rotate (id : String) (i : WorkerInput)
  | handle (h : ℕ) (id name : String) (e : ℕ)
  | handled (h : ℕ) (i : SelfInput)
  | replies (id name : String) (h : ℕ)

namespace World

/-- `_read_kv("NODE_NAME")` on a daemon -/
def nodeName (w : World) (d : ℕ) : String :=
  readClusterEnvValue (some (fileText (w.hosts d).file)) "NODE_NAME" ""

def setHost (w : World) (d : ℕ) (x : Host) : World :=
  { w with hosts := Function.update w.hosts d x }

/-- The step of `_upsert_kv` for the token. -/
def writeToken (w : World) (d : ℕ) (token : String) : World :=
  w.setHost d { w.hosts d with file := upsertKv CLUSTER_TOKEN token (w.hosts d).file }

/-- The config and the file that a step of the cluster finds on its daemon. -/
def filled (w : World) : Cluster.Act → Cluster.Act
  | .startJoin id d call => .startJoin id d { call with config := (w.hosts d).config }
  | .joinInput id (.clusterEnv _ issuedAt) =>
      .joinInput id (.clusterEnv
        ((w.cluster.joins.get id).map fun x => fileText (w.hosts x.daemon).file) issuedAt)
  | .removalInput id (.look flag _) =>
      .removalInput id (.look flag
        ((w.cluster.removals.get id).map fun x => fileText (w.hosts x.daemon).file))
  | a => a

/-- The lines of a rotation go into the log of its job, and its end ends it. -/
def report (w : World) (id : String) (r : Worker × List Effect) : Option World :=
  let lines := r.2.map fun e =>
    match e with
    | .log line => Jobs.Act.owner id (.log line)
    | .progress p => .owner id (.progress p)
  let ends : List Jobs.Act :=
    match r.1.pc with
    | .ended none => [.owner id .complete]
    | .ended (some error) => [.owner id (.raise error)]
    | _ => []
  (run Jobs.step w.jobs (lines ++ ends)).map fun jobs =>
    { w with jobs := jobs, rotations := w.rotations.put id r.1 }

end World

/-- A step of a worker, which a rotation takes by its own acts only. -/
def isWorkerAct : Jobs.OwnerAct → Bool
  | .log _ | .progress _ | .complete | .raise _ => true
  | .begin _ | .cancel | .tick _ | .close _ => false

def takesForRotation (w : Jobs.World) : Jobs.Act → Bool
  | .owner id l => isWorkerAct l && (w.owners.get id).any fun o => o.job.type = "rotate-token"
  | _ => false

/-- The job runs its worker. -/
def works (w : Jobs.World) (id type : String) : Option Jobs.Owner :=
  (w.owners.get id).filter fun o => o.pc = .working && o.job.type = type

def isReport : WorkerInput → Bool
  | .answers _ (.report _ _) => true
  | _ => false

def step (w : World) : Act → Option World
  | .cluster a =>
      (Cluster.step w.cluster (w.filled a)).map fun cluster =>
        { w with cluster := cluster, written := w.written ++ clusterWrites w.cluster a }
  | .election a =>
      (LeaderElection.step w.election a).map fun election =>
        { w with
          election := election
          written := w.written ++ electionWrites w.election.store.leader election.store.leader }
  | .jobs a =>
      if takesForRotation w.jobs a then none
      else
        (Jobs.step w.jobs a).map fun jobs =>
          { w with jobs := jobs, written := w.written ++ jobWrites w.jobs a }
  | .edit d file => some (w.setHost d { w.hosts d with file := file })
  | .recreate d token =>
      some (w.setHost d { w.hosts d with
        config := { (w.hosts d).config with clusterToken := token } })
  | .registers d now =>
      let config := (w.hosts d).config
      let r := Request.putIfAbsent (Cluster.registerKey config) (Cluster.registerInfo config now)
      some { w with
        cluster := { w.cluster with etcd := (serve 0 w.cluster.etcd r).1 }
        written := w.written ++ requestWrites w.cluster.etcd r }
  | .anchorReads d =>
      (registeredTag (w.hosts d).file).map fun tag => { w with anchoring := tag :: w.anchoring }
  | .anchorPuts k => do
      let tag ← w.anchoring[k]?
      some { w with
        version := some (w.version.getD tag)
        written := w.written ++
          if w.version = none then [(CLUSTER_VERSION_KEY, .text tag)] else [] }
  | .upgradePuts id target => do
      let o ← works w.jobs id "version-upgrade"
      if Json.field "milvus_version" o.job.params = some (.str target) then
        some { w with
          version := some target
          written := w.written ++ [(CLUSTER_VERSION_KEY, .text target)] }
      else none
  | .rotateStarts id d isLeader peers => do
      let o ← works w.jobs id "rotate-token"
      if w.rotations.get id = none ∧ (w.hosts d).config.nodeName = o.job.owner then
        let config := (w.hosts d).config
        let r ← Worker.starts d config.nodeName config.listenPort o.job.params isLeader peers
        match r with
        | .error error =>
            (Jobs.step w.jobs (.owner id (.raise error))).map fun jobs => { w with jobs := jobs }
        | .ok r => w.report id r
      else none
  | .rotate id i => do
      let x ← w.rotations.get id
      if isReport i then none
      else
        let r ← x.proceed (w.nodeName x.host) i
        let v ← w.report id r
        some (if x.writes i then v.writeToken x.host x.newToken else v)
  | .handle h id name e => do
      let x ← w.rotations.get id
      if w.handlings.get h = none ∧ x.sent name (w.hosts e).config.localIp = true ∧
          requireToken (some (bearer (w.hosts x.host).config.clusterToken))
            (w.hosts e).config.clusterToken = .ok () then
        some { w with
          handlings := w.handlings.put h ⟨e, id, name, x.newToken, .updating, SelfPc.starts⟩ }
      else none
  | .handled h i => do
      let x ← w.handlings.get h
      let y ← x.proceed (w.nodeName x.host) i
      let v := { w with handlings := w.handlings.put h y }
      some (if x.pc.writes i then v.writeToken x.host x.newToken else v)
  | .replies id name h => do
      let y ← w.handlings.get h
      let x ← w.rotations.get id
      match y.pc with
      | .ended error =>
          if y.job = id ∧ y.follower = name then
            let r ← x.proceed (w.nodeName x.host) (.answers name (.report y.captured error))
            w.report id r
          else none
      | _ => none

/-! ## A cluster without the token -/

/-- The config without the token. -/
def plainConfig (c : DaemonConfig) : DaemonConfig := { c with clusterToken := "" }

/-- The point without the text that is issued to the joiner. -/
def plainPc : JoinPc → JoinPc
  | .adding name _ => .adding name ""
  | .returned r => .returned { r with clusterEnv := "" }
  | pc => pc

def plainCall (c : JoinCall) : JoinCall := { c with config := plainConfig c.config }

def plainSlot (x : Cluster.JoinSlot) : Cluster.JoinSlot :=
  ⟨x.daemon, plainCall x.call, ⟨plainPc x.thread.pc, x.thread.tries⟩⟩

/-- Two clusters that differ in what their joins know of the token. -/
structure SameCluster (w v : Cluster.World) : Prop where
  etcd : w.etcd = v.etcd
  isLeader : w.isLeader = v.isLeader
  joins : ∀ id, (w.joins.get id).map plainSlot = (v.joins.get id).map plainSlot
  removals : w.removals = v.removals
  bootstrap : plainConfig w.bootstrap = plainConfig v.bootstrap
  registration : w.registration = v.registration
  bootstrapLive : w.bootstrapLive = v.bootstrapLive
  holders : w.holders = v.holders

/-- Acts that differ in what a call reads of the token. -/
inductive SameClusterAct : Cluster.Act → Cluster.Act → Prop
  | same (a : Cluster.Act) : SameClusterAct a a
  | startJoin {id d : ℕ} {c c' : JoinCall} : plainCall c = plainCall c' →
      SameClusterAct (.startJoin id d c) (.startJoin id d c')
  | joinInput {id : ℕ} {file file' : Option String} {issuedAt : String} :
      (file = none ↔ file' = none) →
      SameClusterAct (.joinInput id (.clusterEnv file issuedAt))
        (.joinInput id (.clusterEnv file' issuedAt))
  | removalInput {id : ℕ} {flag : Bool} {file file' : Option String} :
      (∀ key, key ≠ CLUSTER_TOKEN.text → ∀ dflt,
        readClusterEnvValue file key dflt = readClusterEnvValue file' key dflt) →
      SameClusterAct (.removalInput id (.look flag file)) (.removalInput id (.look flag file'))

/-! ### The calls -/

variable {c c' : JoinCall} {pc pc' : JoinPc}

theorem request_plain (c : JoinCall) (pc : JoinPc) :
    (plainCall c).request (plainPc pc) = c.request pc := by
  cases pc <;> rfl

theorem plainPc_idem (pc : JoinPc) : plainPc (plainPc pc) = plainPc pc := by
  cases pc <;> rfl

theorem answered_plain (c : JoinCall) (pc : JoinPc) (res : Except Exc Reply) :
    plainPc ((plainCall c).answered (plainPc pc) res) = plainPc (c.answered pc res) := by
  cases pc with
  | adding name env =>
      cases res with
      | error e => rfl
      | ok r => cases r <;> rfl
  | returned r => rfl
  | _ => rfl

/-- An attempt goes the same way without the token. -/
theorem attempt_plain (c : JoinCall) (newId : ℕ) (s : Etcd) (t : Thread JoinPc) (a : Attempt) :
    ((plainCall c).client.attempt newId s ⟨plainPc t.pc, t.tries⟩ a).map (fun r =>
        (r.1, plainPc r.2.pc, r.2.tries)) =
      (c.client.attempt newId s t a).map fun r => (r.1, plainPc r.2.pc, r.2.tries) := by
  simp only [Client.attempt, JoinCall.client, request_plain, Option.map_map]
  congr 1
  funext r
  simp only [Function.comp_apply]
  rcases EtcdClient.attempt newId t.tries s r a with ⟨u, _ | res⟩
  · rw [plainPc_idem]
  · rw [answered_plain]

/-- The file decides what is issued, and not whether something is. -/
theorem joinerEnv_same (c : JoinCall) (name : String) (others : List (String × Json))
    {file file' : Option String} (h : file = none ↔ file' = none) (issuedAt : String) :
    (∃ e, c.joinerEnv name others file issuedAt = .error e ∧
      c.joinerEnv name others file' issuedAt = .error e) ∨
    ∃ env env', c.joinerEnv name others file issuedAt = .ok env ∧
      c.joinerEnv name others file' issuedAt = .ok env' := by
  unfold JoinCall.joinerEnv
  cases orderedPeerNamesAndIpsAfterJoin others name c.joinerIp with
  | error e => exact .inl ⟨e, rfl, rfl⟩
  | ok pairs =>
      cases file with
      | none =>
          rw [h.mp rfl]
          exact .inl ⟨_, rfl, rfl⟩
      | some text =>
          cases file' with
          | none => exact absurd (h.mpr rfl) nofun
          | some text' =>
              simp only [readClusterEnv, bind, Except.bind, ClusterEnv.buildJoinerClusterEnv]
              split_ifs
              · exact .inl ⟨_, rfl, rfl⟩
              · cases ClusterEnv.joinValues (pairs.map Prod.snd) with
                | error e => exact .inl ⟨e, rfl, rfl⟩
                | ok ips => exact .inr ⟨_, _, rfl, rfl⟩
              · exact .inl ⟨_, rfl, rfl⟩
              · cases ClusterEnv.joinValues (pairs.map Prod.snd) with
                | error e => exact .inl ⟨e, rfl, rfl⟩
                | ok ips => exact .inl ⟨_, rfl, rfl⟩

theorem proceed_plain (c : JoinCall) (pc : JoinPc) (i : JoinCall.Input) :
    ((plainCall c).proceed (plainPc pc) i).map plainPc = (c.proceed pc i).map plainPc := by
  have henv : ∀ name others file issuedAt, (plainCall c).joinerEnv name others file issuedAt =
      c.joinerEnv name others file issuedAt := fun _ _ _ _ => rfl
  cases pc with
  | rejoining name parsed =>
      cases i with
      | clusterEnv file issuedAt =>
          simp only [plainPc, JoinCall.proceed, henv, Option.map_some]
          cases c.joinerEnv name (parsed.filter fun e => e.1 ≠ name) file issuedAt <;> rfl
      | _ => rfl
  | _ => cases i <;> rfl

/-- The step of a call on another file. -/
theorem proceed_file (c : JoinCall) (pc : JoinPc) {file file' : Option String}
    (h : file = none ↔ file' = none) (issuedAt : String) :
    (c.proceed pc (.clusterEnv file issuedAt)).map plainPc =
      (c.proceed pc (.clusterEnv file' issuedAt)).map plainPc := by
  cases pc with
  | rejoining name parsed =>
      simp only [JoinCall.proceed, Option.map_some]
      rcases joinerEnv_same c name (parsed.filter fun e => e.1 ≠ name) h issuedAt with
        ⟨e, he, he'⟩ | ⟨env, env', he, he'⟩
      · rw [he, he']
      · rw [he, he']
        rfl
  | building name parsed =>
      simp only [JoinCall.proceed, Option.map_some]
      rcases joinerEnv_same c name parsed h issuedAt with ⟨e, he, he'⟩ | ⟨env, env', he, he'⟩
      · rw [he, he']
      · rw [he, he']
        rfl
  | _ => rfl

/-- The removal reads other keys only. -/
theorem removal_same (j : RemoveNode.RemoveJob) (pc : RemoveNode.RemovePc) (flag : Bool)
    {file file' : Option String} (h : ∀ key, key ≠ CLUSTER_TOKEN.text → ∀ dflt,
      readClusterEnvValue file key dflt = readClusterEnvValue file' key dflt) :
    j.proceed pc (.look flag file) = j.proceed pc (.look flag file') := by
  have hkey : ∀ key dflt, (decide (key ≠ CLUSTER_TOKEN.text)) = true →
      readClusterEnvValue file key dflt = readClusterEnvValue file' key dflt :=
    fun key dflt hne => h key (of_decide_eq_true hne) dflt
  cases pc with
  | guarding name =>
      have hdeploy : RemoveNode.isPulsarDeploy file = RemoveNode.isPulsarDeploy file' := by
        unfold RemoveNode.isPulsarDeploy
        rw [hkey "MQ_TYPE" _ (by decide), hkey "MILVUS_IMAGE_TAG" _ (by decide)]
      simp only [RemoveNode.RemoveJob.proceed, RemoveNode.checkLocal, hdeploy,
        hkey "PULSAR_HOST" _ (by decide)]
  | preparing name =>
      simp only [RemoveNode.RemoveJob.proceed, RemoveNode.minioApiPort,
        hkey "MINIO_API_PORT" _ (by decide)]
  | porting t =>
      simp only [RemoveNode.RemoveJob.proceed, RemoveNode.envInt, hkey "ETCD_PEER_PORT" _ (by decide)]
  | draining t =>
      simp only [RemoveNode.RemoveJob.proceed, RemoveNode.envInt, hkey "MILVUS_PORT" _ (by decide)]
  | _ => rfl

/-! ### The cluster -/

variable {w v w' v' : Cluster.World}

theorem SameCluster.slot (h : SameCluster w v) {id : ℕ} {x y : Cluster.JoinSlot}
    (hx : w.joins.get id = some x) (hy : v.joins.get id = some y) : plainSlot x = plainSlot y := by
  have hjoins := h.joins id
  rw [hx, hy] at hjoins
  exact Option.some.inj hjoins

theorem joins_put {m n : OrderedMap ℕ Cluster.JoinSlot}
    (h : ∀ id, (m.get id).map plainSlot = (n.get id).map plainSlot) (k : ℕ) {x y : Cluster.JoinSlot}
    (hxy : plainSlot x = plainSlot y) (id : ℕ) :
    ((m.put k x).get id).map plainSlot = ((n.put k y).get id).map plainSlot := by
  rw [OrderedMap.get_put, OrderedMap.get_put]
  split_ifs
  · rw [Option.map_some, Option.map_some, hxy]
  · exact h id

theorem newHolder_plain (pc : JoinPc) : Cluster.newHolder (plainPc pc) = Cluster.newHolder pc := by
  cases pc <;> rfl

/-- A call moves in both clusters. -/
theorem SameCluster.moveJoin (h : SameCluster w v) (id : ℕ) {x y : Cluster.JoinSlot}
    (hxy : plainSlot x = plainSlot y) {s : Etcd} {t u : Thread JoinPc} (hpc : plainPc t.pc = plainPc u.pc)
    (htries : t.tries = u.tries) :
    SameCluster (Cluster.moveJoin w id x s t) (Cluster.moveJoin v id y s u) := by
  simp only [plainSlot, Cluster.JoinSlot.mk.injEq] at hxy
  constructor
  · rfl
  · exact h.isLeader
  · apply joins_put h.joins
    simp only [plainSlot, hxy.1, hxy.2.1, hpc, htries]
  · exact h.removals
  · exact h.bootstrap
  · exact h.registration
  · exact h.bootstrapLive
  · simp only [Cluster.moveJoin, h.holders]
    rw [← newHolder_plain t.pc, ← newHolder_plain u.pc, hpc]

/-- The thread of a call, without the token. -/
theorem plainSlot_inj {x y : Cluster.JoinSlot} (h : plainSlot x = plainSlot y) :
    x.daemon = y.daemon ∧ plainCall x.call = plainCall y.call ∧
      plainPc x.thread.pc = plainPc y.thread.pc ∧ x.thread.tries = y.thread.tries := by
  simp only [plainSlot, Cluster.JoinSlot.mk.injEq, Thread.mk.injEq] at h
  exact h

/-- The calls of both clusters go the same way with the same input. -/
theorem proceed_same {x y : Cluster.JoinSlot} (h : plainSlot x = plainSlot y) (i : JoinCall.Input) :
    (x.call.proceed x.thread.pc i).map plainPc = (y.call.proceed y.thread.pc i).map plainPc := by
  obtain ⟨-, hcall, hpc, -⟩ := plainSlot_inj h
  rw [← proceed_plain x.call, ← proceed_plain y.call, hcall, hpc]

theorem attempt_same {x y : Cluster.JoinSlot} (h : plainSlot x = plainSlot y) (newId : ℕ) (s : Etcd)
    (a : Attempt) : (x.call.client.attempt newId s x.thread a).map (fun r =>
        (r.1, plainPc r.2.pc, r.2.tries)) =
      (y.call.client.attempt newId s y.thread a).map fun r => (r.1, plainPc r.2.pc, r.2.tries) := by
  obtain ⟨-, hcall, hpc, htries⟩ := plainSlot_inj h
  rw [← attempt_plain x.call, ← attempt_plain y.call, hcall, hpc, htries]

/-- A step of a call from its file or clock. -/
theorem sameCluster_joinInput (h : SameCluster w v) {id : ℕ} {i i' : JoinCall.Input}
    (hi : ∀ x y : Cluster.JoinSlot, plainSlot x = plainSlot y →
      (x.call.proceed x.thread.pc i).map plainPc = (y.call.proceed y.thread.pc i').map plainPc)
    (hs : Cluster.step w (.joinInput id i) = some w')
    (hs' : Cluster.step v (.joinInput id i') = some v') : SameCluster w' v' := by
  simp only [Cluster.step] at hs hs'
  split at hs
  · cases hs
  next x hx =>
    split at hs'
    · cases hs'
    next y hy =>
      have hxy := h.slot hx hy
      split_ifs at hs hs'
      obtain ⟨pc, hpc, rfl⟩ := Option.map_eq_some_iff.mp hs
      obtain ⟨qc, hqc, rfl⟩ := Option.map_eq_some_iff.mp hs'
      have hnext := hi x y hxy
      rw [hpc, hqc] at hnext
      rw [h.etcd]
      exact h.moveJoin id hxy (Option.some.inj hnext) rfl

theorem sameCluster_joinAttempt (h : SameCluster w v) {id newId : ℕ} {a : Attempt}
    (hs : Cluster.step w (.joinAttempt id newId a) = some w')
    (hs' : Cluster.step v (.joinAttempt id newId a) = some v') : SameCluster w' v' := by
  simp only [Cluster.step] at hs hs'
  split at hs
  · cases hs
  next x hx =>
    split at hs'
    · cases hs'
    next y hy =>
      have hxy := h.slot hx hy
      split_ifs at hs hs'
      obtain ⟨r, hr, rfl⟩ := Option.map_eq_some_iff.mp hs
      obtain ⟨r', hr', rfl⟩ := Option.map_eq_some_iff.mp hs'
      have hnext := attempt_same hxy newId w.etcd a
      rw [hr, h.etcd, hr', Option.map_some, Option.map_some, Option.some.injEq, Prod.mk.injEq,
        Prod.mk.injEq] at hnext
      rw [hnext.1]
      exact h.moveJoin id hxy hnext.2.1 hnext.2.2

theorem plainConfig_inj {c c' : DaemonConfig} (h : plainConfig c = plainConfig c') :
    c.nodeName = c'.nodeName ∧ c.localIp = c'.localIp ∧ c.listenPort = c'.listenPort := by
  cases c
  cases c'
  simp only [plainConfig, DaemonConfig.mk.injEq] at h
  exact ⟨h.1, h.2.1, h.2.2.2.2⟩

theorem registerClient_same {c c' : DaemonConfig} (h : plainConfig c = plainConfig c') :
    Cluster.registerClient c = Cluster.registerClient c' := by
  have hplain : Cluster.registerClient (plainConfig c) = Cluster.registerClient (plainConfig c') := by
    rw [h]
  exact hplain

theorem registerInfo_same {c c' : DaemonConfig} (h : plainConfig c = plainConfig c') (now : Decimal) :
    Cluster.registerInfo c now = Cluster.registerInfo c' now := by
  have hplain : Cluster.registerInfo (plainConfig c) now = Cluster.registerInfo (plainConfig c') now := by
    rw [h]
  exact hplain

theorem get_filterValues_eq {K V : Type} [LinearOrder K] (m : OrderedMap K V) (p : V → Bool) (k : K) :
    (m.filterValues p).get k = (m.get k).filter p := by
  ext x
  rw [OrderedMap.get_filterValues, Option.filter_eq_some_iff]

/-- Clusters that differ in the token stay so. -/
theorem sameCluster_step {a a' : Cluster.Act} (h : SameCluster w v) (ha : SameClusterAct a a')
    (hs : Cluster.step w a = some w') (hs' : Cluster.step v a' = some v') : SameCluster w' v' := by
  obtain ⟨hetcd, hleader, hjoins, hremovals, hbootstrap, hregistration, hlive, hholders⟩ := h
  cases ha with
  | startJoin hcall =>
      simp only [Cluster.step] at hs hs'
      split_ifs at hs hs'
      cases hs
      cases hs'
      refine ⟨hetcd, hleader, ?_, hremovals, hbootstrap, hregistration, hlive, hholders⟩
      apply joins_put hjoins
      have hstart := congrArg JoinCall.start hcall
      simp only [plainSlot, hcall]
      exact congrArg (fun pc => Cluster.JoinSlot.mk _ _ ⟨plainPc pc, 0⟩) hstart
  | joinInput hfile =>
      refine sameCluster_joinInput ⟨hetcd, hleader, hjoins, hremovals, hbootstrap, hregistration,
        hlive, hholders⟩ ?_ hs hs'
      intro x y hxy
      rw [proceed_file x.call x.thread.pc hfile, proceed_same hxy]
  | removalInput hfile =>
      simp only [Cluster.step, hremovals, removal_same _ _ _ hfile] at hs hs'
      split at hs
      · cases hs
      next x hx =>
        rw [hx] at hs'
        obtain ⟨pc, hpc, rfl⟩ := Option.map_eq_some_iff.mp hs
        obtain ⟨qc, hqc, rfl⟩ := Option.map_eq_some_iff.mp hs'
        cases hpc.symm.trans hqc
        exact ⟨hetcd, hleader, hjoins, rfl, hbootstrap, hregistration, hlive, hholders⟩
  | same a =>
      cases a with
      | setLeader d flag =>
          cases hs
          cases hs'
          exact ⟨hetcd, by rw [hleader], hjoins, hremovals, hbootstrap, hregistration, hlive, hholders⟩
      | startJoin id d call =>
          simp only [Cluster.step] at hs hs'
          split_ifs at hs hs'
          cases hs
          cases hs'
          exact ⟨hetcd, hleader, joins_put hjoins id rfl, hremovals, hbootstrap, hregistration, hlive,
            hholders⟩
      | joinInput id i =>
          exact sameCluster_joinInput ⟨hetcd, hleader, hjoins, hremovals, hbootstrap, hregistration,
            hlive, hholders⟩ (fun x y hxy => proceed_same hxy i) hs hs'
      | joinAttempt id newId a =>
          exact sameCluster_joinAttempt ⟨hetcd, hleader, hjoins, hremovals, hbootstrap, hregistration,
            hlive, hholders⟩ hs hs'
      | startRemoval id d job =>
          simp only [Cluster.step, hremovals] at hs hs'
          split_ifs at hs hs'
          cases hs
          cases hs'
          exact ⟨hetcd, hleader, hjoins, rfl, hbootstrap, hregistration, hlive, hholders⟩
      | removalInput id i =>
          simp only [Cluster.step, hremovals] at hs hs'
          split at hs
          · cases hs
          next x hx =>
            rw [hx] at hs'
            obtain ⟨pc, hpc, rfl⟩ := Option.map_eq_some_iff.mp hs
            obtain ⟨qc, hqc, rfl⟩ := Option.map_eq_some_iff.mp hs'
            cases hpc.symm.trans hqc
            exact ⟨hetcd, hleader, hjoins, rfl, hbootstrap, hregistration, hlive, hholders⟩
      | removalAttempt id a =>
          simp only [Cluster.step, hremovals, hetcd] at hs hs'
          split at hs
          · cases hs
          next x hx =>
            rw [hx] at hs'
            obtain ⟨r, hr, rfl⟩ := Option.map_eq_some_iff.mp hs
            obtain ⟨r', hr', rfl⟩ := Option.map_eq_some_iff.mp hs'
            cases hr.symm.trans hr'
            have hip := (plainConfig_inj hbootstrap).2.1
            exact ⟨rfl, hleader, hjoins, rfl, hbootstrap, hregistration, by rw [hlive, hip],
              by rw [hholders]⟩
      | crash d =>
          cases hs
          cases hs'
          refine ⟨hetcd, hleader, ?_, by rw [hremovals], hbootstrap, hregistration, hlive, hholders⟩
          intro id
          have hmap : ∀ o : Option Cluster.JoinSlot, (o.filter fun x => x.daemon ≠ d).map plainSlot =
              (o.map plainSlot).filter fun x => x.daemon ≠ d := by
            intro o
            cases o with
            | none => rfl
            | some x => simp only [Option.filter, Option.map_some, plainSlot]; split_ifs <;> rfl
          rw [get_filterValues_eq, get_filterValues_eq, hmap, hmap, hjoins id]
      | bootstrapStarts =>
          cases hs
          cases hs'
          exact ⟨hetcd, hleader, hjoins, hremovals, hbootstrap, rfl, hlive, hholders⟩
      | registerTime now =>
          simp only [Cluster.step, hregistration] at hs hs'
          split_ifs at hs hs'
          cases hs
          cases hs'
          exact ⟨hetcd, hleader, hjoins, hremovals, hbootstrap, by rw [registerInfo_same hbootstrap],
            hlive, hholders⟩
      | registerAttempt a =>
          simp only [Cluster.step, hregistration, hetcd, registerClient_same hbootstrap] at hs hs'
          obtain ⟨r, hr, rfl⟩ := Option.map_eq_some_iff.mp hs
          obtain ⟨r', hr', rfl⟩ := Option.map_eq_some_iff.mp hs'
          cases hr.symm.trans hr'
          exact ⟨rfl, hleader, hjoins, hremovals, hbootstrap, rfl, hlive, hholders⟩
      | memberStarts memberId name =>
          cases hs
          cases hs'
          exact ⟨by rw [hetcd], hleader, hjoins, hremovals, hbootstrap, hregistration, hlive, hholders⟩

theorem clusterWrites_same (h : SameCluster w v) (a : Cluster.Act) :
    clusterWrites w a = clusterWrites v a := by
  cases a with
  | joinAttempt id newId a =>
      have hjoins := h.joins id
      simp only [clusterWrites]
      cases hx : w.joins.get id with
      | none =>
          rw [hx] at hjoins
          rw [Option.map_eq_none_iff.mp hjoins.symm]
          rfl
      | some x =>
          rw [hx] at hjoins
          obtain ⟨y, hy, hxy⟩ := Option.map_eq_some_iff.mp hjoins.symm
          obtain ⟨-, hcall, hpc, -⟩ := plainSlot_inj hxy
          rw [hy]
          simp only [Option.toList_some, List.flatMap_singleton]
          rw [← request_plain x.call, ← request_plain y.call, hcall, hpc, h.etcd]
  | removalAttempt id a => simp only [clusterWrites, h.removals, h.etcd]
  | registerAttempt a =>
      simp only [clusterWrites, h.registration, h.etcd, registerClient_same h.bootstrap]
  | _ => rfl

/-! ## Two runs -/

structure SameHost (x y : Host) : Prop where
  config : plainConfig x.config = plainConfig y.config
  file : SameFile x.file y.file

/-- Two states that differ in the tokens of the daemons. -/
structure Alike (w v : World) : Prop where
  cluster : SameCluster w.cluster v.cluster
  hosts : ∀ d, SameHost (w.hosts d) (v.hosts d)
  election : w.election = v.election
  jobs : w.jobs = v.jobs
  version : w.version = v.version
  anchoring : w.anchoring = v.anchoring
  rotations : w.rotations = v.rotations
  handlings : w.handlings = v.handlings
  written : w.written = v.written

/-- Two acts that differ in a token: one of a file, the one that a container is
created with, the parameter of a rotation, with the same length. -/
inductive SameAct : Act → Act → Prop
  | same (a : Act) : SameAct a a
  | edit {d : ℕ} {f g : Lines} : SameFile f g → SameAct (.edit d f) (.edit d g)
  | recreate {d : ℕ} {t t' : String} : SameAct (.recreate d t) (.recreate d t')
  | creates {id node t t' : String} {pre post : List (String × Json)} {isLeader : Bool} {now : ℤ} :
      t.length = t'.length →
      SameAct
        (.jobs (.create id node "rotate-token" (pre ++ ("new_token", .str t) :: post) isLeader now))
        (.jobs (.create id node "rotate-token" (pre ++ ("new_token", .str t') :: post) isLeader now))

/-- The parameters of the job that an act creates. -/
def createdParams : Act → Option (List (String × Json))
  | .jobs (.create _ _ _ params _ _) => some params
  | _ => none

section Alike

variable {w v w' v' : World}

theorem nodeName_same (h : Alike w v) (d : ℕ) : w.nodeName d = v.nodeName d :=
  readClusterEnvValue_same (by decide) (h.hosts d).file ""

theorem filled_same (h : Alike w v) (a : Cluster.Act) : SameClusterAct (w.filled a) (v.filled a) := by
  unfold World.filled
  split
  · next id d call =>
      apply SameClusterAct.startJoin
      simp only [plainCall, (h.hosts d).config]
  · next id file issuedAt =>
      apply SameClusterAct.joinInput
      have hjoins := congrArg Option.isNone (h.cluster.joins id)
      rw [Option.isNone_map, Option.isNone_map] at hjoins
      rw [Option.map_eq_none_iff, Option.map_eq_none_iff, ← Option.isNone_iff_eq_none,
        ← Option.isNone_iff_eq_none, hjoins]
  · next id flag file =>
      apply SameClusterAct.removalInput
      intro key hkey dflt
      rw [h.cluster.removals]
      cases v.cluster.removals.get id with
      | none => rfl
      | some x => exact readClusterEnvValue_same hkey (h.hosts x.daemon).file dflt
  · exact .same a

theorem Alike.setHost (h : Alike w v) (d : ℕ) {x y : Host} (hxy : SameHost x y) :
    Alike (w.setHost d x) (v.setHost d y) := by
  obtain ⟨hcluster, hhosts, helection, hjobs, hversion, hanchoring, hrotations, hhandlings, hwritten⟩ := h
  refine ⟨hcluster, ?_, helection, hjobs, hversion, hanchoring, hrotations, hhandlings, hwritten⟩
  intro e
  simp only [World.setHost, Function.update_apply]
  split_ifs
  · exact hxy
  · exact hhosts e

theorem Alike.writeToken (h : Alike w v) (d : ℕ) (token : String) :
    Alike (w.writeToken d token) (v.writeToken d token) :=
  h.setHost d ⟨(h.hosts d).config, upsertKv_same token (h.hosts d).file⟩

theorem Alike.report (h : Alike w v) {id : String} {r : Worker × List Effect}
    (hs : w.report id r = some w') (hs' : v.report id r = some v') : Alike w' v' := by
  obtain ⟨hcluster, hhosts, helection, hjobs, hversion, hanchoring, hrotations, hhandlings, hwritten⟩ := h
  simp only [World.report, hjobs, hrotations] at hs hs'
  obtain ⟨jobs, hrun, rfl⟩ := Option.map_eq_some_iff.mp hs
  obtain ⟨jobs', hrun', rfl⟩ := Option.map_eq_some_iff.mp hs'
  cases hrun.symm.trans hrun'
  exact ⟨hcluster, hhosts, helection, rfl, hversion, hanchoring, rfl, hhandlings, hwritten⟩

/-- Two steps that look at the same value first both find it. -/
theorem bind_both {A B C : Type} {o : Option A} {f : A → Option B} {g : A → Option C} {b : B} {c : C}
    (hs : o.bind f = some b) (hs' : o.bind g = some c) : ∃ x, f x = some b ∧ g x = some c := by
  obtain ⟨x, hx, hb⟩ := Option.bind_eq_some_iff.mp hs
  rw [hx] at hs'
  exact ⟨x, hb, hs'⟩

theorem map_both {A B C : Type} {o : Option A} {f : A → B} {g : A → C} {b : B} {c : C}
    (hs : o.map f = some b) (hs' : o.map g = some c) : ∃ x, f x = b ∧ g x = c := by
  rw [Option.map_eq_bind] at hs hs'
  obtain ⟨x, hb, hc⟩ := bind_both hs hs'
  exact ⟨x, Option.some.inj hb, Option.some.inj hc⟩

/-- The daemons register the same entry. -/
theorem alike_registers (h : Alike w v) {d : ℕ} {now : Decimal} (hs : step w (.registers d now) = some w')
    (hs' : step v (.registers d now) = some v') : Alike w' v' := by
  obtain ⟨hcluster, hhosts, helection, hjobs, hversion, hanchoring, hrotations, hhandlings, hwritten⟩ := h
  have hkey : Cluster.registerKey (w.hosts d).config = Cluster.registerKey (v.hosts d).config := by
    rw [Cluster.registerKey, Cluster.registerKey, (plainConfig_inj (hhosts d).config).1]
  simp only [step, hkey, registerInfo_same (hhosts d).config now, hcluster.etcd, hwritten] at hs
  cases hs
  cases hs'
  exact ⟨⟨rfl, hcluster.isLeader, hcluster.joins, hcluster.removals, hcluster.bootstrap,
    hcluster.registration, hcluster.bootstrapLive, hcluster.holders⟩, hhosts, helection, hjobs,
    hversion, hanchoring, hrotations, hhandlings, rfl⟩

/-- The workers of a rotation begin alike, or both end with the same error. -/
theorem alike_rotateStarts (h : Alike w v) {id : String} {d : ℕ} {isLeader : Bool}
    {peers : List (String × Json)}
    (hs : step w (.rotateStarts id d isLeader peers) = some w')
    (hs' : step v (.rotateStarts id d isLeader peers) = some v') : Alike w' v' := by
  obtain ⟨hname, -, hport⟩ := plainConfig_inj (h.hosts d).config
  simp only [step, h.jobs, h.rotations, hname, hport] at hs hs'
  obtain ⟨o, hs, hs'⟩ := bind_both hs hs'
  split_ifs at hs hs'
  obtain ⟨r, hs, hs'⟩ := bind_both hs hs'
  cases r with
  | error error =>
      obtain ⟨j, rfl, rfl⟩ := map_both hs hs'
      exact ⟨h.cluster, h.hosts, h.election, rfl, h.version, h.anchoring, rfl, h.handlings, h.written⟩
  | ok r => exact h.report hs hs'

/-- A step of a worker writes the same token on both sides, or none. -/
theorem alike_rotate (h : Alike w v) {id : String} {i : WorkerInput}
    (hs : step w (.rotate id i) = some w') (hs' : step v (.rotate id i) = some v') : Alike w' v' := by
  simp only [step, h.rotations] at hs hs'
  obtain ⟨x, hs, hs'⟩ := bind_both hs hs'
  by_cases hanswer : isReport i = true
  · rw [if_pos hanswer] at hs
    cases hs
  rw [if_neg hanswer, nodeName_same h] at hs
  rw [if_neg hanswer] at hs'
  obtain ⟨r, hs, hs'⟩ := bind_both hs hs'
  obtain ⟨u, hu, hs⟩ := Option.bind_eq_some_iff.mp hs
  obtain ⟨u', hu', hs'⟩ := Option.bind_eq_some_iff.mp hs'
  have hreport := h.report hu hu'
  cases hs
  cases hs'
  split_ifs
  · exact hreport.writeToken x.host x.newToken
  · exact hreport

/-- A step of a handler writes the same token on both sides, or none. -/
theorem alike_handled (h : Alike w v) {k : ℕ} {i : SelfInput}
    (hs : step w (.handled k i) = some w') (hs' : step v (.handled k i) = some v') : Alike w' v' := by
  simp only [step, h.handlings] at hs hs'
  obtain ⟨x, hs, hs'⟩ := bind_both hs hs'
  rw [nodeName_same h] at hs
  obtain ⟨y, hs, hs'⟩ := bind_both hs hs'
  have hput : Alike { w with handlings := v.handlings.put k y } { v with handlings := v.handlings.put k y } :=
    ⟨h.cluster, h.hosts, h.election, h.jobs, h.version, h.anchoring, h.rotations, rfl, h.written⟩
  cases hs
  cases hs'
  split_ifs
  · exact hput.writeToken x.host x.newToken
  · exact hput

/-- The workers take the same answer of a handler. -/
theorem alike_replies (h : Alike w v) {id name : String} {k : ℕ} (hs : step w (.replies id name k) = some w')
    (hs' : step v (.replies id name k) = some v') : Alike w' v' := by
  simp only [step, h.rotations, h.handlings] at hs hs'
  obtain ⟨y, hs, hs'⟩ := bind_both hs hs'
  obtain ⟨x, hs, hs'⟩ := bind_both hs hs'
  split at hs
  · next error herror =>
      rw [herror] at hs'
      dsimp only at hs'
      split_ifs at hs hs'
      rw [nodeName_same h] at hs
      obtain ⟨r, hs, hs'⟩ := bind_both hs hs'
      exact h.report hs hs'
  · cases hs

/-- The same act keeps two states alike. -/
theorem alike_same {a : Act} (h : Alike w v) (hs : step w a = some w') (hs' : step v a = some v') :
    Alike w' v' := by
  have hcopy := h
  obtain ⟨hcluster, hhosts, helection, hjobs, hversion, hanchoring, hrotations, hhandlings, hwritten⟩ := h
  cases a with
  | cluster a =>
      obtain ⟨c, hc, rfl⟩ := Option.map_eq_some_iff.mp hs
      obtain ⟨c', hc', rfl⟩ := Option.map_eq_some_iff.mp hs'
      exact ⟨sameCluster_step hcluster (filled_same hcopy a) hc hc', hhosts, helection, hjobs, hversion,
        hanchoring, hrotations, hhandlings, by rw [hwritten, clusterWrites_same hcluster]⟩
  | election a =>
      simp only [step, helection] at hs hs'
      obtain ⟨e, rfl, rfl⟩ := map_both hs hs'
      exact ⟨hcluster, hhosts, rfl, hjobs, hversion, hanchoring, hrotations, hhandlings, by rw [hwritten]⟩
  | jobs a =>
      simp only [step, hjobs] at hs hs'
      split_ifs at hs hs'
      obtain ⟨j, rfl, rfl⟩ := map_both hs hs'
      exact ⟨hcluster, hhosts, helection, rfl, hversion, hanchoring, hrotations, hhandlings,
        by rw [hwritten]⟩
  | edit d file =>
      cases hs
      cases hs'
      exact hcopy.setHost d ⟨(hhosts d).config, sameFile_refl file⟩
  | recreate d token =>
      cases hs
      cases hs'
      refine hcopy.setHost d ⟨?_, (hhosts d).file⟩
      exact (hhosts d).config
  | registers d now => exact alike_registers hcopy hs hs'
  | anchorReads d =>
      simp only [step, registeredTag_same (hhosts d).file, hanchoring] at hs hs'
      obtain ⟨tag, rfl, rfl⟩ := map_both hs hs'
      exact ⟨hcluster, hhosts, helection, hjobs, hversion, rfl, hrotations, hhandlings, hwritten⟩
  | anchorPuts k =>
      simp only [step, hanchoring, hversion, hwritten] at hs hs'
      obtain ⟨tag, hs, hs'⟩ := bind_both hs hs'
      cases hs
      cases hs'
      exact ⟨hcluster, hhosts, helection, hjobs, rfl, rfl, hrotations, hhandlings, rfl⟩
  | upgradePuts id target =>
      simp only [step, hjobs, hwritten] at hs hs'
      obtain ⟨o, hs, hs'⟩ := bind_both hs hs'
      split_ifs at hs hs'
      cases hs
      cases hs'
      exact ⟨hcluster, hhosts, helection, rfl, rfl, hanchoring, hrotations, hhandlings, rfl⟩
  | rotateStarts id d isLeader peers => exact alike_rotateStarts hcopy hs hs'
  | rotate id i => exact alike_rotate hcopy hs hs'
  | handle k id name e =>
      simp only [step, hrotations, hhandlings] at hs hs'
      obtain ⟨x, hs, hs'⟩ := bind_both hs hs'
      split_ifs at hs hs'
      cases hs
      cases hs'
      exact ⟨hcluster, hhosts, helection, hjobs, hversion, hanchoring, rfl, rfl, hwritten⟩
  | handled k i => exact alike_handled hcopy hs hs'
  | replies id name k => exact alike_replies hcopy hs hs'

/-- Acts that differ in a token keep two states alike, when no job is created with
different parameters. -/
theorem alike_step {a a' : Act} (h : Alike w v) (ha : SameAct a a')
    (hparams : createdParams a = createdParams a') (hs : step w a = some w')
    (hs' : step v a' = some v') : Alike w' v' := by
  cases ha with
  | same a => exact alike_same h hs hs'
  | @edit d f g hfile =>
      cases hs
      cases hs'
      exact h.setHost d ⟨(h.hosts d).config, hfile⟩
  | @recreate d t t' =>
      cases hs
      cases hs'
      refine h.setHost d ⟨?_, (h.hosts d).file⟩
      exact (h.hosts d).config
  | creates hlength =>
      simp only [createdParams, Option.some.injEq, List.append_cancel_left_eq, List.cons.injEq,
        Prod.mk.injEq, Json.str.injEq, and_true, true_and] at hparams
      subst hparams
      exact alike_same h hs hs'

/-- Two runs that differ in the tokens only write the same to etcd, when no rotation
is created with different tokens in them. -/
theorem writes_agree {as as' : List Act} (hstart : Alike w v) (hacts : List.Forall₂ SameAct as as')
    (hparams : List.Forall₂ (fun a a' => createdParams a = createdParams a') as as')
    (hr : run step w as = some w') (hr' : run step v as' = some v') : w'.written = v'.written := by
  induction hacts generalizing w v with
  | nil =>
      cases hr
      cases hr'
      exact hstart.written
  | cons ha _ ih =>
      obtain ⟨u, hu, hr⟩ := run_cons.mp hr
      obtain ⟨u', hu', hr'⟩ := run_cons.mp hr'
      cases hparams with
      | cons hfirst hrest => exact ih (alike_step hstart ha hfirst hu hu') hrest hr hr'

end Alike

/-! ## The rotation of two peers -/

/-- Two writes that could differ in the id of a job, in times and in the order of
the lines of a log only. Of a text its key is compared. -/
inductive Resembles : Write → Write → Prop
  | text {key s s' : String} : Resembles (key, .text s) (key, .text s')
  | gone {key key' : String} : Resembles (key, .gone) (key', .gone)
  | record {key key' : String} {j j' : Jobs.Job} : j.type = j'.type → j.params = j'.params →
      j.state = j'.state → j.progress = j'.progress → j.error = j'.error → j.owner = j'.owner →
      j.logs.Perm j'.logs → Resembles (key, .record j) (key', .record j')

/-- The parameters in a write. -/
def writtenParams : Write → Option (List (String × Json))
  | (_, .record j) => some j.params
  | _ => none

theorem Resembles.params {x y : Write} (h : Resembles x y) : writtenParams x = writtenParams y := by
  cases h with
  | text => rfl
  | gone => rfl
  | record htype hparams => rw [writtenParams, writtenParams, hparams]

theorem params_of_resembles {xs ys : List Write} (h : List.Forall₂ Resembles xs ys) :
    xs.map writtenParams = ys.map writtenParams := by
  induction h with
  | nil => rfl
  | cons hxy _ ih => rw [List.map_cons, List.map_cons, hxy.params, ih]

/-- The daemon of a peer with its token. -/
def peer (token : String) (d : ℕ) : Host :=
  let name := if d = 0 then "node-1" else "node-2"
  ⟨⟨name, if d = 0 then "10.0.0.1" else "10.0.0.2", token, 2380, 19500⟩,
    ["NODE_NAME=" ++ name, CLUSTER_TOKEN.line token]⟩

def twoPeers : List (String × Json) :=
  [("node-1", .obj [("ip", .str "10.0.0.1")]), ("node-2", .obj [("ip", .str "10.0.0.2")])]

/-- Before the first job. -/
def start (token : String) : World where
  cluster := Cluster.fresh ⟨.empty, []⟩ (fun d => d = 0) (peer token 0).config
  election := ⟨LeaderElection.emptyStore, [], []⟩
  jobs := ⟨.empty, .empty, .empty, [], [], ["rotate-token"]⟩
  hosts := peer token
  version := none
  anchoring := []
  rotations := .empty
  handlings := .empty
  written := []

/-- The job from its creation to its end. -/
def rotation (newToken : String) : List Act :=
  [.jobs (.create "a" "node-1" "rotate-token" [("new_token", .str newToken)] true 0),
    .jobs (.ownerAttempt "a" .answered), .jobs (.owner "a" (.begin 1)),
    .jobs (.ownerAttempt "a" .answered), .rotateStarts "a" 0 true twoPeers,
    .rotate "a" (.posts "node-2"), .handle 0 "a" "node-2" 1, .handled 0 .updated,
    .handled 0 (.rendered 0 "" true), .handled 0 (.spawned 0 ""), .replies "a" "node-2" 0,
    .rotate "a" .gathered, .rotate "a" (.self .updated), .rotate "a" (.self (.rendered 0 "" true)),
    .rotate "a" (.self (.spawned 0 "")), .jobs (.owner "a" (.close 2)),
    .jobs (.ownerAttempt "a" .answered)]

theorem alike_start {token token' : String} (h : OneLine token) (h' : OneLine token') :
    Alike (start token) (start token') := by
  refine ⟨⟨rfl, rfl, fun _ => rfl, rfl, rfl, rfl, rfl, rfl⟩, ?_, rfl, rfl, rfl, rfl, rfl, rfl, rfl⟩
  intro d
  constructor
  · rfl
  · exact .cons (.inl rfl) (.cons (.inr ⟨⟨token, rfl, h⟩, ⟨token', rfl, h'⟩⟩) .nil)

def firstToken : String := "0123456789abcdef0123456789abcdef"

def secondToken : String := "fedcba9876543210fedcba9876543210"

def newToken : String := "00112233445566778899aabbccddeeff"

theorem sameActs_refl (as : List Act) : List.Forall₂ SameAct as as := by
  induction as with
  | nil => exact .nil
  | cons a as ih => exact .cons (.same a) ih

theorem params_refl (as : List Act) :
    List.Forall₂ (fun a a' => createdParams a = createdParams a') as as := by
  induction as with
  | nil => exact .nil
  | cons a as ih => exact .cons rfl ih

theorem sameActs_rotation {token token' : String} (h : token.length = token'.length) :
    List.Forall₂ SameAct (rotation token) (rotation token') := by
  apply List.Forall₂.cons
  · exact @SameAct.creates "a" "node-1" token token' [] [] true 0 h
  · exact sameActs_refl _

/-- The same new token, after different old ones: the same three records. -/
theorem writes_agree_rotated : ∃ w w', run step (start firstToken) (rotation newToken) = some w ∧
    run step (start secondToken) (rotation newToken) = some w' ∧ w.written.length = 3 ∧
      w.written = w'.written := by
  have hfirst : (run step (start firstToken) (rotation newToken)).any (fun w =>
      decide (w.written.length = 3)) = true := by decide +kernel
  have hsecond : (run step (start secondToken) (rotation newToken)).isSome = true := by decide +kernel
  obtain ⟨w, hw, hlength⟩ := (Option.any_eq_true _ _).mp hfirst
  obtain ⟨w', hw'⟩ := Option.isSome_iff_exists.mp hsecond
  have hstart : Alike (start firstToken) (start secondToken) := alike_start (by decide) (by decide)
  exact ⟨w, w', hw, hw', of_decide_eq_true hlength,
    writes_agree hstart (sameActs_refl _) (params_refl _) hw hw'⟩

/-- Another new token of the same length is in the record of the job. -/
theorem new_token_written : ∃ (w w' v v' : World) (as as' : List Act), Alike w w' ∧
    List.Forall₂ SameAct as as' ∧ run step w as = some v ∧ run step w' as' = some v' ∧
      ¬List.Forall₂ Resembles v.written v'.written := by
  have hparams : ∀ token ∈ [firstToken, secondToken],
      (run step (start newToken) (rotation token)).any (fun w =>
        decide (w.written.map writtenParams =
          List.replicate 3 (some [("new_token", Json.str token)]))) = true := by decide +kernel
  have hruns : ∀ token ∈ [firstToken, secondToken], ∃ w,
      run step (start newToken) (rotation token) = some w ∧ w.written.map writtenParams =
        List.replicate 3 (some [("new_token", Json.str token)]) := by
    intro token htoken
    obtain ⟨w, hw, htest⟩ := (Option.any_eq_true _ _).mp (hparams token htoken)
    exact ⟨w, hw, of_decide_eq_true htest⟩
  obtain ⟨v, hv, hvparams⟩ := hruns firstToken List.mem_cons_self
  obtain ⟨v', hv', hvparams'⟩ := hruns secondToken (List.mem_cons_of_mem _ List.mem_cons_self)
  have hstart : Alike (start newToken) (start newToken) := alike_start (by decide) (by decide)
  have hacts : List.Forall₂ SameAct (rotation firstToken) (rotation secondToken) :=
    sameActs_rotation (by decide)
  refine ⟨_, _, v, v', _, _, hstart, hacts, hv, hv', ?_⟩
  intro hresembles
  have hsame := params_of_resembles hresembles
  rw [hvparams, hvparams'] at hsame
  revert hsame
  decide

end MilvusOnprem.TokenSecrecy
