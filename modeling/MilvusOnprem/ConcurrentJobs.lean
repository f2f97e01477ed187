import MilvusOnprem.Cluster
import MilvusOnprem.MigrateSteps
import MilvusOnprem.RotationLogs
import MilvusOnprem.SharedSettings

/-!
# Rotations, migrations and joins at the same time

The `cluster.env` of every peer, under any number of rotate-token jobs,
migrate-pulsar jobs and join requests. The jobs framework starts every job at
once, and a daemon handles every request when it arrives, so all of them
interleave. An `_upsert_kv` is one step. A joiner writes its file when its call
returns. A job that is killed or cancelled takes no further step and has not ended
done.

The mirror that a rotation goes through is an input, and so are the commands of a
daemon, its recreates and the network.
-/
namespace MilvusOnprem.ConcurrentJobs

open PythonText EtcdClient MilvusOnprem.Topology Joining OrderedPeers EnvFile RotationLogs MigrateSteps
open ClusterEnv (readClusterEnvValue)
open MigratePulsar (Files fileText)
open SharedSettings (Bare installed)
open TokenRotation (requireToken bearer)
open TopologyWatcher (Mirror)

structure MigrationSlot where
  daemon : ℕ
  job : MigrateJob
  thread : Thread MigratePc
deriving DecidableEq

/-- A request of `sync-pulsar-host` that a migration has sent, and whether its peer
has applied it. -/
structure SyncCall where
  ip : String
  host : String
  applied : Bool
deriving DecidableEq, Repr

/-- The etcd, the leader flags and the joins; the daemons' configs and the files by
ip; the rotations and what their followers do, by job and follower; the migrations
and their last requests. -/
structure World where
  base : Cluster.World
  config : ℕ → DaemonConfig
  files : Files
  rotations : OrderedMap String Worker
  handlings : String → String → Option Handling
  migrations : OrderedMap ℕ MigrationSlot
  syncs : ℕ → Option SyncCall

inductive Act where
  | cluster (a : Cluster.Act)
  | recreate (d : ℕ) (token : String)
  | rotateStarts (id : String) (d : ℕ) (peers : Mirror) (params : List (String × Json))
  | rotate (id : String) (i : WorkerInput)
  | handle (id name : String) (e : ℕ)
  | handled (id name : String) (i : SelfInput)
  | replies (id name : String)
  | migrateStarts (id d : ℕ) (toNode : Option String) (force : Bool)
  | migrate (id : ℕ) (i : MigrateJob.Input)
  | migrateAttempt (id : ℕ) (a : Attempt)
  | synced (id e : ℕ)

namespace World

def localIp (w : World) (d : ℕ) : String := (w.config d).localIp

/-- `_read_kv("NODE_NAME")` on a daemon -/
def nodeName (w : World) (d : ℕ) : String :=
  readClusterEnvValue (some (fileText (w.files (w.localIp d)))) "NODE_NAME" ""

/-- `_upsert_kv` on the file of a peer -/
def upsert (w : World) (key : Key) (value ip : String) : World :=
  { w with files := Function.update w.files ip (upsertKv key value (w.files ip)) }

def setRotation (w : World) (id : String) (x : Worker) : World :=
  { w with rotations := w.rotations.put id x }

def setHandling (w : World) (id name : String) (y : Handling) : World :=
  { w with
    handlings := Function.update w.handlings id (Function.update (w.handlings id) name (some y)) }

def setMigration (w : World) (id : ℕ) (slot : MigrationSlot) : World :=
  { w with migrations := w.migrations.put id slot }

def setSync (w : World) (id : ℕ) (call : SyncCall) : World :=
  { w with syncs := Function.update w.syncs id (some call) }

/-- The bearer token of one daemon is accepted by another. -/
def accepts (w : World) (d e : ℕ) : Bool :=
  match requireToken (some (bearer (w.config d).clusterToken)) (w.config e).clusterToken with
  | .ok () => true
  | .error _ => false

end World

/-- The steps of the joins. A call has its daemon's config and reads its daemon's
file; a formatted time has no equals sign. -/
def belongs (w : World) : Cluster.Act → Bool
  | .setLeader _ _ | .joinAttempt _ _ _ | .memberStarts _ _ => true
  | .startJoin _ d call => call.config = w.config d
  | .joinInput id (.clusterEnv file issuedAt) =>
      (w.base.joins.get id).any fun slot =>
        file = some (fileText (w.files (w.localIp slot.daemon))) && decide (Bare issuedAt)
  | .joinInput _ _ => true
  | _ => false

/-- The result that the step of a join returns. -/
def delivered (b : Cluster.World) : Cluster.Act → Option JoinResult
  | .joinInput id _ | .joinAttempt id _ _ =>
      (b.joins.get id).bind fun slot =>
        match slot.thread.pc with
        | .returned r => some r
        | _ => none
  | _ => none

/-- The joiner writes the file it was issued. -/
def install (files : Files) : Option JoinResult → Files
  | some r => Function.update files r.localIp (installed r.clusterEnv)
  | none => files

/-- The rotation that a start leaves: a running one, or one that has failed. -/
def started (d : ℕ) (config : DaemonConfig) : Except String (Worker × List Effect) → Worker
  | .ok r => r.1
  | .error e => ⟨d, config.nodeName, config.listenPort, "", 0, [], .ended (some e)⟩

/-- The migration that a start leaves. -/
def startedMigration (d : ℕ) (toNode : Option String) (force : Bool) : MigrationSlot :=
  match MigrateJob.start toNode force with
  | .ok job => ⟨d, job, ⟨.looking, 0⟩⟩
  | .error e => ⟨d, ⟨toNode.getD "", force⟩, ⟨.raised e, 0⟩⟩

/-- The report of a follower reaches the job by a step of its own. -/
def isReport : WorkerInput → Bool
  | .answers _ (.report _ _) => true
  | _ => false

/-- The text of an exception starts with its type. -/
def named : SelfInput → Bool
  | .raised _ error => error ≠ ""
  | _ => true

/-- The input of a migration: the flag of its daemon; an answer without an error
comes after the change. -/
def answers (w : World) (id : ℕ) (slot : MigrationSlot) : MigrateJob.Input → Bool
  | .look isLeader => isLeader = w.base.isLeader slot.daemon
  | .answer none => (w.syncs id).any SyncCall.applied
  | _ => true

/-- The request that a step of a migration sends. -/
def sends (slot : MigrationSlot) : MigrateJob.Input → Option SyncCall
  | .send =>
      match slot.thread.pc with
      | .applying (p :: _) _ => some ⟨p.2, slot.job.toNode, false⟩
      | _ => none
  | _ => none

def World.sent (w : World) (id : ℕ) : Option SyncCall → World
  | some call => w.setSync id call
  | none => w

def step (w : World) : Act → Option World
  | .cluster a =>
      if belongs w a then
        (Cluster.step w.base a).map fun b =>
          { w with base := b, files := install w.files (delivered b a) }
      else none
  | .recreate d token =>
      some { w with config := Function.update w.config d { w.config d with clusterToken := token } }
  | .rotateStarts id d peers params =>
      if w.rotations.get id = none then
        let config := w.config d
        (Worker.starts d config.nodeName config.listenPort params (w.base.isLeader d) peers.entries).map
          fun r => w.setRotation id (started d config r)
      else none
  | .rotate id i => do
      let x ← w.rotations.get id
      if isReport i then none
      else
        let r ← x.proceed (w.nodeName x.host) i
        let v := if x.writes i then w.upsert CLUSTER_TOKEN x.newToken (w.localIp x.host) else w
        some (v.setRotation id r.1)
  | .handle id name e => do
      let x ← w.rotations.get id
      -- a request is handled once
      if w.handlings id name = none ∧ x.sent name (w.localIp e) = true ∧ w.accepts x.host e = true then
        some (w.setHandling id name ⟨e, id, name, x.newToken, .updating, SelfPc.starts⟩)
      else none
  | .handled id name i => do
      let y ← w.handlings id name
      if named i then
        let z ← y.proceed (w.nodeName y.host) i
        let v := if y.pc.writes i then w.upsert CLUSTER_TOKEN y.newToken (w.localIp y.host) else w
        some (v.setHandling id name z)
      else none
  | .replies id name => do
      let y ← w.handlings id name
      let x ← w.rotations.get id
      match y.pc with
      | .ended error =>
          (x.proceed (w.nodeName x.host) (.answers name (.report y.captured error))).map fun r =>
            w.setRotation id r.1
      | _ => none
  | .migrateStarts id d toNode force =>
      if w.migrations.get id = none then some (w.setMigration id (startedMigration d toNode force))
      else none
  | .migrate id i => do
      let slot ← w.migrations.get id
      if answers w id slot i then
        let pc ← slot.job.proceed (w.localIp slot.daemon) w.files slot.thread.pc i
        some ((w.setMigration id { slot with thread := ⟨pc, 0⟩ }).sent id (sends slot i))
      else none
  | .migrateAttempt id a => do
      let slot ← w.migrations.get id
      let r ← MigrateJob.client.attempt 0 w.base.etcd slot.thread a
      some (w.setMigration id { slot with thread := r.2 })
  -- `apply_pulsar_host_change` on the peer
  | .synced id e => do
      let call ← w.syncs id
      let slot ← w.migrations.get id
      if call.applied = false ∧ w.localIp e = call.ip ∧ w.accepts slot.daemon e = true then
        some ((w.upsert PULSAR_HOST call.host call.ip).setSync id { call with applied := true })
      else none

/-- A cluster before any job and any join. -/
def start (base : Cluster.World) (config : ℕ → DaemonConfig) (files : Files) : World :=
  ⟨{ base with joins := .empty }, config, files, .empty, fun _ _ => none, .empty, fun _ => none⟩

/-! ## What a step can do -/

inductive Steps (w : World) : Act → World → Prop
  | cluster {a b} : belongs w a = true → Cluster.Steps w.base a b →
      Steps w (.cluster a) { w with base := b, files := install w.files (delivered b a) }
  | recreate {d token} : Steps w (.recreate d token)
      { w with config := Function.update w.config d { w.config d with clusterToken := token } }
  | rotateStarts {id d peers params r} : w.rotations.get id = none →
      Worker.starts d (w.config d).nodeName (w.config d).listenPort params (w.base.isLeader d)
        peers.entries = some r →
      Steps w (.rotateStarts id d peers params) (w.setRotation id (started d (w.config d) r))
  | rotateWrites {id i x r} : w.rotations.get id = some x →
      x.proceed (w.nodeName x.host) i = some r → x.writes i = true →
      Steps w (.rotate id i)
        ((w.upsert CLUSTER_TOKEN x.newToken (w.localIp x.host)).setRotation id r.1)
  | rotate {id i x r} : w.rotations.get id = some x → isReport i = false →
      x.proceed (w.nodeName x.host) i = some r → x.writes i = false →
      Steps w (.rotate id i) (w.setRotation id r.1)
  | handle {id name e x} : w.rotations.get id = some x → w.handlings id name = none →
      x.sent name (w.localIp e) = true → Steps w (.handle id name e)
        (w.setHandling id name ⟨e, id, name, x.newToken, .updating, SelfPc.starts⟩)
  | handledWrites {id name i y z} : w.handlings id name = some y → named i = true →
      y.proceed (w.nodeName y.host) i = some z → y.pc.writes i = true →
      Steps w (.handled id name i)
        ((w.upsert CLUSTER_TOKEN y.newToken (w.localIp y.host)).setHandling id name z)
  | handled {id name i y z} : w.handlings id name = some y → named i = true →
      y.proceed (w.nodeName y.host) i = some z → y.pc.writes i = false →
      Steps w (.handled id name i) (w.setHandling id name z)
  | replies {id name y x error r} : w.handlings id name = some y → w.rotations.get id = some x →
      y.pc = .ended error →
      x.proceed (w.nodeName x.host) (.answers name (.report y.captured error)) = some r →
      Steps w (.replies id name) (w.setRotation id r.1)
  | migrateStarts {id d toNode force} : w.migrations.get id = none →
      Steps w (.migrateStarts id d toNode force)
        (w.setMigration id (startedMigration d toNode force))
  | migrate {id i slot pc} : w.migrations.get id = some slot → answers w id slot i = true →
      slot.job.proceed (w.localIp slot.daemon) w.files slot.thread.pc i = some pc →
      Steps w (.migrate id i)
        ((w.setMigration id { slot with thread := ⟨pc, 0⟩ }).sent id (sends slot i))
  | migrateAttempt {id a slot s t} : w.migrations.get id = some slot →
      MigrateJob.client.attempt 0 w.base.etcd slot.thread a = some (s, t) →
      Steps w (.migrateAttempt id a) (w.setMigration id { slot with thread := t })
  | synced {id e call} : w.syncs id = some call → call.applied = false →
      Steps w (.synced id e)
        ((w.upsert PULSAR_HOST call.host call.ip).setSync id { call with applied := true })

theorem steps_of_step {w v : World} {act : Act} (h : step w act = some v) : Steps w act v := by
  cases act with
  | cluster a =>
      simp only [step] at h
      split_ifs at h with hbelongs
      obtain ⟨b, hb, rfl⟩ := Option.map_eq_some_iff.mp h
      exact .cluster hbelongs (Cluster.steps_of_step hb)
  | recreate d token =>
      cases h
      exact .recreate
  | rotateStarts id d peers params =>
      simp only [step] at h
      split_ifs at h with hfree
      obtain ⟨r, hr, rfl⟩ := Option.map_eq_some_iff.mp h
      exact .rotateStarts hfree hr
  | rotate id i =>
      simp only [step, Option.bind_eq_bind, Option.bind_eq_some_iff] at h
      obtain ⟨x, hx, h⟩ := h
      split_ifs at h with hreport hwrites
      · obtain ⟨r, hr, h⟩ := Option.bind_eq_some_iff.mp h
        cases h
        exact .rotateWrites hx hr hwrites
      · obtain ⟨r, hr, h⟩ := Option.bind_eq_some_iff.mp h
        cases h
        exact .rotate hx (by simpa using hreport) hr (by simpa using hwrites)
  | handle id name e =>
      simp only [step, Option.bind_eq_bind, Option.bind_eq_some_iff] at h
      obtain ⟨x, hx, h⟩ := h
      split_ifs at h with hnew
      cases h
      exact .handle hx hnew.1 hnew.2.1
  | handled id name i =>
      simp only [step, Option.bind_eq_bind, Option.bind_eq_some_iff] at h
      obtain ⟨y, hy, h⟩ := h
      split_ifs at h with hnamed hwrites
      · obtain ⟨z, hz, h⟩ := Option.bind_eq_some_iff.mp h
        cases h
        exact .handledWrites hy hnamed hz hwrites
      · obtain ⟨z, hz, h⟩ := Option.bind_eq_some_iff.mp h
        cases h
        exact .handled hy hnamed hz (by simpa using hwrites)
  | replies id name =>
      simp only [step, Option.bind_eq_bind, Option.bind_eq_some_iff] at h
      obtain ⟨y, hy, x, hx, h⟩ := h
      split at h
      · next error hpc =>
          obtain ⟨r, hr, rfl⟩ := Option.map_eq_some_iff.mp h
          exact .replies hy hx hpc hr
      · cases h
  | migrateStarts id d toNode force =>
      simp only [step] at h
      split_ifs at h with hfree
      cases h
      exact .migrateStarts hfree
  | migrate id i =>
      simp only [step, Option.bind_eq_bind, Option.bind_eq_some_iff] at h
      obtain ⟨slot, hslot, h⟩ := h
      split_ifs at h with hanswers
      obtain ⟨pc, hpc, h⟩ := Option.bind_eq_some_iff.mp h
      cases h
      exact .migrate hslot hanswers hpc
  | migrateAttempt id a =>
      simp only [step, Option.bind_eq_bind, Option.bind_eq_some_iff] at h
      obtain ⟨slot, hslot, r, hr, h⟩ := h
      cases h
      exact .migrateAttempt hslot hr
  | synced id e =>
      simp only [step, Option.bind_eq_bind, Option.bind_eq_some_iff] at h
      obtain ⟨call, hcall, slot, -, h⟩ := h
      split_ifs at h with hfree
      cases h
      exact .synced hcall hfree.1

end MilvusOnprem.ConcurrentJobs
