import MilvusOnprem.MigratePulsar

/-!
# The migrate-pulsar job step by step

`run_migrate_pulsar` as a program with a point for every place where it waits:
for the look at its own flag and file, for the read of the topology, for the
answers to the preflight, for the answer of one peer after the other, for the
answers to the verification. A request that is sent is handled by its peer on its
own, possibly after the job has given up on it.
-/
namespace MilvusOnprem.MigrateSteps

open PythonText EtcdClient MilvusOnprem.Topology OrderedPeers EnvFile MigratePulsar TokenRotation GuardedRuns
open TopologyWatcher hiding World Act step start Steps steps_of_step applyAll

inductive MigratePc where
  | looking
  | reading
  | locating (peers : Mirror)
  | probing (peers : Mirror) (targetIp old : String) (oldIp : Option String)
  | applying (queue watched : List (String × String))
  | syncing (p : String × String) (queue watched : List (String × String))
  | done
  | raised (e : Exc)
deriving DecidableEq

/-- The parameters of a job. -/
structure MigrateJob where
  toNode : String
  forceWhenOldHostDead : Bool
deriving DecidableEq, Repr

/-- A request of `sync-pulsar-host` that its peer has not handled: the job it is
of, the ip of the peer, the new host. -/
structure SyncRequest where
  job : ℕ
  ip : String
  host : String
deriving DecidableEq, Repr

namespace MigrateJob

/-- `params.get("to_node")` must be set. -/
def start (toNode : Option String) (force : Bool) : Except Exc MigrateJob :=
  match toNode with
  | some name =>
      if name = "" then .error (.valueError "migrate-pulsar requires a 'to_node' param")
      else .ok ⟨name, force⟩
  | none => .error (.valueError "migrate-pulsar requires a 'to_node' param")

def request : MigratePc → Option Request
  | .reading => some (.getPrefix TOPOLOGY_PREFIX)
  | _ => none

/-- The continuation of the read. -/
def answered : MigratePc → Except Exc Reply → MigratePc
  | .reading, .ok (.entries kvs) => .locating (authoritativePeers kvs)
  | _, .error e => .raised e
  | pc, _ => pc

def client : Client MigratePc := ⟨request, answered⟩

/-- The job as a whole run on this snapshot. -/
def migration (j : MigrateJob) (localIp : String) (isLeader : Bool) (peers : Mirror) : Migration :=
  ⟨localIp, isLeader, peers, some j.toNode, j.forceWhenOldHostDead⟩

/-- The checks of the own file and flag. -/
def looked (isLeader : Bool) (own : Lines) : MigratePc :=
  if RemoveNode.isPulsarDeploy (some (fileText own)) = false then .raised Migration.notPulsar
  else if isLeader = false then
    .raised (.permissionError "migrate-pulsar must run on the leader (HTTP layer should redirect)")
  else .reading

/-- The target and the host of the own file. -/
def located (j : MigrateJob) (own : Lines) (peers : Mirror) : MigratePc :=
  match peers.get j.toNode with
  | none => .raised (Migration.notInTopology j.toNode (peers.entries.map Prod.fst))
  | some info =>
      match ipOrEmpty (some info) with
      | .error e => .raised e
      | .ok none => .raised (.valueError ("topology entry for " ++ j.toNode ++ " has no ip"))
      | .ok (some targetIp) =>
          let old := readValue PULSAR_HOST "node-1" own
          if old = j.toNode then .done
          else
            match ipOrEmpty (peers.get old) with
            | .error e => .raised e
            | .ok oldIp => .probing peers targetIp old oldIp

/-- The preflight, and the order of the apply. -/
def probed (j : MigrateJob) (net : Network) (peers : Mirror) (targetIp old : String)
    (oldIp : Option String) : MigratePc :=
  match withIps peers.entries with
  | .error e => .raised e
  | .ok ips =>
      if ¬ (j.forceWhenOldHostDead ∧ Migration.unreachableNames net ips = [old]) ∧
          preflight net ips ≠ [] then
        .raised (Migration.unreachablePeers (preflight net ips))
      else
        let skip := (j.migration "" true peers).skipsOldHost net old ips
        let sorted := ips.insertionSort fun a b =>
          Joining.keyLe (Joining.nodeSortKey a.1) (Joining.nodeSortKey b.1) = true
        .applying (Migration.sequenced j.toNode targetIp old oldIp skip sorted)
          (ips.filter fun p => !(skip && p.1 = old))

/-- What a job meets outside etcd: its look at the flag, the places where it goes
on by itself, the preflight, the answer to a request, the verification. -/
inductive Input where
  | look (isLeader : Bool)
  | locate
  | probe (net : Network)
  | send
  | answer (err : Option String)
  | verify (net : Network)

/-- A step of a job on its own, with the files of the peers as they are. -/
def proceed (j : MigrateJob) (localIp : String) (files : Files) : MigratePc → Input → Option MigratePc
  | .looking, .look isLeader => some (looked isLeader (files localIp))
  | .locating peers, .locate => some (j.located (files localIp) peers)
  | .probing peers targetIp old oldIp, .probe net => some (j.probed net peers targetIp old oldIp)
  | .applying (p :: queue) watched, .send => some (.syncing p queue watched)
  | .syncing p _ _, .answer (some err) => some (.raised (syncFailed p.1 p.2 err))
  | .syncing _ queue watched, .answer none => some (.applying queue watched)
  | .applying [] watched, .verify net =>
      let mismatches := verify net files j.toNode watched
      some (if mismatches ≠ [] then .raised (Migration.mismatched j.toNode mismatches) else .done)
  | _, _ => none

end MigrateJob

/-- A job that has not ended. -/
def MigratePc.running : MigratePc → Bool
  | .done | .raised _ => false
  | _ => true

/-! ## A job by itself -/

namespace MigrateJob

/-- The steps of one job and its requests while nobody else writes. -/
inductive SoloAct where
  | input (i : Input)
  | read (kvs : List (String × String))
  | handled

def solo (j : MigrateJob) (localIp : String) (s : Files × MigratePc) :
    SoloAct → Option (Files × MigratePc)
  | .input i => (j.proceed localIp s.1 s.2 i).map fun pc => (s.1, pc)
  | .read kvs => (request s.2).map fun _ => (s.1, answered s.2 (.ok (.entries kvs)))
  | .handled =>
      match s.2 with
      | .syncing p _ _ =>
          some (Function.update s.1 p.2 (upsertKv PULSAR_HOST j.toNode (s.1 p.2)), s.2)
      | _ => none

variable {j : MigrateJob} {localIp : String} {files : Files} {pc qc : MigratePc}

theorem solo_input {i : Input} (h : j.proceed localIp files pc i = some qc) :
    Reaches (j.solo localIp) (files, pc) (files, qc) :=
  .head (a := .input i) (by simp only [solo, h, Option.map_some]) (.refl _ _)

/-- Where an ended job stands. -/
def ended : Except Exc Unit → MigratePc
  | .ok () => .done
  | .error e => .raised e

/-- The point after the answer of a peer. -/
def afterSync (p : String × String) (queue watched : List (String × String)) :
    Except String Unit → MigratePc
  | .ok () => .applying queue watched
  | .error err => .raised (syncFailed p.1 p.2 err)

/-- One request does to the file and the job what the whole run says. -/
theorem solo_sync (p : String × String) (queue watched : List (String × String)) (r : Rpc) :
    Reaches (j.solo localIp) (files, .applying (p :: queue) watched)
      (Function.update files p.2 (rpcSyncPulsarHost j.toNode (files p.2) r).1,
        afterSync p queue watched (rpcSyncPulsarHost j.toNode (files p.2) r).2) := by
  have hsend : Reaches (j.solo localIp) (files, .applying (p :: queue) watched)
      (files, .syncing p queue watched) := solo_input (i := .send) rfl
  have hanswer : ∀ (files : Files) (res : Except String Unit), Reaches (j.solo localIp)
      (files, .syncing p queue watched) (files, afterSync p queue watched res) := by
    intro files res
    cases res with
    | error err => exact solo_input (i := .answer (some err)) rfl
    | ok u => exact solo_input (i := .answer none) rfl
  have hunwritten : ∀ res, Reaches (j.solo localIp) (files, .applying (p :: queue) watched)
      (Function.update files p.2 (files p.2), afterSync p queue watched res) := by
    intro res
    rw [Function.update_eq_self]
    exact hsend.trans (hanswer files res)
  have hwritten : ∀ res, Reaches (j.solo localIp) (files, .applying (p :: queue) watched)
      (Function.update files p.2 (upsertKv PULSAR_HOST j.toNode (files p.2)),
        afterSync p queue watched res) := fun res =>
    hsend.trans (.head (a := .handled) rfl (hanswer _ res))
  cases r with
  | dropped err => exact hunwritten (.error err)
  | lost run err =>
      cases run with
      | unwritten _ => exact hunwritten (.error err)
      | written _ => exact hwritten (.error err)
      | works => exact hwritten (.error err)
  | answered run =>
      cases run with
      | unwritten err => exact hunwritten (.error err)
      | written err => exact hwritten (.error err)
      | works => exact hwritten (.ok ())

/-- The requests one after the other are the apply loop of the whole run. -/
theorem solo_apply (sync : String × String → Rpc) (queue watched : List (String × String))
    (files : Files) : Reaches (j.solo localIp) (files, .applying queue watched)
      ((applyAll j.toNode sync queue files).1, match (applyAll j.toNode sync queue files).2 with
        | .ok () => .applying [] watched
        | .error e => .raised e) := by
  induction queue generalizing files with
  | nil => exact .refl _ _
  | cons p rest ih =>
      have hsync := @solo_sync j localIp files p rest watched (sync p)
      cases hres : (rpcSyncPulsarHost j.toNode (files p.2) (sync p)).2 with
      | error err =>
          rw [hres] at hsync
          simpa only [applyAll, hres, afterSync] using hsync
      | ok u =>
          rw [hres] at hsync
          simpa only [applyAll, hres] using hsync.trans (ih _)

/-- From the apply on. -/
theorem solo_applying (m : Mirror) (isLeader : Bool) (targetIp old : String) (oldIp : Option String)
    (net : Network) (ips : List (String × String)) (skip : Bool)
    (hskip : (j.migration localIp isLeader m).skipsOldHost net old ips = skip) :
    Reaches (j.solo localIp) (files, .applying (Migration.sequenced j.toNode targetIp old oldIp skip
        (ips.insertionSort fun a b =>
          Joining.keyLe (Joining.nodeSortKey a.1) (Joining.nodeSortKey b.1) = true))
        (ips.filter fun p => !(skip && p.1 = old)))
      (((j.migration localIp isLeader m).migrate net j.toNode targetIp old oldIp ips files).1,
        ended ((j.migration localIp isLeader m).migrate net j.toNode targetIp old oldIp ips files).2) := by
  unfold Migration.migrate
  rw [hskip]
  dsimp only
  generalize Migration.sequenced j.toNode targetIp old oldIp skip _ = queue
  generalize ips.filter (fun p => !(skip && decide (p.1 = old))) = watched
  have happly := @solo_apply j localIp net.sync queue watched files
  rcases hres : applyAll j.toNode net.sync queue files with ⟨files', e | u⟩
  · rw [hres] at happly
    exact happly
  · rw [hres] at happly
    have hverify := happly.trans (solo_input (i := .verify net) rfl)
    dsimp only at hverify ⊢
    split_ifs at hverify ⊢
    · exact hverify
    · exact hverify

/-- From the preflight on. -/
theorem solo_probing (m : Mirror) (isLeader : Bool) (targetIp old : String) (oldIp : Option String)
    (net : Network) : Reaches (j.solo localIp) (files, .probing m targetIp old oldIp)
      (((j.migration localIp isLeader m).preflighted net j.toNode targetIp old oldIp files).1,
        ended ((j.migration localIp isLeader m).preflighted net j.toNode targetIp old oldIp files).2) := by
  have hprobe : Reaches (j.solo localIp) (files, .probing m targetIp old oldIp)
      (files, j.probed net m targetIp old oldIp) := solo_input (i := .probe net) rfl
  unfold probed at hprobe
  unfold Migration.preflighted
  rw [show (j.migration localIp isLeader m).peers = m from rfl]
  cases hips : withIps m.entries with
  | error e =>
      rw [hips] at hprobe
      exact hprobe
  | ok ips =>
      rw [hips] at hprobe
      dsimp only at hprobe
      by_cases hreach : ¬ (j.forceWhenOldHostDead ∧ Migration.unreachableNames net ips = [old]) ∧
          preflight net ips ≠ []
      · rw [if_pos hreach] at hprobe
        dsimp only
        rw [if_pos (by exact hreach)]
        exact hprobe
      · rw [if_neg hreach] at hprobe
        dsimp only
        rw [if_neg (by exact hreach)]
        exact hprobe.trans (solo_applying m isLeader targetIp old oldIp net ips _ rfl)

/-- A job that nobody disturbs does what the whole run does. -/
theorem solo_run (hto : j.toNode ≠ "") (isLeader : Bool) (kvs : List (String × String))
    (net : Network) : Reaches (j.solo localIp) (files, .looking)
      (((j.migration localIp isLeader (authoritativePeers kvs)).run net files).1,
        ended ((j.migration localIp isLeader (authoritativePeers kvs)).run net files).2) := by
  have hlook : Reaches (j.solo localIp) (files, .looking) (files, looked isLeader (files localIp)) :=
    solo_input (i := .look isLeader) rfl
  have hrun : (j.migration localIp isLeader (authoritativePeers kvs)).run net files =
      (j.migration localIp isLeader (authoritativePeers kvs)).targeted net j.toNode files := by
    simp only [Migration.run, migration, if_neg hto]
  rw [hrun, Migration.targeted]
  unfold looked at hlook
  by_cases hdeploy : RemoveNode.isPulsarDeploy (some (fileText (files localIp))) = false
  · rw [if_pos hdeploy] at hlook
    rw [if_pos (by exact hdeploy)]
    exact hlook
  by_cases hleader : isLeader = false
  · rw [if_neg hdeploy, if_pos hleader] at hlook
    rw [if_neg (by exact hdeploy), if_pos (by exact hleader)]
    exact hlook
  rw [if_neg hdeploy, if_neg hleader] at hlook
  rw [if_neg (by exact hdeploy), if_neg (by exact hleader)]
  have hlocate : Reaches (j.solo localIp) (files, .looking)
      (files, j.located (files localIp) (authoritativePeers kvs)) :=
    hlook.trans (.head (a := .read kvs) rfl (solo_input (i := .locate) rfl))
  unfold located at hlocate
  rw [show (j.migration localIp isLeader (authoritativePeers kvs)).peers = authoritativePeers kvs
    from rfl]
  cases hinfo : (authoritativePeers kvs).get j.toNode with
  | none =>
      rw [hinfo] at hlocate
      exact hlocate
  | some info =>
      rw [hinfo] at hlocate
      dsimp only at hlocate ⊢
      cases htarget : ipOrEmpty (some info) with
      | error e =>
          rw [htarget] at hlocate
          exact hlocate
      | ok target =>
          rw [htarget] at hlocate
          cases target with
          | none => exact hlocate
          | some targetIp =>
              dsimp only at hlocate ⊢
              unfold Migration.located
              by_cases hcurrent : readValue PULSAR_HOST "node-1" (files localIp) = j.toNode
              · rw [if_pos hcurrent] at hlocate
                rw [if_pos (by exact hcurrent)]
                exact hlocate
              · rw [if_neg hcurrent] at hlocate
                rw [if_neg (by exact hcurrent)]
                rw [show (j.migration localIp isLeader (authoritativePeers kvs)).peers =
                  authoritativePeers kvs from rfl,
                  show (j.migration localIp isLeader (authoritativePeers kvs)).currentHost files =
                  readValue PULSAR_HOST "node-1" (files localIp) from rfl]
                cases hold : ipOrEmpty ((authoritativePeers kvs).get
                    (readValue PULSAR_HOST "node-1" (files localIp))) with
                | error e =>
                    rw [hold] at hlocate
                    exact hlocate
                | ok oldIp =>
                    rw [hold] at hlocate
                    exact hlocate.trans (solo_probing _ isLeader _ _ _ net)

end MigrateJob

end MilvusOnprem.MigrateSteps
