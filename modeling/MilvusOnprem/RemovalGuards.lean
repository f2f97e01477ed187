import MilvusOnprem.Cluster
import MilvusOnprem.MigrateSteps

/-!
# The guards of a removal at the moment of its delete

Removals, migrations of Pulsar, joins and leader changes over one etcd, with the
`cluster.env` of every peer. A job looks at the topology, at its own file and at
the leader key once, drains for up to half an hour, and then deletes. Jobs of
both kinds run beside each other, and go on when their daemon has lost the flag.

A file without lines is no file. Whether the cluster is a Pulsar deploy is fixed.
-/
namespace MilvusOnprem.RemovalGuards

open PythonText EtcdClient MilvusOnprem.Topology Joining RemoveNode OrderedPeers EnvFile MigratePulsar
  MigrateSteps GuardedRuns ClusterEnv

def LEADER_KEY : String := "/cluster/leader"

structure MigrationSlot where
  daemon : ℕ
  job : MigrateJob
  thread : Thread MigratePc
deriving DecidableEq

/-- The cluster, the files of the peers by ip, the migrations, and the requests of
`sync-pulsar-host` that are not handled. -/
structure World where
  base : Cluster.World
  files : Files
  migrations : OrderedMap ℕ MigrationSlot
  requests : List SyncRequest

/-- What the daemons and the deploy are: the ip of a daemon, and whether Pulsar is
the message queue. -/
structure Deploy where
  localIp : ℕ → String
  pulsar : Bool

inductive Act where
  | cluster (a : Cluster.Act)
  | leaderKey (value : Option String)
  | install (id : ℕ)
  | startMigration (id d : ℕ) (job : MigrateJob)
  | migrationInput (id : ℕ) (i : MigrateJob.Input)
  | migrationAttempt (id : ℕ) (a : Attempt)
  | handled (r : SyncRequest)
  | dropped (r : SyncRequest)

/-- The text a daemon reads. -/
def World.text (w : World) (ip : String) : Option String :=
  if w.files ip = [] then none else some (fileText (w.files ip))

/-- A job is created on the leader, and what it reads outside etcd is its daemon's
flag and file. -/
def reads (e : Deploy) (w : World) : Cluster.Act → Bool
  | .startRemoval _ d _ => w.base.isLeader d
  | .removalInput id (.look isLeader file) =>
      match w.base.removals.get id with
      | some slot => isLeader = w.base.isLeader slot.daemon && file = w.text (e.localIp slot.daemon)
      | none => false
  | .joinInput id (.clusterEnv file _) =>
      match w.base.joins.get id with
      | some slot => file = w.text (e.localIp slot.daemon)
      | none => false
  | _ => true

def survivingMigrations (a : Cluster.Act) (ms : OrderedMap ℕ MigrationSlot) :
    OrderedMap ℕ MigrationSlot :=
  match a with
  | .crash d => ms.filterValues fun slot => slot.daemon ≠ d
  | _ => ms

/-- The input of a migration is its daemon's flag, and an answer that the change is
applied comes after the change. -/
def answers (w : World) (id : ℕ) (slot : MigrationSlot) : MigrateJob.Input → Bool
  | .look isLeader => isLeader = w.base.isLeader slot.daemon
  | .answer none => w.requests.all fun r => r.job ≠ id
  | _ => true

/-- The request that a step of a migration sends. -/
def sends (id : ℕ) (slot : MigrationSlot) (i : MigrateJob.Input) : List SyncRequest :=
  match slot.thread.pc, i with
  | .applying (p :: _) _, .send => [⟨id, p.2, slot.job.toNode⟩]
  | _, _ => []

def World.setKv (w : World) (kv : OrderedMap String String) : World :=
  { w with base := { w.base with etcd := ⟨kv, w.base.etcd.members⟩ } }

def step (e : Deploy) (w : World) : Act → Option World
  | .cluster a =>
      if reads e w a then
        (Cluster.step w.base a).map fun b =>
          { w with base := b, migrations := survivingMigrations a w.migrations }
      else none
  | .leaderKey (some value) => some (w.setKv (w.base.etcd.kv.put LEADER_KEY value))
  | .leaderKey none => some (w.setKv (w.base.etcd.kv.erase LEADER_KEY))
  -- the joiner writes the file it was issued
  | .install id =>
      match w.base.joins.get id with
      | some slot =>
          match slot.thread.pc with
          | .returned r =>
              some { w with
                files := Function.update w.files r.localIp (split '\n' r.clusterEnv) }
          | _ => none
      | none => none
  | .startMigration id d job =>
      if w.base.isLeader d = true ∧ w.migrations.get id = none then
        some { w with migrations := w.migrations.put id ⟨d, job, ⟨.looking, 0⟩⟩ }
      else none
  | .migrationInput id i =>
      match w.migrations.get id with
      | some slot =>
          if answers w id slot i then
            (slot.job.proceed (e.localIp slot.daemon) w.files slot.thread.pc i).map fun pc =>
              { w with
                migrations := w.migrations.put id { slot with thread := ⟨pc, 0⟩ }
                requests := sends id slot i ++ w.requests }
          else none
      | none => none
  | .migrationAttempt id a =>
      match w.migrations.get id with
      | some slot =>
          (MigrateJob.client.attempt 0 w.base.etcd slot.thread a).map fun r =>
            { w with migrations := w.migrations.put id { slot with thread := r.2 } }
      | none => none
  -- `apply_pulsar_host_change` on the peer
  | .handled r =>
      if r ∈ w.requests ∧ w.files r.ip ≠ [] then
        some { w with
          files := Function.update w.files r.ip (upsertKv PULSAR_HOST r.host (w.files r.ip))
          requests := w.requests.erase r }
      else none
  | .dropped r =>
      if r ∈ w.requests then some { w with requests := w.requests.erase r } else none

/-- A cluster before any job. -/
def start (base : Cluster.World) (files : Files) : World :=
  ⟨{ base with removals := .empty }, files, .empty, []⟩

/-! ## What the guards are for -/

/-- Another peer has an entry. -/
def Another (kv : OrderedMap String String) (name : String) : Prop :=
  ∃ m, m ≠ name ∧ (entryOf kv m).isSome = true

/-- The leader key records the peer. -/
def recorded (raw : Option String) (ip name : String) : Bool :=
  match raw.bind JsonText.loads with
  | some (.obj li) =>
      Json.field "ip" li = some (.str ip) || Json.field "node_name" li = some (.str name)
  | _ => false

def hostOf (lines : Lines) : String := (valueOf PULSAR_HOST lines).getD "node-1"

/-- The file of the peer at an ip names the host. -/
def namesHost (files : Files) (ip host : String) : Bool :=
  files ip ≠ [] && hostOf (files ip) = host

/-- The nodes that running migrations are moving Pulsar to. -/
def World.movingTo (w : World) : List String :=
  w.migrations.entries.filterMap fun m =>
    if m.2.thread.pc.running then some m.2.job.toNode else none

/-- No other peer's file names the node as the Pulsar host, and no running
migration is moving Pulsar to it. -/
def NoBroker (w : World) (name : String) : Prop :=
  (∀ m info ip, m ≠ name → entryOf w.base.etcd.kv m = some info → usedIp info = some ip →
    namesHost w.files ip name = false) ∧ name ∉ w.movingTo

/-- What has to hold when a removal deletes its target. -/
structure Safe (e : Deploy) (w : World) (ip name : String) : Prop where
  another : Another w.base.etcd.kv name
  notLeader : recorded (w.base.etcd.kv.get LEADER_KEY) ip name = false
  noBroker : e.pulsar = true → NoBroker w name

/-! ## Steps that leave the guards alone -/

/-- The target of a job that still has to delete, with the number of guards it has
passed: the topology, the own daemon, the leader key. -/
def passed : RemovePc → Option (String × ℕ)
  | .guarding name => some (name, 1)
  | .leaderRead name => some (name, 2)
  | .preparing name => some (name, 3)
  | .aliasing t | .prechecking t | .canceling t | .starting t | .polling t _ | .deleting t =>
      some (t.name, 3)
  | _ => none

/-- The targets, with their ips, of the jobs that have passed so many guards. -/
def World.targets (w : World) (k : ℕ) : List (String × String) :=
  w.base.removals.entries.filterMap fun m =>
    match passed m.2.thread.pc with
    | some (name, l) => if k ≤ l then some (m.2.job.ip, name) else none
    | none => none

def joinPc (b : Cluster.World) (id : ℕ) : Option JoinPc :=
  (b.joins.get id).map fun slot => slot.thread.pc

def removalPc (b : Cluster.World) (id : ℕ) : Option RemovePc :=
  (b.removals.get id).map fun slot => slot.thread.pc

/-- The topology entry an act asks etcd to create. -/
def created (b : Cluster.World) : Cluster.Act → Option (String × String)
  | .joinAttempt id _ a =>
      match joinPc b id with
      | some (.creating name _ value) => if a.reaches then some (name, value) else none
      | _ => none
  | .registerAttempt a =>
      match b.registration.pc with
      | .writing info => if a.reaches then some (b.bootstrap.nodeName, info) else none
      | _ => none
  | _ => none

/-- The topology entry an act asks etcd to delete. -/
def deleted (b : Cluster.World) : Cluster.Act → Option String
  | .joinAttempt id _ a =>
      match joinPc b id with
      | some (.rollingBack name _) => if a.reaches then some name else none
      | _ => none
  | .removalAttempt id a =>
      match removalPc b id with
      | some (.deleting t) => if a.reaches then some t.name else none
      | _ => none
  | _ => none

/-- The job and the target of a look at the own daemon. -/
def looksAt (b : Cluster.World) : Cluster.Act → Option (Cluster.RemovalSlot × String)
  | .removalInput id _ =>
      match b.removals.get id with
      | some slot =>
          match slot.thread.pc with
          | .guarding name => some (slot, name)
          | _ => none
      | none => none
  | _ => none

def topology (w : World) : List (String × Json) :=
  parseTopology (withPrefix TOPOLOGY_PREFIX w.base.etcd.kv)

/-- Every other target keeps an entry beside itself and the deleted one. -/
def leavesAnother (w : World) (name : String) : Bool :=
  (w.targets 1).all fun t =>
    t.2 = name || (topology w).any fun p => p.1 ≠ t.2 && p.1 ≠ name

/-- The file of the new peer names no other target. -/
def bringsNoHost (w : World) (name value : String) : Bool :=
  (w.targets 2).all fun t =>
    t.2 = name || match (JsonText.loads value).bind usedIp with
      | some ip => !namesHost w.files ip t.2
      | none => true

/-- The own file is that of a Pulsar deploy, the other peers' files name the host
that it names, and no migration to the target is under way. -/
def agrees (e : Deploy) (w : World) (slot : Cluster.RemovalSlot) (name : String) : Bool :=
  let own := w.text (e.localIp slot.daemon)
  isPulsarDeploy own &&
    ((topology w).all fun p => p.1 = name || match usedIp p.2 with
      | some ip => w.files ip = [] || hostOf (w.files ip) = readClusterEnvValue own "PULSAR_HOST" "node-1"
      | none => true) &&
    name ∉ w.movingTo && w.requests.all fun r => r.host ≠ name

/-- The steps that leave alone what a job has already looked at. -/
def leavesGuards (e : Deploy) (w : World) : Act → Bool
  | .cluster a =>
      (deleted w.base a).all (leavesAnother w) &&
        (!e.pulsar || (created w.base a).all (fun c => bringsNoHost w c.1 c.2) &&
          (looksAt w.base a).all fun l => agrees e w l.1 l.2)
  | .leaderKey value => (w.targets 3).all fun t => !recorded value t.1 t.2
  | .startMigration _ _ job => !e.pulsar || (w.targets 2).all fun t => t.2 ≠ job.toNode
  | .install id =>
      !e.pulsar || match joinPc w.base id with
        | some (.returned r) => (w.targets 2).all fun t => t.2 ≠ hostOf (split '\n' r.clusterEnv)
        | _ => true
  | .migrationInput _ _ | .migrationAttempt _ _ | .handled _ | .dropped _ => true

/-! ## What a cluster step does to the topology -/

/-- The store after an act of the cluster. -/
def kvAfter (b : Cluster.World) (a : Cluster.Act) : OrderedMap String String :=
  match created b a with
  | some (name, value) =>
      if b.etcd.kv.get (TOPOLOGY_PREFIX ++ name) = none then
        b.etcd.kv.put (TOPOLOGY_PREFIX ++ name) value
      else b.etcd.kv
  | none =>
      match deleted b a with
      | some name => b.etcd.kv.erase (TOPOLOGY_PREFIX ++ name)
      | none => b.etcd.kv

theorem kv_putIfAbsent (newId : ℕ) (s : Etcd) (key value : String) :
    (serve newId s (.putIfAbsent key value)).1.kv =
      if s.kv.get key = none then s.kv.put key value else s.kv := by
  rw [serve_putIfAbsent]
  split_ifs <;> rfl

theorem kv_join {b : Cluster.World} {id newId : ℕ} {a : Attempt} {slot : Cluster.JoinSlot} {r : Request}
    (hslot : b.joins.get id = some slot) (hr : slot.call.request slot.thread.pc = some r) :
    (if a.reaches then (serve newId b.etcd r).1 else b.etcd).kv = kvAfter b (.joinAttempt id newId a) := by
  have hpc : joinPc b id = some slot.thread.pc := by rw [joinPc, hslot, Option.map_some]
  simp only [kvAfter, created, deleted, hpc]
  cases hthread : slot.thread.pc with
  | creating name parsed value =>
      rw [hthread] at hr
      cases hr
      by_cases ha : a.reaches = true
      · simp only [ha, if_true]
        exact kv_putIfAbsent newId b.etcd _ value
      · simp only [ha, if_false, Bool.false_eq_true]
  | rollingBack name cause =>
      rw [hthread] at hr
      cases hr
      by_cases ha : a.reaches = true
      · simp only [ha, if_true]
        rfl
      · simp only [ha, if_false, Bool.false_eq_true]
  | adding name env =>
      rw [hthread] at hr
      cases hr
      simp only [serve]
      split_ifs <;> rfl
  | polling deadline =>
      rw [hthread] at hr
      cases hr
      simp only [serve, ite_self]
  | reading =>
      rw [hthread] at hr
      cases hr
      simp only [serve, ite_self]
  | _ =>
      rw [hthread] at hr
      cases hr

theorem kv_removal {b : Cluster.World} {id : ℕ} {a : Attempt} {slot : Cluster.RemovalSlot}
    {r : Request} (hslot : b.removals.get id = some slot)
    (hr : RemoveJob.request slot.thread.pc = some r) :
    (if a.reaches then (serve 0 b.etcd r).1 else b.etcd).kv = kvAfter b (.removalAttempt id a) := by
  have hpc : removalPc b id = some slot.thread.pc := by rw [removalPc, hslot, Option.map_some]
  simp only [kvAfter, created, deleted, hpc]
  cases hthread : slot.thread.pc with
  | deleting t =>
      rw [hthread] at hr
      cases hr
      by_cases ha : a.reaches = true
      · simp only [ha, if_true]
        rfl
      · simp only [ha, if_false, Bool.false_eq_true]
  | removing t memberId =>
      rw [hthread] at hr
      cases hr
      simp only [serve]
      split_ifs <;> rfl
  | resolving | leaderRead name | settling t | surveying t | listing t needle =>
      rw [hthread] at hr
      cases hr
      simp only [serve, ite_self]
  | _ =>
      rw [hthread] at hr
      cases hr

/-- A step of the cluster creates or deletes at most one topology entry. -/
theorem kv_step {b c : Cluster.World} {a : Cluster.Act} (h : Cluster.step b a = some c) :
    c.etcd.kv = kvAfter b a := by
  cases a with
  | joinAttempt id newId a =>
      simp only [Cluster.step] at h
      split at h
      · cases h
      · next slot hslot =>
          split_ifs at h
          obtain ⟨x, hx, rfl⟩ := Option.map_eq_some_iff.mp h
          obtain ⟨r, hr, hstore, -⟩ := Client.attempt_cases _ hx
          change x.1.kv = _
          rw [hstore]
          exact kv_join hslot hr
  | removalAttempt id a =>
      cases Cluster.steps_of_step h with
      | removalAttempt hslot hattempt =>
          obtain ⟨r, hr, hstore, -⟩ := Client.attempt_cases _ hattempt
          dsimp only
          rw [hstore]
          exact kv_removal hslot hr
  | registerAttempt a =>
      cases Cluster.steps_of_step h with
      | registerAttempt hattempt =>
          obtain ⟨r, hr, hstore, -⟩ := Client.attempt_cases _ hattempt
          dsimp only
          rw [hstore]
          simp only [kvAfter, created, deleted]
          cases hpc : b.registration.pc with
          | writing info =>
              rw [hpc] at hr
              cases hr
              by_cases ha : a.reaches = true
              · simp only [ha, if_true]
                exact kv_putIfAbsent 0 b.etcd _ info
              · simp only [ha, if_false, Bool.false_eq_true]
          | looking =>
              rw [hpc] at hr
              cases hr
              simp only [serve, ite_self]
          | _ =>
              rw [hpc] at hr
              cases hr
  | joinInput id i =>
      cases Cluster.steps_of_step h
      rfl
  | _ =>
      cases Cluster.steps_of_step h
      rfl

/-! ## How a job passes its guards -/

/-- What a step of a job does with its target: it gives the target up, keeps it,
or passes one more guard, and then the store stays as it is. -/
inductive Advances (b : Cluster.World) (id : ℕ) (slot : Cluster.RemovalSlot) :
    Cluster.Act → RemovePc → Prop
  | gone {a pc} : passed pc = none → Advances b id slot a pc
  | same {a pc} : passed pc = passed slot.thread.pc → Advances b id slot a pc
  | resolved {a pc name} : passed pc = some (name, 1) → Another b.etcd.kv name →
      kvAfter b a = b.etcd.kv → Advances b id slot a pc
  | looked {pc name isLeader file} : slot.thread.pc = .guarding name → passed pc = some (name, 2) →
      ¬ (isPulsarDeploy file ∧ name = readClusterEnvValue file "PULSAR_HOST" "node-1") →
      Advances b id slot (.removalInput id (.look isLeader file)) pc
  | led {a pc name} : slot.thread.pc = .leaderRead name → passed pc = some (name, 3) →
      recorded (b.etcd.kv.get LEADER_KEY) slot.job.ip name = false →
      kvAfter b a = b.etcd.kv → Advances b id slot a pc

theorem recorded_of_checkLeader {ip name : String} {raw : Option String}
    (h : checkLeader ip name raw = .preparing name) : recorded raw ip name = false := by
  unfold checkLeader at h
  split at h
  · rfl
  · next text =>
      split_ifs at h with hempty
      · have hnone : JsonText.loads "" = none := by decide +kernel
        simp only [recorded, hempty, Option.bind_some, hnone]
      · split at h
        · next hnone => simp only [recorded, Option.bind_some, hnone]
        · next li hli =>
            split_ifs at h with hrecorded
            rw [not_or] at hrecorded
            simp only [recorded, Option.bind_some, hli, hrecorded.1, hrecorded.2, decide_false,
              Bool.or_false]
        · cases h

/-- A target that is resolved is not alone. -/
theorem another_of_resolve {kv : OrderedMap String String} {ip name : String}
    (h : resolve ip (parseTopology (withPrefix TOPOLOGY_PREFIX kv)) = .guarding name) :
    Another kv name := by
  unfold resolve at h
  split at h
  · cases h
  · split at h <;> cases h
  · split_ifs at h with hlen
    obtain rfl := RemovePc.guarding.inj h
    obtain ⟨p, hp, hne⟩ := exists_other_name (parseTopology_pairwise kv) (not_le.mp hlen) _
    refine ⟨p.1, hne, ?_⟩
    have hentry : entryOf kv p.1 = some p.2 := mem_parseTopology.mp hp
    rw [hentry, Option.isSome_some]

theorem advances_input {b : Cluster.World} {id : ℕ} {slot : Cluster.RemovalSlot}
    {i : RemoveJob.Input} {pc : RemovePc} (h : slot.job.proceed slot.thread.pc i = some pc) :
    Advances b id slot (.removalInput id i) pc := by
  unfold RemoveJob.proceed at h
  split at h
  · next name isLeader file hpc =>
      obtain rfl := Option.some.inj h
      unfold checkLocal
      split_ifs with hleader hpulsar
      · exact .gone rfl
      · exact .gone rfl
      · exact .looked hpc rfl hpulsar
  · next hpc =>
      obtain rfl := Option.some.inj h
      exact .same (by rw [hpc]; rfl)
  · next t r hpc =>
      obtain rfl := Option.some.inj h
      exact .same (by rw [hpc]; rfl)
  · next t r hpc =>
      obtain rfl := Option.some.inj h
      rcases prechecked_cases t (decommissionState t.fragment r) with ⟨e, he⟩ | he | he | he
      · exact .gone (by rw [he]; rfl)
      · exact .same (by rw [he, hpc]; rfl)
      · exact .same (by rw [he, hpc]; rfl)
      · exact .same (by rw [he, hpc]; rfl)
  · next t r hpc =>
      obtain rfl := Option.some.inj h
      exact .same (by rw [hpc]; rfl)
  · next t r hpc =>
      obtain rfl := Option.some.inj h
      rcases started_cases t r with ⟨e, he⟩ | he
      · exact .gone (by rw [he]; rfl)
      · exact .same (by rw [he, hpc]; rfl)
  · next t elapsed r hpc =>
      obtain rfl := Option.some.inj h
      rcases polled_cases t elapsed (decommissionState t.fragment r) with
        ⟨e, he⟩ | ⟨-, he⟩ | ⟨-, he⟩
      · exact .gone (by rw [he]; rfl)
      · exact .same (by rw [he, hpc]; rfl)
      · exact .same (by rw [he, hpc]; rfl)
  · obtain rfl := Option.some.inj h
    exact .gone rfl
  · obtain rfl := Option.some.inj h
    split <;> exact .gone rfl
  · obtain rfl := Option.some.inj h
    split <;> exact .gone rfl
  · cases h

theorem kvAfter_removal {b : Cluster.World} {id : ℕ} {a : Attempt} {slot : Cluster.RemovalSlot}
    (hslot : b.removals.get id = some slot) (hpc : ∀ t, slot.thread.pc ≠ .deleting t) :
    kvAfter b (.removalAttempt id a) = b.etcd.kv := by
  have hremoval : removalPc b id = some slot.thread.pc := by rw [removalPc, hslot, Option.map_some]
  simp only [kvAfter, created, deleted, hremoval]
  cases hthread : slot.thread.pc with
  | deleting t => exact absurd hthread (hpc t)
  | _ => rfl

theorem advances_attempt {b : Cluster.World} {id : ℕ} {slot : Cluster.RemovalSlot} {a : Attempt}
    {s : Etcd} {t : Thread RemovePc} (hslot : b.removals.get id = some slot)
    (h : slot.job.client.attempt 0 b.etcd slot.thread a = some (s, t)) :
    Advances b id slot (.removalAttempt id a) t.pc := by
  obtain ⟨r, hr, -, hnext⟩ := Client.attempt_cases _ h
  rcases hnext with hpc | ⟨e, hpc, -⟩ | ⟨y, -, hy, hpc⟩
  · exact .same (by rw [hpc])
  · -- every error ends the job
    refine .gone ?_
    rw [hpc]
    cases hthread : slot.thread.pc with
    | resolving | leaderRead name | deleting t | settling t | listing t needle | removing t memberId
    | surveying t => rfl
    | _ =>
        rw [hthread] at hr
        cases hr
  · cases hthread : slot.thread.pc with
    | resolving =>
        rw [hthread] at hr hpc
        cases hr
        cases hy
        change t.pc = resolve slot.job.ip _ at hpc
        rcases resolve_cases slot.job.ip (parseTopology (withPrefix TOPOLOGY_PREFIX b.etcd.kv)) with
          ⟨e, he⟩ | ⟨name, -, hname⟩
        · exact .gone (by rw [hpc, he]; rfl)
        · have hpassed : passed t.pc = some (name, 1) := by rw [hpc, hname]; rfl
          refine .resolved hpassed (another_of_resolve hname) ?_
          exact kvAfter_removal hslot fun t' ht' => by cases hthread.symm.trans ht'
    | leaderRead name =>
        rw [hthread] at hr hpc
        cases hr
        cases hy
        change t.pc = checkLeader slot.job.ip name (b.etcd.kv.get LEADER_KEY) at hpc
        rcases checkLeader_cases slot.job.ip name (b.etcd.kv.get LEADER_KEY) with ⟨e, he⟩ | he
        · exact .gone (by rw [hpc, he]; rfl)
        · refine .led hthread (by rw [hpc, he]; rfl) (recorded_of_checkLeader he) ?_
          exact kvAfter_removal hslot fun t' ht' => by cases hthread.symm.trans ht'
    | deleting t' =>
        rw [hthread] at hr hpc
        cases hr
        cases hy
        exact .gone (by rw [hpc]; rfl)
    | settling t' =>
        rw [hthread] at hr hpc
        cases hr
        cases hy
        refine .gone ?_
        rw [hpc]
        change passed (slot.job.answered (.settling t')
          (.ok (.entries (withPrefix TOPOLOGY_PREFIX b.etcd.kv)))) = none
        simp only [RemoveJob.answered]
        split <;> rfl
    | listing t' needle =>
        rw [hthread] at hr hpc
        cases hr
        cases hy
        refine .gone ?_
        rw [hpc]
        change passed (slot.job.answered (.listing t' needle) (.ok (.members b.etcd.members))) = none
        simp only [RemoveJob.answered]
        split <;> rfl
    | removing t' memberId =>
        rw [hthread] at hr hpc
        cases hr
        refine .gone ?_
        simp only [serve] at hy
        split_ifs at hy
        cases hy
        rw [hpc]
        rfl
    | surveying t' =>
        rw [hthread] at hr hpc
        cases hr
        cases hy
        refine .gone ?_
        rw [hpc]
        change passed (slot.job.answered (.surveying t')
          (.ok (.entries (withPrefix TOPOLOGY_PREFIX b.etcd.kv)))) = none
        simp only [RemoveJob.answered]
        split <;> rfl
    | _ =>
        rw [hthread] at hr
        cases hr

/-- A job after a step of the cluster has no target, or it is an earlier job that
has advanced. -/
theorem removal_step {b c : Cluster.World} {a : Cluster.Act} (h : Cluster.step b a = some c)
    {id : ℕ} {slot' : Cluster.RemovalSlot} (hget : c.removals.get id = some slot') :
    passed slot'.thread.pc = none ∨ ∃ slot, b.removals.get id = some slot ∧ slot'.job = slot.job ∧
      Advances b id slot a slot'.thread.pc := by
  cases Cluster.steps_of_step h with
  | @startRemoval id' d job hfree =>
      rw [OrderedMap.get_put] at hget
      split_ifs at hget with hid
      · obtain rfl := Option.some.inj hget
        exact .inl rfl
      · exact .inr ⟨slot', hget, rfl, .same rfl⟩
  | @removalInput id' i slot pc hslot hpc =>
      rw [OrderedMap.get_put] at hget
      split_ifs at hget with hid
      · obtain rfl := Option.some.inj hget
        subst hid
        exact .inr ⟨slot, hslot, rfl, advances_input hpc⟩
      · exact .inr ⟨slot', hget, rfl, .same rfl⟩
  | @removalAttempt id' a slot s t hslot hattempt =>
      rw [OrderedMap.get_put] at hget
      split_ifs at hget with hid
      · obtain rfl := Option.some.inj hget
        subst hid
        exact .inr ⟨slot, hslot, rfl, advances_attempt hslot hattempt⟩
      · exact .inr ⟨slot', hget, rfl, .same rfl⟩
  | crash => exact .inr ⟨slot', (OrderedMap.get_filterValues.mp hget).1, rfl, .same rfl⟩
  | _ => exact .inr ⟨slot', hget, rfl, .same rfl⟩

/-! ## The topology after a step of the cluster -/

theorem leaderKey_ne (name : String) : TOPOLOGY_PREFIX ++ name ≠ LEADER_KEY :=
  (TopologyWatcher.ne_entryKey (by decide) name).symm

theorem leaderKey_kvAfter (b : Cluster.World) (a : Cluster.Act) :
    (kvAfter b a).get LEADER_KEY = b.etcd.kv.get LEADER_KEY := by
  unfold kvAfter
  split
  · split_ifs
    · exact OrderedMap.get_put_of_ne _ _ (leaderKey_ne _)
    · rfl
  · split
    · exact OrderedMap.get_erase_of_ne _ (leaderKey_ne _)
    · rfl

theorem entryOf_put_leaderKey (kv : OrderedMap String String) (value m : String) :
    entryOf (kv.put LEADER_KEY value) m = entryOf kv m := by
  rw [entryOf, OrderedMap.get_put_of_ne _ _ (leaderKey_ne m).symm, entryOf]

theorem entryOf_erase_leaderKey (kv : OrderedMap String String) (m : String) :
    entryOf (kv.erase LEADER_KEY) m = entryOf kv m := by
  rw [entryOf, OrderedMap.get_erase_of_ne _ (leaderKey_ne m).symm, entryOf]

/-- An entry is an earlier one or the created one. -/
theorem entryOf_kvAfter {b : Cluster.World} {a : Cluster.Act} {m : String} {info : Json}
    (h : entryOf (kvAfter b a) m = some info) : entryOf b.etcd.kv m = some info ∨
      ∃ value, created b a = some (m, value) ∧ JsonText.loads value = some info := by
  unfold kvAfter at h
  split at h
  · next name value hcreated =>
      split_ifs at h with hfree
      · by_cases hm : name = m
        · subst hm
          rw [entryOf, OrderedMap.get_put_self] at h
          exact .inr ⟨value, hcreated, h⟩
        · left
          rwa [entryOf, OrderedMap.get_put_of_ne _ _ fun he => hm (append_left_injective he)] at h
      · exact .inl h
  · split at h
    · next name hdeleted =>
        left
        unfold entryOf at h ⊢
        rw [OrderedMap.get_erase] at h
        split_ifs at h
        · cases h
        · exact h
    · exact .inl h

/-- Only the deleted entry goes. -/
theorem isSome_kvAfter {b : Cluster.World} {a : Cluster.Act} {m : String}
    (h : (entryOf b.etcd.kv m).isSome = true) (hdeleted : deleted b a ≠ some m) :
    (entryOf (kvAfter b a) m).isSome = true := by
  unfold kvAfter
  split
  · next name value hcreated =>
      split_ifs with hfree
      · have hne : name ≠ m := by
          rintro rfl
          rw [entryOf, hfree] at h
          cases h
        rw [entryOf, OrderedMap.get_put_of_ne _ _ fun he => hne (append_left_injective he)]
        exact h
      · exact h
  · split
    · next name hname =>
        have hne : name ≠ m := fun he => hdeleted (he ▸ hname)
        rw [entryOf, OrderedMap.get_erase_of_ne _ fun he => hne (append_left_injective he)]
        exact h
    · exact h

/-! ## What a job has checked stays true -/

theorem mem_targets {w : World} {id : ℕ} {slot : Cluster.RemovalSlot} {name : String} {k l : ℕ}
    (hslot : w.base.removals.get id = some slot) (hpassed : passed slot.thread.pc = some (name, l))
    (hk : k ≤ l) : (slot.job.ip, name) ∈ w.targets k := by
  refine List.mem_filterMap.mpr ⟨(id, slot), OrderedMap.mem_entries.mpr hslot, ?_⟩
  simp only [hpassed, if_pos hk]

theorem mem_movingTo {w : World} {name : String} : name ∈ w.movingTo ↔
    ∃ id slot, w.migrations.get id = some slot ∧ slot.thread.pc.running = true ∧
      slot.job.toNode = name := by
  simp only [World.movingTo, List.mem_filterMap, Prod.exists, OrderedMap.mem_entries]
  constructor
  · rintro ⟨id, slot, hslot, hname⟩
    split_ifs at hname with hrunning
    exact ⟨id, slot, hslot, hrunning, Option.some.inj hname⟩
  · rintro ⟨id, slot, hslot, hrunning, rfl⟩
    exact ⟨id, slot, hslot, by rw [if_pos hrunning]⟩

theorem one_le_of_passed {pc : RemovePc} {name : String} {k : ℕ}
    (h : passed pc = some (name, k)) : 1 ≤ k := by
  unfold passed at h
  split at h <;> cases h <;> omega

/-- No file and no request names the node, and no migration is moving to it. -/
def Clear (w : World) (name : String) : Prop :=
  NoBroker w name ∧ ∀ r ∈ w.requests, r.host ≠ name

/-- What a job that has passed some guards has checked. -/
def Holds (e : Deploy) (w : World) (ip : String) : Option (String × ℕ) → Prop
  | none => True
  | some (name, k) =>
      Another w.base.etcd.kv name ∧ (2 ≤ k → e.pulsar = true → Clear w name) ∧
        (3 ≤ k → recorded (w.base.etcd.kv.get LEADER_KEY) ip name = false)

def Inv (e : Deploy) (w : World) : Prop :=
  ∀ id slot, w.base.removals.get id = some slot → Holds e w slot.job.ip (passed slot.thread.pc)

theorem Clear.mono {w v : World} {name : String} (h : Clear w name)
    (hentries : ∀ m info, m ≠ name → entryOf v.base.etcd.kv m = some info →
      entryOf w.base.etcd.kv m = some info)
    (hfiles : v.files = w.files) (hmoving : ∀ n ∈ v.movingTo, n ∈ w.movingTo)
    (hrequests : ∀ r ∈ v.requests, r.host ≠ name) : Clear v name := by
  obtain ⟨⟨hhosts, hmove⟩, -⟩ := h
  refine ⟨⟨fun m info ip hm hentry hip => ?_, fun hn => hmove (hmoving _ hn)⟩, hrequests⟩
  rw [hfiles]
  exact hhosts m info ip hm (hentries m info hm hentry) hip

/-- A step that leaves the topology and the leader key alone. -/
theorem Inv.files {e : Deploy} {w v : World} (h : Inv e w) (hbase : v.base = w.base)
    (hclear : e.pulsar = true → ∀ id slot name k, w.base.removals.get id = some slot →
      passed slot.thread.pc = some (name, k) → 2 ≤ k → Clear w name → Clear v name) : Inv e v := by
  intro id slot hslot
  rw [hbase] at hslot
  have hold := h id slot hslot
  cases hpassed : passed slot.thread.pc with
  | none => trivial
  | some t =>
      obtain ⟨name, k⟩ := t
      rw [hpassed] at hold
      obtain ⟨hanother, hbroker, hleader⟩ := hold
      refine ⟨by rw [hbase]; exact hanother, fun hk hpulsar => ?_, by rw [hbase]; exact hleader⟩
      exact hclear hpulsar id slot name k hslot hpassed hk (hbroker hk hpulsar)

theorem Inv.leaderKey {e : Deploy} {w : World} (h : Inv e w) {kv : OrderedMap String String}
    {value : Option String} (hentries : ∀ m, entryOf kv m = entryOf w.base.etcd.kv m)
    (hvalue : kv.get LEADER_KEY = value)
    (hguard : ((w.targets 3).all fun t => !recorded value t.1 t.2) = true) : Inv e (w.setKv kv) := by
  intro id slot hslot
  have hold := h id slot hslot
  cases hpassed : passed slot.thread.pc with
  | none => trivial
  | some t =>
      obtain ⟨name, k⟩ := t
      rw [hpassed] at hold
      obtain ⟨⟨m, hm, hentry⟩, hbroker, -⟩ := hold
      refine ⟨⟨m, hm, ?_⟩, fun hk hpulsar => ?_, fun hk => ?_⟩
      · change (entryOf kv m).isSome = true
        rw [hentries]
        exact hentry
      · refine (hbroker hk hpulsar).mono (fun m info _ hinfo => ?_) rfl (fun n hn => hn)
          (hbroker hk hpulsar).2
        rw [← hentries]
        exact hinfo
      · change recorded (kv.get LEADER_KEY) slot.job.ip name = false
        rw [hvalue]
        have ht := List.all_eq_true.mp hguard _ (mem_targets hslot hpassed hk)
        simpa using ht

/-! ## Steps of the cluster -/

theorem movingTo_surviving {w : World} {b : Cluster.World} (a : Cluster.Act) :
    ∀ n ∈ World.movingTo { w with base := b, migrations := survivingMigrations a w.migrations },
      n ∈ w.movingTo := by
  intro n hn
  obtain ⟨id, slot, hslot, hrunning, hname⟩ := mem_movingTo.mp hn
  refine mem_movingTo.mpr ⟨id, slot, ?_, hrunning, hname⟩
  cases a with
  | crash d => exact (OrderedMap.get_filterValues.mp hslot).1
  | _ => exact hslot

/-- What a job had checked before a step of the cluster. -/
theorem Holds.cluster {e : Deploy} {w : World} {c : Cluster.World} {a : Cluster.Act}
    (hstep : Cluster.step w.base a = some c) (hguard : leavesGuards e w (.cluster a) = true) {id : ℕ}
    {slot : Cluster.RemovalSlot} (hslot : w.base.removals.get id = some slot)
    (h : Holds e w slot.job.ip (passed slot.thread.pc)) :
    Holds e { w with base := c, migrations := survivingMigrations a w.migrations } slot.job.ip
      (passed slot.thread.pc) := by
  have hkv := kv_step hstep
  simp only [leavesGuards, Bool.and_eq_true, Bool.or_eq_true, Bool.not_eq_true', Option.all_eq_true]
    at hguard
  obtain ⟨hdeletes, hpulsar⟩ := hguard
  cases hpassed : passed slot.thread.pc with
  | none => trivial
  | some t =>
      obtain ⟨name, k⟩ := t
      rw [hpassed] at h
      obtain ⟨⟨m, hm, hentry⟩, hbroker, hleader⟩ := h
      refine ⟨?_, fun hk hp => ?_, fun hk => ?_⟩
      · change Another c.etcd.kv name
        rw [hkv]
        by_cases hdeleted : deleted w.base a = some m
        · -- the other entry is the deleted one: the guard has a third
          have hthird := List.all_eq_true.mp (hdeletes m hdeleted) _
            (mem_targets hslot hpassed (one_le_of_passed hpassed))
          simp only [Bool.or_eq_true, decide_eq_true_eq, List.any_eq_true, Bool.and_eq_true] at hthird
          rcases hthird with hsame | ⟨p, hp, hname, hne⟩
          · exact absurd hsame.symm hm
          · have hother : entryOf w.base.etcd.kv p.1 = some p.2 := mem_parseTopology.mp hp
            refine ⟨p.1, hname, isSome_kvAfter (by rw [hother]; rfl) fun he => ?_⟩
            exact hne (Option.some.inj (he.symm.trans hdeleted))
        · exact ⟨m, hm, isSome_kvAfter hentry hdeleted⟩
      · refine ⟨⟨fun m' info ip hm' hinfo hip => ?_, fun hn => ?_⟩, (hbroker hk hp).2⟩
        · change entryOf c.etcd.kv m' = some info at hinfo
          rw [hkv] at hinfo
          rcases entryOf_kvAfter hinfo with hold | ⟨value, hcreated, hloads⟩
          · exact (hbroker hk hp).1.1 m' info ip hm' hold hip
          · have hpulsar' := hpulsar.resolve_left (by rw [hp]; decide)
            have hbrings := List.all_eq_true.mp (hpulsar'.1 (m', value) hcreated) _
              (mem_targets hslot hpassed hk)
            simpa [Ne.symm hm', hloads, hip] using hbrings
        · exact (hbroker hk hp).1.2 (movingTo_surviving a _ hn)
      · change recorded (c.etcd.kv.get LEADER_KEY) slot.job.ip name = false
        rw [hkv, leaderKey_kvAfter]
        exact hleader hk

/-- The look at the own daemon, with files that agree. -/
theorem clear_of_agrees {e : Deploy} {w : World} {slot : Cluster.RemovalSlot} {name : String}
    (hagrees : agrees e w slot name = true)
    (hpassed : ¬ (isPulsarDeploy (w.text (e.localIp slot.daemon)) ∧
      name = readClusterEnvValue (w.text (e.localIp slot.daemon)) "PULSAR_HOST" "node-1")) :
    Clear w name := by
  simp only [agrees, Bool.and_eq_true, List.all_eq_true, decide_eq_true_eq] at hagrees
  obtain ⟨⟨⟨hdeploy, hfiles⟩, hmoving⟩, hrequests⟩ := hagrees
  have hhost : name ≠ readClusterEnvValue (w.text (e.localIp slot.daemon)) "PULSAR_HOST" "node-1" :=
    fun he => hpassed ⟨hdeploy, he⟩
  refine ⟨⟨fun m info ip hm hentry hip => ?_, hmoving⟩, hrequests⟩
  have hfile := hfiles (m, info) (mem_parseTopology.mpr hentry)
  simp only [hm, hip, decide_false, Bool.false_or, Bool.or_eq_true, decide_eq_true_eq] at hfile
  rcases hfile with hnone | hsame
  · simp [namesHost, hnone]
  · simp [namesHost, hsame, Ne.symm hhost]

theorem Inv.cluster {e : Deploy} {w : World} {c : Cluster.World} {a : Cluster.Act} (h : Inv e w)
    (hreads : reads e w a = true) (hguard : leavesGuards e w (.cluster a) = true)
    (hstep : Cluster.step w.base a = some c) :
    Inv e { w with base := c, migrations := survivingMigrations a w.migrations } := by
  intro id slot' hslot'
  rcases removal_step hstep hslot' with hgone | ⟨slot, hslot, hjob, hadvances⟩
  · rw [hgone]
    trivial
  · have hold := (h id slot hslot).cluster hstep hguard hslot
    rw [hjob]
    have hkv := kv_step hstep
    cases hadvances with
    | gone hnone =>
        rw [hnone]
        trivial
    | same hsame =>
        rw [hsame]
        exact hold
    | @resolved _ _ name hpassed hanother hkept =>
        rw [hpassed]
        refine ⟨?_, fun hk => by omega, fun hk => by omega⟩
        change Another c.etcd.kv name
        rw [hkv, hkept]
        exact hanother
    | @looked _ name isLeader file hpc hpassed hcheck =>
        rw [hpassed]
        rw [hpc] at hold
        refine ⟨hold.1, fun _ hp => ?_, fun hk => by omega⟩
        simp only [reads, hslot, Bool.and_eq_true, decide_eq_true_eq] at hreads
        simp only [leavesGuards, looksAt, hslot, hpc, Option.all_some, hp, Bool.not_true,
          Bool.false_or, Bool.and_eq_true] at hguard
        rw [hreads.2] at hcheck
        have hclear := clear_of_agrees hguard.2.2 hcheck
        refine hclear.mono (fun m info _ hinfo => ?_) rfl (movingTo_surviving _) hclear.2
        change entryOf c.etcd.kv m = some info at hinfo
        rw [hkv] at hinfo
        exact hinfo
    | @led _ _ name hpc hpassed hrecorded hkept =>
        rw [hpassed]
        rw [hpc] at hold
        refine ⟨hold.1, fun _ => hold.2.1 le_rfl, fun _ => ?_⟩
        change recorded (c.etcd.kv.get LEADER_KEY) slot.job.ip name = false
        rw [hkv, hkept]
        exact hrecorded

/-! ## Steps of the migrations -/

theorem running_of_proceed {j : MigrateJob} {localIp : String} {files : Files} {pc qc : MigratePc}
    {i : MigrateJob.Input} (h : j.proceed localIp files pc i = some qc) : pc.running = true := by
  unfold MigrateJob.proceed at h
  split at h <;> first
    | rfl
    | cases h

theorem running_of_request {pc : MigratePc} {r : Request} (h : MigrateJob.request pc = some r) :
    pc.running = true := by
  unfold MigrateJob.request at h
  split at h
  · rfl
  · cases h

/-- A running migration goes on. -/
theorem movingTo_put {w v : World} {id : ℕ} {slot : MigrationSlot} {t : Thread MigratePc}
    (hslot : w.migrations.get id = some slot) (hrunning : slot.thread.pc.running = true)
    (hv : v.migrations = w.migrations.put id { slot with thread := t }) :
    ∀ n ∈ v.movingTo, n ∈ w.movingTo := by
  intro n hn
  obtain ⟨id', slot', hslot', hrunning', hname⟩ := mem_movingTo.mp hn
  rw [hv, OrderedMap.get_put] at hslot'
  split_ifs at hslot' with hid
  · obtain rfl := Option.some.inj hslot'
    exact mem_movingTo.mpr ⟨id, slot, hslot, hrunning, hname⟩
  · exact mem_movingTo.mpr ⟨id', slot', hslot', hrunning', hname⟩

theorem host_of_sends {id : ℕ} {slot : MigrationSlot} {i : MigrateJob.Input} {r : SyncRequest}
    (h : r ∈ sends id slot i) : r.host = slot.job.toNode := by
  unfold sends at h
  split at h
  · rw [List.mem_singleton.mp h]
  · cases h

theorem hostOf_upsertKv (host : String) (lines : Lines) :
    hostOf (upsertKv PULSAR_HOST host lines) = host := by
  rw [hostOf, valueOf_upsertKv_self, Option.getD_some]

theorem namesHost_update {files : Files} {lines : Lines} {ip ip' name : String}
    (hold : namesHost files ip' name = false) (hnew : hostOf lines ≠ name) :
    namesHost (Function.update files ip lines) ip' name = false := by
  by_cases hip : ip' = ip
  · subst hip
    simp [namesHost, hnew]
  · rw [namesHost, Function.update_of_ne hip]
    exact hold

theorem inv_step {e : Deploy} {w v : World} {act : Act} (h : Inv e w)
    (hguard : leavesGuards e w act = true) (hs : step e w act = some v) : Inv e v := by
  cases act with
  | cluster a =>
      simp only [step] at hs
      split_ifs at hs with hreads
      obtain ⟨c, hc, rfl⟩ := Option.map_eq_some_iff.mp hs
      exact h.cluster hreads hguard hc
  | leaderKey value =>
      cases value with
      | some text =>
          cases hs
          exact h.leaderKey (entryOf_put_leaderKey _ text) (OrderedMap.get_put_self _ _ _) hguard
      | none =>
          cases hs
          exact h.leaderKey (entryOf_erase_leaderKey _) (OrderedMap.get_erase_self _ _) hguard
  | install id =>
      cases hslot : w.base.joins.get id with
      | none => simp only [step, hslot, reduceCtorEq] at hs
      | some slot =>
          cases hpc : slot.thread.pc with
          | returned r =>
              simp only [step, hslot, hpc, Option.some.injEq] at hs
              subst hs
              refine h.files rfl fun hp id' slot' name k hslot' hpassed hk hclear => ?_
              simp only [leavesGuards, joinPc, hslot, hpc, Option.map_some, hp, Bool.not_true,
                Bool.false_or] at hguard
              have hne := List.all_eq_true.mp hguard _ (mem_targets hslot' hpassed hk)
              refine ⟨⟨fun m info ip hm hentry hip => ?_, hclear.1.2⟩, hclear.2⟩
              exact namesHost_update (hclear.1.1 m info ip hm hentry hip) (of_decide_eq_true hne).symm
          | _ => simp only [step, hslot, hpc, reduceCtorEq] at hs
  | startMigration id d job =>
      simp only [step] at hs
      split_ifs at hs with hstart
      cases hs
      refine h.files rfl fun hp id' slot' name k hslot' hpassed hk hclear => ?_
      refine ⟨⟨hclear.1.1, fun hn => ?_⟩, hclear.2⟩
      simp only [leavesGuards, hp, Bool.not_true, Bool.false_or] at hguard
      have hne := List.all_eq_true.mp hguard _ (mem_targets hslot' hpassed hk)
      obtain ⟨id'', slot'', hslot'', hrunning, hname⟩ := mem_movingTo.mp hn
      dsimp only at hslot''
      rw [OrderedMap.get_put] at hslot''
      split_ifs at hslot'' with hid
      · obtain rfl := Option.some.inj hslot''
        exact of_decide_eq_true hne hname.symm
      · exact hclear.1.2 (mem_movingTo.mpr ⟨id'', slot'', hslot'', hrunning, hname⟩)
  | migrationInput id i =>
      simp only [step] at hs
      split at hs
      · next slot hslot =>
          split_ifs at hs with hanswers
          obtain ⟨pc, hpc, rfl⟩ := Option.map_eq_some_iff.mp hs
          have hrunning := running_of_proceed hpc
          have hmoving : slot.job.toNode ∈ w.movingTo :=
            mem_movingTo.mpr ⟨id, slot, hslot, hrunning, rfl⟩
          refine h.files rfl fun _ id' slot' name k hslot' hpassed hk hclear => ?_
          refine hclear.mono (fun m info _ hinfo => hinfo) rfl (movingTo_put hslot hrunning rfl) ?_
          intro r hr
          rcases List.mem_append.mp hr with hr | hr
          · rw [host_of_sends hr]
            rintro rfl
            exact hclear.1.2 hmoving
          · exact hclear.2 r hr
      · cases hs
  | migrationAttempt id a =>
      simp only [step] at hs
      split at hs
      · next slot hslot =>
          obtain ⟨x, hx, rfl⟩ := Option.map_eq_some_iff.mp hs
          obtain ⟨r, hr, -, -⟩ := Client.attempt_cases _ hx
          refine h.files rfl fun _ id' slot' name k hslot' hpassed hk hclear => ?_
          exact hclear.mono (fun m info _ hinfo => hinfo) rfl
            (movingTo_put hslot (running_of_request hr) rfl) hclear.2
      · cases hs
  | handled r =>
      simp only [step] at hs
      split_ifs at hs with hmem
      cases hs
      refine h.files rfl fun _ id' slot' name k hslot' hpassed hk hclear => ?_
      refine ⟨⟨fun m info ip hm hentry hip => ?_, hclear.1.2⟩, fun r' hr' => ?_⟩
      · refine namesHost_update (hclear.1.1 m info ip hm hentry hip) ?_
        rw [hostOf_upsertKv]
        exact hclear.2 r hmem.1
      · exact hclear.2 r' (List.mem_of_mem_erase hr')
  | dropped r =>
      simp only [step] at hs
      split_ifs at hs with hmem
      cases hs
      refine h.files rfl fun _ id' slot' name k hslot' hpassed hk hclear => ?_
      exact hclear.mono (fun m info _ hinfo => hinfo) rfl (fun n hn => hn)
        fun r' hr' => hclear.2 r' (List.mem_of_mem_erase hr')

/-- When no step undoes what a job has already looked at, every removal that is at
its delete may delete. -/
theorem guards_hold {e : Deploy} {base : Cluster.World} {files : Files} {as : List Act} {w : World}
    (hguard : Keeps (step e) (fun w act => leavesGuards e w act = true) (start base files) as)
    (hr : run (step e) (start base files) as = some w) {id : ℕ} {slot : Cluster.RemovalSlot}
    {t : Target} (hslot : w.base.removals.get id = some slot)
    (hpc : slot.thread.pc = .deleting t) : Safe e w slot.job.ip t.name := by
  have hstart : Inv e (start base files) := fun id slot hslot => by cases hslot
  have hinv : Inv e w := run_guarded (fun s a u hinv hg hu => inv_step hinv hg hu) hstart hguard hr
  have hholds := hinv id slot hslot
  rw [hpc] at hholds
  obtain ⟨hanother, hclear, hleader⟩ := hholds
  exact ⟨hanother, hleader le_rfl, fun hp => (hclear (by omega) hp).1⟩

/-! ## The removal of a second peer -/

def recordText (name ip : String) : String :=
  JsonText.dumps (.obj [("node_name", .str name), ("ip", .str ip)])

def entryText (name ip : String) : String :=
  JsonText.dumps (.obj [("name", .str name), ("ip", .str ip)])

/-- The first peer leads and hosts Pulsar. -/
def twoPeers : Etcd where
  kv := OrderedMap.empty.putAll [(LEADER_KEY, recordText "node-1" "10.0.0.1"),
    (TOPOLOGY_PREFIX ++ "node-1", entryText "node-1" "10.0.0.1"),
    (TOPOLOGY_PREFIX ++ "node-2", entryText "node-2" "10.0.0.2")]
  members := []

def onFirst : Files := fun _ => ["MQ_TYPE=pulsar", "PULSAR_HOST=node-1"]

def pulsarDeploy : Deploy := ⟨fun d => "10.0.0." ++ toString d, true⟩

def firstLeads : World :=
  start (Cluster.fresh twoPeers (fun d => d = 1) ⟨"node-1", "10.0.0.1", "t", 2380, 19500⟩) onFirst

def look : Act :=
  .cluster (.removalInput 0 (.look true (some "MQ_TYPE=pulsar\nPULSAR_HOST=node-1\n")))

def command : Act := .cluster (.removalInput 0 (.command ⟨0, "", ""⟩))

/-- The job up to its delete, with acts of others while it drains. -/
def removal (meanwhile : List Act) : List Act :=
  [.cluster (.startRemoval 0 1 ⟨"10.0.0.2"⟩), .cluster (.removalAttempt 0 .answered), look,
    .cluster (.removalAttempt 0 .answered), look, command, command, command] ++ meanwhile ++ [command]

def atDelete (w : World) : Bool :=
  (w.base.removals.get 0).any fun slot => slot.job.ip = "10.0.0.2" &&
    match slot.thread.pc with
    | .deleting t => t.name = "node-2"
    | _ => false

theorem atDelete_spec {w : World} (h : atDelete w = true) :
    ∃ slot t, w.base.removals.get 0 = some slot ∧ slot.thread.pc = .deleting t ∧
      slot.job.ip = "10.0.0.2" ∧ t.name = "node-2" := by
  obtain ⟨slot, hslot, htest⟩ := (Option.any_eq_true _ _).mp h
  rw [Bool.and_eq_true, decide_eq_true_eq] at htest
  obtain ⟨hip, hname⟩ := htest
  split at hname
  · next t hpc => exact ⟨slot, t, hslot, hpc, hip, of_decide_eq_true hname⟩
  · cases hname

/-- Nothing happens while the job drains. -/
theorem guards_hold_alone : ∃ w slot t, run (step pulsarDeploy) firstLeads (removal []) = some w ∧
    w.base.removals.get 0 = some slot ∧ slot.thread.pc = .deleting t ∧
      Safe pulsarDeploy w slot.job.ip t.name := by
  have hguard : Keeps (step pulsarDeploy) (fun w act => leavesGuards pulsarDeploy w act = true)
      firstLeads (removal []) := by
    decide +kernel
  have hrun : (run (step pulsarDeploy) firstLeads (removal [])).any atDelete = true := by
    decide +kernel
  obtain ⟨w, hw, htest⟩ := (Option.any_eq_true _ _).mp hrun
  obtain ⟨slot, t, hslot, hpc, -, -⟩ := atDelete_spec htest
  exact ⟨w, slot, t, hw, hslot, hpc, guards_hold hguard hw hslot hpc⟩

/-- While the job drains, leadership moves to the target. -/
theorem leader_deleted : ∃ (e : Deploy) (base : Cluster.World) (files : Files) (as : List Act)
    (w : World) (id : ℕ) (slot : Cluster.RemovalSlot) (t : Target),
    run (step e) (start base files) as = some w ∧ w.base.removals.get id = some slot ∧
      slot.thread.pc = .deleting t ∧ ¬ Safe e w slot.job.ip t.name := by
  have hrun : (run (step pulsarDeploy) firstLeads
      (removal [.leaderKey (some (recordText "node-2" "10.0.0.2"))])).any (fun w => atDelete w &&
        recorded (w.base.etcd.kv.get LEADER_KEY) "10.0.0.2" "node-2") = true := by
    decide +kernel
  obtain ⟨w, hw, htest⟩ := (Option.any_eq_true _ _).mp hrun
  obtain ⟨hdelete, hrecorded⟩ := Bool.and_eq_true_iff.mp htest
  obtain ⟨slot, t, hslot, hpc, hip, hname⟩ := atDelete_spec hdelete
  refine ⟨_, _, _, _, w, 0, slot, t, hw, hslot, hpc, fun hsafe => ?_⟩
  have hnot := hsafe.notLeader
  rw [hip, hname, hrecorded] at hnot
  cases hnot

end MilvusOnprem.RemovalGuards
