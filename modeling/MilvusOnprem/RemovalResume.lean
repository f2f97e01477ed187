import MilvusOnprem.Draining
import MilvusOnprem.JsonRoundTrip
import MilvusOnprem.TopologyWatcher

/-!
# Running remove-node again

A remove-node job alone on etcd, on a daemon with a given `cluster.env`. Every
attempt of a call, every command and every look is a step, so a run may stop
anywhere: the job may raise, and its daemon may crash at any point. What is left
is the store, from which the next job with the same ip starts.

That the next job can complete is said for every MinIO server that works: it lists
the target's pool, starts a decommission when it is told to, and ends it in time. A
decommission may be in any state when the job starts, for the job before it may
have started, cancelled or completed one.
-/
namespace MilvusOnprem.RemovalResume

open PythonText EtcdClient MilvusOnprem.Topology ClusterEnv RemoveNode GuardedRuns TopologyWatcher

/-- A job, and the `cluster.env` of the daemon that runs it. -/
structure Removal where
  job : RemoveJob
  file : Option String

structure State where
  etcd : Etcd
  thread : Thread RemovePc
deriving DecidableEq

inductive Act where
  | attempt (a : Attempt)
  | look (isLeader : Bool)
  | command (r : CommandResult)
  | settled
deriving DecidableEq, Repr

namespace Removal

def proceed (r : Removal) (w : State) (i : RemoveJob.Input) : Option State :=
  (r.job.proceed w.thread.pc i).map fun pc => ⟨w.etcd, ⟨pc, 0⟩⟩

def step (r : Removal) (w : State) : Act → Option State
  | .attempt a => (r.job.client.attempt 0 w.etcd w.thread a).map fun x => ⟨x.1, x.2⟩
  | .look isLeader => r.proceed w (.look isLeader r.file)
  | .command c => r.proceed w (.command c)
  | .settled => r.proceed w .settled

/-- A job that has just been started. -/
def start (s : Etcd) : State := ⟨s, ⟨.resolving, 0⟩⟩

/-- The peer URL of the target. -/
def peerUrl (r : Removal) (port : ℤ) : String := "http://" ++ r.job.ip ++ ":" ++ toString port

/-- What the job looks for in the command line of a pool. -/
def fragment (r : Removal) : String := r.job.ip ++ ":" ++ minioApiPort r.file ++ "/drive"

/-- A job that its guards admit: the ip is that of one entry, which is neither
the only one nor the leader nor the Pulsar host; every entry is an object; the
ports in the file are numbers; at most one member has the target's URL. -/
structure Admitted (r : Removal) (port : ℤ) (name : String) (s : Etcd) : Prop where
  found : findNodeNameByIp r.job.ip (parseTopology (withPrefix TOPOLOGY_PREFIX s.kv)) =
    .ok (some name)
  only : ∀ m, peerIp s.kv m = some r.job.ip → m = name
  many : 1 < (parseTopology (withPrefix TOPOLOGY_PREFIX s.kv)).length
  objects : ∀ m info, entryOf s.kv m = some info → ∃ fields, info = .obj fields
  notPulsarHost : ¬(isPulsarDeploy r.file ∧ name = readClusterEnvValue r.file "PULSAR_HOST" "node-1")
  notLeader : checkLeader r.job.ip name (s.kv.get "/cluster/leader") = .preparing name
  etcdPort : envInt r.file "ETCD_PEER_PORT" "2380" = .ok port
  milvusPort : ∃ p, envInt r.file "MILVUS_PORT" "19530" = .ok p
  urlOnce : ∀ m ∈ s.members, ∀ m' ∈ s.members, r.peerUrl port ∈ m.peerURLs →
    r.peerUrl port ∈ m'.peerURLs → m.id = m'.id

/-- The store without the target's entry. -/
def erased (s : Etcd) (name : String) : OrderedMap String String :=
  s.kv.erase (TOPOLOGY_PREFIX ++ name)

/-! ## Where a job leaves the store -/

/-- The store at every point of a job that was admitted in `s`. -/
def Along (r : Removal) (port : ℤ) (name : String) (s : Etcd) (now : Etcd) : RemovePc → Prop
  | .resolving => now = s
  | .guarding n | .leaderRead n | .preparing n => n = name ∧ now = s
  | .aliasing t | .prechecking t | .canceling t | .starting t | .polling t _ =>
      t.name = name ∧ now = s
  | .deleting t => t.name = name ∧ (now = s ∨ now = ⟨erased s name, s.members⟩)
  | .settling _ | .settleWait _ | .porting _ => now = ⟨erased s name, s.members⟩
  | .listing _ needle => needle = r.peerUrl port ∧ now = ⟨erased s name, s.members⟩
  | .removing _ id => findMember (r.peerUrl port) s.members = some id ∧
      (now = ⟨erased s name, s.members⟩ ∨
        now = ⟨erased s name, s.members.filter fun m => m.id ≠ id⟩)
  | .surveying _ | .draining _ | .done =>
      now.kv = erased s name ∧ hasURL now.members (r.peerUrl port) = false
  | .raised _ => now = s ∨ now.kv = erased s name

theorem Along.kv {r : Removal} {port : ℤ} {name : String} {s now : Etcd} {pc : RemovePc}
    (h : Along r port name s now pc) : now = s ∨ now.kv = erased s name := by
  cases pc with
  | resolving => exact .inl h
  | guarding _ | leaderRead _ | preparing _ | aliasing _ | prechecking _ | canceling _ | starting _
  | polling _ _ => exact .inl h.2
  | deleting _ => exact h.2.imp_right fun h => by rw [h]
  | settling _ | settleWait _ | porting _ => exact .inr (by rw [show now = _ from h])
  | listing _ _ => exact .inr (by rw [h.2])
  | removing _ _ =>
      rcases h.2 with h | h
      · exact .inr (by rw [h])
      · exact .inr (by rw [h])
  | surveying _ | draining _ | done => exact .inr h.1
  | raised _ => exact h

section Along

variable {r : Removal} {port : ℤ} {name : String} {s now : Etcd} {pc qc : RemovePc}

end Along

/-! ## A store without the target's entry -/

/-- The decommission of the target's pool, with the status answers before it ends. -/
inductive Drain where
  | idle
  | active (left : ℕ)
  | complete
  | failed
  | canceled
deriving DecidableEq, Repr

/-- It ends before the job gives up. -/
def Drain.Timely : Drain → Prop
  | .active left => 5 * left < deadline
  | _ => True

/-- The state after a status answer. -/
def Drain.next : Drain → Drain
  | .active 0 => .complete
  | .active (left + 1) => .active left
  | d => d

def Drain.state : Drain → PoolState
  | .idle => .none
  | .active _ => .active
  | .complete => .complete
  | .failed => .failed
  | .canceled => .canceled

/-- A server that lists the target's pool behind pools of others: the fields it
prints besides those that the job reads, how it prints, and how long a
decommission takes it. -/
structure Minio (fragment : String) where
  before : List Json
  after : List Json
  poolFields : List (String × Json)
  infoFields : List (String × Json)
  cmdline : String
  startTime : String
  rounds : ℕ
  print : Json → String
  others : before.all (fun p => isPool p && !hasFragment fragment p) = true
  own : contains cmdline fragment = true
  started : startTime ≠ "" ∧ ¬startsWith startTime "0001-01-01" = true
  timely : 5 * rounds < deadline
  decodes : ∀ j, JsonText.loads (print j) = some j

namespace Minio

variable {fragment : String} (m : Minio fragment)

def info (d : Drain) : List (String × Json) :=
  m.infoFields ++ [("startTime", .str (if d = .idle then "0001-01-01T00:00:00Z" else m.startTime)),
    ("complete", .bool (d = .complete)), ("failed", .bool (d = .failed)),
    ("canceled", .bool (d = .canceled))]

def record (d : Drain) : List (String × Json) :=
  m.poolFields ++ [("cmdline", .str m.cmdline), ("decommissionInfo", .obj (m.info d))]

/-- The answer to the status command. -/
def status (d : Drain) : CommandResult :=
  ⟨0, m.print (.arr (m.before ++ .obj (m.record d) :: m.after)), ""⟩

/-- The answer to a command that succeeds. -/
def succeeds : CommandResult := ⟨0, "", ""⟩

/-- How the servers meet a job at each point, and the state of the decommission
afterwards. -/
def answer (d : Drain) : RemovePc → Option (Act × Drain)
  | .resolving | .leaderRead _ | .deleting _ | .settling _ | .listing _ _ | .removing _ _
  | .surveying _ => some (.attempt .answered, d)
  | .guarding _ | .preparing _ | .porting _ | .draining _ => some (.look true, d)
  | .aliasing _ => some (.command succeeds, d)
  | .prechecking _ | .polling _ _ => some (.command (m.status d), d.next)
  | .canceling _ => some (.command succeeds, .idle)
  | .starting _ => some (.command succeeds, .active m.rounds)
  | .settleWait _ => some (.settled, d)
  | .done | .raised _ => none

/-- A server that lists the target's pool alone. -/
def alone (fragment : String) : Minio fragment where
  before := []
  after := []
  poolFields := []
  infoFields := []
  cmdline := fragment
  startTime := "2026-01-01T00:00:00Z"
  rounds := 0
  print := JsonText.dumps
  others := rfl
  own := contains_iff.mpr (List.infix_refl _)
  started := by decide
  timely := by decide
  decodes := JsonText.loads_dumps

end Minio

/-! ## A job that meets no failure -/

/-- The job with servers that work. -/
def serviced (r : Removal) (m : Minio r.fragment) (x : State × Drain) (_ : Unit) :
    Option (State × Drain) :=
  match m.answer x.2 x.1.thread.pc with
  | some (act, d) => (r.step x.1 act).map fun v => (v, d)
  | none => none

section Serviced

variable {r : Removal} {m : Minio r.fragment} {port : ℤ} {name : String} {s : Etcd}

theorem survivors_ok {ip : String} {kvs : List (String × String)}
    (h : ∀ e ∈ parseTopology kvs, ∃ fields, e.2 = .obj fields) :
    ∃ l, survivors ip kvs = .ok l := by
  have hmap : ∀ es : List (String × Json), (∀ e ∈ es, ∃ fields, e.2 = .obj fields) →
      ∃ infos, (es.mapM fun e => (infoGet "ip" e.2).map fun v => (e.1, v)) = .ok infos := by
    intro es
    induction es with
    | nil => exact fun _ => ⟨[], rfl⟩
    | cons e es ih =>
        intro hes
        obtain ⟨fields, hf⟩ := hes e List.mem_cons_self
        obtain ⟨infos, hi⟩ := ih fun x hx => hes x (List.mem_cons_of_mem e hx)
        refine ⟨(e.1, Json.field "ip" fields) :: infos, ?_⟩
        rw [List.mapM_cons, hf, hi]
        rfl
  obtain ⟨infos, hi⟩ := hmap _ h
  simp only [survivors, hi, bind, Except.bind]
  exact ⟨_, rfl⟩

end Serviced

/-! ## Running it again -/

/-- The next job with the same ip completes with every MinIO server that works, from
any state of the decommission; and once it has completed, in any run, neither the
topology nor the membership has the ip. -/
def Recovers (r : Removal) (port : ℤ) (s : Etcd) : Prop :=
  (∀ (m : Minio r.fragment) (d : Drain), d.Timely →
    ∃ w d', Reaches (serviced r m) (start s, d) (w, d') ∧ w.thread.pc = .done) ∧
    ∀ w, Reaches r.step (start s) w → w.thread.pc = .done →
      (∀ m, peerIp w.etcd.kv m ≠ some r.job.ip) ∧
        hasURL w.etcd.members (r.peerUrl port) = false

def entryText (name ip : String) : String :=
  JsonText.dumps (.obj [("name", .str name), ("ip", .str ip)])

def twoPeers : Etcd where
  kv := OrderedMap.empty.putAll [(TOPOLOGY_PREFIX ++ "node-1", entryText "node-1" "10.0.0.1"),
    (TOPOLOGY_PREFIX ++ "node-2", entryText "node-2" "10.0.0.2")]
  members := [⟨1, "node-1", ["http://10.0.0.1:2380"]⟩, ⟨2, "node-2", ["http://10.0.0.2:2380"]⟩]

end Removal
end MilvusOnprem.RemovalResume
