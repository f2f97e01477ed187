import MilvusOnprem.Topology
import MilvusOnprem.ClusterEnv
import MilvusOnprem.GuardedRuns
import Mathlib.Data.List.Sort

/-!
# The remove-node job

`run_remove_node` as a program with a point for every place where it waits: for
a call to etcd, for a command in the MinIO container, for a look at the leader
flag and `cluster.env`, for the survivors to settle. The two waits for the
survivors only take time. The job's log and progress are left out, and the `ip`
parameter is a text, as the command line sends it.

A command yields its return code and its two outputs, whatever they are. The
target's pool is, as the source has it, the first pool whose command line
contains the target's URL fragment.
-/
namespace MilvusOnprem.RemoveNode

open PythonText EtcdClient MilvusOnprem.Topology ClusterEnv

/-- What `_run` returns. -/
structure CommandResult where
  rc : ℤ
  out : String
  err : String
deriving DecidableEq, Repr

/-! ## The state of a decommission -/

inductive PoolState where
  | none | active | complete | failed | canceled | missing
deriving DecidableEq, Repr

/-- `fragment in cmdline` -/
def inCmdline (fragment : String) : Json → Except Exc Bool
  | .str s => .ok (contains s fragment)
  | .arr elems => .ok (elems.any fun j => match j with | Json.str s => s = fragment | _ => false)
  | .obj fields => .ok (fields.any fun f => f.1 = fragment)
  | _ => .error .typeError

/-- `pool.get("decommissionInfo") or {}`, as the fields of a dictionary. -/
def decommissionInfo (pool : List (String × Json)) : Except Exc (List (String × Json)) :=
  match (Json.field "decommissionInfo" pool).getD .null with
  | .obj fields => .ok fields
  | j => if j.truthy then .error .attributeError else .ok []

def flag (key : String) (info : List (String × Json)) : Bool :=
  ((Json.field key info).getD .null).truthy

/-- Whether a decommission that has not ended was started. -/
def startState : Json → Except Exc PoolState
  | .str s => .ok (if s ≠ "" ∧ ¬ startsWith s "0001-01-01" then .active else .none)
  | j => if j.truthy then .error .attributeError else .ok .none

/-- The state of the pool the loop stops at. -/
def poolState (pool : List (String × Json)) : Except Exc PoolState := do
  let info ← decommissionInfo pool
  if flag "complete" info then .ok .complete
  else if flag "failed" info then .ok .failed
  else if flag "canceled" info then .ok .canceled
  else startState ((Json.field "startTime" info).getD (.str ""))

/-- The loop over the pools; entries that are not dictionaries are skipped. -/
def poolsState (fragment : String) : List Json → Except Exc PoolState
  | [] => .ok .missing
  | .obj pool :: rest => do
      let hit ← inCmdline fragment ((Json.field "cmdline" pool).getD (.str ""))
      if hit then poolState pool else poolsState fragment rest
  | _ :: rest => poolsState fragment rest

/-- `_decommission_state` on the result of the status command. -/
def decommissionState (fragment : String) (r : CommandResult) : Except Exc PoolState :=
  if r.rc ≠ 0 ∧ contains (lower (r.out ++ r.err)) "no decommission" then .ok .none
  else
    match (if strip r.out ≠ "" then JsonText.loads r.out else some (.arr [])) with
    | some (.arr pools) => poolsState fragment pools
    -- not JSON, or not a list
    | _ => .ok .missing

/-! ## The job -/

/-- What the job works on once it is resolved. -/
structure Target where
  name : String
  fragment : String
deriving DecidableEq, Repr

/-- The points of a job, in the order of the source: the authoritative read,
the look at the leader flag and `cluster.env`, the read of the leader key, the
commands in the MinIO container, the topology delete with the wait for the
survivors, the search for the member and its removal, the last read with the
second wait. -/
inductive RemovePc where
  | resolving
  | guarding (name : String)
  | leaderRead (name : String)
  | preparing (name : String)
  | aliasing (t : Target)
  | prechecking (t : Target)
  | canceling (t : Target)
  | starting (t : Target)
  | polling (t : Target) (elapsed : ℕ)
  | deleting (t : Target)
  | settling (t : Target)
  | settleWait (t : Target)
  | porting (t : Target)
  | listing (t : Target) (needle : String)
  | removing (t : Target) (memberId : ℕ)
  | surveying (t : Target)
  | draining (t : Target)
  | done
  | raised (e : Exc)
deriving DecidableEq, Repr

def deadline : ℕ := 30 * 60

def isPulsarDeploy (file : Option String) : Bool :=
  let explicit := lower (strip (readClusterEnvValue file "MQ_TYPE" ""))
  if explicit ≠ "" then explicit = "pulsar"
  else
    match split '.' (lstripOf 'v' (readClusterEnvValue file "MILVUS_IMAGE_TAG" "")) with
    | a :: b :: _ => a = "2" && b = "5"
    | _ => false

def minioApiPort (file : Option String) : String := readClusterEnvValue file "MINIO_API_PORT" "9000"

/-- `int(_read_cluster_env_value(key, default))` -/
def envInt (file : Option String) (key dflt : String) : Except Exc ℤ :=
  let value := readClusterEnvValue file key dflt
  match parseInt value with
  | some n => .ok n
  | none => .error (.valueError
      ("invalid literal for int() with base 10: " ++ PythonText.repr value))

/-- `sorted({p.get("ip") for p in peers})` as a text. A set with a value that is
not a text cannot be sorted once it has two elements. -/
def sortedIps (peers : List (String × Json)) : Except Exc String := do
  let ips ← peers.mapM fun e => infoGet "ip" e.2
  let texts := (ips.filterMap fun ip => match ip with
    | some (Json.str s) => some s
    | _ => none)
  if texts.length = ips.length then
    let sorted := texts.dedup.insertionSort fun a b => a ≤ b
    .ok ("[" ++ join ", " (sorted.map PythonText.repr) ++ "]")
  else .error .typeError

def notPulsarHost (name host : String) : Exc :=
  .permissionError ("refusing to remove " ++ name ++ ": it is the cluster's " ++
    "Pulsar host (PULSAR_HOST=" ++ host ++ "). Removing it " ++
    "would leave the surviving peers without a broker. " ++
    "Migrate Pulsar to another peer first:\n" ++
    "  ./milvus-onprem migrate-pulsar --to=<other-peer-name>\n" ++
    "then retry remove-node. Or upgrade to Milvus 2.6 " ++
    "(Woodpecker — per-peer streamingnode, no singleton).")

def notLeader (name : String) : Exc :=
  .permissionError ("refusing to remove " ++ name ++ ": it is the " ++
    "current leader. The operator-side CLI must call " ++
    "/admin/step-down on the leader and re-target " ++
    "the new leader before submitting remove-node. " ++
    "Update your milvus-onprem CLI to a version that " ++
    "orchestrates this; or run remove-node from a " ++
    "different peer's CLI after manually triggering " ++
    "failover.")

/-- The topology once it is read: the target must be in it, and not alone. -/
def resolve (ip : String) (peers : List (String × Json)) : RemovePc :=
  match findNodeNameByIp ip peers with
  | .error e => .raised e
  | .ok none =>
      match sortedIps peers with
      | .error e => .raised e
      | .ok ips =>
          .raised (.valueError ("no peer found with ip=" ++ ip ++ "; topology has: " ++ ips))
  | .ok (some name) =>
      if peers.length ≤ 1 then
        .raised (.valueError ("refusing to remove the only peer in the cluster — that would " ++
          "destroy the cluster. teardown the whole cluster instead."))
      else .guarding name

/-- The guards that look at this daemon: it leads, and the target does not host
Pulsar. -/
def checkLocal (name : String) (isLeader : Bool) (file : Option String) : RemovePc :=
  if isLeader = false then
    .raised (.permissionError "remove-node must run on the leader (HTTP layer should redirect)")
  else if isPulsarDeploy file ∧ name = readClusterEnvValue file "PULSAR_HOST" "node-1" then
    .raised (notPulsarHost name (readClusterEnvValue file "PULSAR_HOST" "node-1"))
  else .leaderRead name

/-- The leader entry must not name the target; a text that is not JSON passes. -/
def checkLeader (ip name : String) (raw : Option String) : RemovePc :=
  match raw with
  | none => .preparing name
  | some text =>
      if text = "" then .preparing name
      else
        match JsonText.loads text with
        | none => .preparing name
        | some (.obj li) =>
            if Json.field "ip" li = some (.str ip) ∨ Json.field "node_name" li = some (.str name) then
              .raised (notLeader name)
            else .preparing name
        | some _ => .raised .attributeError

/-- What follows the status before the start. -/
def prechecked (t : Target) : Except Exc PoolState → RemovePc
  | .error e => .raised e
  | .ok .complete | .ok .active => .polling t 0
  | .ok .failed | .ok .canceled => .canceling t
  | .ok .none | .ok .missing => .starting t

/-- The failures of `decommission start` that count as success. -/
def tolerated : List String := ["already decommissioning", "already decommissioned", "no pool"]

def started (t : Target) (r : CommandResult) : RemovePc :=
  if r.rc ≠ 0 ∧ ¬ tolerated.any (contains (lower (r.out ++ r.err))) then
    .raised (.runtimeError ("mc admin decommission start failed (rc=" ++ toString r.rc ++ "): " ++
      prefixOf 300 (strip r.err)))
  else .polling t 0

/-- One round of the polling loop. -/
def polled (t : Target) (elapsed : ℕ) : Except Exc PoolState → RemovePc
  | .error e => .raised e
  | .ok .complete => .deleting t
  | .ok .missing => .deleting t
  | .ok .failed =>
      .raised (.runtimeError ("MinIO decommission FAILED. Inspect with " ++
        "`docker exec milvus-minio mc admin decommission status local --json` " ++
        "and consider `cancel` + retry once root cause is addressed."))
  | .ok .canceled =>
      .raised (.runtimeError ("MinIO decommission was CANCELLED externally. Restart the " ++
        "remove-node job to reissue the start command."))
  | .ok .none =>
      .raised (.runtimeError ("MinIO reports no decommission scheduled for the target " ++
        "pool. The decommission may have been silently dropped — " ++
        "rerun remove-node to reissue."))
  | .ok .active =>
      if deadline ≤ elapsed then
        .raised (.runtimeError ("MinIO decommission did not complete within 30 min — abort. " ++
          "operator can run " ++
          "`docker exec milvus-minio mc admin decommission status local --json` " ++
          "to inspect; rerun once data movement settles."))
      else .polling t (elapsed + 5)

/-- The loop that collects the survivors: entries that are not JSON are skipped,
and an entry that is not an object raises. -/
def survivors (ip : String) (kvs : List (String × String)) : Except Exc (List (String × Json)) := do
  let infos ← (parseTopology kvs).mapM fun e => (infoGet "ip" e.2).map fun v => (e.1, v)
  .ok (infos.filterMap fun e => match e.2 with
    | some v => if v.truthy ∧ v ≠ .str ip then some (e.1, v) else none
    | none => none)

/-- `_find_etcd_member_id_by_peer_url` on the member list. -/
def findMember (needle : String) (ms : List Member) : Option ℕ :=
  (ms.find? fun m => m.peerURLs.any fun u => u = needle).map Member.id

structure RemoveJob where
  ip : String
deriving DecidableEq, Repr

namespace RemoveJob

/-- `params.get("ip")` must be set. -/
def start (ip : Option String) : Except Exc RemoveJob :=
  match ip with
  | some ip =>
      if ip = "" then .error (.valueError "remove-node requires an 'ip' param") else .ok ⟨ip⟩
  | none => .error (.valueError "remove-node requires an 'ip' param")

/-- The call to etcd in flight. -/
def request : RemovePc → Option Request
  | .resolving | .settling _ | .surveying _ => some (.getPrefix TOPOLOGY_PREFIX)
  | .leaderRead _ => some (.get "/cluster/leader")
  | .deleting t => some (.delete (TOPOLOGY_PREFIX ++ t.name))
  | .listing _ _ => some .memberList
  | .removing _ id => some (.memberRemove id)
  | _ => none

/-- The continuation of the call in flight. -/
def answered (j : RemoveJob) : RemovePc → Except Exc Reply → RemovePc
  | .resolving, .ok (.entries kvs) => resolve j.ip (parseTopology kvs)
  | .leaderRead name, .ok (.value v) => checkLeader j.ip name v
  | .deleting t, .ok .deleted => .settling t
  | .settling t, .ok (.entries kvs) =>
      match survivors j.ip kvs with
      | .error e => .raised e
      | .ok _ => .settleWait t
  | .listing t needle, .ok (.members ms) =>
      match findMember needle ms with
      | some id => .removing t id
      -- nothing to remove: only a warning
      | none => .surveying t
  | .removing t _, .ok .removed => .surveying t
  | .removing _ _, .error e =>
      .raised (.runtimeError ("etcd member-remove failed: " ++ e.text))
  | .surveying t, .ok (.entries kvs) =>
      match survivors j.ip kvs with
      | .error e => .raised e
      | .ok [] => .done
      | .ok (_ :: _) => .draining t
  | _, .error e => .raised e
  | pc, _ => pc

def client (j : RemoveJob) : Client RemovePc := ⟨request, j.answered⟩

/-- What a job reads outside etcd: the result of a command, the leader flag with
the text of `cluster.env`, the end of a wait for the survivors. -/
inductive Input where
  | command (r : CommandResult)
  | look (isLeader : Bool) (file : Option String)
  | settled
deriving DecidableEq, Repr

/-- A step of the job on its own. -/
def proceed (j : RemoveJob) : RemovePc → Input → Option RemovePc
  | .guarding name, .look isLeader file => some (checkLocal name isLeader file)
  | .preparing name, .look _ file =>
      some (.aliasing ⟨name, j.ip ++ ":" ++ minioApiPort file ++ "/drive"⟩)
  | .aliasing t, .command _ => some (.prechecking t)
  | .prechecking t, .command r => some (prechecked t (decommissionState t.fragment r))
  | .canceling t, .command _ => some (.starting t)
  | .starting t, .command r => some (started t r)
  | .polling t elapsed, .command r => some (polled t elapsed (decommissionState t.fragment r))
  | .settleWait t, .settled => some (.porting t)
  | .porting t, .look _ file =>
      some (match envInt file "ETCD_PEER_PORT" "2380" with
        | .error e => .raised e
        | .ok port => .listing t ("http://" ++ j.ip ++ ":" ++ toString port))
  | .draining _, .look _ file =>
      some (match envInt file "MILVUS_PORT" "19530" with
        | .error e => .raised e
        | .ok _ => .done)
  | _, _ => none

end RemoveJob

/-! ## Where a job goes -/

/-- A job resolves its target by the ip in an entry, or it ends. -/
theorem resolve_cases (ip : String) (peers : List (String × Json)) :
    (∃ e, resolve ip peers = .raised e) ∨
      ∃ name, findNodeNameByIp ip peers = .ok (some name) ∧ resolve ip peers = .guarding name := by
  unfold resolve
  split
  · exact .inl ⟨_, rfl⟩
  · split <;> exact .inl ⟨_, rfl⟩
  · next name hname =>
      split_ifs
      · exact .inl ⟨_, rfl⟩
      · exact .inr ⟨name, hname, rfl⟩

theorem checkLocal_cases (name : String) (isLeader : Bool) (file : Option String) :
    (∃ e, checkLocal name isLeader file = .raised e) ∨
      checkLocal name isLeader file = .leaderRead name := by
  unfold checkLocal
  split_ifs
  · exact .inl ⟨_, rfl⟩
  · exact .inl ⟨_, rfl⟩
  · exact .inr rfl

theorem checkLeader_cases (ip name : String) (raw : Option String) :
    (∃ e, checkLeader ip name raw = .raised e) ∨ checkLeader ip name raw = .preparing name := by
  unfold checkLeader
  split
  · exact .inr rfl
  · split_ifs
    · exact .inr rfl
    · split
      · exact .inr rfl
      · split_ifs
        · exact .inl ⟨_, rfl⟩
        · exact .inr rfl
      · exact .inl ⟨_, rfl⟩

theorem prechecked_cases (t : Target) (res : Except Exc PoolState) :
    (∃ e, prechecked t res = .raised e) ∨ prechecked t res = .polling t 0 ∨
      prechecked t res = .canceling t ∨ prechecked t res = .starting t := by
  cases res with
  | error e => exact .inl ⟨e, rfl⟩
  | ok state =>
      cases state with
      | complete | active => exact .inr (.inl rfl)
      | failed | canceled => exact .inr (.inr (.inl rfl))
      | none | missing => exact .inr (.inr (.inr rfl))

theorem started_cases (t : Target) (r : CommandResult) :
    (∃ e, started t r = .raised e) ∨ started t r = .polling t 0 := by
  unfold started
  split_ifs
  · exact .inl ⟨_, rfl⟩
  · exact .inr rfl

/-- A round of the loop ends the job, goes on while the state is active, or
leaves the loop for the delete. -/
theorem polled_cases (t : Target) (elapsed : ℕ) (res : Except Exc PoolState) :
    (∃ e, polled t elapsed res = .raised e) ∨
      (res = .ok .active ∧ polled t elapsed res = .polling t (elapsed + 5)) ∨
      ((res = .ok .complete ∨ res = .ok .missing) ∧ polled t elapsed res = .deleting t) := by
  cases res with
  | error e => exact .inl ⟨e, rfl⟩
  | ok state =>
      cases state with
      | complete => exact .inr (.inr ⟨.inl rfl, rfl⟩)
      | missing => exact .inr (.inr ⟨.inr rfl, rfl⟩)
      | none | failed | canceled => exact .inl ⟨_, rfl⟩
      | active =>
          unfold polled
          split_ifs
          · exact .inl ⟨_, rfl⟩
          · exact .inr (.inl ⟨rfl, rfl⟩)

/-! ## The order of the points -/

/-- The place of a point in the order of the source; a job that raised has none. -/
def RemovePc.stage : RemovePc → ℕ
  | .raised _ => 0
  | .resolving => 1
  | .guarding _ => 2
  | .leaderRead _ => 3
  | .preparing _ => 4
  | .aliasing _ => 5
  | .prechecking _ => 6
  | .canceling _ => 7
  | .starting _ => 8
  | .polling _ _ => 9
  | .deleting _ => 10
  | .settling _ => 11
  | .settleWait _ => 12
  | .porting _ => 13
  | .listing _ _ => 14
  | .removing _ _ => 15
  | .surveying _ => 16
  | .draining _ => 17
  | .done => 18

/-- A step of a job does not skip a point, except before the drain and at the end. -/
def Follows (pc qc : RemovePc) : Prop :=
  qc.stage ≤ pc.stage + 1 ∨ qc.stage ≤ 9 ∨ 14 ≤ pc.stage

theorem follows_proceed {j : RemoveJob} {pc qc : RemovePc} {i : RemoveJob.Input}
    (h : j.proceed pc i = some qc) : Follows pc qc := by
  have hearly : ∀ {pc' : RemovePc}, qc = pc' → pc'.stage ≤ 9 → Follows pc qc := by
    rintro pc' rfl hle
    exact .inr (.inl hle)
  unfold RemoveJob.proceed at h
  split at h <;> first | contradiction | obtain rfl := Option.some.inj h
  · rcases checkLocal_cases _ _ _ with ⟨e, he⟩ | he
    · exact hearly he (by simp [RemovePc.stage])
    · exact hearly he (by simp [RemovePc.stage])
  · exact .inl le_rfl
  · exact .inl le_rfl
  · rcases prechecked_cases _ _ with ⟨e, he⟩ | he | he | he
    all_goals exact hearly he (by simp [RemovePc.stage])
  · exact .inl le_rfl
  · rcases started_cases _ _ with ⟨e, he⟩ | he
    all_goals exact hearly he (by simp [RemovePc.stage])
  · rcases polled_cases _ _ _ with ⟨e, he⟩ | ⟨-, he⟩ | ⟨-, he⟩
    · exact hearly he (by simp [RemovePc.stage])
    · exact hearly he (by simp [RemovePc.stage])
    · left
      rw [he]
      exact le_rfl
  · exact .inl le_rfl
  · split
    · exact .inr (.inl (Nat.zero_le 9))
    · exact .inl le_rfl
  · exact .inr (.inr (by simp [RemovePc.stage]))

theorem follows_attempt {j : RemoveJob} {s u : Etcd} {t v : Thread RemovePc} {a : Attempt}
    (h : j.client.attempt 0 s t a = some (u, v)) :
    Follows t.pc v.pc ∧ (v.pc = t.pc ∨ v.pc.stage = 0 ∨ a = .answered) := by
  obtain ⟨pc, tries⟩ := t
  obtain ⟨qc, tries'⟩ := v
  obtain ⟨r, hr, -, hnext⟩ := Client.attempt_cases j.client h
  dsimp only at hr hnext ⊢
  have hraised : ∀ e, (j.answered pc (.error e)).stage = 0 := by
    intro e
    cases pc <;> rfl
  rcases hnext with rfl | ⟨e, rfl, -⟩ | ⟨y, ha, hy, hv⟩
  · exact ⟨.inl (Nat.le_succ _), .inl rfl⟩
  · refine ⟨.inr (.inl ?_), .inr (.inl (hraised e))⟩
    change (j.answered pc (.error e)).stage ≤ 9
    rw [hraised e]
    exact Nat.zero_le 9
  · refine ⟨?_, .inr (.inr ha)⟩
    have hv' : qc = j.answered pc (.ok y) := hv
    cases pc with
    | resolving =>
        cases hr
        cases hy
        have hqc : qc = resolve j.ip (parseTopology (withPrefix TOPOLOGY_PREFIX s.kv)) := hv'
        rcases resolve_cases j.ip (parseTopology (withPrefix TOPOLOGY_PREFIX s.kv)) with
          ⟨e, he⟩ | ⟨name, -, he⟩
        all_goals
          rw [hqc, he]
          exact .inr (.inl (by simp [RemovePc.stage]))
    | leaderRead name =>
        cases hr
        cases hy
        have hqc : qc = checkLeader j.ip name (s.kv.get "/cluster/leader") := hv'
        rcases checkLeader_cases j.ip name (s.kv.get "/cluster/leader") with ⟨e, he⟩ | he
        all_goals
          rw [hqc, he]
          exact .inr (.inl (by simp [RemovePc.stage]))
    | deleting d =>
        cases hr
        cases hy
        rw [hv']
        exact .inl le_rfl
    | settling d =>
        cases hr
        cases hy
        rw [hv']
        unfold RemoveJob.answered
        dsimp only
        split
        · exact .inr (.inl (Nat.zero_le 9))
        · exact .inl le_rfl
    | listing d needle => exact .inr (.inr le_rfl)
    | removing d memberId => exact .inr (.inr (by simp [RemovePc.stage]))
    | surveying d => exact .inr (.inr (by simp [RemovePc.stage]))
    | _ => cases hr

end MilvusOnprem.RemoveNode
