import MilvusOnprem.Jobs
import MilvusOnprem.OrderedPeers

/-!
# The watchdog of the other peers

`PeerReachabilityWatchdog` of `watchdog.py`: what one probe does to the counters
of a daemon and to its set of peers for which it has already migrated Pulsar, and
when it submits a migrate-pulsar job. The clock is read once for each probe.
-/
namespace MilvusOnprem.PeerWatchdog

open PythonText ClusterEnv MilvusOnprem.Topology OrderedPeers
open Joining (nodeSortKey keyLe)
open Jobs (nanoseconds)

/-- What the watchdog reads of the configuration. -/
structure WatchConfig where
  nodeName : String
  localIp : String
  peerFailureThreshold : ℤ
  autoMigratePulsarOnHostFailure : Bool
  autoMigratePulsarThreshold : ℤ

/-- The lines that the watchdog prints. -/
inductive Alert where
  | peerUp (ts : ℤ) (node : String) (ip : Json) (wasDownForS : ℤ)
  | peerDown (ts : ℤ) (node : String) (ip : Json) (consecutiveFailures : ℕ)
  | autoMigratePulsar (ts : ℤ) (source target jobId : String)

/-- What a watchdog remembers between its probes. -/
structure Watch where
  consecutiveMisses : String → ℕ
  downSince : String → Option ℤ
  migratedWhileDown : List String

def Watch.fresh : Watch := ⟨fun _ => 0, fun _ => none, []⟩

/-- `int(t)` of a time in nanoseconds -/
def seconds (t : ℤ) : ℤ := t.tdiv (nanoseconds 1)

namespace Watch

/-- The flag that keeps the same outage from firing again. -/
def mark (w : Watch) (name : String) : Watch :=
  { w with migratedWhileDown := name :: w.migratedWhileDown }

def discard (w : Watch) (name : String) : Watch :=
  { w with migratedWhileDown := w.migratedWhileDown.filter fun n => n ≠ name }

/-- The probe was answered. -/
def answered (w : Watch) (c : WatchConfig) (now : ℤ) (name : String) (ip : Json) :
    Watch × List Alert :=
  let up := c.peerFailureThreshold ≤ w.consecutiveMisses name
  (Watch.discard { w with
      consecutiveMisses := Function.update w.consecutiveMisses name 0
      downSince := if up then Function.update w.downSince name none else w.downSince } name,
    if up then
      [.peerUp (seconds now) name ip (seconds (now - (w.downSince name).getD now))]
    else [])

/-- The probe was missed. -/
def missed (w : Watch) (c : WatchConfig) (now : ℤ) (name : String) (ip : Json) :
    Watch × List Alert :=
  let misses := w.consecutiveMisses name + 1
  let down := misses = c.peerFailureThreshold
  ({ w with
      consecutiveMisses := Function.update w.consecutiveMisses name misses
      downSince := if down then Function.update w.downSince name (some now) else w.downSince },
    if down then [.peerDown (seconds now) name ip misses] else [])

/-- The gate before `_maybe_auto_migrate_pulsar`. -/
def passes (w : Watch) (c : WatchConfig) (isLeader : Bool) (name : String) : Bool :=
  c.autoMigratePulsarOnHostFailure && isLeader && !w.migratedWhileDown.contains name &&
    c.autoMigratePulsarThreshold ≤ w.consecutiveMisses name

end Watch

/-- The queue as the watchdog derives it. -/
def mqType (file : Option String) : String :=
  let explicit := readClusterEnvValue file "MQ_TYPE" ""
  if explicit ≠ "" then explicit
  else if startsWith (readClusterEnvValue file "MILVUS_IMAGE_TAG" "") "v2.5" then "pulsar"
  else "woodpecker"

/-- The own file has the peer as the host of Pulsar. -/
def hostsPulsar (file : Option String) (name : String) : Bool :=
  mqType file = "pulsar" && readClusterEnvValue file "PULSAR_HOST" "node-1" = name

/-- The peers other than the down one that have an ip, in the order of the nodes. -/
def survivors (downName : String) (peers : List (String × Json)) : Except Exc (List String) :=
  (withIps (peers.filter fun p => p.1 ≠ downName)).map fun ips =>
    (ips.map Prod.fst).insertionSort fun a b => keyLe (nodeSortKey a) (nodeSortKey b) = true

/-- `_maybe_auto_migrate_pulsar` up to its submission: the target, if there is one. -/
def migrationTarget (file : Option String) (peers : List (String × Json)) (downName : String) :
    Except Exc (Option String) :=
  if hostsPulsar file downName then (survivors downName peers).map List.head? else .ok none

/-- Where the watchdog submits a migration to. An error on the way to the
submission is logged, and the tick goes on. -/
def Watch.submits (w : Watch) (c : WatchConfig) (isLeader : Bool) (file : Option String)
    (peers : List (String × Json)) (name : String) : Option String :=
  if w.passes c isLeader name then
    match migrationTarget file peers name with
    | .ok target => target
    | .error _ => none
  else none

/-- `await self._jobs_mgr.create("migrate-pulsar", …)` -/
def migrateJob (id node target : String) (now : ℤ) : Jobs.Job :=
  Jobs.pendingJob id node "migrate-pulsar"
    [("to_node", .str target), ("force_when_old_host_dead", .bool true)] now

/-! ## The flag -/

variable {w : Watch} {c : WatchConfig}

@[simp] theorem missed_migrated (now : ℤ) (name : String) (ip : Json) :
    (w.missed c now name ip).1.migratedWhileDown = w.migratedWhileDown := rfl

@[simp] theorem mem_discard {name n : String} :
    n ∈ (w.discard name).migratedWhileDown ↔ n ∈ w.migratedWhileDown ∧ n ≠ name := by
  simp [Watch.discard]

@[simp] theorem mem_answered {now : ℤ} {name n : String} {ip : Json} :
    n ∈ (w.answered c now name ip).1.migratedWhileDown ↔ n ∈ w.migratedWhileDown ∧ n ≠ name := by
  simp [Watch.answered]

/-- The gate stays closed while the flag is set. -/
theorem passes_of_migrated {isLeader : Bool} {name : String} (h : name ∈ w.migratedWhileDown) :
    w.passes c isLeader name = false := by
  simp [Watch.passes, h]

/-- A submission needs the gate and the host in the own file. -/
theorem of_submits {isLeader : Bool} {file : Option String} {peers : List (String × Json)}
    {name target : String} (h : w.submits c isLeader file peers name = some target) :
    w.passes c isLeader name = true ∧ hostsPulsar file name = true := by
  unfold Watch.submits migrationTarget at h
  constructor
  · by_contra hpasses
    rw [if_neg hpasses] at h
    cases h
  · by_contra hhosts
    rw [if_neg hhosts] at h
    split_ifs at h

end MilvusOnprem.PeerWatchdog
