import MilvusOnprem.Joining
import MilvusOnprem.RemoveNode
import MilvusOnprem.GuardedRuns

/-!
# Joins, removals and the bootstrap peer over one etcd

The daemons share one etcd. On each of them join requests are handled under a
lock of that process, and only while its leader flag is set; remove-node jobs
run beside them. The bootstrap peer's daemon registers itself in the topology
when it starts. A daemon can crash, which cuts off its calls and jobs. Every
attempt of a call to etcd is a step of its own, so the parties interleave in any
order; an attempt is not applied after the step in which it ends.

A live peer is the bootstrap peer or the holder of a join result. A remove-node
job removes the peer with its ip when its delete reaches etcd. Which peers are
live is recorded for the statements only; no step reads it.
-/
namespace MilvusOnprem.Cluster

open EtcdClient MilvusOnprem.Topology Joining RemoveNode

/-! ## The registration of the bootstrap peer -/

/-- The points of `_register_self_if_absent`; its exceptions are swallowed. -/
inductive RegisterPc where
  | looking
  | stamping
  | writing (info : String)
  | ended
deriving DecidableEq, Repr

def registerKey (config : DaemonConfig) : String := TOPOLOGY_PREFIX ++ config.nodeName

def registerInfo (config : DaemonConfig) (now : Decimal) : String :=
  JsonText.dumps (.obj [("name", .str config.nodeName), ("ip", .str config.localIp),
    ("joined_at", .float now), ("role", .str "peer")])

def registerClient (config : DaemonConfig) : Client RegisterPc where
  request
    | .looking => some (.get (registerKey config))
    | .writing info => some (.putIfAbsent (registerKey config) info)
    | .stamping | .ended => none
  answered
    | .looking, .ok (.value none) => .stamping
    | _, _ => .ended

/-! ## The cluster -/

structure JoinSlot where
  daemon : ℕ
  call : JoinCall
  thread : Thread JoinPc
deriving DecidableEq

structure RemovalSlot where
  daemon : ℕ
  job : RemoveJob
  thread : Thread RemovePc
deriving DecidableEq

structure Peer where
  name : String
  ip : String
deriving DecidableEq, Repr

structure World where
  etcd : Etcd
  isLeader : ℕ → Bool
  joins : OrderedMap ℕ JoinSlot
  removals : OrderedMap ℕ RemovalSlot
  bootstrap : DaemonConfig
  registration : Thread RegisterPc
  bootstrapLive : Bool
  holders : List Peer

inductive Act where
  | setLeader (d : ℕ) (flag : Bool)
  | startJoin (id d : ℕ) (call : JoinCall)
  | joinInput (id : ℕ) (i : JoinCall.Input)
  | joinAttempt (id newId : ℕ) (a : Attempt)
  | startRemoval (id d : ℕ) (job : RemoveJob)
  | removalInput (id : ℕ) (i : RemoveJob.Input)
  | removalAttempt (id : ℕ) (a : Attempt)
  | crash (d : ℕ)
  | bootstrapStarts
  | registerTime (now : Decimal)
  | registerAttempt (a : Attempt)
  | memberStarts (memberId : ℕ) (name : String)
deriving DecidableEq, Repr

/-- A call that holds the join lock of its daemon. -/
def holdsLock : JoinPc → Bool
  | .queued | .returned _ | .raised _ => false
  | _ => true

def lockFree (joins : OrderedMap ℕ JoinSlot) (d : ℕ) : Bool :=
  joins.entries.all fun e => !(e.2.daemon = d && holdsLock e.2.thread.pc)

/-- The peer a call hands its result to. -/
def newHolder : JoinPc → List Peer
  | .returned r => [⟨r.nodeName, r.localIp⟩]
  | _ => []

/-- A call goes on from a new point; a result makes its receiver a live peer. -/
def moveJoin (w : World) (id : ℕ) (slot : JoinSlot) (s : Etcd) (t : Thread JoinPc) : World :=
  { w with
    etcd := s
    joins := w.joins.put id { slot with thread := t }
    holders := newHolder t.pc ++ w.holders }

def startMember (memberId : ℕ) (name : String) (m : Member) : Member :=
  if m.id = memberId then { m with name := name } else m

/-- The ips whose peers a step of a job removes. -/
def removedIps (slot : RemovalSlot) (a : Attempt) : List String :=
  match slot.thread.pc with
  | .deleting _ => if a.reaches then [slot.job.ip] else []
  | _ => []

def step (w : World) : Act → Option World
  | .setLeader d flag => some { w with isLeader := Function.update w.isLeader d flag }
  | .startJoin id d call =>
      if w.isLeader d ∧ w.joins.get id = none then
        some { w with joins := w.joins.put id ⟨d, call, ⟨call.start, 0⟩⟩ }
      else none
  | .joinInput id i =>
      match w.joins.get id with
      | none => none
      | some slot =>
          if slot.thread.pc = .queued ∧ lockFree w.joins slot.daemon = false then none
          else (slot.call.proceed slot.thread.pc i).map fun pc => moveJoin w id slot w.etcd ⟨pc, 0⟩
  | .joinAttempt id newId a =>
      match w.joins.get id with
      | none => none
      | some slot =>
          if w.etcd.members.any (fun m => m.id = newId) then none
          else (slot.call.client.attempt newId w.etcd slot.thread a).map fun r =>
            moveJoin w id slot r.1 r.2
  | .startRemoval id d job =>
      if w.removals.get id = none then
        some { w with removals := w.removals.put id ⟨d, job, ⟨.resolving, 0⟩⟩ }
      else none
  | .removalInput id i =>
      match w.removals.get id with
      | none => none
      | some slot =>
          (slot.job.proceed slot.thread.pc i).map fun pc =>
            { w with removals := w.removals.put id { slot with thread := ⟨pc, 0⟩ } }
  | .removalAttempt id a =>
      match w.removals.get id with
      | none => none
      | some slot =>
          (slot.job.client.attempt 0 w.etcd slot.thread a).map fun r =>
            { w with
              etcd := r.1
              removals := w.removals.put id { slot with thread := r.2 }
              bootstrapLive := w.bootstrapLive && w.bootstrap.localIp ∉ removedIps slot a
              holders := w.holders.filter fun p => p.ip ∉ removedIps slot a }
  | .crash d =>
      some { w with
        joins := w.joins.filterValues fun slot => slot.daemon ≠ d
        removals := w.removals.filterValues fun slot => slot.daemon ≠ d }
  | .bootstrapStarts => some { w with registration := ⟨.looking, 0⟩ }
  | .registerTime now =>
      if w.registration.pc = .stamping then
        some { w with registration := ⟨.writing (registerInfo w.bootstrap now), 0⟩ }
      else none
  | .registerAttempt a =>
      ((registerClient w.bootstrap).attempt 0 w.etcd w.registration a).map fun r =>
        { w with etcd := r.1, registration := r.2 }
  | .memberStarts memberId name =>
      some { w with etcd := ⟨w.etcd.kv, w.etcd.members.map (startMember memberId name)⟩ }

/-- A cluster before any request: the topology prefix, the membership and the
leader flags are arbitrary, and the bootstrap peer's daemon starts. -/
def fresh (etcd : Etcd) (isLeader : ℕ → Bool) (bootstrap : DaemonConfig) : World :=
  ⟨etcd, isLeader, .empty, .empty, bootstrap, ⟨.looking, 0⟩, true, []⟩

/-- The live peers. -/
def World.live (w : World) : List Peer :=
  (if w.bootstrapLive then [⟨w.bootstrap.nodeName, w.bootstrap.localIp⟩] else []) ++ w.holders

/-! ## What a step can do -/

inductive Steps (w : World) : Act → World → Prop
  | setLeader {d flag} :
      Steps w (.setLeader d flag) { w with isLeader := Function.update w.isLeader d flag }
  | startJoin {id d call} : w.isLeader d = true → w.joins.get id = none →
      Steps w (.startJoin id d call)
        { w with joins := w.joins.put id ⟨d, call, ⟨call.start, 0⟩⟩ }
  | joinInput {id i slot pc} : w.joins.get id = some slot →
      (slot.thread.pc = .queued → lockFree w.joins slot.daemon = true) →
      slot.call.Proceeds slot.thread.pc i pc →
      Steps w (.joinInput id i) (moveJoin w id slot w.etcd ⟨pc, 0⟩)
  | joinAttempt {id newId a slot s t} : w.joins.get id = some slot →
      (∀ m ∈ w.etcd.members, m.id ≠ newId) →
      slot.call.Attempts newId slot.thread.tries w.etcd slot.thread.pc a s t.pc →
      Steps w (.joinAttempt id newId a) (moveJoin w id slot s t)
  | startRemoval {id d job} : w.removals.get id = none →
      Steps w (.startRemoval id d job)
        { w with removals := w.removals.put id ⟨d, job, ⟨.resolving, 0⟩⟩ }
  | removalInput {id i slot pc} : w.removals.get id = some slot →
      slot.job.proceed slot.thread.pc i = some pc →
      Steps w (.removalInput id i)
        { w with removals := w.removals.put id { slot with thread := ⟨pc, 0⟩ } }
  | removalAttempt {id a slot s t} : w.removals.get id = some slot →
      slot.job.client.attempt 0 w.etcd slot.thread a = some (s, t) →
      Steps w (.removalAttempt id a)
        { w with
          etcd := s
          removals := w.removals.put id { slot with thread := t }
          bootstrapLive := w.bootstrapLive && w.bootstrap.localIp ∉ removedIps slot a
          holders := w.holders.filter fun p => p.ip ∉ removedIps slot a }
  | crash {d} : Steps w (.crash d)
      { w with
        joins := w.joins.filterValues fun slot => slot.daemon ≠ d
        removals := w.removals.filterValues fun slot => slot.daemon ≠ d }
  | bootstrapStarts : Steps w .bootstrapStarts { w with registration := ⟨.looking, 0⟩ }
  | registerTime {now} : w.registration.pc = .stamping →
      Steps w (.registerTime now)
        { w with registration := ⟨.writing (registerInfo w.bootstrap now), 0⟩ }
  | registerAttempt {a s t} : (registerClient w.bootstrap).attempt 0 w.etcd w.registration a =
        some (s, t) →
      Steps w (.registerAttempt a) { w with etcd := s, registration := t }
  | memberStarts {memberId name} : Steps w (.memberStarts memberId name)
      { w with etcd := ⟨w.etcd.kv, w.etcd.members.map (startMember memberId name)⟩ }

theorem steps_of_step {w v : World} {act : Act} (h : step w act = some v) : Steps w act v := by
  cases act with
  | setLeader d flag =>
      cases h
      exact .setLeader
  | startJoin id d call =>
      simp only [step] at h
      split_ifs at h with hstart
      cases h
      exact .startJoin hstart.1 hstart.2
  | joinInput id i =>
      simp only [step] at h
      split at h
      · cases h
      · next slot hslot =>
          split_ifs at h with hlock
          obtain ⟨pc, hpc, hv⟩ := Option.map_eq_some_iff.mp h
          subst hv
          refine .joinInput hslot ?_ (JoinCall.proceeds_of_proceed hpc)
          intro hqueued
          simpa [hqueued] using hlock
  | joinAttempt id newId a =>
      simp only [step] at h
      split at h
      · cases h
      · next slot hslot =>
          split_ifs at h with hnew
          obtain ⟨r, hr, hv⟩ := Option.map_eq_some_iff.mp h
          subst hv
          refine .joinAttempt hslot ?_ (JoinCall.attempts_of_attempt hr)
          simpa using hnew
  | startRemoval id d job =>
      simp only [step] at h
      split_ifs at h with hid
      cases h
      exact .startRemoval hid
  | removalInput id i =>
      simp only [step] at h
      split at h
      · cases h
      · next slot hslot =>
          obtain ⟨pc, hpc, hv⟩ := Option.map_eq_some_iff.mp h
          subst hv
          exact .removalInput hslot hpc
  | removalAttempt id a =>
      simp only [step] at h
      split at h
      · cases h
      · next slot hslot =>
          obtain ⟨r, hr, hv⟩ := Option.map_eq_some_iff.mp h
          subst hv
          exact .removalAttempt hslot hr
  | crash d =>
      cases h
      exact .crash
  | bootstrapStarts =>
      cases h
      exact .bootstrapStarts
  | registerTime now =>
      simp only [step] at h
      split_ifs at h with hpc
      cases h
      exact .registerTime hpc
  | registerAttempt a =>
      obtain ⟨r, hr, hv⟩ := Option.map_eq_some_iff.mp h
      subst hv
      exact .registerAttempt hr
  | memberStarts memberId name =>
      cases h
      exact .memberStarts

/-! ## Names a call stands on -/

/-- The name a call stands on: its entry is in the topology, and the call may
still return it. -/
def claimedName : JoinPc → Option String
  | .rejoining name _ | .building name _ | .adding name _ => some name
  | _ => none

/-- No call but `id` stands on the name. -/
def unclaimed (w : World) (id : Option ℕ) (name : String) : Bool :=
  w.joins.entries.all fun e => some e.1 = id || claimedName e.2.thread.pc ≠ some name

theorem unclaimed_spec {w : World} {id : Option ℕ} {name : String}
    (h : unclaimed w id name = true) {id' : ℕ} {slot : JoinSlot}
    (hslot : w.joins.get id' = some slot) (hne : some id' ≠ id) :
    claimedName slot.thread.pc ≠ some name := by
  have hm := List.all_eq_true.mp h _ (OrderedMap.mem_entries.mpr hslot)
  simp only [Bool.or_eq_true, decide_eq_true_eq] at hm
  exact hm.resolve_left hne

/-- Creating an entry only adds to the topology. -/
theorem putIfAbsent_grows (newId : ℕ) (s : Etcd) (name value : String) {m ip : String}
    (h : peerIp s.kv m = some ip) :
    peerIp (serve newId s (.putIfAbsent (TOPOLOGY_PREFIX ++ name) value)).1.kv m = some ip := by
  rw [serve_putIfAbsent]
  split_ifs with hnone
  · have hne : name ≠ m := by
      intro he
      rw [← he, peerIp_of_get_none hnone] at h
      cases h
    rw [peerIp_put, if_neg hne, h]
  · exact h

/-- A create that meets a free key or the call's own entry leaves the call's
entry in the topology. -/
theorem putIfAbsent_creates (newId : ℕ) {s : Etcd} {name value ip : String}
    (hv : textIp value = some ip)
    (hfree : s.kv.get (TOPOLOGY_PREFIX ++ name) = none ∨ peerIp s.kv name = some ip) :
    peerIp (serve newId s (.putIfAbsent (TOPOLOGY_PREFIX ++ name) value)).1.kv name = some ip := by
  rw [serve_putIfAbsent]
  split_ifs with hnone
  · rw [peerIp_put, if_pos rfl, hv]
  · exact hfree.resolve_left hnone

/-! ## Runs of a small cluster -/

/-- A join in which every call to etcd is answered; the new member then starts. -/
def joins (id newId : ℕ) (ip : String) : List Act :=
  [.startJoin id 1 ⟨bootConfig, ip, none⟩, .joinInput id (.acquired 0),
    .joinInput id (.monotonic 0), .joinAttempt id newId .answered,
    .joinAttempt id newId .answered, .joinInput id (.time ⟨1, 0⟩),
    .joinAttempt id newId .answered, .joinInput id (.clusterEnv (some "") ""),
    .joinAttempt id newId .answered, .memberStarts newId "started"]

end MilvusOnprem.Cluster
