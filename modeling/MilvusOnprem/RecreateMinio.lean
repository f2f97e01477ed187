import MilvusOnprem.EnvSync
import MilvusOnprem.RemoveNode

/-!
# The answer of /recreate-minio-self

`recreate_minio_local` with the outcomes of its commands as inputs, the route
that answers for it, and the sweep of the leader that looks at the answer. Time is
counted in milliseconds. Commands return whatever they return; only the read of
the topology, its decoding and the two writes of `cluster.env` may raise. The
bucket of a wide pool is left out: its commands are logged and change nothing.
-/
namespace MilvusOnprem.RecreateMinio

open PythonText EtcdClient MilvusOnprem.Topology Joining OrderedPeers TopologyWatcher EnvFile
open EnvSync (orderedPeers)
open RemoveNode (CommandResult)

structure Config where
  nodeName : String
  localIp : String
  rollingMinioHealthyWaitS : ℕ
deriving DecidableEq, Repr

/-- One round of `_wait_minio_healthy`: what `docker inspect` returns, and for how
long it runs. -/
structure Poll where
  result : CommandResult
  took : ℕ
deriving DecidableEq, Repr

/-- What one call of `recreate_minio_local` meets. -/
structure Outcomes where
  scan : Except Exc (List (String × String))
  upsert : Key → Except Exc Unit
  render : CommandResult
  recreate : CommandResult
  polls : ℕ → Poll
  services : CommandResult
  refresh : CommandResult

inductive Event where
  | recreated (rc : ℤ)
  | inspected (healthy : Bool)
  | refreshed (services : List String) (rc : ℤ)
deriving DecidableEq, Repr

/-! ## The recreate -/

/-- `_sync_cluster_env_and_render` with the fresh list as its override. -/
def syncClusterEnvAndRender (c : Config) (o : Outcomes) (ordered : List (String × String)) :
    Except Exc Bool :=
  if ordered = [] then .ok true
  else if c.localIp ≠ "" ∧ c.localIp ∉ ordered.map Prod.snd then .ok true
  else do
    o.upsert PEER_IPS
    o.upsert PEER_NAMES
    .ok (o.render.rc = 0)

/-- What comes before the container is recreated. -/
def prepare (c : Config) (o : Outcomes) : Except Exc Bool := do
  let raw ← o.scan
  let fresh ← orderedPeers (authoritativePeers raw)
  syncClusterEnvAndRender c o fresh

def Poll.healthy (p : Poll) : Bool := p.result.rc = 0 && strip p.result.out = "healthy"

/-- The loop of `_wait_minio_healthy` with this much time left. -/
def waitMinioHealthy (polls : ℕ → Poll) (i : ℕ) (left : ℤ) : List Event × Bool :=
  if 0 < left then
    if (polls i).healthy then ([.inspected true], true)
    else
      let rest := waitMinioHealthy polls (i + 1) (left - (polls i).took - 2000)
      (.inspected false :: rest.1, rest.2)
  else ([], false)
termination_by left.toNat

def wanted : List String :=
  ["mixcoord", "datanode", "querynode", "indexnode", "streamingnode", "proxy"]

/-- `s.split()` -/
def words (s : String) : List String :=
  ((s.toList.splitOnP isSpace).filter fun w => w ≠ []).map String.ofList

/-- `sorted(set(out.split()) & wanted)` -/
def toRecreate (out : String) : List String :=
  (wanted.filter fun s => (words out).contains s).mergeSort

/-- The refresh of the Milvus services. -/
def refreshServices (o : Outcomes) : List Event :=
  if o.services.rc ≠ 0 then []
  else if toRecreate o.services.out = [] then []
  else [.refreshed (toRecreate o.services.out) o.refresh.rc]

def recreateMinioLocal (c : Config) (o : Outcomes) : List Event × Except Exc Unit :=
  match prepare c o with
  | .error e => ([], .error e)
  -- the result of the render is not looked at
  | .ok _ =>
      if o.recreate.rc ≠ 0 then ([.recreated o.recreate.rc], .ok ())
      else
        -- nor is the result of the wait
        let waited := waitMinioHealthy o.polls 0 (1000 * c.rollingMinioHealthyWaitS)
        (.recreated o.recreate.rc :: waited.1 ++ refreshServices o, .ok ())

/-! ## The answer and the sweep -/

structure Response where
  healthy : Bool
  error : Option Exc
deriving DecidableEq, Repr

/-- `post_recreate_minio_self` -/
def postRecreateMinioSelf (c : Config) (o : Outcomes) : Response :=
  match (recreateMinioLocal c o).2 with
  | .ok _ => ⟨true, none⟩
  | .error e => ⟨false, some e⟩

/-- What becomes of a request of the leader: it raises, it is answered by something
else than the route, or the route answers, whatever is in its response. -/
inductive Rpc where
  | errored (text : String)
  | refused (status : ℕ) (text : String)
  | answered (c : Config) (o : Outcomes)

inductive Line where
  | done (name : String)
  | refused (name : String) (status : ℕ) (text : String)
  | errored (name text : String)
deriving DecidableEq, Repr

/-- `_rpc_one`: the status is looked at and the response is not. -/
def rpcOne (name : String) : Rpc → Line
  | .errored text => .errored name text
  | .refused status text =>
      if status ≠ 200 then .refused name status (prefixOf 200 text) else .done name
  | .answered _ _ => .done name

/-- The peers behind the leader in the sweep. -/
def followers (c : Config) (peers : Mirror) : Except Exc (List (String × String)) :=
  (sortedPeers peers.entries).map fun ordered => ordered.filter fun p => p.2 ≠ c.localIp

/-- `_rolling_minio_recreate` for an added peer: the leader first, then the others,
one after the other. -/
def rollingMinioRecreate (c : Config) (own : Outcomes) (peers : Mirror) (rpc : String → Rpc) :
    Except Exc (List Line) := do
  (recreateMinioLocal c own).2
  let behind ← followers c peers
  .ok (behind.map fun p => rpcOne p.1 (rpc p.1))

/-! ## What the answer should say -/

/-- MinIO is back: the recreate returned 0, and then the container was healthy. -/
def Back (events : List Event) : Prop :=
  ∃ before behind, events = before ++ .recreated 0 :: behind ∧ .inspected true ∈ behind

/-- What comes before the recreate does not raise: the topology is read, its
entries are objects with texts for ips, and both lists are written if there is
something to write. -/
def Prepared (c : Config) (o : Outcomes) : Prop :=
  ∃ raw ordered, o.scan = .ok raw ∧ orderedPeers (authoritativePeers raw) = .ok ordered ∧
    (ordered = [] ∨ (c.localIp ≠ "" ∧ c.localIp ∉ ordered.map Prod.snd) ∨
      (o.upsert PEER_IPS = .ok () ∧ o.upsert PEER_NAMES = .ok ()))

/-- The time at which a round of the wait starts. -/
def clock (polls : ℕ → Poll) (i : ℕ) : ℤ := ((List.range i).map fun j => ((polls j).took : ℤ) + 2000).sum

/-- The recreate works, and a round that starts before the limit finds MinIO healthy. -/
def Recovers (c : Config) (o : Outcomes) : Prop :=
  o.recreate.rc = 0 ∧
    ∃ i, clock o.polls i < 1000 * c.rollingMinioHealthyWaitS ∧ (o.polls i).healthy = true

/-- A peer that the leader logs as done has MinIO back. -/
def Rpc.Sound : Rpc → Prop
  | .errored _ => True
  | .refused status _ => status ≠ 200
  | .answered c o => Prepared c o ∧ Recovers c o

/-! ## The wait -/

theorem clock_succ (polls : ℕ → Poll) (i : ℕ) :
    clock polls (i + 1) = clock polls i + ((polls i).took + 2000) := by
  simp [clock, List.range_succ]

theorem clock_mono (polls : ℕ → Poll) {i k : ℕ} (h : i ≤ k) : clock polls i ≤ clock polls k := by
  induction k, h using Nat.le_induction with
  | base => exact le_rfl
  | succ k _ ih =>
      rw [clock_succ]
      omega

/-- The wait finds MinIO healthy in a round that starts in time, or not at all. -/
theorem inspected_wait_iff (polls : ℕ → Poll) (i : ℕ) (left : ℤ) :
    .inspected true ∈ (waitMinioHealthy polls i left).1 ↔
      ∃ k, i ≤ k ∧ clock polls k < clock polls i + left ∧ (polls k).healthy = true := by
  fun_induction waitMinioHealthy polls i left with
  | case1 i left hleft hhealthy => exact iff_of_true (by simp) ⟨i, le_rfl, by omega, hhealthy⟩
  | case2 i left hleft hhealthy rest ih =>
      have hnext := clock_succ polls i
      have hrest : .inspected true ∈ Event.inspected false :: rest.1 ↔ .inspected true ∈ rest.1 := by
        simp
      rw [hrest, ih]
      constructor
      · rintro ⟨k, hk, hclock, hk'⟩
        exact ⟨k, by omega, by omega, hk'⟩
      · rintro ⟨k, hk, hclock, hk'⟩
        have hne : k ≠ i := fun he => hhealthy (he ▸ hk')
        exact ⟨k, by omega, by omega, hk'⟩
  | case3 i left hleft =>
      refine iff_of_false (by simp) ?_
      rintro ⟨k, hk, hclock, -⟩
      have hmono := clock_mono polls hk
      omega

/-! ## The answer -/

variable {c : Config} {o : Outcomes}

theorem sync_iff {ordered : List (String × String)} :
    (∃ ok, syncClusterEnvAndRender c o ordered = .ok ok) ↔
      ordered = [] ∨ (c.localIp ≠ "" ∧ c.localIp ∉ ordered.map Prod.snd) ∨
        (o.upsert PEER_IPS = .ok () ∧ o.upsert PEER_NAMES = .ok ()) := by
  unfold syncClusterEnvAndRender
  split_ifs with hempty hown
  · exact iff_of_true ⟨true, rfl⟩ (.inl hempty)
  · exact iff_of_true ⟨true, rfl⟩ (.inr (.inl hown))
  · rw [or_iff_right hempty, or_iff_right hown]
    cases o.upsert PEER_IPS with
    | error e => simp [bind, Except.bind]
    | ok => cases o.upsert PEER_NAMES <;> simp [bind, Except.bind]

theorem prepare_iff : (∃ ok, prepare c o = .ok ok) ↔ Prepared c o := by
  unfold prepare Prepared
  cases hscan : o.scan with
  | error e => simp [bind, Except.bind]
  | ok raw =>
      cases hordered : orderedPeers (authoritativePeers raw) with
      | error e => simp [bind, Except.bind, hordered]
      | ok ordered =>
          simp only [bind, Except.bind, hordered, sync_iff]
          constructor
          · exact fun h => ⟨raw, ordered, rfl, hordered, h⟩
          · rintro ⟨raw', ordered', hraw, hordered', h⟩
            cases hraw
            cases hordered.symm.trans hordered'
            exact h

theorem recreate_error (h : ¬Prepared c o) : ∃ e, recreateMinioLocal c o = ([], .error e) := by
  unfold recreateMinioLocal
  cases hprepare : prepare c o with
  | error e => exact ⟨e, rfl⟩
  | ok ok => exact absurd (prepare_iff.mp ⟨ok, hprepare⟩) h

theorem recreate_ok (h : Prepared c o) : (recreateMinioLocal c o).2 = .ok () := by
  obtain ⟨ok, hok⟩ := prepare_iff.mpr h
  unfold recreateMinioLocal
  rw [hok]
  dsimp only
  split_ifs <;> rfl

theorem not_inspected_refresh (o : Outcomes) (healthy : Bool) :
    .inspected healthy ∉ refreshServices o := by
  unfold refreshServices
  split_ifs <;> simp

/-- MinIO is back after a call exactly if nothing before the recreate raises, the
recreate works and a round of the wait finds it healthy. -/
theorem back_iff : Back (recreateMinioLocal c o).1 ↔ Prepared c o ∧ Recovers c o := by
  by_cases hprepared : Prepared c o
  · obtain ⟨ok, hok⟩ := prepare_iff.mpr hprepared
    have hclock : clock o.polls 0 = 0 := rfl
    unfold recreateMinioLocal
    rw [hok]
    dsimp only
    split_ifs with hrc
    · refine iff_of_false ?_ fun h => hrc h.2.1
      rintro ⟨before, behind, hevents, hhealthy⟩
      cases before with
      | nil => exact hrc (by simpa using (List.cons.inj hevents).1)
      | cons e before => simp at hevents
    · rw [not_not] at hrc
      have hwait := inspected_wait_iff o.polls 0 (1000 * c.rollingMinioHealthyWaitS)
      have hback : Back (.recreated o.recreate.rc :: (waitMinioHealthy o.polls 0
          (1000 * c.rollingMinioHealthyWaitS)).1 ++ refreshServices o) ↔
          .inspected true ∈ (waitMinioHealthy o.polls 0 (1000 * c.rollingMinioHealthyWaitS)).1 := by
        constructor
        · rintro ⟨before, behind, hevents, hhealthy⟩
          have hmem : .inspected true ∈ Event.recreated o.recreate.rc :: (waitMinioHealthy o.polls 0
              (1000 * c.rollingMinioHealthyWaitS)).1 ++ refreshServices o := by
            rw [hevents]
            exact List.mem_append_right _ (List.mem_cons_of_mem _ hhealthy)
          simpa [not_inspected_refresh] using hmem
        · intro hmem
          exact ⟨[], _, by rw [hrc]; rfl, List.mem_append_left _ hmem⟩
      rw [hback, hwait]
      simp only [Recovers, hprepared, hrc, hclock, zero_add, Nat.zero_le, true_and]
  · obtain ⟨e, he⟩ := recreate_error hprepared
    rw [he]
    refine iff_of_false ?_ fun h => hprepared h.1
    rintro ⟨before, behind, hevents, -⟩
    simp at hevents

theorem healthy_iff : (postRecreateMinioSelf c o).healthy = true ↔ Prepared c o := by
  by_cases hprepared : Prepared c o
  · simp [postRecreateMinioSelf, recreate_ok hprepared, hprepared]
  · obtain ⟨e, he⟩ := recreate_error hprepared
    simp [postRecreateMinioSelf, he, hprepared]

theorem rpcOne_done {name name' : String} {r : Rpc} :
    rpcOne name r = .done name' ↔
      name = name' ∧ ((∃ c o, r = .answered c o) ∨ ∃ text, r = .refused 200 text) := by
  cases r with
  | errored text => simp [rpcOne]
  | refused status text =>
      by_cases hstatus : status = 200 <;> simp [rpcOne, hstatus]
  | answered c o => simp [rpcOne]

/-- The route answers that MinIO is healthy only when it is back, exactly if the
recreate works and MinIO gets healthy in time wherever nothing before raises. The
leader logs only peers as done whose MinIO is back, exactly if this is so at every
peer whose answer it gets and nothing else answers with 200. -/
theorem answers_right_iff (c : Config) (o own : Outcomes) (peers : Mirror) (rpc : String → Rpc) :
    (((postRecreateMinioSelf c o).healthy = true → Back (recreateMinioLocal c o).1) ↔
      (Prepared c o → Recovers c o)) ∧
    ((∀ lines, rollingMinioRecreate c own peers rpc = .ok lines → ∀ name, .done name ∈ lines →
        ∃ c' o', rpc name = .answered c' o' ∧ Back (recreateMinioLocal c' o').1) ↔
      (Prepared c own → ∀ behind, followers c peers = .ok behind → ∀ p ∈ behind, (rpc p.1).Sound)) := by
  refine ⟨?_, ?_⟩
  · rw [healthy_iff, back_iff]
    exact ⟨fun h hp => (h hp).2, fun h hp => ⟨hp, h hp⟩⟩
  · unfold rollingMinioRecreate
    by_cases hown : Prepared c own
    · cases hbehind : followers c peers with
      | error e => simp [recreate_ok hown, bind, Except.bind]
      | ok behind =>
          simp only [recreate_ok hown, bind, Except.bind, Except.ok.injEq, forall_eq', hown,
            forall_const, List.mem_map]
          constructor
          · intro h p hp
            cases hrpc : rpc p.1 with
            | errored text => trivial
            | refused status text =>
                rintro rfl
                obtain ⟨c', o', he, -⟩ := h p.1 ⟨p, hp, by rw [hrpc]; rfl⟩
                rw [hrpc] at he
                cases he
            | answered c' o' =>
                obtain ⟨c'', o'', he, hback⟩ := h p.1 ⟨p, hp, by rw [hrpc]; rfl⟩
                rw [hrpc] at he
                cases he
                exact back_iff.mp hback
          · rintro h name ⟨p, hp, hdone⟩
            obtain ⟨rfl, ⟨c', o', he⟩ | ⟨text, he⟩⟩ := rpcOne_done.mp hdone
            · have hsound := h p hp
              rw [he] at hsound
              exact ⟨c', o', he, back_iff.mpr hsound⟩
            · have hsound := h p hp
              rw [he] at hsound
              exact absurd rfl hsound
    · obtain ⟨e, he⟩ := recreate_error hown
      simp [he, bind, Except.bind, hown]

/-! ## A recreate that fails -/

def leaderConfig : Config := ⟨"node-1", "10.0.0.1", 90⟩

def followerConfig : Config := ⟨"node-2", "10.0.0.2", 90⟩

def pairScan : List (String × String) :=
  [(TOPOLOGY_PREFIX ++ "node-1", EnvSync.peerText "node-1" "10.0.0.1"),
    (TOPOLOGY_PREFIX ++ "node-2", EnvSync.peerText "node-2" "10.0.0.2")]

/-- Everything works, and the container is healthy at the first look. -/
def working : Outcomes :=
  ⟨.ok pairScan, fun _ => .ok (), ⟨0, "", ""⟩, ⟨0, "", ""⟩, fun _ => ⟨⟨0, "healthy\n", ""⟩, 100⟩,
    ⟨0, "etcd\nminio\n", ""⟩, ⟨0, "", ""⟩⟩

/-- The recreate of the container fails. -/
def failing : Outcomes := { working with recreate := ⟨1, "", "no such service: minio"⟩ }

theorem done_after_failure :
    (postRecreateMinioSelf followerConfig failing).healthy = true ∧
      ¬Back (recreateMinioLocal followerConfig failing).1 ∧
      rollingMinioRecreate leaderConfig working (authoritativePeers pairScan)
        (fun _ => .answered followerConfig failing) = .ok [.done "node-2"] := by
  have hordered : orderedPeers (authoritativePeers pairScan) =
      .ok [("node-1", "10.0.0.1"), ("node-2", "10.0.0.2")] := by
    decide +kernel
  have hfollower : Prepared followerConfig failing :=
    ⟨pairScan, _, rfl, hordered, .inr (.inr ⟨rfl, rfl⟩)⟩
  have hleader : Prepared leaderConfig working :=
    ⟨pairScan, _, rfl, hordered, .inr (.inr ⟨rfl, rfl⟩)⟩
  have hbehind : followers leaderConfig (authoritativePeers pairScan) =
      .ok [("node-2", "10.0.0.2")] := by
    decide +kernel
  refine ⟨healthy_iff.mpr hfollower, fun hback => ?_, ?_⟩
  · exact absurd (back_iff.mp hback).2.1 (by decide)
  · simp only [rollingMinioRecreate, recreate_ok hleader, hbehind, bind, Except.bind, List.map_cons,
      List.map_nil, rpcOne]

end MilvusOnprem.RecreateMinio
