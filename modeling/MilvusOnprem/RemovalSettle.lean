import MilvusOnprem.RemoveNode
import MilvusOnprem.OrderedPeers

/-!
# The wait of a removal for its survivors

One remove-node job and the daemons of all peers. The delete of the job reaches
every daemon as an event of its watch. The handler renders under the lock of the
daemon, and on a leader it recreates the own MinIO and requests the recreate of
every other peer, which waits for the lock of that peer. The job meanwhile asks
`/health` of every survivor in rounds, and the endpoint needs no lock.

Other holders of a lock and other writers of the store act in between. The
clock is read by the job, at any pace.
-/
namespace MilvusOnprem.RemovalSettle

open EtcdClient MilvusOnprem.Topology RemoveNode OrderedPeers GuardedRuns

/-! ## The recreate on one peer -/

/-- The event of the delete at one daemon. -/
inductive EventStage where
  | undelivered
  | queued
  | rendering
  | recreating
  | calling
  | handled
deriving DecidableEq, Repr

/-- The leader's request to recreate MinIO at one daemon. -/
inductive RequestStage where
  | none
  | queued
  | recreating
deriving DecidableEq, Repr

inductive Holder where
  | handler
  | request
  | other
deriving DecidableEq, Repr

structure Daemon where
  event : EventStage
  request : RequestStage
  lock : Option Holder
  finished : Bool
deriving DecidableEq, Repr

/-- `rendered` tells whether the render succeeded and whether the daemon leads
then; a recreate is finished when it returns, whether it worked or not. -/
inductive DaemonAct where
  | deliver
  | dispatch
  | rendered (ok isLeader : Bool)
  | recreated
  | swept
  | arrives
  | serve
  | served
  | take
  | free
  | restart
deriving DecidableEq, Repr

def Daemon.step (d : Daemon) : DaemonAct → Option Daemon
  | .deliver => if d.event = .undelivered then some { d with event := .queued } else none
  | .dispatch =>
      if d.event = .queued ∧ d.lock = none then
        some { d with event := .rendering, lock := some .handler }
      else none
  | .rendered ok isLeader =>
      if d.event = .rendering then
        if ok ∧ isLeader then some { d with event := .recreating }
        else some { d with event := .handled, lock := none }
      else none
  | .recreated =>
      if d.event = .recreating then some { d with event := .calling, finished := true } else none
  | .swept => if d.event = .calling then some { d with event := .handled, lock := none } else none
  | .arrives => if d.request = .none then some { d with request := .queued } else none
  | .serve =>
      if d.request = .queued ∧ d.lock = none then
        some { d with request := .recreating, lock := some .request }
      else none
  | .served =>
      if d.request = .recreating then
        some { d with request := .none, lock := none, finished := true }
      else none
  | .take => if d.lock = none then some { d with lock := some .other } else none
  | .free => if d.lock = some .other then some { d with lock := none } else none
  -- the watch of a new process does not bring the event again
  | .restart => some { d with event := .handled, request := .none, lock := none }

/-! ## The job -/

/-- The line that the wait logs for a survivor that answers. -/
def settledLine (name ip : String) : String := "  " ++ name ++ " @ " ++ ip ++ ": settled"

/-- The line that it logs at the deadline. -/
def timedOutLine (pending : List (String × String)) : String :=
  "WARN: timed out waiting for " ++
    (PythonText.join ", " (pending.map fun p => p.1 ++ " (" ++ p.2 ++ ")") ++ " to settle after " ++
      "topology delete. The cluster may still finish " ++
      "converging on its own; if a survivor's MinIO crash-loops " ++
      "with 'pool decommissioned', recreate it manually with " ++
      "`docker compose --project-name <name> -f " ++
      "rendered/<name>/docker-compose.yml up -d --force-recreate " ++
      "--no-deps minio`.")

/-- Where `_wait_minio_settled_after_remove` is: about to compute the deadline, at
the condition of the loop, in a round, or over. -/
inductive Wait where
  | starting
  | looping (deadline : ℕ) (pending : List (String × String))
  | probing (deadline : ℕ) (pending todo : List (String × String))
  | over
deriving DecidableEq, Repr

structure World where
  etcd : Etcd
  thread : Thread RemovePc
  deleted : Bool
  survivors : List (String × String)
  wait : Wait
  log : List String
  daemon : String → Daemon

inductive Act where
  | attempt (a : Attempt)
  | input (i : RemoveJob.Input)
  | clock (now : ℕ)
  | probe (healthy : Bool)
  | round
  | daemon (ip : String) (a : DaemonAct)
  | call (leader ip : String)
  | others (etcd : Etcd)

def timeout : ℕ := 180

/-- The survivors of a read, as the wait names them. -/
def survivorsOf (ip : String) (kvs : List (String × String)) : List (String × String) :=
  match survivors ip kvs with
  | .ok peers => peers.map fun p => (p.1, ipText p.2)
  | .error _ => []

def isSettleWait : RemovePc → Bool
  | .settleWait _ => true
  | _ => false

/-- The wait is over and the job goes on. -/
def World.leave (w : World) (j : RemoveJob) (log : List String) : Option World :=
  (j.proceed w.thread.pc .settled).map fun pc =>
    { w with thread := ⟨pc, 0⟩, wait := .over, log := log }

def step (j : RemoveJob) (w : World) : Act → Option World
  | .attempt a =>
      (j.client.attempt 0 w.etcd w.thread a).map fun r =>
        let v := { w with
          etcd := r.1
          thread := r.2
          deleted := w.deleted || (match w.thread.pc with
            | .deleting _ => a.reaches
            | _ => false) }
        if isSettleWait r.2.pc then
          { v with
            survivors := survivorsOf j.ip (withPrefix TOPOLOGY_PREFIX w.etcd.kv)
            wait := .starting }
        else v
  | .input i =>
      if isSettleWait w.thread.pc then none
      else (j.proceed w.thread.pc i).map fun pc => { w with thread := ⟨pc, 0⟩ }
  | .clock now =>
      if isSettleWait w.thread.pc then
        match w.wait with
        | .starting => some { w with wait := .looping (now + timeout) w.survivors }
        | .looping deadline pending =>
            if now < deadline then some { w with wait := .probing deadline pending pending }
            else w.leave j (if pending = [] then w.log else w.log ++ [timedOutLine pending])
        | _ => none
      else none
  | .probe healthy =>
      match w.wait with
      | .probing deadline pending (p :: todo) =>
          if healthy then
            some { w with
              wait := .probing deadline (pending.filter fun q => q ≠ p) todo
              log := w.log ++ [settledLine p.1 p.2] }
          else some { w with wait := .probing deadline pending todo }
      | _ => none
  | .round =>
      match w.wait with
      | .probing deadline pending [] =>
          if pending = [] then w.leave j w.log else some { w with wait := .looping deadline pending }
      | _ => none
  | .daemon ip a =>
      if a = .deliver ∧ w.deleted = false ∨ a = .arrives then none
      else
        ((w.daemon ip).step a).map fun d => { w with daemon := Function.update w.daemon ip d }
  | .call leader ip =>
      if (w.daemon leader).event = .calling then
        ((w.daemon ip).step .arrives).map fun d =>
          { w with daemon := Function.update w.daemon ip d }
      else none
  | .others etcd => some { w with etcd := etcd }

/-- The job is resolved on some store, and no daemon has work to do. -/
def start (etcd : Etcd) : World where
  etcd := etcd
  thread := ⟨.resolving, 0⟩
  deleted := false
  survivors := []
  wait := .over
  log := []
  daemon := fun _ => ⟨.undelivered, .none, none, false⟩

/-- The timeout of the survivor is in the job log. -/
def Reported (log : List String) (p : String × String) : Prop :=
  ∃ pending, timedOutLine pending ∈ log ∧ p ∈ pending

/-- A survivor answers `/health` only when its recreate has finished. -/
def answersSettled (w : World) : Act → Bool
  | .probe true =>
      match w.wait with
      | .probing _ _ (p :: _) => (w.daemon p.2).finished
      | _ => true
  | _ => true

/-! ## What was finished or reported stays so -/

/-- The recreate of the survivor has finished, or its timeout is in the log. -/
def Covered (w : World) (p : String × String) : Prop :=
  (w.daemon p.2).finished = true ∨ Reported w.log p

theorem finished_step {d d' : Daemon} {a : DaemonAct} (h : d.step a = some d')
    (hd : d.finished = true) : d'.finished = true := by
  cases a with
  | rendered ok isLeader =>
      simp only [Daemon.step] at h
      split_ifs at h <;> cases h <;> exact hd
  | restart =>
      cases h
      exact hd
  | _ =>
      simp only [Daemon.step] at h
      split_ifs at h
      cases h
      first | exact hd | rfl

theorem Covered.mono {w v : World} {p : String × String} (h : Covered w p)
    (hdaemon : ∀ ip, (w.daemon ip).finished = true → (v.daemon ip).finished = true)
    (hlog : ∃ lines, v.log = w.log ++ lines) : Covered v p := by
  obtain ⟨lines, hlines⟩ := hlog
  rcases h with hfinished | ⟨peers, hmem, hp⟩
  · exact .inl (hdaemon _ hfinished)
  · right
    refine ⟨peers, ?_, hp⟩
    rw [hlines]
    exact List.mem_append_left _ hmem

theorem finished_update {w : World} {ip : String} {d : Daemon} {a : DaemonAct}
    (h : (w.daemon ip).step a = some d) (ip' : String) (hd : (w.daemon ip').finished = true) :
    (Function.update w.daemon ip d ip').finished = true := by
  by_cases hip : ip' = ip
  · subst hip
    rw [Function.update_self]
    exact finished_step h hd
  · rw [Function.update_of_ne hip]
    exact hd

/-! ## The wait -/

/-- The wait is behind the job. -/
def AfterWait (pc : RemovePc) : Prop := 13 ≤ pc.stage

/-- The survivors that the wait still looks at. -/
def Wait.pending : Wait → List (String × String)
  | .looping _ pending | .probing _ pending _ => pending
  | .starting | .over => []

/-- While the job waits, a survivor is pending or covered, and afterwards they are
all covered. -/
structure Inv (w : World) : Prop where
  waiting : w.wait ≠ .starting → w.thread.pc.stage = 12 →
    ∀ p ∈ w.survivors, p ∈ w.wait.pending ∨ Covered w p
  after : AfterWait w.thread.pc → ∀ p ∈ w.survivors, Covered w p

theorem stage_of_isSettleWait {pc : RemovePc} : isSettleWait pc = true ↔ pc.stage = 12 := by
  cases pc <;> simp [isSettleWait, RemovePc.stage]

/-- A step of the daemons or of the log alone. -/
theorem Inv.mono {w v : World} (h : Inv w) (hthread : v.thread = w.thread)
    (hsurvivors : v.survivors = w.survivors)
    (hdaemon : ∀ ip, (w.daemon ip).finished = true → (v.daemon ip).finished = true)
    (hlog : ∃ lines, v.log = w.log ++ lines)
    (hwait : v.wait ≠ .starting → v.thread.pc.stage = 12 → w.wait ≠ .starting ∧
      ∀ p ∈ w.wait.pending, p ∈ v.wait.pending ∨ Covered v p) : Inv v := by
  constructor
  · intro hstarted hstage p hp
    obtain ⟨hstarted', hpending⟩ := hwait hstarted hstage
    rw [hthread] at hstage
    rw [hsurvivors] at hp
    rcases h.waiting hstarted' hstage p hp with hin | hcovered
    · exact hpending p hin
    · exact .inr (hcovered.mono hdaemon hlog)
  · intro hafter p hp
    rw [hthread] at hafter
    rw [hsurvivors] at hp
    exact (h.after hafter p hp).mono hdaemon hlog

/-- The wait ends when nothing is pending or what is pending is reported. -/
theorem inv_leave {j : RemoveJob} {w v : World} {log : List String} (hlog : ∃ lines, log = w.log ++ lines)
    (hall : ∀ p ∈ w.survivors, Covered w p ∨ Reported log p) (h : w.leave j log = some v) : Inv v := by
  obtain ⟨pc, hpc, rfl⟩ := Option.map_eq_some_iff.mp h
  have hcovered : ∀ p ∈ w.survivors, Covered { w with thread := ⟨pc, 0⟩, wait := .over, log := log } p := by
    intro p hp
    rcases hall p hp with hc | hr
    · exact hc.mono (fun _ hd => hd) hlog
    · exact .inr hr
  exact ⟨fun _ _ p hp => .inr (hcovered p hp), fun _ => hcovered⟩

theorem inv_attempt {j : RemoveJob} {w v : World} {a : Attempt} (h : Inv w)
    (hs : step j w (.attempt a) = some v) : Inv v := by
  obtain ⟨r, hr, rfl⟩ := Option.map_eq_some_iff.mp hs
  obtain ⟨hfollows, -⟩ := follows_attempt hr
  have hstage : w.thread.pc.stage ≠ 12 := by
    intro hstage
    have hpc := stage_of_isSettleWait.mpr hstage
    obtain ⟨q, hq, -⟩ := Client.attempt_cases j.client hr
    cases hthread : w.thread.pc with
    | settleWait t =>
        rw [hthread] at hq
        cases hq
    | _ =>
        rw [hthread] at hpc
        cases hpc
  dsimp only
  split_ifs with hwait
  · refine ⟨fun hne => absurd rfl hne, fun hafter => ?_⟩
    have htwelve := stage_of_isSettleWait.mp hwait
    have hthirteen : 13 ≤ r.2.pc.stage := hafter
    omega
  · constructor
    · intro _ htwelve
      exact absurd (stage_of_isSettleWait.mpr htwelve) hwait
    · intro hafter p hp
      have hlate : 13 ≤ r.2.pc.stage := hafter
      have hearlier : AfterWait w.thread.pc := by
        unfold AfterWait
        rcases hfollows with hnext | hearly | hend <;> omega
      exact h.after hearlier p hp

theorem inv_input {j : RemoveJob} {w v : World} {i : RemoveJob.Input} (h : Inv w)
    (hs : step j w (.input i) = some v) : Inv v := by
  simp only [step] at hs
  split_ifs at hs with hwait
  obtain ⟨pc, hpc, rfl⟩ := Option.map_eq_some_iff.mp hs
  have hfollows := follows_proceed hpc
  have hstage : w.thread.pc.stage ≠ 12 := fun hstage => hwait (stage_of_isSettleWait.mpr hstage)
  constructor
  · intro _ htwelve p hp
    have htwelve' : pc.stage = 12 := htwelve
    by_cases hafter : AfterWait w.thread.pc
    · exact .inr (h.after hafter p hp)
    · -- only the answer to the read leads to the wait
      exfalso
      have heleven : w.thread.pc.stage = 11 := by
        unfold AfterWait at hafter
        rcases hfollows with hnext | hearly | hend <;> omega
      cases hthread : w.thread.pc with
      | settling t =>
          rw [hthread] at hpc
          cases hpc
      | _ =>
          rw [hthread] at heleven
          cases heleven
  · intro hafter p hp
    have hlate : 13 ≤ pc.stage := hafter
    have hearlier : AfterWait w.thread.pc := by
      unfold AfterWait
      rcases hfollows with hnext | hearly | hend <;> omega
    exact h.after hearlier p hp

/-- The log with more lines. -/
theorem log_more (log lines : List String) : ∃ more, log ++ lines = log ++ more := ⟨lines, rfl⟩

theorem log_same (log : List String) : ∃ more, log = log ++ more := ⟨[], (List.append_nil log).symm⟩

theorem inv_clock {j : RemoveJob} {w v : World} {now : ℕ} (h : Inv w)
    (hs : step j w (.clock now) = some v) : Inv v := by
  simp only [step] at hs
  split_ifs at hs with hpc
  have hstage := stage_of_isSettleWait.mp hpc
  split at hs
  · cases hs
    refine ⟨fun _ _ p hp => .inl hp, fun hafter => ?_⟩
    unfold AfterWait at hafter
    dsimp only at hafter
    omega
  · next deadline pending hwait =>
      have hpending := h.waiting (by simp [hwait]) hstage
      rw [hwait] at hpending
      split_ifs at hs with hnow hnone
      · cases hs
        refine ⟨fun _ _ => hpending, fun hafter => ?_⟩
        unfold AfterWait at hafter
        dsimp only at hafter
        omega
      · refine inv_leave (log_same w.log) (fun p hp => .inl ?_) hs
        rcases hpending p hp with hin | hcovered
        · rw [hnone] at hin
          cases hin
        · exact hcovered
      · refine inv_leave (log_more w.log _) (fun p hp => ?_) hs
        rcases hpending p hp with hin | hcovered
        · exact .inr ⟨pending, List.mem_append_right _ (List.mem_singleton.mpr rfl), hin⟩
        · exact .inl hcovered
  · cases hs

theorem inv_probe {j : RemoveJob} {w v : World} {healthy : Bool} (h : Inv w)
    (hguard : answersSettled w (.probe healthy) = true) (hs : step j w (.probe healthy) = some v) :
    Inv v := by
  simp only [step] at hs
  split at hs
  · next deadline pending p todo hwait =>
      split_ifs at hs with hhealthy
      · cases hs
        subst hhealthy
        refine h.mono rfl rfl (fun _ hd => hd) (log_more w.log _) fun _ _ => ⟨by simp [hwait], ?_⟩
        intro q hq
        rw [hwait] at hq
        by_cases hqp : q = p
        · right
          left
          simp only [answersSettled, hwait] at hguard
          rw [hqp]
          exact hguard
        · exact .inl (List.mem_filter.mpr ⟨hq, decide_eq_true hqp⟩)
      · cases hs
        refine h.mono rfl rfl (fun _ hd => hd) (log_same w.log) fun _ _ => ⟨by simp [hwait], ?_⟩
        intro q hq
        rw [hwait] at hq
        exact .inl hq
  · cases hs

theorem inv_round {j : RemoveJob} {w v : World} (h : Inv w) (hs : step j w .round = some v) :
    Inv v := by
  simp only [step] at hs
  split at hs
  · next deadline pending hwait =>
      split_ifs at hs with hnone
      · have hstage : w.thread.pc.stage = 12 := by
          obtain ⟨pc, hpc, -⟩ := Option.map_eq_some_iff.mp hs
          cases hthread : w.thread.pc with
          | settleWait t => rfl
          | _ =>
              rw [hthread] at hpc
              cases hpc
        have hpending := h.waiting (by simp [hwait]) hstage
        rw [hwait] at hpending
        refine inv_leave (log_same w.log) (fun p hp => .inl ?_) hs
        rcases hpending p hp with hin | hcovered
        · change p ∈ pending at hin
          rw [hnone] at hin
          cases hin
        · exact hcovered
      · cases hs
        refine h.mono rfl rfl (fun _ hd => hd) (log_same w.log) fun _ _ => ⟨by simp [hwait], ?_⟩
        intro q hq
        rw [hwait] at hq
        exact .inl hq
  · cases hs

theorem inv_step {j : RemoveJob} {w v : World} {act : Act} (h : Inv w)
    (hguard : answersSettled w act = true) (hs : step j w act = some v) : Inv v := by
  cases act with
  | attempt a => exact inv_attempt h hs
  | input i => exact inv_input h hs
  | clock now => exact inv_clock h hs
  | probe healthy => exact inv_probe h hguard hs
  | round => exact inv_round h hs
  | daemon ip a =>
      simp only [step] at hs
      split_ifs at hs
      obtain ⟨d, hd, rfl⟩ := Option.map_eq_some_iff.mp hs
      exact h.mono rfl rfl (finished_update hd) (log_same w.log) fun hne _ => ⟨hne, fun p hp => .inl hp⟩
  | call leader ip =>
      simp only [step] at hs
      split_ifs at hs
      obtain ⟨d, hd, rfl⟩ := Option.map_eq_some_iff.mp hs
      exact h.mono rfl rfl (finished_update hd) (log_same w.log) fun hne _ => ⟨hne, fun p hp => .inl hp⟩
  | others etcd =>
      cases hs
      exact h.mono rfl rfl (fun _ hd => hd) (log_same w.log) fun hne _ => ⟨hne, fun p hp => .inl hp⟩

/-- When `/health` answers a survivor's probe only after its recreate for the
delete has finished, the job gets to the member-remove only when every survivor
has finished its recreate or its timeout is in the log. -/
theorem removed_after_settled {j : RemoveJob} {etcd : Etcd} {as : List Act} {w : World}
    (hguard : Keeps (step j) (fun w act => answersSettled w act = true) (start etcd) as)
    (hr : run (step j) (start etcd) as = some w) {t : Target} {memberId : ℕ}
    (hpc : w.thread.pc = .removing t memberId) :
    ∀ p ∈ w.survivors, (w.daemon p.2).finished = true ∨ Reported w.log p := by
  have hstart : Inv (start etcd) := ⟨fun _ _ p hp => (by cases hp), fun _ p hp => (by cases hp)⟩
  have hinv := run_guarded (fun s a t hinv hg ht => inv_step hinv hg ht) hstart hguard hr
  refine hinv.after ?_
  unfold AfterWait
  rw [hpc]
  simp [RemovePc.stage]

/-! ## One survivor -/

def twoPeers : Etcd where
  kv := OrderedMap.empty.putAll
    [(TOPOLOGY_PREFIX ++ "node-1", "\x7b\"ip\": \"10.0.0.1\"\x7d"),
      (TOPOLOGY_PREFIX ++ "node-2", "\x7b\"ip\": \"10.0.0.2\"\x7d")]
  members := [⟨1, "node-1", ["http://10.0.0.1:2380"]⟩, ⟨2, "node-2", ["http://10.0.0.2:2380"]⟩]

def look : Act := .input (.look true (some ""))

def command : Act := .input (.command ⟨0, "", ""⟩)

/-- The second peer is removed; what happens to the survivor before it is asked. -/
def removal (meanwhile : List Act) : List Act :=
  [.attempt .answered, look, .attempt .answered, look, command, command, command, command,
    .attempt .answered] ++ meanwhile ++
    [.attempt .answered, .clock 0, .clock 1, .probe true, .round, look, .attempt .answered]

/-- The sweep reaches the survivor, which leads. -/
def sweeps : List Act :=
  [.daemon "10.0.0.1" .deliver, .daemon "10.0.0.1" .dispatch, .daemon "10.0.0.1" (.rendered true true),
    .daemon "10.0.0.1" .recreated]

def removing (w : World) : Bool :=
  match w.thread.pc with
  | .removing _ _ => true
  | _ => false

theorem removing_spec {w : World} (h : removing w = true) :
    ∃ t memberId, w.thread.pc = .removing t memberId := by
  unfold removing at h
  split at h
  · next t memberId hpc => exact ⟨t, memberId, hpc⟩
  · cases h

theorem removed_after_settled_swept : ∃ w t memberId,
    run (step ⟨"10.0.0.2"⟩) (start twoPeers) (removal sweeps) = some w ∧
      w.thread.pc = .removing t memberId ∧ w.survivors = [("node-1", "10.0.0.1")] ∧
        ∀ p ∈ w.survivors, (w.daemon p.2).finished = true ∨ Reported w.log p := by
  have hguard : Keeps (step ⟨"10.0.0.2"⟩) (fun w act => answersSettled w act = true) (start twoPeers)
      (removal sweeps) := by
    decide +kernel
  have hrun : (run (step ⟨"10.0.0.2"⟩) (start twoPeers) (removal sweeps)).any (fun w =>
      removing w && decide (w.survivors = [("node-1", "10.0.0.1")])) = true := by
    decide +kernel
  obtain ⟨w, hw, htest⟩ := (Option.any_eq_true _ _).mp hrun
  obtain ⟨hremoving, hsurvivors⟩ := Bool.and_eq_true_iff.mp htest
  obtain ⟨t, memberId, hpc⟩ := removing_spec hremoving
  exact ⟨w, t, memberId, hw, hpc, of_decide_eq_true hsurvivors, removed_after_settled hguard hw hpc⟩

/-- The survivor answers before the event of the delete has even reached it. -/
theorem removed_unsettled : ∃ (j : RemoveJob) (etcd : Etcd) (as : List Act) (w : World) (t : Target)
    (memberId : ℕ), run (step j) (start etcd) as = some w ∧ w.thread.pc = .removing t memberId ∧
      ∃ p ∈ w.survivors, (w.daemon p.2).finished = false ∧ ¬Reported w.log p := by
  have hrun : (run (step ⟨"10.0.0.2"⟩) (start twoPeers) (removal [])).any (fun w =>
      removing w && decide (("node-1", "10.0.0.1") ∈ w.survivors ∧
        (w.daemon "10.0.0.1").finished = false ∧ w.log = [settledLine "node-1" "10.0.0.1"])) = true := by
    decide +kernel
  obtain ⟨w, hw, htest⟩ := (Option.any_eq_true _ _).mp hrun
  obtain ⟨hremoving, hrest⟩ := Bool.and_eq_true_iff.mp htest
  obtain ⟨hmem, hfinished, hlog⟩ := of_decide_eq_true hrest
  obtain ⟨t, memberId, hpc⟩ := removing_spec hremoving
  refine ⟨_, _, _, w, t, memberId, hw, hpc, _, hmem, hfinished, ?_⟩
  rintro ⟨pending, hreported, -⟩
  rw [hlog] at hreported
  have hwarns : PythonText.startsWith (timedOutLine pending) "WARN: timed out waiting for " = true :=
    PythonText.startsWith_append _ _
  rw [List.mem_singleton.mp hreported] at hwarns
  revert hwarns
  decide +kernel

end MilvusOnprem.RemovalSettle
