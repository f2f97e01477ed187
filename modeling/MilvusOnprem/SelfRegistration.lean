import MilvusOnprem.RemovalGuards
import MilvusOnprem.TopologyWatcher

/-!
# A removed peer that starts again

The cluster with the daemons of all its peers, which may start at any time. A
daemon that starts looks its own name up and registers it if it is not there.
The containers of a removed peer keep running, and its etcd stays a member until
the end of the job, so such a daemon can register the peer anew.

An ip is gone when a removal of its peer has ended done, until the next join for
it. This is recorded for the statements only.
-/
namespace MilvusOnprem.SelfRegistration

open EtcdClient MilvusOnprem.Topology Joining RemoveNode GuardedRuns
open Cluster (RegisterPc registerKey registerInfo registerClient JoinSlot RemovalSlot)
open RemovalGuards (created kvAfter kv_step removalPc)
open TopologyWatcher (contents get_contents)

/-- A daemon that is starting. -/
structure Starting where
  config : DaemonConfig
  thread : Thread RegisterPc
deriving DecidableEq

structure World where
  base : Cluster.World
  starting : OrderedMap ℕ Starting
  gone : List String

inductive Act where
  | cluster (a : Cluster.Act)
  | starts (id : ℕ) (config : DaemonConfig)
  | time (id : ℕ) (now : Decimal)
  | attempt (id : ℕ) (a : Attempt)
  | stops (id : ℕ)
deriving DecidableEq

/-- The ip of a job that this step ends done. -/
def endsDone (b c : Cluster.World) (id : ℕ) : List String :=
  match b.removals.get id, c.removals.get id with
  | some x, some y => if x.thread.pc ≠ .done ∧ y.thread.pc = .done then [x.job.ip] else []
  | _, _ => []

def goneAfter (gone : List String) (b c : Cluster.World) : Cluster.Act → List String
  | .startJoin _ _ call => gone.filter fun ip => ip ≠ call.joinerIp
  | .removalInput id _ | .removalAttempt id _ => endsDone b c id ++ gone
  | _ => gone

def step (w : World) : Act → Option World
  | .cluster a =>
      (Cluster.step w.base a).map fun b =>
        { w with base := b, gone := goneAfter w.gone w.base b a }
  | .starts id config =>
      if w.starting.get id = none then
        some { w with starting := w.starting.put id ⟨config, ⟨.looking, 0⟩⟩ }
      else none
  | .time id now =>
      match w.starting.get id with
      | some ⟨config, ⟨.stamping, _⟩⟩ =>
          some { w with
            starting := w.starting.put id ⟨config, ⟨.writing (registerInfo config now), 0⟩⟩ }
      | _ => none
  | .attempt id a =>
      match w.starting.get id with
      | some x =>
          ((registerClient x.config).attempt 0 w.base.etcd x.thread a).map fun r =>
            { w with
              base := { w.base with etcd := r.1 }
              starting := w.starting.put id { x with thread := r.2 } }
      | none => none
  | .stops id => some { w with starting := w.starting.erase id }

/-- A cluster in any state of its topology, before the first request. -/
def start (etcd : Etcd) (isLeader : ℕ → Bool) (bootstrap : DaemonConfig) : World :=
  ⟨Cluster.fresh etcd isLeader bootstrap, .empty, []⟩

/-- No entry of the topology has the ip. -/
def Absent (kv : OrderedMap String String) (ip : String) : Prop := ∀ name, peerIp kv name ≠ some ip

/-! ## Runs in which nobody comes back -/

/-- A job that has deleted the entry and goes on. -/
def pastDelete : RemovePc → Bool
  | .settling _ | .settleWait _ | .porting _ | .listing _ _ | .removing _ _ | .surveying _
  | .draining _ => true
  | _ => false

/-- A job for the ip is past its delete, or has ended done and no join for the ip
has started since. -/
def departing (w : World) (ip : String) : Bool :=
  w.gone.contains ip || w.base.removals.entries.any fun e =>
    e.2.job.ip = ip && pastDelete e.2.thread.pc

/-- A call that has not put the joiner's entry yet. -/
def mayCreate : JoinPc → Bool
  | .queued | .waiting _ | .polling _ | .reading | .stamping _ _ | .creating _ _ _ => true
  | _ => false

/-- A join for the ip has still to put its entry. -/
def joining (b : Cluster.World) (ip : String) : Bool :=
  b.joins.entries.any fun e => e.2.call.joinerIp = ip && mayCreate e.2.thread.pc

/-- A daemon with the ip is still registering itself. -/
def registering (config : DaemonConfig) (t : Thread RegisterPc) (ip : String) : Bool :=
  config.localIp = ip && t.pc ≠ .ended

/-- A join or a daemon that has started may still put an entry with the ip. -/
def pending (w : World) (ip : String) : Bool :=
  joining w.base ip || registering w.base.bootstrap w.base.registration ip ||
    w.starting.entries.any fun e => registering e.2.config e.2.thread ip

/-- The entry that the job deletes is the last one with the ip. -/
def deletesLast (b : Cluster.World) : Cluster.Act → Bool
  | .removalAttempt id .answered =>
      match b.removals.get id with
      | some slot =>
          match slot.thread.pc with
          | .deleting t =>
              (contents b.etcd.kv).entries.all fun e => e.1 = t.name || ipOf e.2 ≠ some slot.job.ip
          | _ => true
      | none => true
  | _ => true

/-- Nothing is pending for the ip that the job deletes. -/
def deletesAlone (w : World) : Cluster.Act → Bool
  | .removalAttempt id .answered =>
      match w.base.removals.get id with
      | some slot =>
          match slot.thread.pc with
          | .deleting _ => !pending w slot.job.ip
          | _ => true
      | none => true
  | _ => true

/-- A job deletes the last entry with its ip, while nothing is pending for it. No
daemon with a departing ip starts, and no join for the ip of a job that is past its
delete. -/
def staysOut (w : World) : Act → Bool
  | .cluster a =>
      deletesLast w.base a && deletesAlone w a && match a with
        | .startJoin _ _ call => w.base.removals.entries.all fun e =>
            !(e.2.job.ip = call.joinerIp && pastDelete e.2.thread.pc)
        | .bootstrapStarts => !departing w w.base.bootstrap.localIp
        | _ => true
  | .starts _ config => !departing w config.localIp
  | _ => true

/-! ## How a job gets past its delete -/

/-- A step leads past the delete or to the end. -/
def Reached (pc qc : RemovePc) : Prop := pastDelete qc = true ∨ pc ≠ .done ∧ qc = .done

theorem pastDelete_iff {pc : RemovePc} : pastDelete pc = true ↔ 11 ≤ pc.stage ∧ pc ≠ .done := by
  cases pc <;> simp [pastDelete, RemovePc.stage]

/-- A job gets there from a point past its delete or from the delete. -/
theorem before_reached {pc qc : RemovePc} (hfollows : Follows pc qc) (hpc : pc ≠ .done)
    (hq : Reached pc qc) : pastDelete pc = true ∨ pc.stage = 10 := by
  have hstage : 11 ≤ qc.stage := by
    rcases hq with hpast | ⟨-, rfl⟩
    · exact (pastDelete_iff.mp hpast).1
    · decide
  by_cases hlate : 11 ≤ pc.stage
  · exact .inl (pastDelete_iff.mpr ⟨hlate, hpc⟩)
  · right
    rcases hfollows with hnext | hearly | hend <;> omega

theorem reached_proceed {j : RemoveJob} {pc qc : RemovePc} {i : RemoveJob.Input}
    (h : j.proceed pc i = some qc) (hq : Reached pc qc) : pastDelete pc = true := by
  have hpc : pc ≠ .done := by
    rintro rfl
    cases h
  rcases before_reached (follows_proceed h) hpc hq with hpast | hdelete
  · exact hpast
  · cases pc with
    | deleting d => cases h
    | _ => cases hdelete

theorem reached_attempt {j : RemoveJob} {s u : Etcd} {t v : Thread RemovePc} {a : Attempt}
    (h : j.client.attempt 0 s t a = some (u, v)) (hq : Reached t.pc v.pc) :
    pastDelete t.pc = true ∨ a = .answered ∧ ∃ d, t.pc = .deleting d := by
  obtain ⟨pc, tries⟩ := t
  obtain ⟨hfollows, hwhy⟩ := follows_attempt h
  dsimp only at hfollows hwhy hq ⊢
  have hpc : pc ≠ .done := by
    rintro rfl
    cases h
  rcases before_reached hfollows hpc hq with hpast | hdelete
  · exact .inl hpast
  · cases pc with
    | deleting d =>
        right
        rcases hwhy with hsame | hzero | ha
        · rw [hsame] at hq
          rcases hq with hq | ⟨-, hq⟩ <;> cases hq
        · rcases hq with hq | ⟨-, hq⟩
          · have hlate := (pastDelete_iff.mp hq).1
            omega
          · rw [hq] at hzero
            cases hzero
        · exact ⟨ha, d, rfl⟩
    | _ => cases hdelete

/-! ## Departing peers have no entry -/

theorem departing_iff {w : World} {ip : String} : departing w ip = true ↔ ip ∈ w.gone ∨
    ∃ id slot, w.base.removals.get id = some slot ∧ slot.job.ip = ip ∧
      pastDelete slot.thread.pc = true := by
  simp only [departing, Bool.or_eq_true, List.contains_iff_mem, List.any_eq_true, Bool.and_eq_true,
    decide_eq_true_eq]
  constructor
  · rintro (hgone | ⟨e, he, hip, hpast⟩)
    · exact .inl hgone
    · exact .inr ⟨e.1, e.2, OrderedMap.mem_entries.mp he, hip, hpast⟩
  · rintro (hgone | ⟨id, slot, hslot, hip, hpast⟩)
    · exact .inl hgone
    · exact .inr ⟨(id, slot), OrderedMap.mem_entries.mpr hslot, hip, hpast⟩

/-- The step of a job makes its own ip a departing one, at most. -/
theorem departing_moved {w : World} {b : Cluster.World} {id : ℕ} {slot : RemovalSlot}
    {t : Thread RemovePc} {ip : String} (hslot : w.base.removals.get id = some slot)
    (hb : b.removals = w.base.removals.put id { slot with thread := t })
    (h : departing { w with base := b, gone := endsDone w.base b id ++ w.gone } ip = true) :
    departing w ip = true ∨ slot.job.ip = ip ∧ Reached slot.thread.pc t.pc := by
  rcases departing_iff.mp h with hgone | ⟨id', slot', hslot', hip, hpast⟩
  · rcases List.mem_append.mp hgone with hends | hgone
    · have hnew : b.removals.get id = some { slot with thread := t } := by
        rw [hb, OrderedMap.get_put_self]
      simp only [endsDone, hslot, hnew] at hends
      split_ifs at hends with hdone
      · exact .inr ⟨(List.mem_singleton.mp hends).symm, .inr hdone⟩
      · cases hends
    · exact .inl (departing_iff.mpr (.inl hgone))
  · dsimp only at hslot'
    rw [hb, OrderedMap.get_put] at hslot'
    split_ifs at hslot' with hid
    · cases hslot'
      exact .inr ⟨hip, .inl hpast⟩
    · exact .inl (departing_iff.mpr (.inr ⟨id', slot', hslot', hip, hpast⟩))

/-- An ip becomes departing by the delete of a job only. -/
theorem departing_cluster {w : World} {b : Cluster.World} {a : Cluster.Act} {ip : String}
    (hs : Cluster.step w.base a = some b)
    (h : departing { w with base := b, gone := goneAfter w.gone w.base b a } ip = true) :
    departing w ip = true ∨ ∃ id slot d, a = .removalAttempt id .answered ∧
      w.base.removals.get id = some slot ∧ slot.thread.pc = .deleting d ∧ slot.job.ip = ip := by
  cases Cluster.steps_of_step hs with
  | removalInput hslot hproceed =>
      left
      rcases departing_moved hslot rfl h with hold | ⟨hip, hreached⟩
      · exact hold
      · exact departing_iff.mpr (.inr ⟨_, _, hslot, hip, reached_proceed hproceed hreached⟩)
  | removalAttempt hslot hattempt =>
      rcases departing_moved hslot rfl h with hold | ⟨hip, hreached⟩
      · exact .inl hold
      · rcases reached_attempt hattempt hreached with hpast | ⟨rfl, d, hpc⟩
        · exact .inl (departing_iff.mpr (.inr ⟨_, _, hslot, hip, hpast⟩))
        · exact .inr ⟨_, _, d, rfl, hslot, hpc, hip⟩
  | @startJoin id d call hleader hfree =>
      left
      rcases departing_iff.mp h with hgone | hjob
      · exact departing_iff.mpr (.inl (List.mem_of_mem_filter hgone))
      · exact departing_iff.mpr (.inr hjob)
  | @startRemoval id d job hfree =>
      left
      rcases departing_iff.mp h with hgone | ⟨id', slot', hslot', hip, hpast⟩
      · exact departing_iff.mpr (.inl hgone)
      · dsimp only at hslot'
        rw [OrderedMap.get_put] at hslot'
        split_ifs at hslot' with hid
        · cases hslot'
          cases hpast
        · exact departing_iff.mpr (.inr ⟨id', slot', hslot', hip, hpast⟩)
  | @crash d =>
      left
      rcases departing_iff.mp h with hgone | ⟨id', slot', hslot', hip, hpast⟩
      · exact departing_iff.mpr (.inl hgone)
      · exact departing_iff.mpr (.inr ⟨id', slot', (OrderedMap.get_filterValues.mp hslot').1, hip, hpast⟩)
  | _ => exact .inl h

/-! ## What is pending -/

theorem joining_iff {b : Cluster.World} {ip : String} : joining b ip = true ↔
    ∃ id slot, b.joins.get id = some slot ∧ slot.call.joinerIp = ip ∧
      mayCreate slot.thread.pc = true := by
  simp only [joining, List.any_eq_true, Bool.and_eq_true, decide_eq_true_eq]
  constructor
  · rintro ⟨e, he, hip, hmay⟩
    exact ⟨e.1, e.2, OrderedMap.mem_entries.mp he, hip, hmay⟩
  · rintro ⟨id, slot, hslot, hip, hmay⟩
    exact ⟨(id, slot), OrderedMap.mem_entries.mpr hslot, hip, hmay⟩

theorem pending_iff {w : World} {ip : String} : pending w ip = true ↔ joining w.base ip = true ∨
    registering w.base.bootstrap w.base.registration ip = true ∨
    ∃ id x, w.starting.get id = some x ∧ registering x.config x.thread ip = true := by
  simp only [pending, Bool.or_eq_true, List.any_eq_true, or_assoc]
  refine or_congr_right (or_congr_right ⟨?_, ?_⟩)
  · rintro ⟨e, he, hreg⟩
    exact ⟨e.1, e.2, OrderedMap.mem_entries.mp he, hreg⟩
  · rintro ⟨id, x, hx, hreg⟩
    exact ⟨(id, x), OrderedMap.mem_entries.mpr hx, hreg⟩

theorem registering_iff {config : DaemonConfig} {t : Thread RegisterPc} {ip : String} :
    registering config t ip = true ↔ config.localIp = ip ∧ t.pc ≠ .ended := by
  simp only [registering, Bool.and_eq_true, decide_eq_true_eq]

/-- A call that may create its entry after a step could before. -/
theorem mayCreate_proceeds {c : JoinCall} {pc qc : JoinPc} {i : JoinCall.Input}
    (h : c.Proceeds pc i qc) (hq : mayCreate qc = true) : mayCreate pc = true := by
  cases h with
  | rejoined _ | rejoinFailed | built _ | buildFailed _ => cases hq
  | _ => rfl

theorem mayCreate_attempts {c : JoinCall} {newId tries : ℕ} {s u : Etcd} {pc qc : JoinPc}
    {a : Attempt} (h : c.Attempts newId tries s pc a u qc) (hq : mayCreate qc = true) :
    mayCreate pc = true := by
  cases h with
  | again => exact hq
  | created | addFailed | added _ | rolledBack _ => cases hq
  | _ => rfl

/-- Where an attempt of a registration leads. -/
theorem register_attempt {config : DaemonConfig} {s u : Etcd} {t v : Thread RegisterPc} {a : Attempt}
    (h : (registerClient config).attempt 0 s t a = some (u, v)) :
    t.pc ≠ .ended ∧ (v.pc = t.pc ∨ v.pc = .stamping ∨ v.pc = .ended) := by
  obtain ⟨r, hr, -, hnext⟩ := Client.attempt_cases _ h
  have hanswered : ∀ x, (registerClient config).answered t.pc x = .stamping ∨
      (registerClient config).answered t.pc x = .ended := by
    intro x
    simp only [registerClient]
    split
    · exact .inl rfl
    · exact .inr rfl
  refine ⟨fun hpc => ?_, ?_⟩
  · rw [hpc] at hr
    cases hr
  · rcases hnext with hsame | ⟨e, he, -⟩ | ⟨y, -, -, hy⟩
    · exact .inl hsame
    · rw [he]
      exact .inr (hanswered _)
    · rw [hy]
      exact .inr (hanswered _)

/-- A step of a join leaves nothing pending that was not. -/
theorem joining_moved {b : Cluster.World} {joins : OrderedMap ℕ JoinSlot} {id : ℕ} {slot : JoinSlot}
    {t : Thread JoinPc} {ip : String} (hslot : b.joins.get id = some slot)
    (hjoins : joins = b.joins.put id { slot with thread := t })
    (hmay : mayCreate t.pc = true → mayCreate slot.thread.pc = true)
    (h : joining { b with joins := joins } ip = true) : joining b ip = true := by
  obtain ⟨id', slot', hslot', hip, hmay'⟩ := joining_iff.mp h
  dsimp only at hslot'
  rw [hjoins, OrderedMap.get_put] at hslot'
  split_ifs at hslot' with hid
  · cases hslot'
    exact joining_iff.mpr ⟨id, slot, hslot, hip, hmay hmay'⟩
  · exact joining_iff.mpr ⟨id', slot', hslot', hip, hmay'⟩

/-- What is pending in the cluster was pending, or starts with this step. -/
theorem pending_cluster {b c : Cluster.World} {a : Cluster.Act} {ip : String}
    (hs : Cluster.step b a = some c)
    (h : joining c ip = true ∨ registering c.bootstrap c.registration ip = true) :
    (joining b ip = true ∨ registering b.bootstrap b.registration ip = true) ∨
      (∃ id d call, a = .startJoin id d call ∧ call.joinerIp = ip) ∨
      a = .bootstrapStarts ∧ b.bootstrap.localIp = ip := by
  cases Cluster.steps_of_step hs with
  | @startJoin id d call hleader hfree =>
      rcases h with hjoin | hreg
      · obtain ⟨id', slot, hslot, hip, hmay⟩ := joining_iff.mp hjoin
        dsimp only at hslot
        rw [OrderedMap.get_put] at hslot
        split_ifs at hslot with hid
        · cases hslot
          exact .inr (.inl ⟨id, d, call, rfl, hip⟩)
        · exact .inl (.inl (joining_iff.mpr ⟨id', slot, hslot, hip, hmay⟩))
      · exact .inl (.inr hreg)
  | joinInput hslot hlock hproceeds =>
      exact .inl (h.imp_left (joining_moved hslot rfl (mayCreate_proceeds hproceeds)))
  | joinAttempt hslot hnew hattempts =>
      exact .inl (h.imp_left (joining_moved hslot rfl (mayCreate_attempts hattempts)))
  | crash =>
      refine .inl (h.imp_left fun hjoin => ?_)
      obtain ⟨id, slot, hslot, hip, hmay⟩ := joining_iff.mp hjoin
      exact joining_iff.mpr ⟨id, slot, (OrderedMap.get_filterValues.mp hslot).1, hip, hmay⟩
  | bootstrapStarts =>
      rcases h with hjoin | hreg
      · exact .inl (.inl hjoin)
      · exact .inr (.inr ⟨rfl, (registering_iff.mp hreg).1⟩)
  | registerTime hpc =>
      refine .inl (h.imp_right fun hreg => registering_iff.mpr ⟨(registering_iff.mp hreg).1, ?_⟩)
      rw [hpc]
      nofun
  | registerAttempt hattempt =>
      refine .inl (h.imp_right fun hreg => ?_)
      exact registering_iff.mpr ⟨(registering_iff.mp hreg).1, (register_attempt hattempt).1⟩
  | _ => exact .inl h

/-! ## What is written carries the writer's ip -/

/-- The entry that a call is about to put has the joiner's ip. -/
def Joins (c : JoinCall) (pc : JoinPc) : Prop :=
  ∀ name parsed value, pc = .creating name parsed value → textIp value = some c.joinerIp

/-- The entry that a daemon is about to put has its own ip. -/
def Registers (config : DaemonConfig) (pc : RegisterPc) : Prop :=
  ∀ info, pc = .writing info → textIp info = some config.localIp

theorem textIp_registerInfo (config : DaemonConfig) (now : Decimal) :
    textIp (registerInfo config now) = some config.localIp := by
  simp [textIp, registerInfo, ipOf, Json.field]

theorem registers_time (config : DaemonConfig) (now : Decimal) :
    Registers config (.writing (registerInfo config now)) := by
  intro info hinfo
  rw [← RegisterPc.writing.inj hinfo]
  exact textIp_registerInfo config now

theorem registers_attempt {config : DaemonConfig} {s u : Etcd} {t v : Thread RegisterPc} {a : Attempt}
    (h : (registerClient config).attempt 0 s t a = some (u, v)) (ht : Registers config t.pc) :
    Registers config v.pc := by
  rcases (register_attempt h).2 with hpc | hpc | hpc
  · rw [hpc]
    exact ht
  · rw [hpc]
    nofun
  · rw [hpc]
    nofun

theorem joins_proceeds {c : JoinCall} {pc qc : JoinPc} {i : JoinCall.Input}
    (h : c.Proceeds pc i qc) : Joins c qc := by
  intro name parsed value hpc
  cases h with
  | stamp =>
      cases hpc
      exact c.textIp_infoValue _ _
  | _ => cases hpc

theorem joins_attempts {c : JoinCall} {newId tries : ℕ} {s u : Etcd} {pc qc : JoinPc}
    {a : Attempt} (h : c.Attempts newId tries s pc a u qc) (hpc : Joins c pc) : Joins c qc := by
  intro name parsed value hq
  cases h with
  | again => exact hpc name parsed value hq
  | read =>
      rcases c.chosen_cases (parseTopology (withPrefix TOPOLOGY_PREFIX s.kv)) with
        ⟨e, he⟩ | ⟨name', -, he⟩ | ⟨-, he⟩
      all_goals
        rw [he] at hq
        cases hq
  | _ => cases hq

theorem joins_moved {joins : OrderedMap ℕ JoinSlot} {id : ℕ} {slot : JoinSlot} {t : Thread JoinPc}
    (h : ∀ id slot, joins.get id = some slot → Joins slot.call slot.thread.pc)
    (ht : Joins slot.call t.pc) : ∀ id' slot',
      (joins.put id { slot with thread := t }).get id' = some slot' →
        Joins slot'.call slot'.thread.pc := by
  intro id' slot' hslot'
  rw [OrderedMap.get_put] at hslot'
  split_ifs at hslot' with hid
  · cases hslot'
    exact ht
  · exact h id' slot' hslot'

/-- What the parties of the cluster are about to put. -/
structure Carried (b : Cluster.World) : Prop where
  joins : ∀ id slot, b.joins.get id = some slot → Joins slot.call slot.thread.pc
  registration : Registers b.bootstrap b.registration.pc

theorem carried_step {b c : Cluster.World} {a : Cluster.Act} (h : Carried b)
    (hs : Cluster.step b a = some c) : Carried c := by
  cases Cluster.steps_of_step hs with
  | @startJoin id d call hleader hfree =>
      refine ⟨fun id' slot hslot => ?_, h.registration⟩
      dsimp only at hslot
      rw [OrderedMap.get_put] at hslot
      split_ifs at hslot with hid
      · cases hslot
        intro name parsed value hpc
        dsimp only [JoinCall.start] at hpc
        split_ifs at hpc
      · exact h.joins id' slot hslot
  | joinInput hslot hlock hproceeds =>
      exact ⟨joins_moved h.joins (joins_proceeds hproceeds), h.registration⟩
  | joinAttempt hslot hnew hattempts =>
      exact ⟨joins_moved h.joins (joins_attempts hattempts (h.joins _ _ hslot)), h.registration⟩
  | crash =>
      exact ⟨fun id slot hslot => h.joins id slot (OrderedMap.get_filterValues.mp hslot).1,
        h.registration⟩
  | bootstrapStarts => exact ⟨h.joins, nofun⟩
  | registerTime hpc => exact ⟨h.joins, registers_time _ _⟩
  | registerAttempt hattempt => exact ⟨h.joins, registers_attempt hattempt h.registration⟩
  | _ => exact ⟨h.joins, h.registration⟩

/-- An entry is put for an ip that is pending. -/
theorem pending_of_created {b : Cluster.World} {a : Cluster.Act} {name value ip : String}
    (h : Carried b) (hcreated : created b a = some (name, value)) (hip : textIp value = some ip) :
    joining b ip = true ∨ registering b.bootstrap b.registration ip = true := by
  unfold created at hcreated
  split at hcreated
  · next id newId a =>
      split at hcreated
      · next parsed hpc =>
          split_ifs at hcreated
          cases hcreated
          obtain ⟨slot, hslot, hthread⟩ := Option.map_eq_some_iff.mp hpc
          have hown := h.joins id slot hslot _ _ _ hthread
          refine .inl (joining_iff.mpr ⟨id, slot, hslot, ?_, by rw [hthread]; rfl⟩)
          exact Option.some.inj (hown.symm.trans hip)
      · cases hcreated
  · split at hcreated
    · next info hpc =>
        split_ifs at hcreated
        cases hcreated
        have hown := h.registration _ hpc
        refine .inr (registering_iff.mpr ⟨Option.some.inj (hown.symm.trans hip), ?_⟩)
        rw [hpc]
        nofun
    · cases hcreated
  · cases hcreated

/-! ## What holds in every run -/

/-- Nothing is pending for a departing ip, and no entry has it. -/
structure Inv (w : World) : Prop where
  carried : Carried w.base
  starting : ∀ id x, w.starting.get id = some x → Registers x.config x.thread.pc
  quiet : ∀ ip, departing w ip = true → pending w ip = false
  absent : ∀ ip, departing w ip = true → Absent w.base.etcd.kv ip

/-- Without an entry for the ip that is created, the ip stays away. -/
theorem absent_kvAfter {b : Cluster.World} {a : Cluster.Act} {ip : String}
    (h : Absent b.etcd.kv ip)
    (hcreated : ∀ name value, created b a = some (name, value) → textIp value ≠ some ip) :
    Absent (kvAfter b a) ip := by
  intro name
  unfold kvAfter
  split
  · next name' value hvalue =>
      split_ifs with hfree
      · rw [peerIp_put]
        split_ifs
        · exact hcreated name' value hvalue
        · exact h name
      · exact h name
  · split
    · next name' _ =>
        rw [peerIp_erase]
        split_ifs
        · nofun
        · exact h name
    · exact h name

/-- What an attempt of a starting daemon does to the store. -/
theorem kv_starting {s u : Etcd} {config : DaemonConfig} {t v : Thread RegisterPc} {a : Attempt}
    (h : (registerClient config).attempt 0 s t a = some (u, v)) :
    u.kv = s.kv ∨ ∃ info, t.pc = .writing info ∧
        u.kv = s.kv.put (TOPOLOGY_PREFIX ++ config.nodeName) info := by
  obtain ⟨r, hr, hu, -⟩ := Client.attempt_cases _ h
  subst hu
  split_ifs with hreaches
  · cases hpc : t.pc with
    | looking =>
        rw [hpc] at hr
        cases hr
        exact .inl rfl
    | writing info =>
        rw [hpc] at hr
        cases hr
        rw [RemovalGuards.kv_putIfAbsent]
        split_ifs with hfree
        · exact .inr ⟨info, rfl, rfl⟩
        · exact .inl rfl
    | _ =>
        rw [hpc] at hr
        cases hr
  · exact .inl rfl

/-- The delete of the last entry with an ip. -/
theorem absent_deleted {b : Cluster.World} {id : ℕ} {slot : RemovalSlot} {d : Target}
    (hslot : b.removals.get id = some slot) (hpc : slot.thread.pc = .deleting d)
    (hlast : deletesLast b (.removalAttempt id .answered) = true) :
    Absent (kvAfter b (.removalAttempt id .answered)) slot.job.ip := by
  intro name
  have hdeleted : RemovalGuards.deleted b (.removalAttempt id .answered) = some d.name := by
    simp only [RemovalGuards.deleted, removalPc, hslot, Option.map_some, hpc, Attempt.reaches, if_true]
  simp only [kvAfter, created, hdeleted, peerIp_erase]
  split_ifs with hname
  · exact (Option.some_ne_none _).symm
  · intro hip
    obtain ⟨info, hinfo, hinfoIp⟩ := Option.bind_eq_some_iff.mp hip
    simp only [deletesLast, hslot, hpc, List.all_eq_true, Bool.or_eq_true, decide_eq_true_eq] at hlast
    have hentry := hlast (name, info) (OrderedMap.mem_entries.mpr ((get_contents _ _).trans hinfo))
    rcases hentry with hsame | hother
    · exact hname hsame.symm
    · exact hother hinfoIp

/-- No join starts for the ip of a job that is past its delete. -/
theorem not_departing_startJoin {w : World} {b : Cluster.World} {id d : ℕ} {call : JoinCall}
    (hb : Cluster.step w.base (.startJoin id d call) = some b)
    (hguard : staysOut w (.cluster (.startJoin id d call)) = true) :
    ¬departing { w with base := b, gone := goneAfter w.gone w.base b (.startJoin id d call) }
      call.joinerIp = true := by
  intro hip
  simp only [staysOut, Bool.and_eq_true, List.all_eq_true, Bool.not_eq_true',
    Bool.and_eq_false_iff, decide_eq_false_iff_not] at hguard
  cases Cluster.steps_of_step hb with
  | startJoin hleader hfree =>
      rcases departing_iff.mp hip with hgone | ⟨id', slot, hslot, hsame, hpast⟩
      · have hne := (List.mem_filter.mp hgone).2
        exact of_decide_eq_true hne rfl
      · rcases hguard.2 (id', slot) (OrderedMap.mem_entries.mpr hslot) with hother | hearly
        · exact hother hsame
        · rw [hpast] at hearly
          cases hearly

/-- A step of the cluster leaves nothing pending for a departing ip. -/
theorem quiet_cluster {w : World} {b : Cluster.World} {a : Cluster.Act} (h : Inv w)
    (hguard : staysOut w (.cluster a) = true) (hb : Cluster.step w.base a = some b) {ip : String}
    (hip : departing { w with base := b, gone := goneAfter w.gone w.base b a } ip = true) :
    pending { w with base := b, gone := goneAfter w.gone w.base b a } ip = false := by
  -- either the ip was departing already, or this step deletes its entry
  have hquiet : pending w ip = false := by
    rcases departing_cluster hb hip with hold | ⟨id, slot, d, rfl, hslot, hpc, rfl⟩
    · exact h.quiet ip hold
    · simp only [staysOut, Bool.and_eq_true] at hguard
      simpa only [deletesAlone, hslot, hpc, Bool.not_eq_true'] using hguard.1.2
  have hback : joining b ip = true ∨ registering b.bootstrap b.registration ip = true →
      pending w ip = true := by
    intro hnew
    rcases pending_cluster hb hnew with hold | ⟨id, d, call, rfl, rfl⟩ | ⟨rfl, rfl⟩
    · exact pending_iff.mpr (or_assoc.mp (.inl hold))
    · exact absurd hip (not_departing_startJoin hb hguard)
    · rcases departing_cluster hb hip with hold | ⟨_, _, _, hact, _⟩
      · simp [staysOut, hold] at hguard
      · cases hact
  rw [Bool.eq_false_iff]
  intro hpending
  have hwas : pending w ip = true := by
    rcases pending_iff.mp hpending with hjoin | hreg | hstarting
    · exact hback (.inl hjoin)
    · exact hback (.inr hreg)
    · exact pending_iff.mpr (.inr (.inr hstarting))
  rw [hquiet] at hwas
  cases hwas

/-- A departing ip has no entry after a step of the cluster. -/
theorem absent_cluster {w : World} {b : Cluster.World} {a : Cluster.Act} (h : Inv w)
    (hguard : staysOut w (.cluster a) = true) (hb : Cluster.step w.base a = some b) {ip : String}
    (hip : departing { w with base := b, gone := goneAfter w.gone w.base b a } ip = true) :
    Absent b.etcd.kv ip := by
  rw [kv_step hb]
  rcases departing_cluster hb hip with hold | ⟨id, slot, d, rfl, hslot, hpc, rfl⟩
  · refine absent_kvAfter (h.absent ip hold) fun name value hcreated hvalue => ?_
    have hpending : pending w ip = true :=
      pending_iff.mpr (or_assoc.mp (.inl (pending_of_created h.carried hcreated hvalue)))
    rw [h.quiet ip hold] at hpending
    cases hpending
  · simp only [staysOut, Bool.and_eq_true] at hguard
    exact absent_deleted hslot hpc hguard.1.1

/-- A daemon moves on: nothing is pending that was not. -/
theorem pending_moved {w : World} {etcd : Etcd} {id : ℕ} {x : Starting} {t : Thread RegisterPc}
    {ip : String} (hx : w.starting.get id = some x) (hmoved : x.thread.pc ≠ .ended)
    (h : pending { w with
      base := { w.base with etcd := etcd }
      starting := w.starting.put id { x with thread := t } } ip = true) : pending w ip = true := by
  rcases pending_iff.mp h with hjoin | hreg | ⟨id', y, hy, hreg⟩
  · exact pending_iff.mpr (.inl hjoin)
  · exact pending_iff.mpr (.inr (.inl hreg))
  · dsimp only at hy
    rw [OrderedMap.get_put] at hy
    split_ifs at hy with hid
    · cases hy
      have hsame := (registering_iff.mp hreg).1
      exact pending_iff.mpr (.inr (.inr ⟨id, x, hx, registering_iff.mpr ⟨hsame, hmoved⟩⟩))
    · exact pending_iff.mpr (.inr (.inr ⟨id', y, hy, hreg⟩))

theorem registers_put {starting : OrderedMap ℕ Starting} {id : ℕ} {x : Starting}
    (h : ∀ id x, starting.get id = some x → Registers x.config x.thread.pc)
    (hx : Registers x.config x.thread.pc) : ∀ id' y, (starting.put id x).get id' = some y →
      Registers y.config y.thread.pc := by
  intro id' y hy
  rw [OrderedMap.get_put] at hy
  split_ifs at hy with hid
  · cases hy
    exact hx
  · exact h id' y hy

theorem get_of_erase {starting : OrderedMap ℕ Starting} {id id' : ℕ} {x : Starting}
    (h : (starting.erase id).get id' = some x) : starting.get id' = some x := by
  rw [OrderedMap.get_erase] at h
  split_ifs at h
  exact h

theorem inv_starts {w : World} (h : Inv w) {id : ℕ} {config : DaemonConfig}
    (hguard : departing w config.localIp = false) :
    Inv { w with starting := w.starting.put id ⟨config, ⟨.looking, 0⟩⟩ } := by
  refine ⟨h.carried, registers_put h.starting nofun, fun ip hip => ?_, h.absent⟩
  have hold : departing w ip = true := hip
  rw [Bool.eq_false_iff]
  intro hpending
  have hquiet := Bool.eq_false_iff.mp (h.quiet ip hold)
  rcases pending_iff.mp hpending with hjoin | hreg | ⟨id', y, hy, hreg⟩
  · exact hquiet (pending_iff.mpr (.inl hjoin))
  · exact hquiet (pending_iff.mpr (.inr (.inl hreg)))
  · dsimp only at hy
    rw [OrderedMap.get_put] at hy
    split_ifs at hy with hid
    · cases hy
      have hsame : config.localIp = ip := (registering_iff.mp hreg).1
      rw [hsame, hold] at hguard
      cases hguard
    · exact hquiet (pending_iff.mpr (.inr (.inr ⟨id', y, hy, hreg⟩)))

theorem inv_attempt {w : World} (h : Inv w) {id : ℕ} {x : Starting} {a : Attempt} {s : Etcd}
    {t : Thread RegisterPc} (hx : w.starting.get id = some x)
    (ha : (registerClient x.config).attempt 0 w.base.etcd x.thread a = some (s, t)) :
    Inv { w with
      base := { w.base with etcd := s }
      starting := w.starting.put id { x with thread := t } } := by
  have hown := h.starting id x hx
  refine ⟨⟨h.carried.joins, h.carried.registration⟩,
    registers_put h.starting (registers_attempt ha hown), fun ip hip => ?_, fun ip hip name => ?_⟩
  · have hold : departing w ip = true := hip
    rw [Bool.eq_false_iff]
    intro hpending
    exact Bool.eq_false_iff.mp (h.quiet ip hold) (pending_moved hx (register_attempt ha).1 hpending)
  · have hold : departing w ip = true := hip
    rcases kv_starting ha with hsame | ⟨info, hpc, hput⟩
    · dsimp only
      rw [hsame]
      exact h.absent ip hold name
    · dsimp only
      rw [hput, peerIp_put]
      split_ifs
      · rw [hown info hpc]
        -- the daemon would be pending for a departing ip
        intro hsame
        have hreg : registering x.config x.thread ip = true :=
          registering_iff.mpr ⟨Option.some.inj hsame, by rw [hpc]; nofun⟩
        exact Bool.eq_false_iff.mp (h.quiet ip hold) (pending_iff.mpr (.inr (.inr ⟨id, x, hx, hreg⟩)))
      · exact h.absent ip hold name

theorem inv_step {w v : World} {act : Act} (h : Inv w) (hguard : staysOut w act = true)
    (hs : step w act = some v) : Inv v := by
  cases act with
  | cluster a =>
      obtain ⟨b, hb, rfl⟩ := Option.map_eq_some_iff.mp hs
      exact ⟨carried_step h.carried hb, h.starting, fun ip => quiet_cluster h hguard hb,
        fun ip => absent_cluster h hguard hb⟩
  | starts id config =>
      simp only [step] at hs
      split_ifs at hs
      cases hs
      exact inv_starts h (by simpa only [staysOut, Bool.not_eq_true'] using hguard)
  | time id now =>
      simp only [step] at hs
      split at hs
      · next config tries hx =>
          cases hs
          refine ⟨h.carried, registers_put h.starting (registers_time config now), fun ip hip => ?_,
            h.absent⟩
          have hold : departing w ip = true := hip
          rw [Bool.eq_false_iff]
          intro hpending
          exact Bool.eq_false_iff.mp (h.quiet ip hold) (pending_moved hx nofun hpending)
      · cases hs
  | attempt id a =>
      simp only [step] at hs
      split at hs
      · next x hx =>
          obtain ⟨r, hr, rfl⟩ := Option.map_eq_some_iff.mp hs
          exact inv_attempt h hx hr
      · cases hs
  | stops id =>
      cases hs
      refine ⟨h.carried, fun id' x hx => h.starting id' x (get_of_erase hx), fun ip hip => ?_,
        h.absent⟩
      have hold : departing w ip = true := hip
      rw [Bool.eq_false_iff]
      intro hpending
      refine Bool.eq_false_iff.mp (h.quiet ip hold) (pending_iff.mpr ?_)
      rcases pending_iff.mp hpending with hjoin | hreg | ⟨id', y, hy, hreg⟩
      · exact .inl hjoin
      · exact .inr (.inl hreg)
      · exact .inr (.inr ⟨id', y, get_of_erase hy, hreg⟩)

/-- When every job deletes the last entry with its ip while nothing is pending for
it, and no daemon with a departing ip starts and no join for an ip whose job is past
its delete, no entry has the ip of a peer whose removal has ended done, until the
next join for it. -/
theorem gone_absent {etcd : Etcd} {isLeader : ℕ → Bool} {bootstrap : DaemonConfig} {as : List Act}
    {w : World} (hguard : Keeps step (fun w act => staysOut w act = true)
      (start etcd isLeader bootstrap) as)
    (hr : run step (start etcd isLeader bootstrap) as = some w) :
    ∀ ip ∈ w.gone, Absent w.base.etcd.kv ip := by
  have hnone : ∀ ip, ¬departing (start etcd isLeader bootstrap) ip = true := by
    intro ip hip
    rcases departing_iff.mp hip with hgone | ⟨id, slot, hslot, -⟩
    · cases hgone
    · cases hslot
  have hcarried : Carried (start etcd isLeader bootstrap).base := by
    refine ⟨fun id slot hslot => ?_, fun info hinfo => ?_⟩
    · cases hslot
    · cases hinfo
  have hstart : Inv (start etcd isLeader bootstrap) :=
    ⟨hcarried, nofun, fun ip hip => absurd hip (hnone ip), fun ip hip => absurd hip (hnone ip)⟩
  have hinv := run_guarded (fun s a t hinv hg ht => inv_step hinv hg ht) hstart hguard hr
  intro ip hip
  exact hinv.absent ip (departing_iff.mpr (.inl hip))

/-! ## The second of two peers is removed -/

def twoMembers : Etcd where
  kv := OrderedMap.empty.putAll
    [(TOPOLOGY_PREFIX ++ "node-1", RemovalGuards.entryText "node-1" "10.0.0.1"),
      (TOPOLOGY_PREFIX ++ "node-2", RemovalGuards.entryText "node-2" "10.0.0.2")]
  members := [⟨1, "node-1", ["http://10.0.0.1:2380"]⟩, ⟨2, "node-2", ["http://10.0.0.2:2380"]⟩]

def firstLeads : World :=
  start twoMembers (fun d => d = 1) ⟨"node-1", "10.0.0.1", "t", 2380, 19500⟩

def answered : Act := .cluster (.removalAttempt 0 .answered)

def look : Act := .cluster (.removalInput 0 (.look true (some "")))

def command : Act := .cluster (.removalInput 0 (.command ⟨0, "", ""⟩))

/-- The job, with acts of others between its delete and the end. -/
def removal (meanwhile : List Act) : List Act :=
  [.cluster (.startRemoval 0 1 ⟨"10.0.0.2"⟩), answered, look, answered, look, command, command,
    command, command, answered] ++ meanwhile ++
    [answered, .cluster (.removalInput 0 .settled), look, answered, answered, answered, look]

/-- The daemon of the second peer starts. -/
def secondStarts : List Act :=
  [.starts 1 ⟨"node-2", "10.0.0.2", "t", 2380, 19500⟩, .attempt 1 .answered, .time 1 ⟨1, 0⟩,
    .attempt 1 .answered]

theorem gone_absent_alone : ∃ w, run step firstLeads (removal []) = some w ∧
    "10.0.0.2" ∈ w.gone ∧ Absent w.base.etcd.kv "10.0.0.2" := by
  have hguard : Keeps step (fun w act => staysOut w act = true) firstLeads (removal []) := by
    decide +kernel
  have hrun : (run step firstLeads (removal [])).any (fun w => w.gone.contains "10.0.0.2") = true := by
    decide +kernel
  obtain ⟨w, hw, hgone⟩ := (Option.any_eq_true _ _).mp hrun
  have hmem := List.contains_iff_mem.mp hgone
  exact ⟨w, hw, hmem, gone_absent hguard hw _ hmem⟩

/-- The removed peer's daemon starts while the survivors settle: its entry is
there when the job has ended done. -/
theorem removed_peer_returns : ∃ (etcd : Etcd) (isLeader : ℕ → Bool) (bootstrap : DaemonConfig)
    (as : List Act) (w : World) (ip : String),
    run step (start etcd isLeader bootstrap) as = some w ∧ ip ∈ w.gone ∧
      ¬Absent w.base.etcd.kv ip := by
  have hrun : (run step firstLeads (removal secondStarts)).any (fun w =>
      w.gone.contains "10.0.0.2" && decide (peerIp w.base.etcd.kv "node-2" = some "10.0.0.2")) = true := by
    decide +kernel
  obtain ⟨w, hw, htest⟩ := (Option.any_eq_true _ _).mp hrun
  rw [Bool.and_eq_true, decide_eq_true_eq, List.contains_iff_mem] at htest
  exact ⟨_, _, _, _, w, _, hw, htest.1, fun h => h "node-2" htest.2⟩

end MilvusOnprem.SelfRegistration
