import MilvusOnprem.PeerWatchdog

/-!
# One migration for an outage

The watchdogs of any number of daemons. Their mirrors, files and leader flags
change at any time, and so do the records of the jobs. A tick goes through the
peers of the mirror as it was; it waits for every probe and for the PUT of a
submission. An unanswered PUT may arrive late.

An outage of a peer goes from its first missed probe to the next probe that is
answered to a leader. What belongs to it is recorded for the statements only: the
daemon that submits or has submitted its migration, and the jobs that etcd got
the first record of.
-/
namespace MilvusOnprem.AutoMigrate

open EtcdClient PeerWatchdog GuardedRuns

/-- The points of a tick: between two peers, in a probe, in the PUT of a job. -/
inductive TickPc where
  | idle
  | walking (rest : List (String × Json))
  | probing (name : String) (ip : Json) (rest : List (String × Json))
  | creating (name : String) (job : Jobs.Job) (tries : ℕ) (rest : List (String × Json))

structure Daemon where
  config : WatchConfig
  isLeader : Bool
  file : Option String
  peers : List (String × Json)
  watch : Watch
  pc : TickPc

/-- A daemon that has just started. -/
def Daemon.boot (config : WatchConfig) : Daemon := ⟨config, false, none, [], .fresh, .idle⟩

structure Outage where
  submitter : Option ℕ
  jobs : List String

structure World where
  daemons : ℕ → Daemon
  records : OrderedMap String Jobs.Job
  strays : List (String × Jobs.Job)
  usedIds : List String
  recorded : List String
  outage : String → Option Outage

inductive Act where
  | mirror (d : ℕ) (peers : List (String × Json))
  | file (d : ℕ) (text : Option String)
  | lead (d : ℕ) (flag : Bool)
  | restart (d : ℕ) (config : WatchConfig)
  | others (records : OrderedMap String Jobs.Job)
  | tick (d : ℕ)
  | next (d : ℕ)
  | probed (d : ℕ) (now : ℤ) (outcome : Option Bool) (id : String)
  | attempt (d : ℕ) (a : Attempt)
  | arrives (i : ℕ)

def World.setDaemon (w : World) (d : ℕ) (x : Daemon) : World :=
  { w with daemons := Function.update w.daemons d x }

def World.setOutage (w : World) (name : String) (o : Option Outage) : World :=
  { w with outage := Function.update w.outage name o }

/-- The next peer of a tick: one without an ip and the daemon itself are skipped,
and an info that is no object ends the tick. -/
def visit (localIp name : String) (info : Json) (rest : List (String × Json)) : TickPc :=
  match Topology.infoGet "ip" info with
  | .error _ => .idle
  | .ok none => .walking rest
  | .ok (some ip) =>
      if ip.truthy = false ∨ ip = .str localIp then .walking rest else .probing name ip rest

/-- A probe was missed: an outage begins, unless it lasts. -/
def Outage.begins (o : Option Outage) : Outage := o.getD ⟨none, []⟩

/-- The PUT of a job arrives. -/
def World.arrived (w : World) (name : String) (job : Jobs.Job) : World :=
  let v : World := { w with records := w.records.put job.id job }
  if job.id ∈ w.recorded then v
  else
    let u : World := { v with recorded := job.id :: w.recorded }
    u.setOutage name ((w.outage name).map fun o => { o with jobs := job.id :: o.jobs })

/-- The daemon after a missed probe, and its submission. -/
def Daemon.missed (x : Daemon) (now : ℤ) (name : String) (ip : Json) (rest : List (String × Json)) :
    Daemon × Option String :=
  let watch := (x.watch.missed x.config now name ip).1
  ({ x with watch := watch, pc := .walking rest },
    watch.submits x.config x.isLeader x.file x.peers name)

/-- The end of a probe. Its error ends the tick. -/
def World.probed (w : World) (d : ℕ) (x : Daemon) (now : ℤ) (name : String) (ip : Json)
    (rest : List (String × Json)) (id : String) : Option Bool → Option World
  | none => some (w.setDaemon d { x with pc := .idle })
  | some true =>
      let v := if x.isLeader then w.setOutage name none else w
      some (v.setDaemon d
        { x with watch := (x.watch.answered x.config now name ip).1, pc := .walking rest })
  | some false =>
      let o := Outage.begins (w.outage name)
      match x.missed now name ip rest with
      | (y, none) => some ((w.setOutage name (some o)).setDaemon d y)
      | (y, some target) =>
          if id ∈ w.usedIds then none
          else
            let job := migrateJob id x.config.nodeName target now
            let z := { y with watch := y.watch.mark name, pc := .creating name job 0 rest }
            let v := { w with usedIds := id :: w.usedIds }
            some ((v.setOutage name (some { o with submitter := some d })).setDaemon d z)

/-- What becomes of the request of an attempt. -/
def World.sent (w : World) (name : String) (job : Jobs.Job) : Attempt → World
  | .answered => w.arrived name job
  | .unanswered _ => { w with strays := (name, job) :: w.strays }
  | _ => w

/-- An attempt of the PUT. When the call raises, the flag is cleared. -/
def World.attempted (w : World) (d : ℕ) (x : Daemon) (name : String) (job : Jobs.Job) (tries : ℕ)
    (rest : List (String × Json)) (a : Attempt) : World :=
  let v := w.sent name job a
  match (attemptOn (fun s => Jobs.serve s (.put job)) tries w.records a).2 with
  | none => v.setDaemon d { x with pc := .creating name job (tries + 1) rest }
  | some (.ok _) => v.setDaemon d { x with pc := .walking rest }
  | some (.error _) =>
      let o := (v.outage name).map fun o => { o with submitter := none }
      (v.setOutage name o).setDaemon d
        { x with watch := x.watch.discard name, pc := .walking rest }

def step (w : World) : Act → Option World
  | .mirror d peers => some (w.setDaemon d { w.daemons d with peers := peers })
  | .file d text => some (w.setDaemon d { w.daemons d with file := text })
  | .lead d flag => some (w.setDaemon d { w.daemons d with isLeader := flag })
  | .restart d config => some (w.setDaemon d { Daemon.boot config with file := (w.daemons d).file })
  | .others records => some { w with records := records }
  | .tick d =>
      match (w.daemons d).pc with
      | .idle => some (w.setDaemon d { w.daemons d with pc := .walking (w.daemons d).peers })
      | _ => none
  | .next d =>
      match (w.daemons d).pc with
      | .walking [] => some (w.setDaemon d { w.daemons d with pc := .idle })
      | .walking ((name, info) :: rest) =>
          some (w.setDaemon d { w.daemons d with
            pc := visit (w.daemons d).config.localIp name info rest })
      | _ => none
  | .probed d now outcome id =>
      match (w.daemons d).pc with
      | .probing name ip rest => w.probed d (w.daemons d) now name ip rest id outcome
      | _ => none
  | .attempt d a =>
      match (w.daemons d).pc with
      | .creating name job tries rest => some (w.attempted d (w.daemons d) name job tries rest a)
      | _ => none
  | .arrives i =>
      match w.strays[i]? with
      | some (name, job) => some ({ w with strays := w.strays.eraseIdx i }.arrived name job)
      | none => none

/-- The daemons have just started. -/
def start (configs : ℕ → WatchConfig) (records : OrderedMap String Jobs.Job) : World where
  daemons d := .boot (configs d)
  records := records
  strays := []
  usedIds := records.entries.map Prod.fst
  recorded := records.entries.map Prod.fst
  outage _ := none

/-! ## Runs that remember the migration -/

/-- The daemon waits for the PUT of a job for the peer. -/
def TickPc.creates (name : String) : TickPc → Bool
  | .creating n _ _ _ => n = name
  | _ => false

/-- The daemon that submits or has submitted the migration of the outage. -/
def World.submitter (w : World) (name : String) : Option ℕ :=
  (w.outage name).bind Outage.submitter

/-- After a missed probe the gate lets the daemon pass, and its own file still has
the peer as the host. -/
def Daemon.opens (x : Daemon) (now : ℤ) (name : String) (ip : Json) : Bool :=
  (x.watch.missed x.config now name ip).1.passes x.config x.isLeader name && hostsPulsar x.file name

/-- The submitter of an outage keeps its flag: it does not restart, and it hears
the peer only while it leads. When the gate lets another daemon pass, its own
file has another host. The outage does not end during a submission, and a submission
that raises has not reached etcd and will not. -/
def remembers (w : World) : Act → Bool
  | .restart d _ =>
      (w.daemons d).watch.migratedWhileDown.all fun name => w.submitter name ≠ some d
  | .probed d _ (some true) _ =>
      match (w.daemons d).pc with
      | .probing name _ _ =>
          if (w.daemons d).isLeader then
            (w.submitter name).all fun s => !(w.daemons s).pc.creates name
          else w.submitter name ≠ some d
      | _ => true
  | .probed d now (some false) _ =>
      match (w.daemons d).pc with
      | .probing name ip _ =>
          (w.submitter name).all fun s => s = d || !(w.daemons d).opens now name ip
      | _ => true
  | .attempt d a =>
      match (w.daemons d).pc with
      | .creating _ job tries _ =>
          !a.givesUp tries || (!a.reaches && !w.recorded.contains job.id &&
            w.strays.all fun x => x.2.id ≠ job.id)
      | _ => true
  | _ => true

/-! ## The migration of an outage -/

/-- The jobs of an outage are those of its submitter, whose flag is set. -/
structure Remembered (w : World) (name : String) (o : Outage) : Prop where
  once : o.jobs.length ≤ 1
  unsubmitted : o.submitter = none → o.jobs = []
  flagged : ∀ d, o.submitter = some d → name ∈ (w.daemons d).watch.migratedWhileDown

/-- The outage whose submission waits for its PUT. -/
def Submitting (w : World) (d : ℕ) (name : String) (job : Jobs.Job) : Prop :=
  ∃ jobs, w.outage name = some ⟨some d, jobs⟩ ∧
    (jobs = [] ∨ jobs = [job.id] ∧ job.id ∈ w.recorded)

/-- The record of the job has arrived, or its submission goes on. -/
def Accounted (w : World) (name : String) (job : Jobs.Job) : Prop :=
  job.id ∈ w.recorded ∨ ∃ d tries rest, (w.daemons d).pc = .creating name job tries rest

structure Inv (w : World) : Prop where
  outages : ∀ name o, w.outage name = some o → Remembered w name o
  submissions : ∀ d name job tries rest, (w.daemons d).pc = .creating name job tries rest →
    Submitting w d name job
  strays : ∀ name job, (name, job) ∈ w.strays → Accounted w name job

theorem inv_start (configs : ℕ → WatchConfig) (records : OrderedMap String Jobs.Job) :
    Inv (start configs records) := by
  constructor
  · intro name o ho
    cases ho
  · intro d name job tries rest hpc
    cases hpc
  · intro name job hstray
    cases hstray

variable {w v : World} {d : ℕ} {name : String} {job : Jobs.Job}

@[simp] theorem setDaemon_self (w : World) (d : ℕ) (x : Daemon) : (w.setDaemon d x).daemons d = x := by
  simp only [World.setDaemon, Function.update_self]

theorem setDaemon_other {e : ℕ} (h : e ≠ d) (x : Daemon) :
    (w.setDaemon d x).daemons e = w.daemons e := by
  simp only [World.setDaemon, Function.update_of_ne h]

@[simp] theorem setOutage_self (w : World) (name : String) (o : Option Outage) :
    (w.setOutage name o).outage name = o := by
  simp only [World.setOutage, Function.update_self]

theorem setOutage_other {n : String} (h : n ≠ name) (o : Option Outage) :
    (w.setOutage name o).outage n = w.outage n := by
  simp only [World.setOutage, Function.update_of_ne h]

theorem creates_of_creating {x : Daemon} {tries : ℕ} {rest : List (String × Json)}
    (h : x.pc = .creating name job tries rest) : x.pc.creates name = true := by
  rw [h]
  exact decide_eq_true rfl

theorem creating_of_creates {pc : TickPc} (h : pc.creates name = true) :
    ∃ job tries rest, pc = .creating name job tries rest := by
  cases pc with
  | creating n job tries rest =>
      cases of_decide_eq_true h
      exact ⟨job, tries, rest, rfl⟩
  | _ => cases h

theorem submitter_eq (w : World) (name : String) :
    w.submitter name = (Outage.begins (w.outage name)).submitter := by
  rw [World.submitter]
  cases w.outage name <;> rfl

theorem visit_idle (localIp name : String) (info : Json) (rest : List (String × Json)) (n : String) :
    (visit localIp name info rest).creates n = false := by
  unfold visit
  split
  · rfl
  · rfl
  · split_ifs <;> rfl

/-- The daemon in a submission is the submitter of the outage. -/
theorem Inv.submitter_of_creates (h : Inv w) {e : ℕ} (hcreates : (w.daemons e).pc.creates name = true) :
    w.submitter name = some e := by
  obtain ⟨job, tries, rest, hpc⟩ := creating_of_creates hcreates
  obtain ⟨jobs, ho, -⟩ := h.submissions e name job tries rest hpc
  rw [World.submitter, ho, Option.bind_some]

/-! ### The moves of a daemon -/

/-- A daemon that keeps the flags that count moves. Its submission goes on or has
its record, and it begins no other. -/
theorem Inv.moved {y : Daemon} (h : Inv w)
    (hflags : ∀ name o, w.outage name = some o → o.submitter = some d →
      name ∈ y.watch.migratedWhileDown)
    (hgoes : ∀ name job tries rest, y.pc = .creating name job tries rest →
      ∃ tries rest, (w.daemons d).pc = .creating name job tries rest)
    (hends : ∀ name job tries rest, (w.daemons d).pc = .creating name job tries rest →
      job.id ∈ w.recorded ∨ ∃ tries rest, y.pc = .creating name job tries rest) :
    Inv (w.setDaemon d y) := by
  constructor
  · intro name o ho
    have hold := h.outages name o ho
    refine ⟨hold.once, hold.unsubmitted, ?_⟩
    intro e he
    by_cases hed : e = d
    · subst hed
      rw [setDaemon_self]
      exact hflags name o ho he
    · rw [setDaemon_other hed]
      exact hold.flagged e he
  · intro e name job tries rest he
    by_cases hed : e = d
    · subst hed
      rw [setDaemon_self] at he
      obtain ⟨tries', rest', hold⟩ := hgoes name job tries rest he
      exact h.submissions e name job tries' rest' hold
    · rw [setDaemon_other hed] at he
      exact h.submissions e name job tries rest he
  · intro name job hstray
    rcases h.strays name job hstray with hrecorded | ⟨e, tries, rest, he⟩
    · exact .inl hrecorded
    · by_cases hed : e = d
      · subst hed
        rcases hends name job tries rest he with hrecorded | ⟨tries', rest', hnew⟩
        · exact .inl hrecorded
        · exact .inr ⟨e, tries', rest', by rwa [setDaemon_self]⟩
      · exact .inr ⟨e, tries, rest, by rwa [setDaemon_other hed]⟩

/-- A daemon that is in no submission before and after. -/
theorem Inv.idled {y : Daemon} (h : Inv w) (hbefore : ∀ name, (w.daemons d).pc.creates name = false)
    (hafter : ∀ name, y.pc.creates name = false)
    (hflags : ∀ name o, w.outage name = some o → o.submitter = some d →
      name ∈ y.watch.migratedWhileDown) : Inv (w.setDaemon d y) := by
  apply h.moved hflags
  · intro name job tries rest hpc
    exact absurd (creates_of_creating hpc) (Bool.eq_false_iff.mp (hafter name))
  · intro name job tries rest hpc
    exact absurd (creates_of_creating hpc) (Bool.eq_false_iff.mp (hbefore name))

/-- The flags of a daemon that its step leaves alone. -/
theorem Inv.flags (h : Inv w) {y : Daemon}
    (hy : y.watch.migratedWhileDown = (w.daemons d).watch.migratedWhileDown) :
    ∀ name o, w.outage name = some o → o.submitter = some d → name ∈ y.watch.migratedWhileDown := by
  intro name o ho hd
  rw [hy]
  exact (h.outages name o ho).flagged d hd

/-- An outage for which nobody submits begins or ends. -/
theorem Inv.switched (h : Inv w) {o : Option Outage} (ho : ∀ o', o = some o' → o' = ⟨none, []⟩)
    (hnobody : ∀ d, (w.daemons d).pc.creates name = false) : Inv (w.setOutage name o) := by
  constructor
  · intro n o' hn
    by_cases hname : n = name
    · subst hname
      rw [setOutage_self] at hn
      rw [ho o' hn]
      exact ⟨Nat.zero_le 1, fun _ => rfl, nofun⟩
    · rw [setOutage_other hname] at hn
      have hold := h.outages n o' hn
      exact ⟨hold.once, hold.unsubmitted, hold.flagged⟩
  · intro e n j tries rest he
    obtain ⟨jobs, hn, hjobs⟩ := h.submissions e n j tries rest he
    refine ⟨jobs, ?_, hjobs⟩
    have hname : n ≠ name := by
      rintro rfl
      exact absurd (creates_of_creating he) (Bool.eq_false_iff.mp (hnobody e))
    rwa [setOutage_other hname]
  · exact h.strays

/-- An outage begins or lasts. -/
theorem Inv.begun (h : Inv w) (name : String) :
    Inv (w.setOutage name (some (.begins (w.outage name)))) := by
  cases hname : w.outage name with
  | some o =>
      have hsame : w.setOutage name (some (.begins (some o))) = w := by
        rw [World.setOutage, Outage.begins, Option.getD_some, ← hname, Function.update_eq_self]
      rw [hsame]
      exact h
  | none =>
      apply h.switched
      · intro o ho
        exact (Option.some.inj ho).symm
      · intro e
        by_contra hcreates
        rw [Bool.not_eq_false] at hcreates
        have hsubmitter := h.submitter_of_creates hcreates
        rw [World.submitter, hname] at hsubmitter
        cases hsubmitter

/-! ### The submission -/

theorem recorded_arrived (w : World) (name : String) (job : Jobs.Job) :
    job.id ∈ (w.arrived name job).recorded := by
  unfold World.arrived
  dsimp only
  split_ifs with hold
  · exact hold
  · exact List.mem_cons_self

theorem recorded_grows {id : String} (h : id ∈ w.recorded) (name : String) (job : Jobs.Job) :
    id ∈ (w.arrived name job).recorded := by
  unfold World.arrived
  dsimp only
  split_ifs
  · exact h
  · exact List.mem_cons_of_mem _ h

theorem daemons_arrived (w : World) (name : String) (job : Jobs.Job) :
    (w.arrived name job).daemons = w.daemons := by
  unfold World.arrived
  dsimp only
  split_ifs <;> rfl

theorem strays_arrived (w : World) (name : String) (job : Jobs.Job) :
    (w.arrived name job).strays = w.strays := by
  unfold World.arrived
  dsimp only
  split_ifs <;> rfl

/-- The record of a job whose submission goes on, or a record that etcd has had. -/
theorem Inv.arrived (h : Inv w) (hjob : Accounted w name job) : Inv (w.arrived name job) := by
  have hstrays : ∀ n j, (n, j) ∈ (w.arrived name job).strays → Accounted (w.arrived name job) n j := by
    intro n j hstray
    rw [strays_arrived] at hstray
    rw [Accounted, daemons_arrived]
    exact (h.strays n j hstray).imp_left fun hj => recorded_grows hj name job
  by_cases hold : job.id ∈ w.recorded
  · have hsame : (w.arrived name job).outage = w.outage := by
      simp only [World.arrived, if_pos hold]
    constructor
    · intro n o ho
      rw [hsame] at ho
      have hn := h.outages n o ho
      refine ⟨hn.once, hn.unsubmitted, ?_⟩
      rw [daemons_arrived]
      exact hn.flagged
    · intro e n j tries rest he
      rw [daemons_arrived] at he
      obtain ⟨jobs, ho, hjobs⟩ := h.submissions e n j tries rest he
      exact ⟨jobs, hsame ▸ ho, hjobs.imp_right fun hj => ⟨hj.1, recorded_grows hj.2 name job⟩⟩
    · exact hstrays
  · obtain ⟨d, tries, rest, hpc⟩ := hjob.resolve_left hold
    obtain ⟨jobs, ho, hjobs⟩ := h.submissions d name job tries rest hpc
    have hnone : jobs = [] := hjobs.resolve_right fun hj => hold hj.2
    subst hnone
    have hself : (w.arrived name job).outage name = some ⟨some d, [job.id]⟩ := by
      simp only [World.arrived, if_neg hold, setOutage_self, ho, Option.map_some]
    have hother : ∀ n, n ≠ name → (w.arrived name job).outage n = w.outage n := by
      intro n hn
      simp only [World.arrived, if_neg hold, setOutage_other hn]
    constructor
    · intro n o hn
      by_cases hname : n = name
      · subst hname
        cases hself.symm.trans hn
        refine ⟨Nat.le_refl 1, nofun, ?_⟩
        rw [daemons_arrived]
        exact (h.outages n _ ho).flagged
      · rw [hother n hname] at hn
        have hold := h.outages n o hn
        refine ⟨hold.once, hold.unsubmitted, ?_⟩
        rw [daemons_arrived]
        exact hold.flagged
    · intro e n j tries' rest' he
      rw [daemons_arrived] at he
      obtain ⟨jobs, hn, hjobs⟩ := h.submissions e n j tries' rest' he
      by_cases hname : n = name
      · subst hname
        cases ho.symm.trans hn
        cases hpc.symm.trans he
        exact ⟨_, hself, .inr ⟨rfl, recorded_arrived w n job⟩⟩
      · exact ⟨jobs, (hother n hname).trans hn,
          hjobs.imp_right fun hj => ⟨hj.1, recorded_grows hj.2 name job⟩⟩
    · exact hstrays

/-- The submitter and the outage move together. -/
theorem Inv.exchanged {y : Daemon} {o : Outage} (h : Inv w)
    (hnobody : ∀ e, e ≠ d → (w.daemons e).pc.creates name = false)
    (hflags : ∀ n o, n ≠ name → w.outage n = some o → o.submitter = some d →
      n ∈ y.watch.migratedWhileDown)
    (hjobs : o.jobs = []) (hsubmitter : ∀ e, o.submitter = some e →
      e = d ∧ name ∈ y.watch.migratedWhileDown)
    (hgoes : ∀ n, y.pc.creates n = true → n = name ∧ o.submitter = some d)
    (hends : ∀ n job tries rest, (w.daemons d).pc = .creating n job tries rest →
      ∀ x ∈ w.strays, x.2.id ≠ job.id) :
    Inv ((w.setOutage name (some o)).setDaemon d y) := by
  constructor
  · intro n o' hn
    change (w.setOutage name (some o)).outage n = some o' at hn
    by_cases hname : n = name
    · subst hname
      rw [setOutage_self] at hn
      cases hn
      refine ⟨by simp only [hjobs, List.length_nil, zero_le], fun _ => hjobs, ?_⟩
      intro e he
      obtain ⟨rfl, hflag⟩ := hsubmitter e he
      rwa [setDaemon_self]
    · rw [setOutage_other hname] at hn
      have hold := h.outages n o' hn
      refine ⟨hold.once, hold.unsubmitted, ?_⟩
      intro e he
      by_cases hed : e = d
      · subst hed
        rw [setDaemon_self]
        exact hflags n o' hname hn he
      · rw [setDaemon_other hed]
        exact hold.flagged e he
  · intro e n j tries rest he
    by_cases hed : e = d
    · subst hed
      rw [setDaemon_self] at he
      obtain ⟨rfl, hself⟩ := hgoes n (creates_of_creating he)
      refine ⟨[], ?_, .inl rfl⟩
      change (w.setOutage n (some o)).outage n = _
      rw [setOutage_self, ← hself, ← hjobs]
    · rw [setDaemon_other hed] at he
      obtain ⟨jobs, hn, hjobs⟩ := h.submissions e n j tries rest he
      refine ⟨jobs, ?_, hjobs⟩
      have hname : n ≠ name := by
        rintro rfl
        exact absurd (creates_of_creating he) (Bool.eq_false_iff.mp (hnobody e hed))
      exact (setOutage_other hname _).trans hn
  · intro n j hstray
    rcases h.strays n j hstray with hrecorded | ⟨e, tries, rest, he⟩
    · exact .inl hrecorded
    · by_cases hed : e = d
      · subst hed
        exact absurd rfl (hends n j tries rest he _ hstray)
      · exact .inr ⟨e, tries, rest, by rwa [setDaemon_other hed]⟩

theorem sent_daemons (w : World) (name : String) (job : Jobs.Job) (a : Attempt) :
    (w.sent name job a).daemons = w.daemons := by
  cases a with
  | answered => exact daemons_arrived w name job
  | _ => rfl

theorem Inv.sent (h : Inv w) (hjob : Accounted w name job) (a : Attempt) :
    Inv (w.sent name job a) := by
  cases a with
  | answered => exact h.arrived hjob
  | unanswered err =>
      constructor
      · intro n o ho
        have hold := h.outages n o ho
        exact ⟨hold.once, hold.unsubmitted, hold.flagged⟩
      · exact h.submissions
      · intro n j hstray
        rcases List.mem_cons.mp hstray with heq | hstray
        · cases heq
          exact hjob
        · exact h.strays n j hstray
  | _ => exact h

/-- The submission fails before any attempt of it reaches etcd. -/
theorem Inv.failed {tries : ℕ} {rest : List (String × Json)} (h : Inv w)
    (hpc : (w.daemons d).pc = .creating name job tries rest) (hnew : job.id ∉ w.recorded)
    (hstrays : ∀ x ∈ w.strays, x.2.id ≠ job.id) {y : Daemon} (hy : y.pc = .walking rest)
    (hwatch : y.watch = (w.daemons d).watch.discard name) :
    Inv ((w.setOutage name ((w.outage name).map fun o => { o with submitter := none })).setDaemon d y) := by
  obtain ⟨jobs, ho, hjobs⟩ := h.submissions d name job tries rest hpc
  have hnone : jobs = [] := hjobs.resolve_right fun hj => hnew hj.2
  subst hnone
  rw [ho, Option.map_some]
  apply h.exchanged
  · intro e hed
    by_contra hcreates
    rw [Bool.not_eq_false] at hcreates
    have hsubmitter := h.submitter_of_creates hcreates
    rw [World.submitter, ho] at hsubmitter
    exact hed (Option.some.inj hsubmitter).symm
  · intro n o hname hn hd
    rw [hwatch, mem_discard]
    exact ⟨(h.outages n o hn).flagged d hd, hname⟩
  · rfl
  · nofun
  · intro n hcreates
    rw [hy] at hcreates
    cases hcreates
  · intro n j tries' rest' he
    cases hpc.symm.trans he
    exact hstrays

/-- What an attempt of the PUT does. -/
theorem inv_attempted {tries : ℕ} {rest : List (String × Json)} {a : Attempt} (h : Inv w)
    (hpc : (w.daemons d).pc = .creating name job tries rest)
    (hguard : remembers w (.attempt d a) = true) :
    Inv (w.attempted d (w.daemons d) name job tries rest a) := by
  have hsent : Inv (w.sent name job a) := h.sent (.inr ⟨d, tries, rest, hpc⟩) a
  have hpc' : ((w.sent name job a).daemons d).pc = .creating name job tries rest := by
    rw [sent_daemons, hpc]
  simp only [remembers, hpc, Bool.or_eq_true, Bool.not_eq_true', Bool.and_eq_true,
    List.all_eq_true, decide_eq_true_eq] at hguard
  unfold World.attempted
  dsimp only
  cases hres : attemptOn (fun s => Jobs.serve s (.put job)) tries w.records a with
  | mk s res =>
    cases res with
    | none =>
        dsimp only
        apply hsent.moved
        · exact hsent.flags (by rw [sent_daemons])
        · intro n j tries' rest' he
          cases he
          exact ⟨tries, rest, hpc'⟩
        · intro n j tries' rest' he
          cases hpc'.symm.trans he
          exact .inr ⟨tries + 1, rest, rfl⟩
    | some res =>
        cases res with
        | ok reply =>
            obtain ⟨rfl, -⟩ := attemptOn_ok hres
            dsimp only
            apply hsent.moved
            · exact hsent.flags (by rw [sent_daemons])
            · intro n j tries' rest' he
              cases he
            · intro n j tries' rest' he
              cases hpc'.symm.trans he
              exact .inl (recorded_arrived w name job)
        | error e =>
            have hgives : a.givesUp tries = true := by
              rcases attemptOn_error hres with hgives | ⟨-, text, htext⟩
              · exact hgives
              · cases htext
            obtain ⟨⟨hreaches, hnew⟩, hstrays⟩ := hguard.resolve_left (by rw [hgives]; decide)
            have hsame : w.sent name job a = w := by
              cases a <;> first | rfl | cases hreaches
            dsimp only
            rw [hsame]
            exact h.failed hpc (by simpa using hnew) hstrays rfl rfl

/-! ### The probes -/

/-- Under the guard the gate opens for the first submission of an outage only. -/
theorem unsubmitted_of_submits {now : ℤ} {ip : Json} {rest : List (String × Json)} {id : String}
    {target : String} (h : Inv w) (hpc : (w.daemons d).pc = .probing name ip rest)
    (hguard : remembers w (.probed d now (some false) id) = true)
    (htarget : ((w.daemons d).missed now name ip rest).2 = some target) :
    Outage.begins (w.outage name) = ⟨none, []⟩ := by
  obtain ⟨hpasses, hhosts⟩ := of_submits htarget
  simp only [remembers, hpc] at hguard
  cases ho : w.outage name with
  | none => rfl
  | some o =>
      have hremembered := h.outages name o ho
      obtain ⟨submitter, jobs⟩ := o
      cases submitter with
      | none =>
          have hjobs : jobs = [] := hremembered.unsubmitted rfl
          rw [hjobs]
          rfl
      | some s =>
          exfalso
          simp only [World.submitter, ho, Option.bind_some, Option.all_some, Bool.or_eq_true,
            decide_eq_true_eq, Bool.not_eq_true'] at hguard
          rcases hguard with rfl | hclosed
          · have hflag := hremembered.flagged s rfl
            rw [passes_of_migrated (by rwa [missed_migrated])] at hpasses
            cases hpasses
          · rw [Daemon.opens, hpasses, hhosts] at hclosed
            cases hclosed

/-- What the end of a probe does. -/
theorem inv_probed {now : ℤ} {ip : Json} {rest : List (String × Json)} {id : String}
    {outcome : Option Bool} (h : Inv w) (hpc : (w.daemons d).pc = .probing name ip rest)
    (hguard : remembers w (.probed d now outcome id) = true)
    (hs : w.probed d (w.daemons d) now name ip rest id outcome = some v) : Inv v := by
  have hbefore : ∀ n, (w.daemons d).pc.creates n = false := by
    intro n
    rw [hpc]
    rfl
  match outcome with
  | none =>
      cases hs
      exact h.idled hbefore (fun _ => rfl) (h.flags rfl)
  | some true =>
      cases hs
      simp only [remembers, hpc] at hguard
      split_ifs at hguard with hleads
      · rw [if_pos hleads]
        have hnobody : ∀ e, (w.daemons e).pc.creates name = false := by
          intro e
          by_contra hcreates
          rw [Bool.not_eq_false] at hcreates
          rw [h.submitter_of_creates hcreates, Option.all_some, hcreates] at hguard
          cases hguard
        have hended : Inv (w.setOutage name none) := h.switched nofun hnobody
        apply hended.idled hbefore (fun _ => rfl)
        intro n o ho hd
        have hname : n ≠ name := by
          rintro rfl
          rw [setOutage_self] at ho
          cases ho
        rw [mem_answered]
        exact ⟨(hended.outages n o ho).flagged d hd, hname⟩
      · rw [if_neg hleads]
        apply h.idled hbefore (fun _ => rfl)
        intro n o ho hd
        rw [mem_answered]
        refine ⟨(h.outages n o ho).flagged d hd, ?_⟩
        rintro rfl
        exact of_decide_eq_true hguard (by rw [World.submitter, ho, Option.bind_some, hd])
  | some false =>
      simp only [World.probed] at hs
      split at hs
      · next y hy =>
          cases hs
          have hbegun := h.begun name
          have hfst : y = ((w.daemons d).missed now name ip rest).1 := by rw [hy]
          subst hfst
          exact hbegun.idled hbefore (fun _ => rfl) (hbegun.flags rfl)
      · next y target hy =>
          split_ifs at hs with hid
          cases hs
          have hfst : y = ((w.daemons d).missed now name ip rest).1 := by rw [hy]
          subst hfst
          have htarget : ((w.daemons d).missed now name ip rest).2 = some target := by rw [hy]
          have hfirst := unsubmitted_of_submits h hpc hguard htarget
          have hused : Inv { w with usedIds := id :: w.usedIds } := by
            constructor
            · intro n o ho
              have hold := h.outages n o ho
              exact ⟨hold.once, hold.unsubmitted, hold.flagged⟩
            · exact h.submissions
            · exact h.strays
          rw [hfirst]
          apply hused.exchanged
          · intro e _
            by_contra hcreates
            rw [Bool.not_eq_false] at hcreates
            have hsubmitter := h.submitter_of_creates hcreates
            rw [submitter_eq, hfirst] at hsubmitter
            cases hsubmitter
          · intro n o hname hn hd
            exact List.mem_cons_of_mem _ ((h.outages n o hn).flagged d hd)
          · rfl
          · intro e he
            exact ⟨(Option.some.inj he).symm, List.mem_cons_self⟩
          · intro n hcreates
            exact ⟨(of_decide_eq_true hcreates).symm, rfl⟩
          · intro n j tries rest' he
            cases hpc.symm.trans he

theorem inv_step {act : Act} (h : Inv w) (hguard : remembers w act = true)
    (hs : step w act = some v) : Inv v := by
  have hsame : ∀ (d : ℕ) (y : Daemon), y.watch = (w.daemons d).watch → y.pc = (w.daemons d).pc →
      Inv (w.setDaemon d y) := by
    intro d y hwatch hpc
    apply h.moved (h.flags (by rw [hwatch]))
    · intro n j tries rest he
      exact ⟨tries, rest, hpc ▸ he⟩
    · intro n j tries rest he
      exact .inr ⟨tries, rest, hpc ▸ he⟩
  cases act with
  | mirror d peers =>
      cases hs
      exact hsame d _ rfl rfl
  | file d text =>
      cases hs
      exact hsame d _ rfl rfl
  | lead d flag =>
      cases hs
      exact hsame d _ rfl rfl
  | restart d config =>
      cases hs
      have hlost : ∀ n, w.submitter n ≠ some d := by
        intro n hn
        obtain ⟨o, ho, hd⟩ := Option.bind_eq_some_iff.mp hn
        simp only [remembers, List.all_eq_true, decide_eq_true_eq] at hguard
        exact hguard n ((h.outages n o ho).flagged d hd) hn
      apply h.idled
      · intro n
        by_contra hcreates
        rw [Bool.not_eq_false] at hcreates
        exact hlost n (h.submitter_of_creates hcreates)
      · exact fun _ => rfl
      · intro n o ho hd
        exact absurd (Option.bind_eq_some_iff.mpr ⟨o, ho, hd⟩) (hlost n)
  | others records =>
      cases hs
      constructor
      · intro n o ho
        have hold := h.outages n o ho
        exact ⟨hold.once, hold.unsubmitted, hold.flagged⟩
      · exact h.submissions
      · exact h.strays
  | tick d =>
      simp only [step] at hs
      split at hs
      · next hpc =>
          cases hs
          exact h.idled (fun n => by rw [hpc]; rfl) (fun _ => rfl) (h.flags rfl)
      · cases hs
  | next d =>
      simp only [step] at hs
      split at hs
      · next hpc =>
          cases hs
          exact h.idled (fun n => by rw [hpc]; rfl) (fun _ => rfl) (h.flags rfl)
      · next name info rest hpc =>
          cases hs
          exact h.idled (fun n => by rw [hpc]; rfl) (visit_idle _ name info rest) (h.flags rfl)
      · cases hs
  | probed d now outcome id =>
      simp only [step] at hs
      split at hs
      · next hpc => exact inv_probed h hpc hguard hs
      · cases hs
  | attempt d a =>
      simp only [step] at hs
      split at hs
      · next hpc =>
          cases hs
          exact inv_attempted h hpc hguard
      · cases hs
  | arrives i =>
      simp only [step] at hs
      split at hs
      · next name job hstray =>
          cases hs
          have hremoved : Inv { w with strays := w.strays.eraseIdx i } := by
            constructor
            · intro n o ho
              have hold := h.outages n o ho
              exact ⟨hold.once, hold.unsubmitted, hold.flagged⟩
            · exact h.submissions
            · intro n j hmem
              exact h.strays n j (List.mem_of_mem_eraseIdx hmem)
          exact hremoved.arrived (h.strays name job (List.mem_of_getElem? hstray))
      · cases hs

/-- When the submitter of an outage keeps its flag, no other leader that may
migrate still has the host in its file, and no submission outlasts its outage or
its own failure, one job at most is created in an outage. -/
theorem one_job_per_outage {configs : ℕ → WatchConfig} {records : OrderedMap String Jobs.Job}
    {as : List Act} {w : World}
    (hguard : Keeps step (fun w act => remembers w act = true) (start configs records) as)
    (hr : run step (start configs records) as = some w) (name : String) (o : Outage)
    (ho : w.outage name = some o) : o.jobs.length ≤ 1 := by
  have hinv : Inv w := run_guarded (fun _ _ _ hinv hg ht => inv_step hinv hg ht)
    (inv_start configs records) hguard hr
  exact (hinv.outages name o ho).once

/-! ## The third peer of a cluster goes down -/

/-- Two daemons that migrate at the first missed probe. -/
def threePeers (d : ℕ) : WatchConfig :=
  ⟨if d = 0 then "node-1" else "node-2", if d = 0 then "10.0.0.1" else "10.0.0.2", 6, true, 1⟩

def thirdPeer : String × Json := ("node-3", .obj [("ip", .str "10.0.0.3")])

def firstPeer : String × Json := ("node-1", .obj [("ip", .str "10.0.0.1")])

def thirdHosts : String := "MILVUS_IMAGE_TAG=v2.5.4\nPULSAR_HOST=node-3\n"

def thirdMoved : String := "MILVUS_IMAGE_TAG=v2.5.4\nPULSAR_HOST=node-1\n"

/-- A daemon leads and misses the third peer. -/
def misses (d : ℕ) (text : String) (id : String) : List Act :=
  [.mirror d [thirdPeer, firstPeer], .file d (some text), .lead d true, .tick d, .next d,
    .probed d 0 (some false) id]

/-- The first daemon submits the migration and steps down, the second one leads. -/
def handedOver (text : String) : List Act :=
  misses 0 thirdHosts "a" ++ [Act.attempt 0 .answered, .lead 0 false] ++ misses 1 text "b"

/-- The jobs of the outage of the third peer. -/
def jobsAfter (as : List Act) : Option (List String) :=
  (run step (start threePeers .empty) as).bind fun w => (w.outage "node-3").map Outage.jobs

theorem run_of_jobsAfter {as : List Act} {jobs : List String} (h : jobsAfter as = some jobs) :
    ∃ w o, run step (start threePeers .empty) as = some w ∧ w.outage "node-3" = some o ∧
      o.jobs = jobs := by
  obtain ⟨w, hw, hjobs⟩ := Option.bind_eq_some_iff.mp h
  obtain ⟨o, ho, hjobs⟩ := Option.map_eq_some_iff.mp hjobs
  exact ⟨w, o, hw, ho, hjobs⟩

/-- The migration has reached the second daemon's file before it leads. -/
theorem one_job_per_outage_moved : ∃ w o, run step (start threePeers .empty)
    (handedOver thirdMoved) = some w ∧ w.outage "node-3" = some o ∧ o.jobs = ["a"] ∧
      o.jobs.length ≤ 1 := by
  have hguard : Keeps step (fun w act => remembers w act = true) (start threePeers .empty)
      (handedOver thirdMoved) := by decide +kernel
  have hrun : jobsAfter (handedOver thirdMoved) = some ["a"] := by decide +kernel
  obtain ⟨w, o, hw, ho, hjobs⟩ := run_of_jobsAfter hrun
  exact ⟨w, o, hw, ho, hjobs, one_job_per_outage hguard hw "node-3" o ho⟩

/-- The new leader's file still has the old host: it submits a second migration. -/
theorem second_job_in_outage : ∃ (configs : ℕ → WatchConfig) (records : OrderedMap String Jobs.Job)
    (as : List Act) (w : World) (name : String) (o : Outage),
    run step (start configs records) as = some w ∧ w.outage name = some o ∧ 1 < o.jobs.length := by
  have hrun : jobsAfter (handedOver thirdHosts ++ [Act.attempt 1 .answered]) = some ["b", "a"] := by
    decide +kernel
  obtain ⟨w, o, hw, ho, hjobs⟩ := run_of_jobsAfter hrun
  refine ⟨threePeers, .empty, handedOver thirdHosts ++ [Act.attempt 1 .answered], w, "node-3", o, hw, ho, ?_⟩
  rw [hjobs]
  decide

end MilvusOnprem.AutoMigrate
