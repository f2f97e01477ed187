import MilvusOnprem.ConcurrentJobs
import MilvusOnprem.GuardedRuns

/-!
# When all peers have the same token and the same host

No lock keeps two jobs apart. A rotation and a migration write different keys, so
they may overlap. Two rotations with different tokens, or two migrations to
different hosts, write the files of the peers in different orders, and a joiner
that gets the leader's file during a job is in no list that the job goes through.

Here is what keeps the jobs apart, and what then holds after every step.
-/
namespace MilvusOnprem.SettingsInvariant

open PythonText EtcdClient MilvusOnprem.Topology Joining OrderedPeers EnvFile RotationLogs MigrateSteps
open Cluster (holdsLock JoinSlot)
open ConcurrentJobs SharedSettings
open MigratePulsar (Files fileText ipOrEmpty Migration)
open TopologyWatcher (Mirror contents get_contents)

/-- A peer of the topology is at the ip. -/
def IsPeer (kv : OrderedMap String String) (ip : String) : Prop :=
  ∃ name info, entryOf kv name = some info ∧ usedIp info = some ip

/-- The files of the peers have the same value for the key, or none of them has one. -/
def Agree (key : Key) (w : World) : Prop :=
  ∃ value, ∀ ip, IsPeer w.base.etcd.kv ip → valueOf key (w.files ip) = value

/-- The daemon is in the topology with its own ip. -/
def registered (kv : OrderedMap String String) (config : DaemonConfig) : Bool :=
  peerIp kv config.nodeName = some config.localIp && config.localIp ≠ ""

/-- The list that a job or a join starts with is the topology, its own daemon
among it. A migration and a join read it from etcd. -/
def accurate (w : World) : Act → Bool
  | .rotateStarts _ d peers _ =>
      peers = contents w.base.etcd.kv && registered w.base.etcd.kv (w.config d)
  | .cluster (.joinInput id (.acquired _)) =>
      (w.base.joins.get id).all fun slot => registered w.base.etcd.kv (w.config slot.daemon)
  | _ => true

/-! ## Jobs and joins that do not get in each other's way -/

def working (x : Worker) : Bool :=
  match x.pc with
  | .ended _ => false
  | _ => true

/-- A call that may still enter a new peer. -/
def choosing : JoinPc → Bool
  | .stamping _ _ | .creating _ _ _ | .building _ _ | .adding _ _ => true
  | _ => false

/-- No join is past the lock. -/
def noJoin (w : World) : Bool := w.base.joins.entries.all fun e => !holdsLock e.2.thread.pc

def noJob (w : World) : Bool :=
  (w.rotations.entries.all fun e => !working e.2) &&
    w.migrations.entries.all fun e => !e.2.thread.pc.running

/-- No join is entering a new peer at the ip. -/
def noNewPeer (w : World) (ip : String) : Bool :=
  w.base.joins.entries.all fun e => !(choosing e.2.thread.pc && e.2.call.joinerIp = ip)

/-- The migration leaves out an old host that does not answer. -/
def leavesOut (slot : MigrationSlot) (net : MigratePulsar.Network) : Bool :=
  match slot.thread.pc with
  | .probing peers _ old _ =>
      match withIps peers.entries with
      | .ok ips => (slot.job.migration "" true peers).skipsOldHost net old ips
      | .error _ => false
  | _ => false

/-- A job starts while no join is past the lock and every running job of its kind
writes the same value, a plain word. A join gets the lock while no job runs, on a
daemon that is not itself being entered. No migration leaves out its old host. -/
def apart (w : World) : Act → Bool
  | .rotateStarts _ _ _ params =>
      noJoin w && (newTokenOf params).all fun token =>
        decide (Plain token) && w.rotations.entries.all fun e => !working e.2 || e.2.newToken = token
  | .migrateStarts _ _ toNode _ =>
      noJoin w && toNode.all fun host =>
        decide (Plain host) &&
          w.migrations.entries.all fun e => !e.2.thread.pc.running || e.2.job.toNode = host
  | .cluster (.joinInput id (.acquired _)) =>
      noJob w && (w.base.joins.get id).all fun slot => noNewPeer w (w.localIp slot.daemon)
  | .migrate id (.probe net) => (w.migrations.get id).all fun slot => !leavesOut slot net
  | _ => true

/-! ## The invariant -/

/-- A job or a join that has failed. -/
def Doomed (w : World) : Prop :=
  (∃ id x e, w.rotations.get id = some x ∧ x.pc = .ended (some e)) ∨
    (∃ id slot e, w.migrations.get id = some slot ∧ slot.thread.pc = .raised e) ∨
      ∃ id slot, w.base.joins.get id = some slot ∧
        ((∃ name cause, slot.thread.pc = .rollingBack name cause) ∨ ∃ e, slot.thread.pc = .raised e)

def settings : List Key := [CLUSTER_TOKEN, PULSAR_HOST]

/-- A join is entering a peer at the ip, which may have no file yet. -/
def Entering (joins : OrderedMap ℕ JoinSlot) (ip : String) : Prop :=
  ∃ id slot, joins.get id = some slot ∧ choosing slot.thread.pc = true ∧ slot.call.joinerIp = ip

/-- The files of the peers have the value, and so has every file that is issued. -/
structure Agreed (kv : OrderedMap String String) (joins : OrderedMap ℕ JoinSlot) (files : Files)
    (key : Key) (value : Option String) : Prop where
  files : ∀ ip, IsPeer kv ip → ¬Entering joins ip → Sets key value (files ip)
  issued : ∀ id slot name env, joins.get id = some slot → slot.thread.pc = .adding name env →
    Sets key value (installed env)

/-- The name and the other peers that a call goes on with. -/
def carried : JoinPc → Option (String × List (String × Json))
  | .rejoining name parsed | .stamping name parsed | .creating name parsed _
  | .building name parsed => some (name, parsed)
  | _ => none

structure JoinFit (kv : OrderedMap String String) (joins : OrderedMap ℕ JoinSlot)
    (config : ℕ → DaemonConfig) (slot : JoinSlot) : Prop where
  valid : (∀ e, slot.thread.pc ≠ .raised e) → isValidIpv4 slot.call.joinerIp = true
  bare : ∀ name parsed, carried slot.thread.pc = some (name, parsed) → Bare name ∧ BarePeers parsed
  created : ∀ name parsed value, slot.thread.pc = .creating name parsed value →
    ∃ now, value = slot.call.infoValue name now
  hosted : holdsLock slot.thread.pc = true → registered kv (config slot.daemon) = true ∧
    ¬Entering joins (config slot.daemon).localIp

/-- The files that a rotation still has to see rewritten. -/
def Pending (localIp : ℕ → String) (x : Worker) (ip : String) : Prop :=
  match x.pc with
  | .fanning => ip = localIp x.host ∨ ∃ f ∈ x.followers, f.ip = ip ∧ f.pc ≠ .rotated
  | .own .updating => ip = localIp x.host
  | _ => False

structure RotationFit (kv : OrderedMap String String) (localIp : ℕ → String) (files : Files)
    (x : Worker) : Prop where
  plain : Plain x.newToken
  hosted : IsPeer kv (localIp x.host)
  peers : ∀ f ∈ x.followers, IsPeer kv f.ip
  distinct : x.followers.Pairwise fun f g => f.name ≠ g.name
  covers : ∀ ip, IsPeer kv ip →
    Pending localIp x ip ∨ Sets CLUSTER_TOKEN (some x.newToken) (files ip)

/-- The handler has rewritten its file. -/
def wrote : SelfPc → Bool
  | .rendering | .spawning | .ended none => true
  | _ => false

def handling : SelfPc → Bool
  | .ended _ => false
  | _ => true

/-- A follower's handler, for the job that sent the request. -/
structure HandlingFit (job : Option Worker) (localIp : ℕ → String) (files : Files) (name : String)
    (y : Handling) : Prop where
  sent : job ≠ none
  named : y.pc ≠ .ended (some "")
  live : handling y.pc = true → ∃ x, job = some x ∧ x.pc = .fanning ∧
    ∀ f ∈ x.followers, f.name = name → f.pc ≠ .rotated
  follows : ∀ x, job = some x → working x = true → y.newToken = x.newToken ∧
    (∃ f ∈ x.followers, f.name = name ∧ f.ip = localIp y.host) ∧
      (wrote y.pc = true → Sets CLUSTER_TOKEN (some x.newToken) (files (localIp y.host)))

/-- A follower counts as rotated once its handler has reported, and past the
fan-out all of them do. -/
structure Answered (x : Worker) (handlings : String → Option Handling) : Prop where
  handled : ∀ f ∈ x.followers, f.pc = .rotated → handlings f.name ≠ none
  all : x.pc ≠ .fanning → ∀ f ∈ x.followers, f.pc = .rotated

/-- The requests that a migration still has to send or waits for, once it sends. -/
def queued : MigratePc → Option (List (String × String))
  | .applying queue _ => some queue
  | .syncing p queue _ => some (p :: queue)
  | _ => none

/-- The topology that a migration has read, before it sends. -/
def readPeers : MigratePc → Option Mirror
  | .locating peers | .probing peers _ _ _ => some peers
  | _ => none

structure MigrationFit (kv : OrderedMap String String) (localIp : ℕ → String) (files : Files)
    (slot : MigrationSlot) : Prop where
  plain : Plain slot.job.toNode
  read : ∀ peers, readPeers slot.thread.pc = some peers → peers = contents kv
  located : ∀ peers targetIp old oldIp, slot.thread.pc = .probing peers targetIp old oldIp →
    ipOrEmpty (peers.get slot.job.toNode) = .ok (some targetIp) ∧
      ipOrEmpty (peers.get old) = .ok oldIp
  peers : ∀ queue, queued slot.thread.pc = some queue → ∀ p ∈ queue, IsPeer kv p.2
  covers : ∀ queue, queued slot.thread.pc = some queue → ∀ ip, IsPeer kv ip →
    (∃ p ∈ queue, p.2 = ip) ∨ Sets PULSAR_HOST (some slot.job.toNode) (files ip)

/-- The request that a migration waits for. -/
structure SyncFit (job : Option MigrationSlot) (call : Option SyncCall) (files : Files) : Prop where
  sent : ∀ slot p queue watched, job = some slot → slot.thread.pc = .syncing p queue watched →
    ∃ c, call = some c ∧ c.ip = p.2 ∧ c.host = slot.job.toNode ∧
      (c.applied = true → Sets PULSAR_HOST (some slot.job.toNode) (files p.2))
  awaited : ∀ c, call = some c → c.applied = false →
    ∃ slot p queue watched, job = some slot ∧ slot.thread.pc = .syncing p queue watched ∧
      c.ip = p.2 ∧ c.host = slot.job.toNode

def rotating (w : World) (x : Worker) : Prop :=
  (∃ id, w.rotations.get id = some x) ∧ working x = true

def migrating (w : World) (slot : MigrationSlot) : Prop :=
  (∃ id, w.migrations.get id = some slot) ∧ slot.thread.pc.running = true

/-- No call is past the lock. -/
def Unlocked (w : World) : Prop :=
  ∀ id slot, w.base.joins.get id = some slot → holdsLock slot.thread.pc = false

structure Good (w : World) : Prop where
  bare : ∀ name info, entryOf w.base.etcd.kv name = some info →
    Bare name ∧ ∀ ip, ipOf info = some ip → Bare ip
  tidy : ∀ ip, IsPeer w.base.etcd.kv ip → ¬Entering w.base.joins ip →
    ∀ key ∈ settings, ∃ value, Sets key value (w.files ip)
  joins : ∀ id slot, w.base.joins.get id = some slot →
    JoinFit w.base.etcd.kv w.base.joins w.config slot
  rotations : ∀ x, rotating w x → RotationFit w.base.etcd.kv w.localIp w.files x
  answered : ∀ id x, w.rotations.get id = some x → Answered x (w.handlings id)
  handlings : ∀ id name y, w.handlings id name = some y →
    HandlingFit (w.rotations.get id) w.localIp w.files name y
  migrations : ∀ slot, migrating w slot → MigrationFit w.base.etcd.kv w.localIp w.files slot
  syncs : ∀ id, SyncFit (w.migrations.get id) (w.syncs id) w.files
  jobsApart : (∃ x, rotating w x) ∨ (∃ slot, migrating w slot) → Unlocked w
  oneToken : ∀ x y, rotating w x → rotating w y → x.newToken = y.newToken
  oneHost : ∀ x y, migrating w x → migrating w y → x.job.toNode = y.job.toNode
  token : (∀ x, ¬rotating w x) →
    ∃ value, Agreed w.base.etcd.kv w.base.joins w.files CLUSTER_TOKEN value
  host : (∀ slot, migrating w slot → queued slot.thread.pc = none) →
    ∃ value, Agreed w.base.etcd.kv w.base.joins w.files PULSAR_HOST value

def Inv (w : World) : Prop := Doomed w ∨ Good w

/-! ## Failures stay -/

variable {w v : World} {ip : String} {key : Key} {id : ℕ}

theorem isWord_settings (hkey : key ∈ settings) : IsWord key := by
  revert key
  decide

theorem mem_settings : key ∈ settings ↔ key = CLUSTER_TOKEN ∨ key = PULSAR_HOST := by
  simp [settings]

theorem holdsLock_of_choosing {pc : JoinPc} (h : choosing pc = true) : holdsLock pc = true := by
  cases pc <;> first | rfl | cases h

theorem Unlocked.not_entering (h : Unlocked w) : ¬Entering w.base.joins ip := by
  rintro ⟨id, slot, hslot, hchoosing, -⟩
  have hlock := holdsLock_of_choosing hchoosing
  rw [h id slot hslot] at hlock
  cases hlock

section Update

variable {files : Files} {k : Key} {value : String} {u : Option String}

/-- A write leaves the other key as it is, and the own one where it was written
before. -/
theorem sets_kept (hkey : key ∈ settings) (hk : k ∈ settings) (hword : Plain value)
    (hsame : k = key → u = some value) {other : String} (h : Sets k u (files other)) :
    Sets k u (Function.update files ip (upsertKv key value (files ip)) other) := by
  by_cases hip : other = ip
  · subst hip
    rw [Function.update_self]
    by_cases hk' : k = key
    · subst hk'
      rw [hsame rfl] at h ⊢
      exact h.upsertKv_self (isWord_settings hk) hword
    · exact h.upsertKv_other (isWord_settings hkey) (Ne.symm hk') hword
  · rwa [Function.update_of_ne hip]

theorem sets_written (hkey : key ∈ settings) (hword : Plain value) (h : Sets key u (files ip)) :
    Sets key (some value) (Function.update files ip (upsertKv key value (files ip)) ip) := by
  rw [Function.update_self]
  exact h.upsertKv_self (isWord_settings hkey) hword

end Update

/-- A job writes its value into the file of a peer. -/
theorem Good.write (h : Good w) {value : String} (hkey : key ∈ settings) (hword : Plain value)
    (hip : IsPeer w.base.etcd.kv ip)
    (htoken : key = CLUSTER_TOKEN → ∃ x, rotating w x ∧ x.newToken = value)
    (hhost : key = PULSAR_HOST → ∃ slot, migrating w slot ∧ queued slot.thread.pc ≠ none ∧
      slot.job.toNode = value) :
    Good (w.upsert key value ip) ∧ Sets key (some value) ((w.upsert key value ip).files ip) := by
  have hfree : Unlocked w := by
    rcases mem_settings.mp hkey with heq | heq
    · obtain ⟨x, hx, -⟩ := htoken heq
      exact h.jobsApart (.inl ⟨x, hx⟩)
    · obtain ⟨slot, hslot, -⟩ := hhost heq
      exact h.jobsApart (.inr ⟨slot, hslot⟩)
  have hrotation : ∀ x, rotating w x → CLUSTER_TOKEN = key → some x.newToken = some value := by
    intro x hx heq
    obtain ⟨y, hy, hvalue⟩ := htoken heq.symm
    rw [h.oneToken x y hx hy, hvalue]
  have hmigration : ∀ slot, migrating w slot → PULSAR_HOST = key →
      some slot.job.toNode = some value := by
    intro slot hslot heq
    obtain ⟨y, hy, -, hvalue⟩ := hhost heq.symm
    rw [h.oneHost slot y hslot hy, hvalue]
  have htokenKey : CLUSTER_TOKEN ∈ settings := mem_settings.mpr (.inl rfl)
  have hhostKey : PULSAR_HOST ∈ settings := mem_settings.mpr (.inr rfl)
  constructor
  · exact {
      bare := h.bare
      joins := h.joins
      answered := h.answered
      jobsApart := h.jobsApart
      oneToken := h.oneToken
      oneHost := h.oneHost
      tidy := by
        intro other hother hentering k hk
        obtain ⟨u, hu⟩ := h.tidy other hother hentering k hk
        by_cases hsame : k = key
        · subst hsame
          by_cases hip' : other = ip
          · subst hip'
            exact ⟨_, sets_written hk hword hu⟩
          · exact ⟨u, by simpa [World.upsert, Function.update_of_ne hip'] using hu⟩
        · exact ⟨u, sets_kept hkey hk hword (fun heq => absurd heq hsame) hu⟩
      rotations := by
        intro x hx
        obtain ⟨hplain, hhosted, hpeers, hdistinct, hcovers⟩ := h.rotations x hx
        refine ⟨hplain, hhosted, hpeers, hdistinct, fun other hother => ?_⟩
        exact (hcovers other hother).imp_right
          (sets_kept hkey htokenKey hword (hrotation x hx))
      handlings := by
        intro id name y hy
        obtain ⟨hsent, hnamed, hlive, hfollows⟩ := h.handlings id name y hy
        refine ⟨hsent, hnamed, hlive, fun x hx hworking => ?_⟩
        obtain ⟨hvalue, hfollower, hwrote⟩ := hfollows x hx hworking
        refine ⟨hvalue, hfollower, fun hpc => ?_⟩
        exact sets_kept hkey htokenKey hword (hrotation x ⟨⟨id, hx⟩, hworking⟩) (hwrote hpc)
      migrations := by
        intro slot hslot
        obtain ⟨hplain, hread, hlocated, hpeers, hcovers⟩ := h.migrations slot hslot
        refine ⟨hplain, hread, hlocated, hpeers, fun queue hqueue other hother => ?_⟩
        exact (hcovers queue hqueue other hother).imp_right
          (sets_kept hkey hhostKey hword (hmigration slot hslot))
      syncs := by
        intro id
        obtain ⟨hsent, hawaited⟩ := h.syncs id
        refine ⟨fun slot p queue watched hslot hpc => ?_, hawaited⟩
        obtain ⟨c, hc, hcip, hchost, happlied⟩ := hsent slot p queue watched hslot hpc
        refine ⟨c, hc, hcip, hchost, fun hdone => ?_⟩
        exact sets_kept hkey hhostKey hword
          (hmigration slot ⟨⟨id, hslot⟩, by rw [hpc]; rfl⟩) (happlied hdone)
      token := by
        intro hidle
        obtain ⟨u, hfiles, hissued⟩ := h.token hidle
        refine ⟨u, fun other hother hentering => ?_, hissued⟩
        refine sets_kept hkey htokenKey hword (fun heq => ?_) (hfiles other hother hentering)
        obtain ⟨x, hx, -⟩ := htoken heq.symm
        exact absurd hx (hidle x)
      host := by
        intro hidle
        obtain ⟨u, hfiles, hissued⟩ := h.host hidle
        refine ⟨u, fun other hother hentering => ?_, hissued⟩
        refine sets_kept hkey hhostKey hword (fun heq => ?_) (hfiles other hother hentering)
        obtain ⟨slot, hslot, hqueued, -⟩ := hhost heq.symm
        exact absurd (hidle slot hslot) hqueued }
  · obtain ⟨u, hu⟩ := h.tidy ip hip hfree.not_entering key hkey
    exact sets_written hkey hword hu

/-! ## The state of one job -/

theorem handlings_set {job name job' name' : String} {y z : Handling}
    (h : (w.setHandling job name y).handlings job' name' = some z) :
    job' = job ∧ name' = name ∧ z = y ∨ w.handlings job' name' = some z := by
  simp only [World.setHandling] at h
  by_cases hjob : job' = job
  · subst hjob
    rw [Function.update_self] at h
    by_cases hname : name' = name
    · subst hname
      rw [Function.update_self] at h
      cases h
      exact .inl ⟨rfl, rfl, rfl⟩
    · rw [Function.update_of_ne hname] at h
      exact .inr h
  · rw [Function.update_of_ne hjob] at h
    exact .inr h

theorem handlings_kept {job name job' name' : String} {y : Handling}
    (h : w.handlings job' name' ≠ none) : (w.setHandling job name y).handlings job' name' ≠ none := by
  simp only [World.setHandling]
  by_cases hjob : job' = job
  · subst hjob
    rw [Function.update_self]
    by_cases hname : name' = name
    · subst hname
      simp
    · rwa [Function.update_of_ne hname]
  · rwa [Function.update_of_ne hjob]

theorem Good.setHandling (h : Good w) {job name : String} {y : Handling}
    (hfit : HandlingFit (w.rotations.get job) w.localIp w.files name y) :
    Good (w.setHandling job name y) where
  bare := h.bare
  tidy := h.tidy
  joins := h.joins
  rotations := h.rotations
  migrations := h.migrations
  syncs := h.syncs
  jobsApart := h.jobsApart
  oneToken := h.oneToken
  oneHost := h.oneHost
  token := h.token
  host := h.host
  handlings := by
    intro job' name' y' hy'
    rcases handlings_set hy' with ⟨rfl, rfl, rfl⟩ | hy'
    · exact hfit
    · exact h.handlings job' name' y' hy'
  answered := by
    intro job' x hx
    obtain ⟨hhandled, hall⟩ := h.answered job' x hx
    exact ⟨fun f hf hpc => handlings_kept (hhandled f hf hpc), hall⟩

theorem rotating_set {job : String} {x y : Worker} (h : rotating (w.setRotation job x) y) :
    y = x ∧ working x = true ∨ rotating w y := by
  obtain ⟨⟨job', hy⟩, hworking⟩ := h
  rw [World.setRotation, OrderedMap.get_put] at hy
  split_ifs at hy with hjob
  · cases hy
    exact .inl ⟨rfl, hworking⟩
  · exact .inr ⟨⟨job', hy⟩, hworking⟩

theorem rotating_new {job : String} {x : Worker} (h : working x = true) :
    rotating (w.setRotation job x) x := ⟨⟨job, OrderedMap.get_put_self _ _ _⟩, h⟩

/-- A rotation starts or moves. -/
theorem Good.setRotation (h : Good w) {job : String} {x : Worker} (hfree : Unlocked w)
    (hfit : working x = true → RotationFit w.base.etcd.kv w.localIp w.files x)
    (hsame : ∀ y, rotating w y → working x = true → y.newToken = x.newToken)
    (hanswered : Answered x (w.handlings job))
    (hhandlings : ∀ name y, w.handlings job name = some y →
      HandlingFit (some x) w.localIp w.files name y)
    (hended : working x = false →
      ∃ value, Agreed w.base.etcd.kv w.base.joins w.files CLUSTER_TOKEN value) :
    Good (w.setRotation job x) where
  bare := h.bare
  tidy := h.tidy
  joins := h.joins
  migrations := h.migrations
  syncs := h.syncs
  oneHost := h.oneHost
  host := h.host
  jobsApart := fun _ => hfree
  answered := by
    intro job' y hy
    rw [World.setRotation, OrderedMap.get_put] at hy
    split_ifs at hy with hjob
    · subst hjob
      cases hy
      exact hanswered
    · exact h.answered job' y hy
  rotations := by
    intro y hy
    rcases rotating_set hy with ⟨rfl, hworking⟩ | hy
    · exact hfit hworking
    · exact h.rotations y hy
  handlings := by
    intro job' name y hy
    rw [World.setRotation, OrderedMap.get_put]
    split_ifs with hjob
    · subst hjob
      exact hhandlings name y hy
    · exact h.handlings job' name y hy
  oneToken := by
    intro y z hy hz
    rcases rotating_set hy with ⟨rfl, hworking⟩ | hy'
    · rcases rotating_set hz with ⟨rfl, -⟩ | hz'
      · rfl
      · exact (hsame z hz' hworking).symm
    · rcases rotating_set hz with ⟨rfl, hworking⟩ | hz'
      · exact hsame y hy' hworking
      · exact h.oneToken y z hy' hz'
  token := by
    intro hidle
    refine hended (Bool.eq_false_iff.mpr fun hworking => ?_)
    exact hidle x (rotating_new hworking)

theorem migrating_set {slot y : MigrationSlot} (h : migrating (w.setMigration id slot) y) :
    y = slot ∧ slot.thread.pc.running = true ∨ migrating w y := by
  obtain ⟨⟨id', hy⟩, hrunning⟩ := h
  rw [World.setMigration, OrderedMap.get_put] at hy
  split_ifs at hy with hid
  · cases hy
    exact .inl ⟨rfl, hrunning⟩
  · exact .inr ⟨⟨id', hy⟩, hrunning⟩

theorem migrating_new {slot : MigrationSlot} (h : slot.thread.pc.running = true) :
    migrating (w.setMigration id slot) slot := ⟨⟨id, OrderedMap.get_put_self _ _ _⟩, h⟩

theorem sent_eq (w : World) (id : ℕ) (call : Option SyncCall) :
    ∃ syncs, w.sent id call = { w with syncs := syncs } ∧ syncs id = call.or (w.syncs id) ∧
      ∀ other, other ≠ id → syncs other = w.syncs other := by
  cases call with
  | none => exact ⟨w.syncs, rfl, rfl, fun _ _ => rfl⟩
  | some c =>
      exact ⟨_, rfl, Function.update_self _ _ _, fun other hne => Function.update_of_ne hne _ _⟩

/-- A migration starts or moves, and may send a request. -/
theorem Good.setMigration (h : Good w) {slot : MigrationSlot} {c : Option SyncCall}
    (hfree : Unlocked w)
    (hfit : slot.thread.pc.running = true → MigrationFit w.base.etcd.kv w.localIp w.files slot)
    (hsame : ∀ y, migrating w y → slot.thread.pc.running = true → y.job.toNode = slot.job.toNode)
    (hsync : SyncFit (some slot) (c.or (w.syncs id)) w.files)
    (hhost : (∀ y, migrating (w.setMigration id slot) y → queued y.thread.pc = none) →
      ∃ value, Agreed w.base.etcd.kv w.base.joins w.files PULSAR_HOST value) :
    Good ((w.setMigration id slot).sent id c) := by
  obtain ⟨syncs, hsent, hself, hother⟩ := sent_eq (w.setMigration id slot) id c
  rw [hsent]
  exact {
    bare := h.bare
    tidy := h.tidy
    joins := h.joins
    rotations := h.rotations
    answered := h.answered
    handlings := h.handlings
    oneToken := h.oneToken
    token := h.token
    host := hhost
    jobsApart := fun _ => hfree
    migrations := by
      intro y hy
      rcases migrating_set hy with ⟨rfl, hrunning⟩ | hy'
      · exact hfit hrunning
      · exact h.migrations y hy'
    syncs := by
      intro other
      simp only [World.setMigration, OrderedMap.get_put]
      split_ifs with hid
      · subst hid
        rw [hself]
        exact hsync
      · rw [hother other (Ne.symm hid)]
        exact h.syncs other
    oneHost := by
      intro y z hy hz
      rcases migrating_set hy with ⟨rfl, hrunning⟩ | hy'
      · rcases migrating_set hz with ⟨rfl, -⟩ | hz'
        · rfl
        · exact (hsame z hz' hrunning).symm
      · rcases migrating_set hz with ⟨rfl, hrunning⟩ | hz'
        · exact hsame y hy' hrunning
        · exact h.oneHost y z hy' hz' }

theorem Good.setSync (h : Good w) {call : SyncCall}
    (hfit : SyncFit (w.migrations.get id) (some call) w.files) : Good (w.setSync id call) where
  bare := h.bare
  tidy := h.tidy
  joins := h.joins
  rotations := h.rotations
  answered := h.answered
  handlings := h.handlings
  migrations := h.migrations
  jobsApart := h.jobsApart
  oneToken := h.oneToken
  oneHost := h.oneHost
  token := h.token
  host := h.host
  syncs := by
    intro other
    simp only [World.setSync]
    by_cases hid : other = id
    · subst hid
      rw [Function.update_self]
      exact hfit
    · rw [Function.update_of_ne hid]
      exact h.syncs other

end MilvusOnprem.SettingsInvariant
