import MilvusOnprem.EtcdClient
import MilvusOnprem.GuardedRuns
import Mathlib.Data.List.Perm.Basic

/-!
# Leader election over one etcd

Any number of electors share the leases of one etcd and the key
`/cluster/leader`, the only key the election uses. Each elector is the loop of
`LeaderElector.run` with the fields of its object, and beside it the revocations
that `stop` and `step_down` have in flight. A lease that dies takes the key it
holds with it, and every open watch is told of a change of the key.

An attempt of a call that is not answered leaves its request under way, and etcd
may execute it at any later time or never. Clock readings are in nanoseconds and
arbitrary, so they may run backwards; how long a sleep lasts is left out. The
log lines are left out, but not the lookups that can raise in them.
-/
namespace MilvusOnprem.LeaderElection

open EtcdClient

/-! ## The leases and the leader key -/

/-- Leases are numbered in the order in which etcd grants them; `leases` holds
the time to live of those that are live, and `leader` the value of the leader key
and the lease it is bound to. -/
structure LeaseStore where
  nextLease : ℕ
  leases : OrderedMap ℕ ℤ
  leader : Option (String × ℕ)
deriving DecidableEq

inductive Request where
  | leaseGrant (ttl : ℤ)
  | leaseKeepalive (lease : ℕ)
  | leaseRevoke (lease : ℕ)
  | putIfAbsent (value : String) (lease : ℕ)
  | get
deriving DecidableEq, Repr

inductive Reply where
  | granted (lease : ℕ)
  | ttl (t : Option ℤ)
  | revoked
  | succeeded (b : Bool)
  | value (v : Option String)
deriving DecidableEq, Repr

namespace LeaseStore

def isLive (s : LeaseStore) (lease : ℕ) : Bool := (s.leases.get lease).isSome

/-- The lease dies, and with it the key if it is bound to it. -/
def drop (s : LeaseStore) (lease : ℕ) : LeaseStore :=
  { s with
    leases := s.leases.erase lease
    leader := s.leader.filter fun v => v.2 ≠ lease }

/-- One request as etcd executes it. A put with a dead lease fails, but only
where the put is executed. -/
def serve (s : LeaseStore) : Request → LeaseStore × Except String Reply
  | .leaseGrant ttl =>
      ({ s with nextLease := s.nextLease + 1, leases := s.leases.put s.nextLease ttl },
        .ok (.granted s.nextLease))
  | .leaseKeepalive lease => (s, .ok (.ttl (s.leases.get lease)))
  | .leaseRevoke lease =>
      if s.isLive lease then (s.drop lease, .ok .revoked)
      else (s, .error "etcdserver: requested lease not found")
  | .putIfAbsent value lease =>
      match s.leader with
      | some _ => (s, .ok (.succeeded false))
      | none =>
          if s.isLive lease then
            ({ s with leader := some (value, lease) }, .ok (.succeeded true))
          else (s, .error "etcdserver: requested lease not found")
  | .get => (s, .ok (.value (s.leader.map Prod.fst)))

end LeaseStore

/-! ## One elector -/

/-- The fields of the daemon's config that the elector reads. -/
structure ElectorConfig where
  nodeName : String
  localIp : String
  leaseTtlS : ℤ
deriving DecidableEq, Repr

/-- An event of a watch on the leader key. -/
inductive Event where
  | put
  | delete
deriving DecidableEq, Repr

/-- A watch has no stream while its request is made or repeated after a pause;
an open one holds the events that are still to be delivered. -/
inductive Watch where
  | opening
  | stream (pending : List Event)
deriving DecidableEq, Repr

/-- The points of `run`: the condition of its loop, the calls of `_cycle` and
`_hold_leadership`, the return of `put_if_absent`, the condition of the loop that
holds the leadership, `_await_leader_change`, the pause after an error, the end. -/
inductive Pc where
  | top
  | granting
  | claiming (value : String) (lease : ℕ)
  | decided (won : Bool)
  | holding
  | keepingAlive
  | reading
  | awaiting (w : Watch)
  | backingOff
  | ended
deriving DecidableEq, Repr

/-- The events of a change of the leader key reach an open stream. -/
def Pc.notify (evs : List Event) : Pc → Pc
  | .awaiting (.stream pending) => .awaiting (.stream (pending ++ evs))
  | pc => pc

/-- A `lease_revoke` in flight: of `step_down` with its cooldown, or of `stop`. -/
structure Revocation where
  lease : ℕ
  cooldown : Option ℕ
  tries : ℕ
deriving DecidableEq, Repr

/-- `stopping` is the stop event of the object. -/
structure Elector where
  cfg : ElectorConfig
  isLeader : Bool
  leaseId : Option ℕ
  termStartedAt : Option ℕ
  stopping : Bool
  skipRaceUntil : ℕ
  pc : Pc
  tries : ℕ
  revocations : List Revocation
deriving DecidableEq, Repr

/-- The steps of a daemon in which etcd executes nothing. -/
inductive LocalAct where
  | proceed (now : ℕ)
  | openWatch
  | deliver
  | breakWatch
  | stepDown (cooldown : ℕ)
  | stop
  | cancel
  | crash
  | restart
deriving DecidableEq, Repr

/-- `my_value` -/
def leaderValue (cfg : ElectorConfig) (now lease : ℕ) : String :=
  JsonText.dumps (.obj [("node_name", .str cfg.nodeName), ("ip", .str cfg.localIp),
    ("since", .float ⟨now, 8⟩), ("lease_id", .int lease), ("ttl_s", .int cfg.leaseTtlS)])

/-- Whether the log line on the current leader raises: the text is a JSON value
that is not an object. -/
def logRaises (current : Option String) : Bool :=
  match current.filter (· ≠ "") with
  | none => false
  | some text =>
      match JsonText.loads text with
      | some (.obj _) | none => false
      | some _ => true

namespace Elector

/-- `__init__`, with the run loop at its start. -/
def create (cfg : ElectorConfig) : Elector := ⟨cfg, false, none, none, false, 0, .top, 0, []⟩

/-- The `finally` of the term. -/
def release (e : Elector) (pc : Pc) : Elector :=
  { e with isLeader := false, termStartedAt := none, pc := pc, tries := 0 }

def goto (e : Elector) (pc : Pc) : Elector := { e with pc := pc, tries := 0 }

/-- The steps of the run loop between its calls. -/
def proceed (e : Elector) (now : ℕ) : Option Elector :=
  match e.pc with
  | .top =>
      if e.stopping then some (e.goto .ended)
      else if now < e.skipRaceUntil then
        some ({ e with isLeader := false }.goto (.awaiting .opening))
      else some (e.goto .granting)
  | .decided true =>
      some ({ e with isLeader := true, termStartedAt := some now }.goto .holding)
  | .decided false => some ({ e with isLeader := false }.goto .reading)
  | .holding => some (if e.stopping then e.release .top else e.goto .keepingAlive)
  | .backingOff => some (e.goto .top)
  | _ => none

/-- The call in flight in the run loop. -/
def request (e : Elector) : Option Request :=
  match e.pc with
  | .granting => some (.leaseGrant e.cfg.leaseTtlS)
  | .claiming value lease => some (.putIfAbsent value lease)
  | .keepingAlive => e.leaseId.map .leaseKeepalive
  | .reading => some .get
  | _ => none

/-- Where the run loop goes on with the result of its call. -/
def answered (e : Elector) (now : ℕ) (res : Except Exc Reply) : Elector :=
  match e.pc, res with
  | .granting, .ok (.granted lease) =>
      { e with leaseId := some lease }.goto (.claiming (leaderValue e.cfg now lease) lease)
  | .claiming _ _, .ok (.succeeded won) => e.goto (.decided won)
  | .keepingAlive, .ok (.ttl (some ttl)) => if ttl ≤ 0 then e.release .top else e.goto .holding
  | .keepingAlive, _ => e.release .top
  | .reading, .ok (.value current) =>
      if logRaises current then e.goto .backingOff else e.goto (.awaiting .opening)
  | _, _ => e.goto .backingOff

/-- The task of the run loop is cancelled. -/
def cancelled (e : Elector) : Elector :=
  match e.pc with
  | .holding | .keepingAlive => e.release .ended
  | _ => e.goto .ended

def revoke (e : Elector) (cooldown : Option ℕ) : Elector :=
  match e.leaseId with
  | some lease => { e with revocations := e.revocations ++ [⟨lease, cooldown, 0⟩] }
  | none => e

def act (e : Elector) : LocalAct → Option Elector
  | .proceed now => e.proceed now
  | .openWatch =>
      match e.pc with
      | .awaiting .opening => some (e.goto (.awaiting (.stream [])))
      | _ => none
  | .deliver =>
      match e.pc with
      | .awaiting (.stream (.delete :: _)) => some (e.goto .top)
      | .awaiting (.stream (.put :: rest)) => some (e.goto (.awaiting (.stream rest)))
      | _ => none
  | .breakWatch =>
      match e.pc with
      | .awaiting (.stream _) => some (e.goto (.awaiting .opening))
      | _ => none
  | .stepDown cooldown => some (if e.isLeader then e.revoke (some cooldown) else e)
  | .stop => some ({ e with stopping := true }.revoke none)
  | .cancel => some e.cancelled
  | .crash => some ((create e.cfg).goto .ended)
  | .restart => if e.pc = .ended then some (create e.cfg) else none

/-- A revocation ends: `step_down` starts its cooldown unless the call raised. -/
def revoked (e : Elector) (k : ℕ) (r : Revocation) (now : ℕ) (res : Except Exc Reply) :
    Elector :=
  { e with
    revocations := e.revocations.eraseIdx k
    skipRaceUntil :=
      match res, r.cooldown with
      | .ok _, some cooldown => now + cooldown
      | _, _ => e.skipRaceUntil }

def notify (evs : List Event) (e : Elector) : Elector := { e with pc := e.pc.notify evs }

end Elector

/-! ## The system -/

/-- `strays` are the requests whose attempts were given up unanswered. -/
structure World where
  store : LeaseStore
  electors : List Elector
  strays : List Request
deriving DecidableEq

inductive Act where
  | daemon (i : ℕ) (l : LocalAct)
  | attempt (i : ℕ) (a : Attempt) (now : ℕ)
  | revokeAttempt (i k : ℕ) (a : Attempt) (now : ℕ)
  | land (k : ℕ)
  | expire (lease : ℕ)
deriving DecidableEq, Repr

/-- The events between two values of the leader key. -/
def changes : Option (String × ℕ) → Option (String × ℕ) → List Event
  | none, some _ => [.put]
  | some _, none => [.delete]
  | _, _ => []

namespace World

/-- The store changes, and the open watches are told. -/
def commit (w : World) (s : LeaseStore) : World :=
  { w with
    store := s
    electors := w.electors.map (Elector.notify (changes w.store.leader s.leader)) }

def put (w : World) (i : ℕ) (e : Elector) : World := { w with electors := w.electors.set i e }

/-- One attempt of a call. -/
def send (w : World) (r : Request) (tries : ℕ) (a : Attempt) :
    World × Option (Except Exc Reply) :=
  let x := attemptLate LeaseStore.serve tries w.store w.strays r a
  ({ w.commit x.1.1 with strays := x.1.2 }, x.2)

end World

def step (w : World) : Act → Option World
  | .daemon i l => do
      let e ← w.electors[i]?
      let e' ← e.act l
      some (w.put i e')
  | .attempt i a now => do
      let e ← w.electors[i]?
      let r ← e.request
      match w.send r e.tries a with
      | (v, none) => some (v.put i { e with tries := e.tries + 1 })
      | (v, some res) => some (v.put i (e.answered now res))
  | .revokeAttempt i k a now => do
      let e ← w.electors[i]?
      let r ← e.revocations[k]?
      let (v, res) := w.send (.leaseRevoke r.lease) r.tries a
      let e' ← v.electors[i]?
      match res with
      | none =>
          some (v.put i { e' with
            revocations := e'.revocations.set k { r with tries := r.tries + 1 } })
      | some res => some (v.put i (e'.revoked k r now res))
  | .land k => do
      let r ← w.strays[k]?
      some { w.commit (w.store.serve r).1 with strays := w.strays.eraseIdx k }
  | .expire lease =>
      if w.store.isLive lease then some (w.commit (w.store.drop lease)) else none

/-- A store without the leader key in which no lease was granted yet. -/
def emptyStore : LeaseStore := ⟨1, .empty, none⟩

/-- Any store in which the key is bound to a live lease, any number of daemons
that start, and any requests of earlier daemons that are still under way. -/
structure Initial (w : World) : Prop where
  bound : ∀ v lease, w.store.leader = some (v, lease) → w.store.isLive lease = true
  numbered : ∀ lease, w.store.isLive lease = true → lease < w.store.nextLease
  created : ∀ e ∈ w.electors, e = Elector.create e.cfg

/-! ## What a step can do -/

theorem changes_self (v : Option (String × ℕ)) : changes v v = [] := by
  cases v <;> rfl

theorem Pc.notify_of_ne {pc : Pc} (h : ∀ watch, pc ≠ .awaiting watch) (evs : List Event) :
    pc.notify evs = pc := by
  unfold Pc.notify
  split
  · next pending => exact absurd rfl (h _)
  · rfl

@[simp] theorem Pc.notify_nil (pc : Pc) : pc.notify [] = pc := by
  unfold Pc.notify
  split
  · rw [List.append_nil]
  · rfl

/-- How the run loop goes on from a call, by its point and the result. -/
inductive Elector.Answers (e : Elector) (now : ℕ) : Pc → Except Exc Reply → Elector → Prop
  | granted {lease} : Answers e now .granting (.ok (.granted lease))
      ({ e with leaseId := some lease }.goto (.claiming (leaderValue e.cfg now lease) lease))
  | decided {value lease won} : Answers e now (.claiming value lease) (.ok (.succeeded won))
      (e.goto (.decided won))
  | kept {t} : Answers e now .keepingAlive (.ok (.ttl t)) (e.goto .holding)
  | lost {res} : Answers e now .keepingAlive res (e.release .top)
  | read {current} : logRaises current = false →
      Answers e now .reading (.ok (.value current)) (e.goto (.awaiting .opening))
  | failed {pc res} : pc ≠ .holding → pc ≠ .keepingAlive →
      Answers e now pc res (e.goto .backingOff)

theorem Elector.answers {e : Elector} {r : Request} (hr : e.request = some r) (now : ℕ)
    (res : Except Exc Reply) : e.Answers now e.pc res (e.answered now res) := by
  unfold Elector.answered
  split
  · next hpc => exact hpc ▸ .granted
  · next hpc => exact hpc ▸ .decided
  · next hpc =>
      split_ifs
      · exact hpc ▸ .lost
      · exact hpc ▸ .kept
  · next hpc _ => exact hpc ▸ .lost
  · next hpc =>
      split_ifs with hlog
      · exact .failed (by simp [hpc]) (by simp [hpc])
      · exact hpc ▸ .read (by simpa using hlog)
  · next hkeep _ _ _ _ =>
      refine .failed ?_ hkeep
      intro hhold
      simp [Elector.request, hhold] at hr

/-- The store after an attempt. -/
def LeaseStore.after (s : LeaseStore) (r : Request) (a : Attempt) : LeaseStore :=
  EtcdClient.after LeaseStore.serve s r a

/-- What an attempt does: etcd executes the request if it answers it, and a call
returns what it was answered. -/
theorem World.send_cases {w v : World} {r : Request} {tries : ℕ} {a : Attempt}
    {res : Option (Except Exc Reply)} (h : w.send r tries a = (v, res)) :
    ∃ strays, v = { w.commit (w.store.after r a) with strays := strays } ∧
      ∀ y, res = some (.ok y) ↔ a = .answered ∧ (w.store.serve r).2 = .ok y := by
  obtain ⟨rfl, rfl⟩ := Prod.mk.inj h
  refine ⟨(attemptLate LeaseStore.serve tries w.store w.strays r a).1.2, ?_, fun y => ?_⟩
  · simp only [attemptLate_state, LeaseStore.after]
  · exact attemptLate_ok

/-- The steps by the party that takes them: a daemon by itself, the call of a run
loop, a revocation, a stray request, the death of a lease. -/
inductive Steps (w : World) : Act → World → Prop
  | daemon {i l e e'} : w.electors[i]? = some e → e.act l = some e' →
      Steps w (.daemon i l) (w.put i e')
  | again {i a now e r strays} : w.electors[i]? = some e → e.request = some r →
      (∀ y, (w.store.serve r).2 = .ok y → a ≠ .answered) →
      Steps w (.attempt i a now)
        ({ w.commit (w.store.after r a) with strays := strays }.put i
          { e with tries := e.tries + 1 })
  | returns {i a now e r strays res} : w.electors[i]? = some e → e.request = some r →
      (∀ y, res = .ok y ↔ a = .answered ∧ (w.store.serve r).2 = .ok y) →
      Steps w (.attempt i a now)
        ({ w.commit (w.store.after r a) with strays := strays }.put i (e.answered now res))
  | revoke {i k a now e r s strays revocations skipRaceUntil} : w.electors[i]? = some e →
      e.revocations[k]? = some r → s = w.store.after (.leaseRevoke r.lease) a →
      Steps w (.revokeAttempt i k a now)
        ({ w.commit s with strays := strays }.put i
          { e.notify (changes w.store.leader s.leader) with
            revocations := revocations
            skipRaceUntil := skipRaceUntil })
  | land {k r strays} : w.strays[k]? = some r →
      Steps w (.land k) { w.commit (w.store.serve r).1 with strays := strays }
  | expire {lease} : w.store.isLive lease = true →
      Steps w (.expire lease) (w.commit (w.store.drop lease))

theorem steps_of_step {w v : World} {a : Act} (h : step w a = some v) : Steps w a v := by
  cases a with
  | daemon i l =>
      simp only [step, Option.bind_eq_bind, Option.bind_eq_some_iff, Option.some.injEq] at h
      obtain ⟨e, he, e', hact, rfl⟩ := h
      exact .daemon he hact
  | attempt i a now =>
      simp only [step, Option.bind_eq_bind, Option.bind_eq_some_iff] at h
      obtain ⟨e, he, r, hr, h⟩ := h
      cases hsend : w.send r e.tries a with
      | mk u res =>
          obtain ⟨strays, rfl, hres⟩ := World.send_cases hsend
          rw [hsend] at h
          cases res with
          | none =>
              cases h
              exact .again he hr fun y hy ha => by cases (hres y).mpr ⟨ha, hy⟩
          | some res =>
              cases h
              exact .returns he hr fun y => by rw [← hres y, Option.some.injEq]
  | revokeAttempt i k a now =>
      simp only [step, Option.bind_eq_bind, Option.bind_eq_some_iff] at h
      obtain ⟨e, he, r, hr, h⟩ := h
      cases hsend : w.send (.leaseRevoke r.lease) r.tries a with
      | mk u res =>
          obtain ⟨strays, rfl, -⟩ := World.send_cases hsend
          rw [hsend] at h
          obtain ⟨e', he', h⟩ := h
          simp only [World.commit, List.getElem?_map, he, Option.map_some, Option.some.injEq] at he'
          subst he'
          cases res with
          | none =>
              cases h
              exact .revoke he hr rfl
          | some res =>
              cases h
              exact .revoke he hr rfl
  | land k =>
      simp only [step, Option.bind_eq_bind, Option.bind_eq_some_iff, Option.some.injEq] at h
      obtain ⟨r, hr, rfl⟩ := h
      exact .land hr
  | expire lease =>
      simp only [step] at h
      split_ifs at h with hlive
      cases h
      exact .expire hlive

end MilvusOnprem.LeaderElection
