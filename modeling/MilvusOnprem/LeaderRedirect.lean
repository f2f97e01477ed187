import MilvusOnprem.LeaderLease
import MilvusOnprem.JsonRoundTrip

/-!
# Requests for the leader

The endpoints that only a leader serves, `/join`, `/jobs` and `/admin/sweep`, answer on
any other daemon with a redirect to the address that the leader key holds, and the
commands of the shell follow such redirects up to a bound, some of them in several
attempts. Between a request and the next one the leadership may move, daemons may start
and end, and the key may be gone, so a chain of redirects can go round in a circle.

A daemon takes a request of a leader once, when it looks at its flag. A connection that
fails, a timeout and an answer from the status 400 on end the command; that the daemon
goes on with a request it has taken does not matter here.
-/
namespace MilvusOnprem.LeaderRedirect

open EtcdClient PythonText LeaderElection GuardedRuns

/-! ## The endpoints -/

/-- What the interpreter writes: the message of a text that is no JSON, and a value in a
formatted string. -/
structure Texts where
  decodeError : String → String
  shown : Json → String

inductive Answer
  | ok (body : String)
  | redirect (location : String)
  | failed (status : ℕ) (detail : String)
deriving DecidableEq

/-- `f"{value}"` -/
def formatted (t : Texts) : Json → String
  | .str s => s
  | j => t.shown j

def url (port : ℕ) (path ip : String) : String := "http://" ++ ip ++ ":" ++ toString port ++ path

/-- What a follower answers, with the value of the leader key. Only a key that is missing
and a text that is no JSON are caught; a value without keys raises. -/
def redirectTo (t : Texts) (port : ℕ) (path : String) (raw : Option String) : Answer :=
  match raw.filter (· ≠ "") with
  | none => .failed 503 "no leader currently; retry shortly"
  | some text =>
      match JsonText.loads text with
      | none => .failed 503 ("leader info unparsable: " ++ t.decodeError text)
      | some (.obj info) =>
          match Json.field "ip" info with
          | some ip => .redirect (url port path (formatted t ip))
          | none => .failed 503 "leader info unparsable: 'ip'"
      | some _ => .failed 500 "Internal Server Error"

/-- A command: the endpoint it posts to, the redirects that `curl` follows, and how often
it is called. -/
structure Command where
  path : String
  maxRedirs : ℕ
  maxAttempts : ℕ
deriving DecidableEq

/-- `cp_post_job` -/
def cpPostJob : Command := ⟨"/jobs", 5, 3⟩

/-- `_remove_node_via_daemon`, with the limit of `curl`. -/
def removeNodeViaDaemon : Command := ⟨"/jobs", 50, 1⟩

/-- `cmd_join` -/
def cmdJoin : Command := ⟨"/join", 50, 1⟩

/-- `_maint_prune_etcd_jobs` -/
def maintPruneEtcdJobs : Command := ⟨"/admin/sweep", 50, 1⟩

/-! ## A command among the daemons -/

/-- The points of a command: its request is on the way, a daemon without the flag reads
the leader key, a daemon with the flag serves the request, the pause before the next
attempt. It prints the body of an answer, or it dies: of a status from 400 on, of a
connection, of too many redirects. -/
inductive Pc
  | sending (target : String)
  | reading (i : ℕ)
  | serving (i : ℕ)
  | pausing
  | printed (body : String)
  | refused (status : ℕ) (detail : String)
  | broken
  | lost
deriving DecidableEq

/-- Redirects that were followed are counted for each attempt. -/
structure Client where
  attempt : ℕ
  redirs : ℕ
  pc : Pc
deriving DecidableEq

/-- A command calls the daemon `here` under the address `home`: most commands the daemon of
their own host, `cmd_join` the peer it is told. The daemons that have taken its request
are in `taken`, the latest first. -/
structure World where
  election : LeaderElection.World
  home : String
  here : ℕ
  client : Client
  taken : List ℕ

inductive Act
  | election (a : LeaderElection.Act)
  | arrive
  | read (answered : Bool)
  | serve (answer : Except (ℕ × String) String)
  | fail
  | wake

/-- The daemon at an address. -/
def World.daemonAt (w : World) (port : ℕ) (path target : String) : Option ℕ :=
  if target = w.home then some w.here
  else w.election.electors.findIdx? fun e => target = url port path e.cfg.localIp

/-- `curl` has an answer. After a redirect too many the command is called again, unless
that was its last attempt. -/
def Client.answered (c : Client) (cmd : Command) : Answer → Client
  | .ok body => { c with pc := .printed body }
  | .failed status detail => { c with pc := .refused status detail }
  | .redirect location =>
      if c.redirs < cmd.maxRedirs then { c with redirs := c.redirs + 1, pc := .sending location }
      else if c.attempt + 1 < cmd.maxAttempts then { c with attempt := c.attempt + 1, pc := .pausing }
      else { c with pc := .lost }

/-- `curl` is running. -/
def Pc.calls : Pc → Bool
  | .sending _ | .reading _ | .serving _ => true
  | _ => false

def Pc.ended : Pc → Bool
  | .printed _ | .refused _ _ | .broken | .lost => true
  | _ => false

section System

variable (t : Texts) (port : ℕ) (cmd : Command)

def step (w : World) : Act → Option World
  | .election a => (LeaderElection.step w.election a).map fun v => { w with election := v }
  | .arrive =>
      match w.client.pc with
      | .sending target => do
          let i ← w.daemonAt port cmd.path target
          let e ← w.election.electors[i]?
          if e.isLeader then
            some { w with client := { w.client with pc := .serving i }, taken := i :: w.taken }
          else some { w with client := { w.client with pc := .reading i } }
      | _ => none
  | .read answered =>
      match w.client.pc with
      | .reading _ =>
          let answer := if answered then redirectTo t port cmd.path (w.election.store.leader.map Prod.fst)
            else .failed 500 "Internal Server Error"
          some { w with client := w.client.answered cmd answer }
      | _ => none
  | .serve answer =>
      match w.client.pc with
      | .serving _ =>
          match answer with
          | .ok body => some { w with client := w.client.answered cmd (.ok body) }
          | .error e => some { w with client := w.client.answered cmd (.failed e.1 e.2) }
      | _ => none
  | .fail =>
      if w.client.pc.calls then some { w with client := { w.client with pc := .broken } } else none
  | .wake =>
      if w.client.pc = .pausing then
        some { w with client := { w.client with redirs := 0, pc := .sending w.home } }
      else none

end System

def start (election : LeaderElection.World) (home : String) (here : ℕ) : World :=
  ⟨election, home, here, ⟨0, 0, .sending home⟩, []⟩

/-- A step of the command and not of the election. -/
def Act.own : Act → Bool
  | .election _ => false
  | _ => true

section Runs

variable {t : Texts} {port : ℕ} {cmd : Command} {w v : World}

/-- What a step of the command does. -/
inductive Steps (t : Texts) (port : ℕ) (cmd : Command) (w : World) : Act → World → Prop
  | election {a e} : LeaderElection.step w.election a = some e → Steps t port cmd w (.election a) { w with election := e }
  | taken {target i e} : w.client.pc = .sending target → w.daemonAt port cmd.path target = some i →
      w.election.electors[i]? = some e → e.isLeader = true →
      Steps t port cmd w .arrive { w with client := { w.client with pc := .serving i }, taken := i :: w.taken }
  | passed {target i e} : w.client.pc = .sending target → w.daemonAt port cmd.path target = some i →
      w.election.electors[i]? = some e → e.isLeader = false →
      Steps t port cmd w .arrive { w with client := { w.client with pc := .reading i } }
  | read {i} : w.client.pc = .reading i → Steps t port cmd w (.read true)
      { w with client := w.client.answered cmd (redirectTo t port cmd.path (w.election.store.leader.map Prod.fst)) }
  | unread {i} : w.client.pc = .reading i → Steps t port cmd w (.read false)
      { w with client := { w.client with pc := .refused 500 "Internal Server Error" } }
  | served {i body} : w.client.pc = .serving i → Steps t port cmd w (.serve (.ok body))
      { w with client := { w.client with pc := .printed body } }
  | failed {i e} : w.client.pc = .serving i → Steps t port cmd w (.serve (.error e))
      { w with client := { w.client with pc := .refused e.1 e.2 } }
  | fail : w.client.pc.calls = true → Steps t port cmd w .fail { w with client := { w.client with pc := .broken } }
  | wake : w.client.pc = .pausing → Steps t port cmd w .wake
      { w with client := { w.client with redirs := 0, pc := .sending w.home } }

theorem steps_of_step {a : Act} (h : step t port cmd w a = some v) : Steps t port cmd w a v := by
  cases a with
  | election a =>
      obtain ⟨e, he, rfl⟩ := Option.map_eq_some_iff.mp h
      exact .election he
  | arrive =>
      unfold step at h
      dsimp only at h
      split at h
      · next target hpc =>
          simp only [Option.bind_eq_bind, Option.bind_eq_some_iff] at h
          obtain ⟨i, hi, e, he, h⟩ := h
          split_ifs at h with hflag
          · cases h
            exact .taken hpc hi he hflag
          · cases h
            exact .passed hpc hi he (Bool.not_eq_true _ ▸ hflag)
      · cases h
  | read answered =>
      unfold step at h
      dsimp only at h
      split at h
      · next i hpc =>
          cases h
          cases answered with
          | true => exact .read hpc
          | false => exact .unread hpc
      · cases h
  | serve answer =>
      unfold step at h
      dsimp only at h
      split at h
      · next i hpc =>
          cases answer with
          | ok body =>
              cases h
              exact .served hpc
          | error e =>
              cases h
              exact .failed hpc
      · cases h
  | fail =>
      unfold step at h
      dsimp only at h
      split_ifs at h with hcalls
      cases h
      exact .fail hcalls
  | wake =>
      unfold step at h
      dsimp only at h
      split_ifs at h with hpc
      cases h
      exact .wake hpc

/-! ## A request is taken once -/

/-- Who has taken the request, by the point of the command. -/
structure Once (w : World) : Prop where
  untaken : (∀ i, w.client.pc ≠ .serving i) → w.client.pc.ended = false → w.taken = []
  serving : ∀ i, w.client.pc = .serving i → w.taken = [i]
  lost : w.client.pc = .lost → w.taken = []
  atMost : w.taken.length ≤ 1

theorem once_answered {answer : Answer} (htaken : w.taken = []) (hbody : ∀ body, answer ≠ .ok body) :
    Once { w with client := w.client.answered cmd answer } := by
  cases answer with
  | ok body => exact absurd rfl (hbody body)
  | failed status detail =>
      constructor <;> simp [Client.answered, htaken, Pc.ended]
  | redirect location =>
      unfold Client.answered
      dsimp only
      split_ifs
      · constructor <;> simp [htaken]
      · constructor <;> simp [htaken]
      · constructor <;> simp [htaken]

theorem redirectTo_ne_ok (path : String) (raw : Option String) (body : String) :
    redirectTo t port path raw ≠ .ok body := by
  unfold redirectTo
  split
  · simp
  · split
    · simp
    · split <;> simp
    · simp

theorem once_step {a : Act} (h : Once w) (hstep : step t port cmd w a = some v) : Once v := by
  have hcases := steps_of_step hstep
  cases hcases with
  | election he => exact ⟨h.untaken, h.serving, h.lost, h.atMost⟩
  | taken hpc hi he hflag =>
      have htaken := h.untaken (by simp [hpc]) (by simp [hpc, Pc.ended])
      constructor <;> simp [htaken]
  | passed hpc hi he hflag =>
      have htaken := h.untaken (by simp [hpc]) (by simp [hpc, Pc.ended])
      constructor <;> simp [htaken]
  | read hpc =>
      exact once_answered (h.untaken (by simp [hpc]) (by simp [hpc, Pc.ended])) (redirectTo_ne_ok cmd.path _)
  | unread hpc =>
      have htaken := h.untaken (by simp [hpc]) (by simp [hpc, Pc.ended])
      constructor <;> simp [htaken, Pc.ended]
  | served hpc =>
      have htaken := h.serving _ hpc
      constructor <;> simp [htaken, Pc.ended]
  | failed hpc =>
      have htaken := h.serving _ hpc
      constructor <;> simp [htaken, Pc.ended]
  | fail hcalls => constructor <;> simp [Pc.ended, h.atMost]
  | wake hpc =>
      have htaken := h.untaken (by simp [hpc]) (by simp [hpc, Pc.ended])
      constructor <;> simp [htaken]

theorem once_start (election : LeaderElection.World) (home : String) (here : ℕ) : Once (start election home here) := by
  constructor <;> simp [start]

/-- The daemon that has taken the request answered it with the body that is printed. -/
def Served (w : World) (past : List (World × Act)) : Prop :=
  ∀ body, w.client.pc = .printed body →
    ∃ s i, (s, Act.serve (.ok body)) ∈ past ∧ s.client.pc = .serving i ∧ w.taken = [i]

theorem served_of_ne {past : List (World × Act)} (h : ∀ body, w.client.pc ≠ .printed body) : Served w past :=
  fun body hpc => absurd hpc (h body)

theorem printed_answered {c : Client} {answer : Answer} {body : String}
    (h : (c.answered cmd answer).pc = .printed body) : answer = .ok body := by
  cases answer with
  | ok body' =>
      cases h
      rfl
  | failed status detail => cases h
  | redirect location =>
      unfold Client.answered at h
      dsimp only at h
      split_ifs at h

theorem served_step {past : List (World × Act)} {a : Act} (honce : Once w) (h : Served w past)
    (hstep : step t port cmd w a = some v) : Served v (past ++ [(w, a)]) := by
  have hcases := steps_of_step hstep
  cases hcases with
  | election he =>
      intro body hpc
      obtain ⟨s, i, hmem, hserving, htaken⟩ := h body hpc
      exact ⟨s, i, List.mem_append_left _ hmem, hserving, htaken⟩
  | taken hpc hi he hflag => exact served_of_ne (by simp)
  | passed hpc hi he hflag => exact served_of_ne (by simp)
  | read hpc => exact fun body hprinted => absurd (printed_answered hprinted) (redirectTo_ne_ok _ _ body)
  | unread hpc => exact served_of_ne (by simp)
  | served hpc =>
      rintro body ⟨⟩
      exact ⟨w, _, List.mem_append_right _ (List.mem_singleton_self _), hpc, honce.serving _ hpc⟩
  | failed hpc => exact served_of_ne (by simp)
  | fail hcalls => exact served_of_ne (by simp)
  | wake hpc => exact served_of_ne (by simp)

/-- However the leadership moves, at most one daemon takes the request of a command, and
none when it gives up after its redirects. A body that is printed was answered by the
one that has taken it. -/
theorem taken_once {election : LeaderElection.World} {home : String} {here : ℕ} {as : List Act}
    (hrun : run (step t port cmd) (start election home here) as = some w) :
    w.taken.length ≤ 1 ∧ (w.client.pc = .lost → w.taken = []) ∧
      ∀ body, w.client.pc = .printed body →
        ∃ s i, (s, Act.serve (.ok body)) ∈ trace (step t port cmd) (start election home here) as ∧
          s.client.pc = .serving i ∧ w.taken = [i] := by
  have h := run_history (I := fun w past => Once w ∧ Served w past)
    (fun s past a s' hs hstep => ⟨once_step hs.1 hstep, served_step hs.1 hs.2 hstep⟩)
    ⟨once_start election home here, served_of_ne (by simp [start])⟩ hrun
  exact ⟨h.1.atMost, h.1.lost, h.2⟩

/-! ## A command ends -/

/-- The calls and answers of one attempt, and the pause after it. -/
def Command.round (cmd : Command) : ℕ := 2 * cmd.maxRedirs + 3

/-- The steps a command has left at most. -/
def Client.remaining (cmd : Command) (c : Client) : ℕ :=
  let later := (cmd.maxAttempts - 1 - c.attempt) * cmd.round
  match c.pc with
  | .sending _ => later + 2 * (cmd.maxRedirs - c.redirs) + 2
  | .reading _ | .serving _ => later + 2 * (cmd.maxRedirs - c.redirs) + 1
  | .pausing => later + cmd.round
  | .printed _ | .refused _ _ | .broken | .lost => 0

theorem remaining_answered {c : Client} {i : ℕ} (hpc : c.pc = .reading i) (answer : Answer) :
    (c.answered cmd answer).remaining cmd + 1 ≤ c.remaining cmd := by
  have hleft : c.remaining cmd =
      (cmd.maxAttempts - 1 - c.attempt) * cmd.round + 2 * (cmd.maxRedirs - c.redirs) + 1 := by
    simp only [Client.remaining, hpc]
  rw [hleft]
  cases answer with
  | ok body => exact Nat.le_add_left _ _
  | failed status detail => exact Nat.le_add_left _ _
  | redirect location =>
      unfold Client.answered
      dsimp only
      split_ifs with hredirs hattempt
      · change (cmd.maxAttempts - 1 - c.attempt) * cmd.round + 2 * (cmd.maxRedirs - (c.redirs + 1)) + 2 + 1 ≤ _
        omega
      · have hnext : cmd.maxAttempts - 1 - c.attempt = (cmd.maxAttempts - 1 - (c.attempt + 1)) + 1 := by omega
        rw [hnext, Nat.add_mul, Nat.one_mul]
        change (cmd.maxAttempts - 1 - (c.attempt + 1)) * cmd.round + cmd.round + 1 ≤ _
        omega
      · exact Nat.le_add_left _ _

theorem remaining_ended {c : Client} : c.remaining cmd = 0 ↔ c.pc.ended = true := by
  cases hpc : c.pc <;> simp [Client.remaining, hpc, Pc.ended, Command.round]

/-- Every step of the command uses up one of those left, and the election uses up none. -/
theorem remaining_step {a : Act} (h : step t port cmd w a = some v) :
    v.client.remaining cmd + (if a.own then 1 else 0) ≤ w.client.remaining cmd := by
  cases steps_of_step h with
  | election he => exact le_of_eq rfl
  | taken hpc hi he hflag =>
      simp only [Client.remaining, hpc, Act.own, if_true]
      omega
  | passed hpc hi he hflag =>
      simp only [Client.remaining, hpc, Act.own, if_true]
      omega
  | read hpc => exact remaining_answered hpc _
  | unread hpc =>
      simp only [Client.remaining, hpc, Act.own, if_true]
      omega
  | served hpc =>
      simp only [Client.remaining, hpc, Act.own, if_true]
      omega
  | failed hpc =>
      simp only [Client.remaining, hpc, Act.own, if_true]
      omega
  | fail hcalls =>
      have hpos : w.client.remaining cmd ≠ 0 := by
        intro hzero
        have hended := remaining_ended.mp hzero
        cases hpc : w.client.pc <;> simp [hpc, Pc.calls, Pc.ended] at hcalls hended
      simp only [Act.own, if_true]
      change 0 + 1 ≤ _
      omega
  | wake hpc =>
      simp only [Client.remaining, hpc, Act.own, if_true, Command.round]
      omega

theorem remaining_run {as : List Act} (h : run (step t port cmd) w as = some v) :
    v.client.remaining cmd + as.countP Act.own ≤ w.client.remaining cmd := by
  induction as generalizing w with
  | nil =>
      cases h
      exact le_of_eq rfl
  | cons a as ih =>
      obtain ⟨u, hu, hrest⟩ := run_cons.mp h
      have hfirst := remaining_step hu
      have hlater := ih hrest
      rw [List.countP_cons]
      omega

/-- Whatever the election does meanwhile, a command makes no more than its calls, their
answers and its pauses, and after that many steps it has ended. -/
theorem ends_within {election : LeaderElection.World} {home : String} {here : ℕ} {as : List Act}
    (hrun : run (step t port cmd) (start election home here) as = some w) :
    as.countP Act.own ≤ (cmd.maxAttempts - 1) * cmd.round + 2 * cmd.maxRedirs + 2 ∧
      (as.countP Act.own = (cmd.maxAttempts - 1) * cmd.round + 2 * cmd.maxRedirs + 2 →
        w.client.pc.ended = true) := by
  have h := remaining_run hrun
  have hstart : (start election home here).client.remaining cmd =
      (cmd.maxAttempts - 1) * cmd.round + 2 * cmd.maxRedirs + 2 := rfl
  rw [hstart] at h
  refine ⟨by omega, fun hlast => ?_⟩
  have hzero : w.client.remaining cmd = 0 := by omega
  exact remaining_ended.mp hzero

end Runs

/-! ## Two daemons -/

def plainTexts : Texts := ⟨fun _ => "", fun _ => ""⟩

/-- The second node sends its command to its own daemon. -/
def secondNode (election : LeaderElection.World) : World := start election "http://127.0.0.1:19500/jobs" 1

/-- The first node wins the leadership, and the command of the second one reaches it. -/
def redirected : List Act :=
  (answeredRound 0 1).map Act.election ++ [Act.arrive, .read true, .arrive, .serve (.ok "\x7b\x7d")]

theorem taken_once_redirected :
    ∃ w, run (step plainTexts 19500 cpPostJob) (secondNode twoElectors) redirected = some w ∧
      w.client.pc = .printed "\x7b\x7d" ∧
        ∃ s i, (s, Act.serve (.ok "\x7b\x7d")) ∈ trace (step plainTexts 19500 cpPostJob) (secondNode twoElectors)
            redirected ∧ s.client.pc = .serving i ∧ w.taken = [i] := by
  have hrun : (run (step plainTexts 19500 cpPostJob) (secondNode twoElectors) redirected).any
      (fun w => decide (w.client.pc = .printed "\x7b\x7d")) = true := by decide +kernel
  obtain ⟨w, hw, hpc⟩ := (Option.any_eq_true _ _).mp hrun
  exact ⟨w, hw, of_decide_eq_true hpc, (taken_once hw).2.2 _ (of_decide_eq_true hpc)⟩

/-- The first node wins the leadership and starts anew. Until its old lease dies it
redirects to itself, and the command goes round. -/
def circling : List Act :=
  let attempt := (List.replicate 6 [Act.arrive, .read true]).flatten
  (answeredRound 0 1 ++ [LeaderElection.Act.daemon 0 .crash, .daemon 0 .restart]).map Act.election ++
    attempt ++ [Act.wake] ++ attempt ++ [Act.wake] ++ attempt

theorem ends_within_circling :
    ∃ w, run (step plainTexts 19500 cpPostJob) (secondNode twoElectors) circling = some w ∧
      circling.countP Act.own = 38 ∧ w.client.pc.ended = true := by
  have hrun : (run (step plainTexts 19500 cpPostJob) (secondNode twoElectors) circling).isSome = true := by
    decide +kernel
  obtain ⟨w, hw⟩ := Option.isSome_iff_exists.mp hrun
  exact ⟨w, hw, by decide, (ends_within hw).2 (by decide)⟩

/-! ## Where the redirects lead -/

/-- The value that an elector with one of these configs claims the key with. -/
def Claimed (cfgs : List ElectorConfig) (value : String) : Prop :=
  ∃ cfg ∈ cfgs, ∃ now lease, value = leaderValue cfg now lease

/-- The leader key tells of a daemon of the cluster, and so does each claim under way. -/
structure Told (cfgs : List ElectorConfig) (e : LeaderElection.World) : Prop where
  electors : e.electors.map Elector.cfg = cfgs
  leader : ∀ value lease, e.store.leader = some (value, lease) → Claimed cfgs value
  strays : ∀ value lease, LeaderElection.Request.putIfAbsent value lease ∈ e.strays → Claimed cfgs value

section Election

variable {cfgs : List ElectorConfig} {e f : LeaderElection.World}

theorem act_cfg {x y : Elector} {l : LocalAct} (h : x.act l = some y) : y.cfg = x.cfg := by
  cases l with
  | proceed now =>
      change x.proceed now = some y at h
      unfold Elector.proceed at h
      split at h
      · split_ifs at h <;> cases h <;> rfl
      · cases h
        rfl
      · cases h
        rfl
      · cases h
        split_ifs <;> rfl
      · cases h
        rfl
      · cases h
  | openWatch =>
      unfold Elector.act at h
      dsimp only at h
      split at h <;> cases h
      rfl
  | deliver =>
      unfold Elector.act at h
      dsimp only at h
      split at h <;> cases h <;> rfl
  | breakWatch =>
      unfold Elector.act at h
      dsimp only at h
      split at h <;> cases h
      rfl
  | stepDown cooldown =>
      cases h
      unfold Elector.revoke
      split_ifs
      · split <;> rfl
      · rfl
  | stop =>
      cases h
      unfold Elector.revoke
      split <;> rfl
  | cancel =>
      cases h
      unfold Elector.cancelled
      split <;> rfl
  | crash =>
      cases h
      rfl
  | restart =>
      unfold Elector.act at h
      dsimp only at h
      split_ifs at h
      cases h
      rfl

theorem answered_cfg (x : Elector) (now : ℕ) (res : Except Exc LeaderElection.Reply) :
    (x.answered now res).cfg = x.cfg := by
  unfold Elector.answered
  split
  · rfl
  · rfl
  · split_ifs <;> rfl
  · rfl
  · split_ifs <;> rfl
  · rfl

/-- The key has its old value, or the one that was put. -/
theorem leader_serve_cases {s : LeaseStore} {r : LeaderElection.Request} {value : String} {lease : ℕ}
    (h : (s.serve r).1.leader = some (value, lease)) :
    s.leader = some (value, lease) ∨ r = .putIfAbsent value lease := by
  cases r with
  | leaseGrant ttl => exact .inl h
  | leaseKeepalive l => exact .inl h
  | get => exact .inl h
  | leaseRevoke l =>
      unfold LeaseStore.serve at h
      dsimp only at h
      split_ifs at h
      · exact .inl (LeaseStore.leader_drop.mp h).1
      · exact .inl h
  | putIfAbsent v l =>
      unfold LeaseStore.serve at h
      dsimp only at h
      split at h
      · exact .inl h
      · split_ifs at h
        · cases h
          exact .inr rfl
        · exact .inl h

theorem told_commit (h : Told cfgs e) {s : LeaseStore} {strays : List LeaderElection.Request}
    (hleader : ∀ value lease, s.leader = some (value, lease) → Claimed cfgs value)
    (hstrays : ∀ value lease, LeaderElection.Request.putIfAbsent value lease ∈ strays → Claimed cfgs value) :
    Told cfgs { e.commit s with strays := strays } := by
  refine ⟨?_, hleader, hstrays⟩
  rw [← h.electors]
  simp only [World.commit, List.map_map]
  rfl

theorem told_put (h : Told cfgs e) {i : ℕ} {x : Elector} (hcfg : cfgs[i]? = some x.cfg) :
    Told cfgs (e.put i x) := by
  refine ⟨?_, h.leader, h.strays⟩
  obtain ⟨hlt, hget⟩ := List.getElem?_eq_some_iff.mp hcfg
  rw [World.put, List.map_set, h.electors, ← hget, List.set_getElem_self]

theorem Told.cfg (h : Told cfgs e) {i : ℕ} {x : Elector} (hx : e.electors[i]? = some x) :
    cfgs[i]? = some x.cfg := by
  rw [← h.electors, List.getElem?_map, hx, Option.map_some]

theorem told_send (h : Told cfgs e) {r : LeaderElection.Request} (tries : ℕ) (a : Attempt)
    (hclaim : ∀ value lease, r = .putIfAbsent value lease → Claimed cfgs value) :
    Told cfgs (e.send r tries a).1 := by
  refine told_commit h (fun value lease hleader => ?_) fun value lease hmem => ?_
  · rw [attemptLate_state, after] at hleader
    split_ifs at hleader
    · rcases leader_serve_cases hleader with hold | hput
      · exact h.leader value lease hold
      · exact hclaim value lease hput
    · exact h.leader value lease hleader
  · rcases mem_attemptLate hmem with hput | hold
    · exact hclaim value lease hput.symm
    · exact h.strays value lease hold

theorem told_step {a : LeaderElection.Act} (hcons : Consistent e) (h : Told cfgs e)
    (hstep : LeaderElection.step e a = some f) : Told cfgs f := by
  cases a with
  | daemon i l =>
      simp only [LeaderElection.step, Option.bind_eq_bind, Option.bind_eq_some_iff, Option.some.injEq] at hstep
      obtain ⟨x, hx, y, hact, rfl⟩ := hstep
      exact told_put h (act_cfg hact ▸ h.cfg hx)
  | attempt i a now =>
      simp only [LeaderElection.step, Option.bind_eq_bind, Option.bind_eq_some_iff] at hstep
      obtain ⟨x, hx, r, hr, hstep⟩ := hstep
      have hclaim : ∀ value lease, r = .putIfAbsent value lease → Claimed cfgs value := by
        intro value lease hput
        have hpc : x.pc = .claiming value lease := by
          unfold Elector.request at hr
          split at hr <;> simp_all
        obtain ⟨-, now', hvalue⟩ := (hcons.tracks i x hx).claims value lease hpc
        exact ⟨x.cfg, List.mem_of_getElem? (h.cfg hx), now', lease, hvalue⟩
      have hsent := told_send h x.tries a hclaim
      have hcfg := h.cfg hx
      cases hsend : e.send r x.tries a with
      | mk u res =>
          rw [hsend] at hstep hsent
          cases res with
          | none =>
              cases hstep
              exact told_put hsent hcfg
          | some res =>
              cases hstep
              exact told_put hsent ((answered_cfg x now res).symm ▸ hcfg)
  | revokeAttempt i k a now =>
      simp only [LeaderElection.step, Option.bind_eq_bind, Option.bind_eq_some_iff] at hstep
      obtain ⟨x, hx, r, hr, hstep⟩ := hstep
      have hsent := told_send h (r := .leaseRevoke r.lease) r.tries a fun value lease hput => by cases hput
      cases hsend : e.send (.leaseRevoke r.lease) r.tries a with
      | mk u res =>
          rw [hsend] at hstep hsent
          obtain ⟨y, hy, hstep⟩ := hstep
          have hcfg := hsent.cfg hy
          cases res with
          | none =>
              cases hstep
              exact told_put hsent hcfg
          | some res =>
              cases hstep
              exact told_put hsent hcfg
  | land k =>
      simp only [LeaderElection.step, Option.bind_eq_bind, Option.bind_eq_some_iff, Option.some.injEq] at hstep
      obtain ⟨r, hr, rfl⟩ := hstep
      refine told_commit h (fun value lease hleader => ?_) fun value lease hmem => ?_
      · rcases leader_serve_cases hleader with hold | rfl
        · exact h.leader value lease hold
        · exact h.strays value lease (List.mem_of_getElem? hr)
      · exact h.strays value lease (List.mem_of_mem_eraseIdx hmem)
  | expire lease =>
      simp only [LeaderElection.step] at hstep
      split_ifs at hstep
      cases hstep
      exact told_commit h (fun value l hleader => h.leader value l (LeaseStore.leader_drop.mp hleader).1) h.strays

end Election

section Reached

variable {t : Texts} {port : ℕ} {cmd : Command} {cfgs : List ElectorConfig} {w v : World}

theorem redirectTo_claim (path : String) (cfg : ElectorConfig) (now lease : ℕ) :
    redirectTo t port path (some (leaderValue cfg now lease)) = .redirect (url port path cfg.localIp) := by
  have hloads := JsonText.loads_dumps (.obj [("node_name", .str cfg.nodeName), ("ip", .str cfg.localIp),
    ("since", .float ⟨now, 8⟩), ("lease_id", .int lease), ("ttl_s", .int cfg.leaseTtlS)])
  have hne : leaderValue cfg now lease ≠ "" := by
    intro hempty
    rw [leaderValue] at hempty
    rw [hempty] at hloads
    cases hloads
  rw [redirectTo, Option.filter_some, if_pos (decide_eq_true hne), leaderValue]
  dsimp only
  rw [hloads]
  rfl

/-- The request is under way to the address the command was told, or to that of a daemon. -/
structure Inside (port : ℕ) (cmd : Command) (cfgs : List ElectorConfig) (w : World) : Prop where
  consistent : Consistent w.election
  told : Told cfgs w.election
  here : w.here < cfgs.length
  target : ∀ target, w.client.pc = .sending target →
    target = w.home ∨ ∃ cfg ∈ cfgs, target = url port cmd.path cfg.localIp

/-- A follower has no leader to name, or it names a daemon of the cluster. -/
theorem redirectTo_told (h : Told cfgs w.election) :
    redirectTo t port cmd.path (w.election.store.leader.map Prod.fst) =
        .failed 503 "no leader currently; retry shortly" ∨
      ∃ cfg ∈ cfgs, redirectTo t port cmd.path (w.election.store.leader.map Prod.fst) =
        .redirect (url port cmd.path cfg.localIp) := by
  cases hleader : w.election.store.leader with
  | none => exact .inl rfl
  | some entry =>
      obtain ⟨cfg, hcfg, now, lease, hvalue⟩ := h.leader entry.1 entry.2 hleader
      refine .inr ⟨cfg, hcfg, ?_⟩
      rw [Option.map_some, hvalue, redirectTo_claim]

theorem inside_step {a : Act} (h : Inside port cmd cfgs w) (hstep : step t port cmd w a = some v) :
    Inside port cmd cfgs v := by
  have hcases := steps_of_step hstep
  cases hcases with
  | election he =>
      exact ⟨consistent_step h.consistent he, told_step h.consistent h.told he, h.here, h.target⟩
  | read hpc =>
      refine ⟨h.consistent, h.told, h.here, fun target htarget => .inr ?_⟩
      rcases @redirectTo_told t port cmd _ _ h.told with hnone | ⟨cfg, hcfg, hsome⟩
      · rw [hnone] at htarget
        cases htarget
      · rw [hsome] at htarget
        unfold Client.answered at htarget
        dsimp only at htarget
        split_ifs at htarget
        cases htarget
        exact ⟨cfg, hcfg, rfl⟩
  | wake hpc =>
      refine ⟨h.consistent, h.told, h.here, fun target htarget => .inl ?_⟩
      cases htarget
      rfl
  | taken | passed | unread | served | failed | fail =>
      exact ⟨h.consistent, h.told, h.here, fun target htarget => by cases htarget⟩

/-- A redirect always leads to a daemon of the cluster, so wherever the request is on its
way to, a daemon can take it or pass it on. A daemon that passes it on finds no leader or
names one of the cluster, and never an address that is not to be read. -/
theorem redirects_stay {election : LeaderElection.World} {home : String} {here : ℕ} {as : List Act}
    (hinit : Initial election) (htold : Told (election.electors.map Elector.cfg) election)
    (hhere : here < election.electors.length)
    (hrun : run (step t port cmd) (start election home here) as = some w) :
    (∀ target, w.client.pc = .sending target → ∃ v, step t port cmd w .arrive = some v) ∧
      (redirectTo t port cmd.path (w.election.store.leader.map Prod.fst) =
          .failed 503 "no leader currently; retry shortly" ∨
        ∃ cfg ∈ election.electors.map Elector.cfg,
          redirectTo t port cmd.path (w.election.store.leader.map Prod.fst) =
            .redirect (url port cmd.path cfg.localIp)) := by
  have hstart : Inside port cmd (election.electors.map Elector.cfg) (start election home here) := by
    refine ⟨consistent_initial hinit, htold, ?_, fun target htarget => ?_⟩
    · rwa [List.length_map]
    · cases htarget
      exact .inl rfl
  have h := run_invariant (fun s a s' hs => inside_step hs) hstart hrun
  refine ⟨fun target htarget => ?_, redirectTo_told h.told⟩
  have hdaemon : ∃ i e, w.daemonAt port cmd.path target = some i ∧ w.election.electors[i]? = some e := by
    unfold World.daemonAt
    split_ifs with hhome
    · have hlt : w.here < w.election.electors.length := by
        rw [← List.length_map (f := Elector.cfg), h.told.electors]
        exact h.here
      exact ⟨w.here, w.election.electors[w.here], rfl, List.getElem?_eq_getElem hlt⟩
    · obtain ⟨cfg, hcfg, rfl⟩ := (h.target target htarget).resolve_left hhome
      rw [← h.told.electors] at hcfg
      obtain ⟨e, he, rfl⟩ := List.mem_map.mp hcfg
      cases hfind : w.election.electors.findIdx? fun e' => decide (url port cmd.path e.cfg.localIp = url port cmd.path e'.cfg.localIp) with
      | none => exact absurd (List.findIdx?_eq_none_iff.mp hfind e he) (by simp)
      | some i =>
          obtain ⟨hlt, -⟩ := List.findIdx?_eq_some_iff_getElem.mp hfind
          exact ⟨i, w.election.electors[i], rfl, List.getElem?_eq_getElem hlt⟩
  obtain ⟨i, e, hi, he⟩ := hdaemon
  simp only [step, htarget, hi, he, Option.bind_eq_bind, Option.bind_some]
  split_ifs
  · exact ⟨_, rfl⟩
  · exact ⟨_, rfl⟩

end Reached

/-! ## While the leadership rests -/

/-- The connections hold and etcd answers. -/
def Act.quiet : Act → Bool
  | .arrive | .read true | .serve _ | .wake => true
  | .election _ | .read false | .fail => false

section Quiet

variable {t : Texts} {port : ℕ} {cmd : Command} {w v : World} {i : ℕ}

/-- The daemon `i` leads under the address `leading`: the daemons find its address in the
leader key, no other one has the flag, and no other one is called under that address. -/
structure Settled (t : Texts) (port : ℕ) (cmd : Command) (i : ℕ) (leading : String) (w : World) : Prop where
  flag : ∃ e, w.election.electors[i]? = some e ∧ e.isLeader = true
  only : ∀ (j : ℕ) (e : Elector), w.election.electors[j]? = some e → e.isLeader = true → j = i
  named : redirectTo t port cmd.path (w.election.store.leader.map Prod.fst) = .redirect leading
  found : w.daemonAt port cmd.path leading = some i
  here : w.here < w.election.electors.length

/-- The way of a request with the steps it has left: at most one redirect, to the leader. -/
def Direct (i : ℕ) (leading : String) (n : ℕ) (w : World) : Prop :=
  match w.client.pc with
  | .sending target =>
      w.taken = [] ∧ (target = w.home ∧ w.client.redirs = 0 ∧ n = 4 ∨ target = leading ∧ w.client.redirs = 1 ∧ n = 2)
  | .reading _ => w.taken = [] ∧ w.client.redirs = 0 ∧ n = 3
  | .serving _ => w.taken = [i] ∧ w.client.redirs ≤ 1 ∧ n = 1
  | .printed _ | .refused _ _ => w.taken = [i] ∧ w.client.redirs ≤ 1 ∧ n = 0
  | .pausing | .broken | .lost => False

theorem settled_step {leading : String} {a : Act} (h : Settled t port cmd i leading w) (hquiet : a.quiet = true)
    (hstep : step t port cmd w a = some v) : Settled t port cmd i leading v := by
  have hcases := steps_of_step hstep
  cases hcases with
  | election he => cases hquiet
  | taken | passed | read | unread | served | failed | fail | wake =>
      exact ⟨h.flag, h.only, h.named, h.found, h.here⟩

/-- A quiet step brings a request nearer to the answer of the leader. -/
theorem direct_step {leading : String} {n : ℕ} {a : Act} (hsettled : Settled t port cmd i leading w)
    (hredirs : 0 < cmd.maxRedirs) (h : Direct i leading n w) (hquiet : a.quiet = true)
    (hstep : step t port cmd w a = some v) : ∃ m < n, Direct i leading m v := by
  have hcases := steps_of_step hstep
  cases hcases with
  | election he => cases hquiet
  | unread hpc => cases hquiet
  | fail hcalls => cases hquiet
  | @taken target j e hpc hj he hflag =>
      obtain rfl := hsettled.only j e he hflag
      simp only [Direct, hpc] at h
      obtain ⟨htaken, hway⟩ := h
      refine ⟨1, by omega, ?_⟩
      simp only [Direct, htaken, and_true, true_and]
      omega
  | @passed target j e hpc hj he hflag =>
      simp only [Direct, hpc] at h
      obtain ⟨htaken, ⟨rfl, hzero, rfl⟩ | ⟨rfl, hone, rfl⟩⟩ := h
      · exact ⟨3, by omega, htaken, hzero, rfl⟩
      · -- the leader itself does not pass the request on
        cases hsettled.found.symm.trans hj
        obtain ⟨e', he', hflag'⟩ := hsettled.flag
        cases he.symm.trans he'
        exact absurd hflag' (by simp [hflag])
  | read hpc =>
      simp only [Direct, hpc] at h
      obtain ⟨htaken, hzero, rfl⟩ := h
      have hanswered : w.client.answered cmd (.redirect leading) =
          { w.client with redirs := w.client.redirs + 1, pc := .sending leading } :=
        if_pos (hzero ▸ hredirs)
      refine ⟨2, by omega, ?_⟩
      rw [hsettled.named, hanswered]
      exact ⟨htaken, .inr ⟨rfl, congrArg (· + 1) hzero, rfl⟩⟩
  | served hpc =>
      simp only [Direct, hpc] at h
      exact ⟨0, by omega, h.1, h.2.1, rfl⟩
  | failed hpc =>
      simp only [Direct, hpc] at h
      exact ⟨0, by omega, h.1, h.2.1, rfl⟩
  | wake hpc => simp only [Direct, hpc] at h

theorem direct_run {leading : String} {n : ℕ} {as : List Act} (hsettled : Settled t port cmd i leading w)
    (hredirs : 0 < cmd.maxRedirs) (h : Direct i leading n w) (hquiet : ∀ a ∈ as, a.quiet = true)
    (hrun : run (step t port cmd) w as = some v) :
    Settled t port cmd i leading v ∧ ∃ m, m + as.length ≤ n ∧ Direct i leading m v := by
  induction as generalizing w n with
  | nil =>
      cases hrun
      exact ⟨hsettled, n, le_rfl, h⟩
  | cons a as ih =>
      obtain ⟨u, hu, hrest⟩ := run_cons.mp hrun
      have ha := hquiet a List.mem_cons_self
      obtain ⟨m, hm, hdirect⟩ := direct_step hsettled hredirs h ha hu
      obtain ⟨hv, k, hk, hlast⟩ := ih (settled_step hsettled ha hu) hdirect
        (fun b hb => hquiet b (List.mem_cons_of_mem a hb)) hrest
      refine ⟨hv, k, ?_, hlast⟩
      rw [List.length_cons]
      omega

/-- A request that is under way can be carried on. -/
theorem direct_enabled {leading : String} {n : ℕ} (hsettled : Settled t port cmd i leading w)
    (h : Direct i leading n w) (hended : w.client.pc.ended = false) :
    ∃ a v, a.quiet = true ∧ step t port cmd w a = some v := by
  cases hpc : w.client.pc with
  | sending target =>
      simp only [Direct, hpc] at h
      have hdaemon : ∃ j e, w.daemonAt port cmd.path target = some j ∧ w.election.electors[j]? = some e := by
        rcases h.2 with ⟨rfl, -⟩ | ⟨rfl, -⟩
        · exact ⟨w.here, _, if_pos rfl, List.getElem?_eq_getElem hsettled.here⟩
        · obtain ⟨e, he, -⟩ := hsettled.flag
          exact ⟨i, e, hsettled.found, he⟩
      obtain ⟨j, e, hj, he⟩ := hdaemon
      refine ⟨.arrive, ?_⟩
      simp only [step, hpc, hj, he, Option.bind_eq_bind, Option.bind_some]
      split_ifs
      · exact ⟨_, rfl, rfl⟩
      · exact ⟨_, rfl, rfl⟩
  | reading j =>
      refine ⟨.read true, ?_⟩
      simp only [step, hpc]
      exact ⟨_, rfl, rfl⟩
  | serving j =>
      refine ⟨.serve (.ok ""), ?_⟩
      simp only [step, hpc]
      exact ⟨_, rfl, rfl⟩
  | pausing => simp only [Direct, hpc] at h
  | printed | refused | broken | lost => simp [hpc, Pc.ended] at hended

theorem url_injective {path ip ip' : String} (h : url port path ip = url port path ip') : ip = ip' := by
  have hchars := congrArg String.toList h
  simp only [url, String.toList_append, List.append_assoc] at hchars
  have hlength := congrArg List.length hchars
  simp only [List.length_append] at hlength
  exact String.toList_injective (List.append_inj (List.append_cancel_left hchars) (by omega)).1

/-- The daemon that leads under a live lease is found through the key. -/
theorem settled_start {election : LeaderElection.World} {home : String} {here : ℕ} {e : Elector}
    (hreach : Reachable LeaderElection.step Initial election) (he : election.electors[i]? = some e)
    (hleads : Leads election.store e)
    (hothers : ∀ (j : ℕ) (e' : Elector), election.electors[j]? = some e' → e'.isLeader = true → j = i)
    (hips : ∀ (j : ℕ) (e' : Elector), election.electors[j]? = some e' → e'.cfg.localIp = e.cfg.localIp → j = i)
    (hhere : here < election.electors.length) (hhome : home = url port cmd.path e.cfg.localIp → here = i) :
    Settled t port cmd i (url port cmd.path e.cfg.localIp) (start election home here) := by
  obtain ⟨hflag, lease, hlease, hlive⟩ := hleads
  obtain ⟨lease', hlease', hkey⟩ := (leads_unique hreach).2 i e he hflag
  cases hlease.symm.trans hlease'
  obtain ⟨now, hnow⟩ := hkey hlive
  refine ⟨⟨e, he, hflag⟩, hothers, ?_, ?_, hhere⟩
  · simp only [start, hnow, Option.map_some]
    exact redirectTo_claim cmd.path e.cfg now lease
  · unfold World.daemonAt
    split_ifs with hcall
    · exact congrArg some (hhome hcall.symm)
    · have hfirst : (election.electors.findIdx? fun e' =>
          decide (url port cmd.path e.cfg.localIp = url port cmd.path e'.cfg.localIp)) = some i := by
        obtain ⟨hlt, hget⟩ := List.getElem?_eq_some_iff.mp he
        refine List.findIdx?_eq_some_iff_getElem.mpr ⟨hlt, by simp [hget], fun j hj hurl => ?_⟩
        have hip := url_injective (of_decide_eq_true hurl)
        have hsame := hips j _ (List.getElem?_eq_getElem (hj.trans hlt)) hip.symm
        omega
      exact hfirst

/-- While one daemon leads and the connections hold, a command has the answer of the
leader after at most one redirect, whichever daemon it calls first. -/
theorem reaches_leader {election : LeaderElection.World} {home : String} {here : ℕ} {e : Elector} {as : List Act}
    (hreach : Reachable LeaderElection.step Initial election) (he : election.electors[i]? = some e)
    (hleads : Leads election.store e)
    (hothers : ∀ (j : ℕ) (e' : Elector), election.electors[j]? = some e' → e'.isLeader = true → j = i)
    (hips : ∀ (j : ℕ) (e' : Elector), election.electors[j]? = some e' → e'.cfg.localIp = e.cfg.localIp → j = i)
    (hhere : here < election.electors.length) (hhome : home = url port cmd.path e.cfg.localIp → here = i)
    (hredirs : 0 < cmd.maxRedirs) (hquiet : ∀ a ∈ as, a.quiet = true)
    (hrun : run (step t port cmd) (start election home here) as = some w) :
    as.length ≤ 4 ∧
      (w.client.pc.ended = true → w.taken = [i] ∧ w.client.redirs ≤ 1 ∧
        ((∃ body, w.client.pc = .printed body) ∨ ∃ status detail, w.client.pc = .refused status detail)) ∧
      (w.client.pc.ended = false → ∃ a v, a.quiet = true ∧ step t port cmd w a = some v) := by
  have hstart : Direct i (url port cmd.path e.cfg.localIp) 4 (start election home here) :=
    ⟨rfl, .inl ⟨rfl, rfl, rfl⟩⟩
  obtain ⟨hsettled, m, hm, hdirect⟩ :=
    direct_run (settled_start hreach he hleads hothers hips hhere hhome) hredirs hstart hquiet hrun
  refine ⟨by omega, fun hended => ?_, direct_enabled hsettled hdirect⟩
  cases hpc : w.client.pc with
  | printed body =>
      simp only [Direct, hpc] at hdirect
      exact ⟨hdirect.1, hdirect.2.1, .inl ⟨body, rfl⟩⟩
  | refused status detail =>
      simp only [Direct, hpc] at hdirect
      exact ⟨hdirect.1, hdirect.2.1, .inr ⟨status, detail, rfl⟩⟩
  | broken | lost | pausing => simp only [Direct, hpc] at hdirect
  | sending | reading | serving => simp [hpc, Pc.ended] at hended

end Quiet

/-! ## The second node calls the first one -/

theorem told_twoElectors : Told (twoElectors.electors.map Elector.cfg) twoElectors := by
  refine ⟨rfl, fun value lease h => ?_, fun value lease h => ?_⟩
  · cases h
  · cases h

theorem redirects_stay_redirected :
    ∃ w, run (step plainTexts 19500 cpPostJob) (secondNode twoElectors) (redirected.take 6) = some w ∧
      w.client.pc = .sending "http://10.0.0.1:19500/jobs" ∧
      ∃ v, step plainTexts 19500 cpPostJob w .arrive = some v := by
  have hrun : (run (step plainTexts 19500 cpPostJob) (secondNode twoElectors) (redirected.take 6)).any
      (fun w => decide (w.client.pc = .sending "http://10.0.0.1:19500/jobs")) = true := by decide +kernel
  obtain ⟨w, hw, hpc⟩ := (Option.any_eq_true _ _).mp hrun
  exact ⟨w, hw, of_decide_eq_true hpc,
    (redirects_stay initial_twoElectors told_twoElectors (by decide) hw).1 _ (of_decide_eq_true hpc)⟩

/-- The election after the first node has won. -/
def led : LeaderElection.World :=
  let cfg : ElectorConfig := ⟨"node-1", "10.0.0.1", 15⟩
  ⟨⟨2, (OrderedMap.empty : OrderedMap ℕ ℤ).put 1 15, some (leaderValue cfg 1 1, 1)⟩,
    [⟨cfg, true, some 1, some 1, false, 0, .holding, 0, []⟩, .create ⟨"node-2", "10.0.0.2", 15⟩], []⟩

theorem run_led : run LeaderElection.step twoElectors (answeredRound 0 1) = some led := by decide +kernel

theorem reaches_leader_second :
    ∃ w, run (step plainTexts 19500 cpPostJob) (secondNode led)
        [.arrive, .read true, .arrive, .serve (.error (409, "busy"))] = some w ∧
      w.taken = [0] ∧ w.client.redirs ≤ 1 := by
  have hrun : (run (step plainTexts 19500 cpPostJob) (secondNode led)
      [.arrive, .read true, .arrive, .serve (.error (409, "busy"))]).any (fun w => w.client.pc.ended) = true := by
    decide +kernel
  obtain ⟨w, hw, hended⟩ := (Option.any_eq_true _ _).mp hrun
  have honly : ∀ (j : ℕ) (e : Elector), led.electors[j]? = some e →
      e.isLeader = true ∨ e.cfg.localIp = "10.0.0.1" → j = 0 := by
    intro j e he h
    rcases j with _ | _ | j
    · rfl
    · cases he
      simp [Elector.create] at h
    · cases he
  have h := reaches_leader (i := 0) ⟨twoElectors, answeredRound 0 1, initial_twoElectors, run_led⟩ rfl
    ⟨rfl, 1, rfl, by decide⟩ (fun j e he hflag => honly j e he (.inl hflag))
    (fun j e he hip => honly j e he (.inr hip)) (by decide) (by decide) (by decide) (by decide) hw
  exact ⟨w, hw, (h.2.1 hended).1, (h.2.1 hended).2.1⟩

end MilvusOnprem.LeaderRedirect
