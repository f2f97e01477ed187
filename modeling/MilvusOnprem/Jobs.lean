import MilvusOnprem.EtcdClient
import MilvusOnprem.GuardedRuns
import Mathlib.Algebra.Order.Ring.Rat
import Mathlib.Data.List.Sort

/-!
# Jobs and their writers

The jobs of a cluster are records under one prefix of etcd. Three kinds of
writers put whole records there without looking at what they replace: the owner
of a job, that is `create` and the task of `_execute`, the flusher task beside
it, and the sweep that marks jobs of dead owners as failed. A second sweep
deletes old terminated jobs. Sweeps run on any daemon, any number at a time, and
every one works on the records as it listed them.

The store maps ids to records; the JSON coding of the values is left out, and so
are values that are no record, which `list_jobs` skips. An unanswered attempt
leaves its request under way, and so does a task that is cancelled or a daemon
that crashes in a call. Times are in nanoseconds and arbitrary.
-/
namespace MilvusOnprem.Jobs

open EtcdClient PythonText

/-! ## Records -/

inductive JobState where
  | pending
  | running
  | done
  | failed
  | cancelled
deriving DecidableEq, Repr

def JobState.terminal : JobState → Bool
  | .pending | .running => false
  | .done | .failed | .cancelled => true

structure Job where
  id : String
  type : String
  params : List (String × Json)
  state : JobState
  progress : ℚ
  startedAt : ℤ
  finishedAt : Option ℤ
  error : Option String
  owner : String
  logs : List String
  lastHeartbeat : Option ℤ
deriving DecidableEq

def LOG_TAIL_LINES : ℕ := 200

def LOG_LINE_CAP_CHARS : ℕ := 4000

def nanoseconds (s : ℤ) : ℤ := s * 1000000000

namespace Job

/-- `log_writer` -/
def logWriter (job : Job) (line : String) : Job :=
  let stripped := String.ofList (line.toList.reverse.dropWhile fun c => c = '\n').reverse
  let text :=
    if LOG_LINE_CAP_CHARS < stripped.length then
      prefixOf LOG_LINE_CAP_CHARS stripped ++ "…[truncated]"
    else stripped
  let logs := job.logs ++ [text]
  { job with logs := logs.drop (logs.length - LOG_TAIL_LINES) }

@[simp] theorem logWriter_id (job : Job) (line : String) : (job.logWriter line).id = job.id := by
  simp only [logWriter]

@[simp] theorem logWriter_state (job : Job) (line : String) :
    (job.logWriter line).state = job.state := by
  simp only [logWriter]

/-- `progress_setter` -/
def progressSetter (job : Job) (p : ℚ) : Job := { job with progress := max 0 (min 1 p) }

/-- A record without a heartbeat counts as stale. -/
def stale (job : Job) (cutoff : ℤ) : Bool := job.lastHeartbeat.all fun t => t < cutoff

/-- The record that the sweep writes for a job whose owner is presumed dead. -/
def markFailed (job : Job) (heartbeatTimeoutS now : ℤ) : Job :=
  let age :=
    match job.lastHeartbeat with
    | none => "never"
    | some t => toString ((now - t).tdiv (nanoseconds 1)) ++ "s"
  { job with
    state := .failed
    finishedAt := some now
    error := some ("owner died (heartbeat age=" ++ age ++ "; timeout=" ++
      toString heartbeatTimeoutS ++ "s) — job presumed stuck after daemon loss") }

end Job

/-! ## The store -/

inductive Request where
  | put (job : Job)
  | delete (id : String)
  | list
deriving DecidableEq

inductive Reply where
  | done
  | jobs (js : List Job)

/-- The most recent job first; jobs of one time keep the order of their ids. -/
def sortedJobs (js : List Job) : List Job := js.insertionSort fun a b => b.startedAt ≤ a.startedAt

def serve (s : OrderedMap String Job) : Request → OrderedMap String Job × Except String Reply
  | .put job => (s.put job.id job, .ok .done)
  | .delete id => (s.erase id, .ok .done)
  | .list => (s, .ok (.jobs (sortedJobs (s.entries.map Prod.snd))))

/-! ## The owner of a job -/

/-- The points of `create` and `_execute`: the PUT of the pending record, the task
not yet started, the PUT of the running record, the worker, the `finally` until
the flusher has ended, the final PUT, the end. -/
inductive OwnerPc where
  | creating
  | scheduled
  | starting
  | working
  | finishing
  | closing
  | ended
deriving DecidableEq, Repr

/-- The flusher task; a PUT in flight has its own copy of the record. -/
inductive FlusherPc where
  | idle
  | sleeping
  | flushing (record : Job) (tries : ℕ)
deriving DecidableEq

/-- The job object is shared by the worker, the task and the flusher. -/
structure Owner where
  job : Job
  pc : OwnerPc
  tries : ℕ
  flusher : FlusherPc
deriving DecidableEq

inductive OwnerAct where
  | begin (now : ℤ)
  | log (line : String)
  | progress (p : ℚ)
  | complete
  | raise (error : String)
  | cancel
  | tick (now : ℤ)
  | close (now : ℤ)
deriving DecidableEq

/-- The record that `create` writes. -/
def pendingJob (id node type : String) (params : List (String × Json)) (now : ℤ) : Job :=
  ⟨id, type, params, .pending, 0, now, none, none, node, [], none⟩

namespace FlusherPc

def puts : FlusherPc → List Job
  | .flushing record _ => [record]
  | .idle | .sleeping => []

end FlusherPc

namespace Owner

/-- The PUT of the task that is in flight. -/
def call (o : Owner) : Option Job :=
  match o.pc with
  | .creating | .starting | .closing => some o.job
  | _ => none

/-- The records the owner has in flight. -/
def puts (o : Owner) : List Job := o.call.toList ++ o.flusher.puts

/-- The task goes on with the result of its PUT. -/
def answered (o : Owner) (res : Except Exc Reply) : Owner :=
  match o.pc, res with
  | .creating, .ok _ => { o with pc := .scheduled, tries := 0 }
  | .starting, .ok _ => { o with pc := .working, tries := 0, flusher := .sleeping }
  | _, _ => { o with pc := .ended, tries := 0 }

/-- An attempt of the PUT of the task: the call is tried again, or it returns. -/
def attempted (o : Owner) : Option (Except Exc Reply) → Owner
  | none => { o with tries := o.tries + 1 }
  | some res => o.answered res

/-- An attempt of the PUT of the flusher, which logs an error and goes on. -/
def flushAttempted (o : Owner) (record : Job) (tries : ℕ) : Option (Except Exc Reply) → Owner
  | none => { o with flusher := .flushing record (tries + 1) }
  | some _ => { o with flusher := .sleeping }

/-- The worker has ended; the flusher is cancelled, with its PUT under way. -/
def finish (o : Owner) (job : Job) : Owner × List Job :=
  ({ o with job := job, pc := .finishing, flusher := .idle }, o.flusher.puts)

/-- A step of the tasks of a job between their calls, and the records of the PUTs
that it abandons. -/
def act (o : Owner) : OwnerAct → Option (Owner × List Job)
  | .begin now =>
      if o.pc = .scheduled then
        some ({ o with
          job := { o.job with state := .running, lastHeartbeat := some now }
          pc := .starting }, [])
      else none
  | .log line =>
      if o.pc = .working then some ({ o with job := o.job.logWriter line }, []) else none
  | .progress p =>
      if o.pc = .working then some ({ o with job := o.job.progressSetter p }, []) else none
  | .complete =>
      if o.pc = .working then some (o.finish { o.job with state := .done, progress := 1 })
      else none
  | .raise error =>
      if o.pc = .working then
        some (o.finish { o.job with state := .failed, error := some error })
      else none
  | .cancel =>
      match o.pc with
      | .scheduled | .starting | .closing =>
          some ({ o with pc := .ended, tries := 0 }, o.call.toList)
      | .working => some (o.finish { o.job with state := .cancelled })
      | .finishing => some (o, [])
      | .creating | .ended => none
  | .tick now =>
      if o.flusher = .sleeping then
        let job := { o.job with lastHeartbeat := some now }
        some ({ o with job := job, flusher := .flushing job 0 }, [])
      else none
  | .close now =>
      if o.pc = .finishing then
        some ({ o with job := { o.job with finishedAt := some now }, pc := .closing }, [])
      else none

end Owner

/-! ## The sweeps -/

/-- `prune_stuck_running` and `prune_old` with their arguments. -/
inductive SweepKind where
  | stuckRunning (heartbeatTimeoutS : ℤ)
  | old (retentionS : ℤ)
deriving DecidableEq, Repr

inductive SweepPc where
  | listing
  | todo (jobs : List Job)
  | marking (job : Job) (rest : List Job)
  | deleting (job : Job) (rest : List Job)
  | ended
deriving DecidableEq

structure Sweep where
  node : String
  kind : SweepKind
  cutoff : ℤ
  pc : SweepPc
  tries : ℕ
deriving DecidableEq

def SweepKind.seconds : SweepKind → ℤ
  | .stuckRunning s | .old s => s

namespace Sweep

def start (node : String) (kind : SweepKind) (now : ℤ) : Sweep :=
  ⟨node, kind, now - nanoseconds kind.seconds, .listing, 0⟩

/-- What the sweep does with a job, before it goes on to the rest. -/
def visit (s : Sweep) (now : ℤ) (job : Job) (rest : List Job) : SweepPc :=
  match s.kind with
  | .stuckRunning timeout =>
      if job.state = .running ∧ job.stale s.cutoff = true then
        .marking (job.markFailed timeout now) rest
      else .todo rest
  | .old _ =>
      if job.state.terminal = true ∧ job.finishedAt.any (fun t => t < s.cutoff) = true then
        .deleting job rest
      else .todo rest

def next (s : Sweep) (now : ℤ) : Option SweepPc :=
  match s.pc with
  | .todo [] => some .ended
  | .todo (job :: rest) => some (s.visit now job rest)
  | _ => none

def call (s : Sweep) : Option Request :=
  match s.pc with
  | .listing => some .list
  | .marking job _ => some (.put job)
  | .deleting job _ => some (.delete job.id)
  | .todo _ | .ended => none

/-- A failed write is logged, and the sweep goes on. -/
def answered (s : Sweep) (res : Except Exc Reply) : SweepPc :=
  match s.pc, res with
  | .listing, .ok (.jobs js) => .todo js
  | .marking _ rest, _ => .todo rest
  | .deleting _ rest, _ => .todo rest
  | _, _ => .ended

def attempted (s : Sweep) : Option (Except Exc Reply) → Sweep
  | none => { s with tries := s.tries + 1 }
  | some res => { s with pc := s.answered res, tries := 0 }

def puts (s : Sweep) : List Job :=
  match s.pc with
  | .marking job _ => [job]
  | _ => []

end Sweep

/-! ## The system -/

/-- `usedIds` are the ids that were ever given to a job: ids do not repeat. -/
structure World where
  store : OrderedMap String Job
  owners : OrderedMap String Owner
  sweeps : OrderedMap ℕ Sweep
  strays : List Request
  usedIds : List String
  handlers : List String

inductive Act where
  | create (id node type : String) (params : List (String × Json)) (isLeader : Bool) (now : ℤ)
  | owner (id : String) (l : OwnerAct)
  | ownerAttempt (id : String) (a : Attempt)
  | flushAttempt (id : String) (a : Attempt)
  | startSweep (sid : ℕ) (node : String) (kind : SweepKind) (now : ℤ)
  | sweepNext (sid : ℕ) (now : ℤ)
  | sweepAttempt (sid : ℕ) (a : Attempt)
  | crash (node : String)
  | land (k : ℕ)
  | lose (k : ℕ)

/-- The requests that the tasks of a daemon have in flight. -/
def World.inFlight (w : World) (node : String) : List Request :=
  ((w.owners.entries.filter fun e => e.2.job.owner = node).flatMap fun e =>
      e.2.puts.map .put) ++
    (w.sweeps.entries.filter fun e => e.2.node = node).flatMap fun e => e.2.call.toList

def step (w : World) : Act → Option World
  | .create id node type params isLeader now =>
      if type ∈ w.handlers ∧ isLeader = true ∧ id ∉ w.usedIds then
        some { w with
          owners := w.owners.put id ⟨pendingJob id node type params now, .creating, 0, .idle⟩
          usedIds := id :: w.usedIds }
      else none
  | .owner id l => do
      let o ← w.owners.get id
      let (o', abandoned) ← o.act l
      some { w with
        owners := w.owners.put id o'
        strays := abandoned.map .put ++ w.strays }
  | .ownerAttempt id a => do
      let o ← w.owners.get id
      let job ← o.call
      let x := attemptLate serve o.tries w.store w.strays (.put job) a
      some { w with
        store := x.1.1
        strays := x.1.2
        owners := w.owners.put id (o.attempted x.2) }
  | .flushAttempt id a => do
      let o ← w.owners.get id
      match o.flusher with
      | .flushing record tries =>
          let x := attemptLate serve tries w.store w.strays (.put record) a
          some { w with
            store := x.1.1
            strays := x.1.2
            owners := w.owners.put id (o.flushAttempted record tries x.2) }
      | .idle | .sleeping => none
  | .startSweep sid node kind now =>
      if w.sweeps.get sid = none then
        some { w with sweeps := w.sweeps.put sid (.start node kind now) }
      else none
  | .sweepNext sid now => do
      let s ← w.sweeps.get sid
      let pc ← s.next now
      some { w with sweeps := w.sweeps.put sid { s with pc := pc, tries := 0 } }
  | .sweepAttempt sid a => do
      let s ← w.sweeps.get sid
      let q ← s.call
      let x := attemptLate serve s.tries w.store w.strays q a
      some { w with
        store := x.1.1
        strays := x.1.2
        sweeps := w.sweeps.put sid (s.attempted x.2) }
  | .crash node =>
      some { w with
        owners := w.owners.filterValues fun o => o.job.owner ≠ node
        sweeps := w.sweeps.filterValues fun s => s.node ≠ node
        strays := w.inFlight node ++ w.strays }
  | .land k => do
      let q ← w.strays[k]?
      some { w with store := (serve w.store q).1, strays := w.strays.eraseIdx k }
  | .lose k => some { w with strays := w.strays.eraseIdx k }

/-- Any stored jobs under their ids, and no task or request yet. -/
structure Initial (w : World) : Prop where
  keyed : ∀ id job, w.store.get id = some job → job.id = id ∧ id ∈ w.usedIds
  owners : w.owners = .empty
  sweeps : w.sweeps = .empty
  strays : w.strays = []

end MilvusOnprem.Jobs
