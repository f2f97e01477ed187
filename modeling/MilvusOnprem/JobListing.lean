import MilvusOnprem.CheckedSort
import MilvusOnprem.EtcdClient
import MilvusOnprem.JsonRoundTrip
import Mathlib.Algebra.Order.Ring.Rat
import Mathlib.Data.Rat.Cast.Order
import Mathlib.Order.WithBot

/-!
# Listing the jobs

`list_jobs` decodes every value under the prefix of the jobs and sorts what it
gets by the time of creation; both sweeps go through its result. The decoder
skips a text that is not JSON and an object whose fields are not those of a job,
but it asks nothing of the fields themselves, so that a record here has any JSON
value in any field, and the comparisons of the sort and of the sweeps are those
of these values.

A time is its exact value, and a decimal is not rounded to a float, except that
the age of a heartbeat is not computed where the float would be infinite. The
limits of the interpreter on the depth of a text and on the digits of an integer
are left out.
-/
namespace MilvusOnprem.JobListing

open EtcdClient PythonText CheckedSort

inductive Raised where
  | jsonDecodeError
  | typeError
  | attributeError
  | overflowError
  | valueError
deriving DecidableEq, Repr

/-! ## Comparing decoded values -/

def toRat (x : Decimal) : ℚ := x.mantissa / 10 ^ (x.places + 1)

inductive Number where
  | nan
  | negInfinity
  | real (q : ℚ)
  | infinity
deriving DecidableEq, Repr

/-- A boolean is a number too. -/
def number : Json → Option Number
  | .bool b => some (.real (if b then 1 else 0))
  | .int n => some (.real n)
  | .float x => some (.real (toRat x))
  | .nonFinite .nan => some .nan
  | .nonFinite .infinity => some .infinity
  | .nonFinite .negInfinity => some .negInfinity
  | .null | .str _ | .arr _ | .obj _ => none

/-- No comparison with NaN holds. -/
def Number.lt : Number → Number → Bool
  | .real p, .real q => p < q
  | .negInfinity, .real _ | .negInfinity, .infinity | .real _, .infinity => true
  | _, _ => false

def Number.le : Number → Number → Bool
  | .nan, _ | _, .nan => false
  | a, b => !b.lt a

mutual

/-- Two elements are the same object or equal; the decoder has one NaN only. -/
def same : Json → Json → Bool
  | .arr as, .arr bs => sameElements as bs
  | .obj fs, .obj gs => sameFields fs gs && gs.all fun g => fs.any fun f => f.1 = g.1
  | .str a, .str b => a = b
  | .null, .null => true
  | a, b =>
      match number a, number b with
      | some x, some y => x = y
      | _, _ => false

def sameElements : List Json → List Json → Bool
  | [], [] => true
  | a :: as, b :: bs => same a b && sameElements as bs
  | _, _ => false

/-- The last field of a repeated key counts. -/
def sameFields : List (String × Json) → List (String × Json) → Bool
  | [], _ => true
  | (k, v) :: fs, gs =>
      (fs.any (fun f => f.1 = k) ||
        match Json.field k gs with
        | some u => same v u
        | none => false) && sameFields fs gs

end

mutual

/-- `a < b` -/
def lt : Json → Json → Except Raised Bool
  | .arr as, .arr bs => ltElements as bs
  | .str a, .str b => .ok (a < b)
  | a, b =>
      match number a, number b with
      | some x, some y => .ok (x.lt y)
      | _, _ => .error .typeError

/-- Lists are compared at their first different elements. -/
def ltElements : List Json → List Json → Except Raised Bool
  | _, [] => .ok false
  | [], _ :: _ => .ok true
  | a :: as, b :: bs => if same a b then ltElements as bs else lt a b

end

/-- `t < cutoff` -/
def isBefore (t : Json) (cutoff : ℚ) : Except Raised Bool :=
  match number t with
  | some x => .ok (x.lt (.real cutoff))
  | none => .error .typeError

/-- `t >= cutoff` -/
def isFrom (t : Json) (cutoff : ℚ) : Except Raised Bool :=
  match number t with
  | some x => .ok ((Number.real cutoff).le x)
  | none => .error .typeError

/-! ## Records -/

def JOBS_PREFIX : String := "/cluster/jobs/"

/-- A `Job` as the constructor leaves it: no field is checked. -/
structure Record where
  id : Json
  type : Json
  params : Json
  state : Json
  progress : Json
  startedAt : Json
  finishedAt : Json
  error : Json
  owner : Json
  logs : Json
  lastHeartbeat : Json

def fieldNames : List String :=
  ["id", "type", "params", "state", "progress", "started_at", "finished_at", "error", "owner",
    "logs", "last_heartbeat"]

/-- `cls(**d)`, with the defaults of the two last fields; an unknown field and a
missing one are both a `TypeError`. -/
def Record.ofFields (d : List (String × Json)) : Option Record :=
  if d.all fun f => f.1 ∈ fieldNames then do
    let id ← Json.field "id" d
    let type ← Json.field "type" d
    let params ← Json.field "params" d
    let state ← Json.field "state" d
    let progress ← Json.field "progress" d
    let startedAt ← Json.field "started_at" d
    let finishedAt ← Json.field "finished_at" d
    let error ← Json.field "error" d
    let owner ← Json.field "owner" d
    some {
      id := id
      type := type
      params := params
      state := state
      progress := progress
      startedAt := startedAt
      finishedAt := finishedAt
      error := error
      owner := owner
      logs := (Json.field "logs" d).getD (.arr [])
      lastHeartbeat := (Json.field "last_heartbeat" d).getD .null }
  else none

/-- `Job.from_json` -/
def fromJson (s : String) : Except Raised Record :=
  match JsonText.loads s with
  | none => .error .jsonDecodeError
  | some (.obj d) =>
      match Record.ofFields d with
      | some job => .ok job
      | none => .error .typeError
  -- only a dictionary has `setdefault`
  | some _ => .error .attributeError

def isText (s : String) : Json → Bool
  | .str t => t = s
  | _ => false

def passes (state : Option String) (job : Record) : Bool := state.all fun s => isText s job.state

/-- The loop of `list_jobs` over the keys. -/
def readJobs (state : Option String) : List (String × String) → Except Raised (List Record)
  | [] => .ok []
  | (k, v) :: rest =>
      if '/' ∈ (removePrefix JOBS_PREFIX k).toList then readJobs state rest
      else
        match fromJson v with
        | .error .jsonDecodeError | .error .typeError => readJobs state rest
        | .error e => .error e
        | .ok job => (readJobs state rest).map fun out => if passes state job then job :: out else out

/-- `list_jobs` -/
def listJobs (state : Option String) (allKeys : List (String × String)) :
    Except Raised (List Record) :=
  match readJobs state allKeys with
  | .error e => .error e
  | .ok out => sortBy (fun a b => lt a.startedAt b.startedAt) out

/-! ## The sweeps -/

/-- The calls of a loop over the jobs. A call that fails is logged, and the loop
goes on; an error of the loop itself ends it. -/
def sweep {C : Type} (visit : ℕ → Record → Except Raised (Option C)) :
    ℕ → List Record → List C × Except Raised Unit
  | _, [] => ([], .ok ())
  | i, job :: rest =>
      match visit i job with
      | .error e => ([], .error e)
      | .ok call => (call.toList ++ (sweep visit (i + 1) rest).1, (sweep visit (i + 1) rest).2)

def isTerminal (state : Json) : Bool :=
  isText "done" state || isText "failed" state || isText "cancelled" state

/-- The id of a job that is to be deleted. -/
def visitOld (cutoff : ℚ) (job : Record) : Except Raised (Option Json) :=
  if isTerminal job.state then
    match job.finishedAt with
    | .null => .ok none
    | t => (isFrom t cutoff).map fun recent => if recent then none else some job.id
  else .ok none

/-- `prune_old`, with its deletes in order -/
def pruneOld (retentionS : ℤ) (now : Decimal) (allKeys : List (String × String)) :
    List Json × Except Raised Unit :=
  match listJobs none allKeys with
  | .error e => ([], .error e)
  | .ok jobs => sweep (fun _ => visitOld (toRat now - retentionS)) 0 jobs

/-- The least absolute value that a float does not reach. -/
def FLOAT_LIMIT : ℚ := 2 ^ 1024 - 2 ^ 970

/-- `int(time.time() - t)` -/
def secondsSince (now : Decimal) (t : Json) : Except Raised ℤ :=
  match number t with
  | none => .error .typeError
  | some .nan => .error .valueError
  | some .infinity | some .negInfinity => .error .overflowError
  | some (.real q) =>
      if q ≤ -FLOAT_LIMIT ∨ FLOAT_LIMIT ≤ q then .error .overflowError
      else .ok ((toRat now - q).num.tdiv (toRat now - q).den)

/-- `job.last_heartbeat is None or job.last_heartbeat < cutoff` -/
def isStale (cutoff : ℚ) : Json → Except Raised Bool
  | .null => .ok true
  | t => isBefore t cutoff

def ageText (now : Decimal) : Json → Except Raised String
  | .null => .ok "never"
  | t => (secondsSince now t).map fun s => toString s ++ "s"

/-- The record that is to be written for a stuck job. -/
def visitStuck (timeoutS : ℤ) (cutoff : ℚ) (seen now : Decimal) (job : Record) :
    Except Raised (Option Record) :=
  if isText "running" job.state then
    match isStale cutoff job.lastHeartbeat with
    | .error e => .error e
    | .ok false => .ok none
    | .ok true => (ageText seen job.lastHeartbeat).map fun age => some { job with
        state := .str "failed"
        finishedAt := .float now
        error := .str ("owner died (heartbeat age=" ++ age ++ "; timeout=" ++ toString timeoutS ++
          "s) — job presumed stuck after daemon loss") }
  else .ok none

/-- `prune_stuck_running`, with its PUTs in order; `clock` is what the calls of
`time.time()` return, two for every job. -/
def pruneStuckRunning (heartbeatTimeoutS : ℤ) (clock : ℕ → Decimal)
    (allKeys : List (String × String)) : List Record × Except Raised Unit :=
  match listJobs none allKeys with
  | .error e => ([], .error e)
  | .ok jobs =>
      sweep (fun i => visitStuck heartbeatTimeoutS (toRat (clock 0) - heartbeatTimeoutS)
        (clock (2 * i + 1)) (clock (2 * i + 2))) 0 jobs

end MilvusOnprem.JobListing
