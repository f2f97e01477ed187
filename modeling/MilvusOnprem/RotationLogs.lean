import MilvusOnprem.MigratePulsar
import MilvusOnprem.Jobs

/-!
# What a rotation logs

`run_rotate_token` and `rotate_self` as programs with a point for every place
where they wait, and the lines they log on the way. A follower collects the lines
of its own rotation and sends them back; the leader writes them into its job with
the follower's name before them. What the commands, the file and the network do
is an input. A `new_token` that is no text is left out.
-/
namespace MilvusOnprem.RotationLogs

open PythonText OrderedPeers

def RECREATE_DELAY_S : ℕ := 5

/-- The type and the text of a `RuntimeError`. -/
def runtimeError (detail : String) : String := "RuntimeError: " ++ detail

/-! ## A daemon rotates itself -/

/-- The points of `rotate_self`: in the thread that writes the file, in the
render, in the start of the sidecar, at its end. -/
inductive SelfPc where
  | updating
  | rendering
  | spawning
  | ended (error : Option String)
deriving DecidableEq, Repr

/-- What `rotate_self` meets: the file is written; the render ends, and the
compose file is there or not; the command for the sidecar ends; the step raises,
in the first one with the file written or not. -/
inductive SelfInput where
  | updated
  | rendered (rc : ℤ) (err : String) (composeExists : Bool)
  | spawned (rc : ℤ) (err : String)
  | raised (written : Bool) (error : String)
deriving DecidableEq, Repr

namespace SelfPc

/-- The line before the first point. -/
def starts : List String := ["updating CLUSTER_TOKEN in cluster.env"]

def composeFile (nodeName : String) : String :=
  "/repo/rendered/" ++ nodeName ++ "/docker-compose.yml"

/-- After the render; `nodeName` is what the file has now. -/
def afterRender (nodeName : String) (rc : ℤ) (err : String) (composeExists : Bool) :
    SelfPc × List String :=
  if rc ≠ 0 then
    (.ended (some (runtimeError
      ("render failed (rc=" ++ toString rc ++ "): " ++ prefixOf 200 (strip err)))), [])
  else if nodeName = "" then
    (.ended (some (runtimeError
      "rotate-self: NODE_NAME missing from cluster.env after render")), [])
  else if composeExists = false then
    (.ended (some (runtimeError
      ("rotate-self: rendered compose missing at " ++ composeFile nodeName))), [])
  else
    (.spawning, ["spawning sidecar to recreate self in " ++ toString RECREATE_DELAY_S ++ "s"])

/-- A step, with the lines it logs. -/
def proceed (nodeName : String) : SelfPc → SelfInput → Option (SelfPc × List String)
  | .updating, .updated => some (.rendering, ["re-rendering templates"])
  | .rendering, .rendered rc err composeExists => some (afterRender nodeName rc err composeExists)
  | .spawning, .spawned rc err =>
      some (.ended (if rc ≠ 0 then
        some (runtimeError ("could not spawn recreate sidecar (rc=" ++ toString rc ++ "): " ++
          prefixOf 300 (strip err)))
        else none), [])
  | .updating, .raised _ error | .rendering, .raised _ error | .spawning, .raised _ error =>
      some (.ended (some error), [])
  | _, _ => none

/-- The step writes the token into the file. -/
def writes : SelfPc → SelfInput → Bool
  | .updating, .updated | .updating, .raised true _ => true
  | _, _ => false

end SelfPc

/-! ## The follower -/

/-- A call of `post_rotate_self` behind the token check: the daemon it runs on,
the job that sent it and the follower's name there, the lines captured so far. -/
structure Handling where
  host : ℕ
  job : String
  follower : String
  newToken : String
  pc : SelfPc
  captured : List String
deriving DecidableEq, Repr

namespace Handling

/-- A step of the handler, which adds a line for an error. -/
def proceed (h : Handling) (nodeName : String) (i : SelfInput) : Option Handling :=
  (h.pc.proceed nodeName i).map fun r =>
    let failed : List String :=
      match r.1 with
      | .ended (some error) => ["ERROR: " ++ error]
      | _ => []
    { h with pc := r.1, captured := h.captured ++ r.2 ++ failed }

end Handling

/-! ## The job -/

/-- A line for the log of the job, or its progress. -/
inductive Effect where
  | log (line : String)
  | progress (p : ℚ)
deriving DecidableEq

/-- A request to a follower: not yet sent, under way, ended with an exception or
without. -/
inductive RemotePc where
  | created
  | posting
  | failed (text : String)
  | rotated
deriving DecidableEq, Repr

structure Follower where
  name : String
  ip : String
  pc : RemotePc
deriving DecidableEq, Repr

inductive WorkerPc where
  | fanning
  | own (pc : SelfPc)
  | ended (error : Option String)
deriving DecidableEq, Repr

/-- A running `run_rotate_token`; `total` is the number of peers. -/
structure Worker where
  host : ℕ
  leaderName : String
  listenPort : ℤ
  newToken : String
  total : ℕ
  followers : List Follower
  pc : WorkerPc
deriving DecidableEq, Repr

/-- The answer to a request: another status than 200; a body that is no JSON; the
follower's report. -/
inductive Answer where
  | refused (status : ℕ) (text : String)
  | garbled (text : String)
  | report (log : List String) (error : Option String)
deriving DecidableEq, Repr

/-- What the job meets: a task of the fan-out starts; a request ends with an
error of the client or another exception; it is answered; all have ended; a step
of its own rotation. -/
inductive WorkerInput where
  | posts (name : String)
  | fails (name : String) (httpError : Bool) (text : String)
  | answers (name : String) (r : Answer)
  | gathered
  | self (i : SelfInput)
deriving DecidableEq, Repr

/-- The follower whose request an input is about. -/
def WorkerInput.follower : WorkerInput → Option String
  | .posts name | .fails name _ _ | .answers name _ => some name
  | .gathered | .self _ => none

def RemotePc.over : RemotePc → Bool
  | .created | .posting => false
  | .failed _ | .rotated => true

/-- `str` of a list of texts -/
def listText (names : List String) : String := "[" ++ join ", " (names.map PythonText.repr) ++ "]"

/-- `params.get("new_token") or ""` -/
def newTokenOf (params : List (String × Json)) : Option String :=
  match Json.field "new_token" params with
  | none | some .null => some ""
  | some (.str token) => some token
  | some _ => none

namespace Worker

/-- The leader's own rotation, and what is logged before it. -/
def ownStarts (leaderName : String) : List Effect :=
  [.progress (17 / 20), .log "", .log ("==> rotating leader (" ++ leaderName ++ ")")] ++
    SelfPc.starts.map .log

/-- The job up to the place where it first waits, or the error it ends with. -/
def starts (host : ℕ) (leaderName : String) (listenPort : ℤ) (params : List (String × Json))
    (isLeader : Bool) (peers : List (String × Json)) :
    Option (Except String (Worker × List Effect)) :=
  (newTokenOf params).map fun newToken =>
    if newToken.length < 32 then
      .error "ValueError: rotate-token requires 'new_token' param of >= 32 chars"
    else if isLeader = false then
      .error "PermissionError: rotate-token must run on the leader (HTTP layer should redirect)"
    else
      match sortedPeers peers with
      | .error e => .error ("AttributeError: " ++ e.text)
      | .ok sorted =>
          let followers := sorted.filter fun p => p.1 ≠ leaderName
          let worker := Worker.mk host leaderName listenPort newToken sorted.length
          let head : List Effect :=
            [.log ("rotating CLUSTER_TOKEN across " ++ toString sorted.length ++ " peer(s)"),
              .log ("leader: " ++ leaderName ++ "; followers: " ++ listText (followers.map Prod.fst)),
              .progress (1 / 20)]
          let worker := worker (followers.map fun p => ⟨p.1, p.2, .created⟩)
          if followers = [] then .ok (worker (.own .updating), head ++ ownStarts leaderName)
          else
            .ok (worker .fanning, head ++ [.log "", .log "==> rotating followers (parallel)"])

def url (w : Worker) (ip : String) : String :=
  "http://" ++ ip ++ ":" ++ toString w.listenPort ++ "/rotate-self"

/-- How a request ends with an answer, and the lines it logs. -/
def answered (f : Follower) : Answer → RemotePc × List Effect
  | .refused status text =>
      (.failed (f.ip ++ " /rotate-self returned " ++ toString status ++ ": " ++ prefixOf 300 text), [])
  | .garbled text => (.failed (f.ip ++ " /rotate-self bad JSON: " ++ prefixOf 200 text), [])
  | .report log error =>
      let lines := log.map fun line => Effect.log ("  [" ++ f.name ++ "] " ++ line)
      match error with
      | none | some "" => (.rotated, lines)
      | some error => (.failed (f.ip ++ " rotate failed: " ++ error), lines)

/-- A step of one request. -/
def remote (w : Worker) (f : Follower) : WorkerInput → Option (RemotePc × List Effect)
  | .posts _ =>
      if f.pc = .created then
        some (.posting, [.log ("  [" ++ f.name ++ "] POST " ++ w.url f.ip)])
      else none
  | .fails _ httpError text =>
      if f.pc = .posting then
        some (.failed (if httpError then "POST " ++ w.url f.ip ++ " failed: " ++ text else text), [])
      else none
  | .answers _ r => if f.pc = .posting then some (answered f r) else none
  | _ => none

/-- The line for a request that failed. -/
def failure (f : Follower) : Option Effect :=
  match f.pc with
  | .failed text => some (.log ("  [" ++ f.name ++ "] FAILED: " ++ text))
  | _ => none

/-- After the fan-out. -/
def gathered (w : Worker) : WorkerPc × List Effect :=
  let failures := w.followers.filterMap failure
  if failures ≠ [] then
    (.ended (some (runtimeError (toString failures.length ++ " follower(s) failed to rotate; " ++
      "cluster left half-rotated. Re-run with the same " ++ "--new-token to retry."))), failures)
  else
    (.own .updating,
      [.log ("  all " ++ toString w.followers.length ++ " follower(s) rotated")] ++
        ownStarts w.leaderName)

/-- The lines after the leader's own rotation. -/
def finish (w : Worker) : List Effect :=
  [.progress 1, .log "", .log ("OK rotation complete on all " ++ toString w.total ++ " peer(s). " ++
    "Daemons will recreate with the new token in ~" ++ toString RECREATE_DELAY_S ++ "s.")]

/-- A step of the job; `nodeName` is what the leader's file has. -/
def proceed (w : Worker) (nodeName : String) (i : WorkerInput) : Option (Worker × List Effect) :=
  match w.pc, i with
  | .fanning, .gathered =>
      if w.followers.all fun f => f.pc.over then
        let r := w.gathered
        some ({ w with pc := r.1 }, r.2)
      else none
  | .fanning, i => do
      let name ← i.follower
      let f ← w.followers.find? fun f => f.name = name
      let r ← w.remote f i
      some ({ w with followers := w.followers.map fun g =>
        if g.name = name then { g with pc := r.1 } else g }, r.2)
  | .own pc, .self i =>
      (pc.proceed nodeName i).map fun r =>
        match r.1 with
        | .ended none => ({ w with pc := .ended none }, r.2.map .log ++ w.finish)
        | .ended (some error) => ({ w with pc := .ended (some error) }, r.2.map .log)
        | pc => ({ w with pc := .own pc }, r.2.map .log)
  | _, _ => none

/-- The step writes the token into the leader's own file. -/
def writes (w : Worker) : WorkerInput → Bool
  | .self i =>
      match w.pc with
      | .own pc => pc.writes i
      | _ => false
  | _ => false

/-- The request to the follower has been sent. -/
def sent (w : Worker) (name ip : String) : Bool :=
  w.followers.any fun f => f.name = name && f.ip = ip && f.pc ≠ .created

end Worker

end MilvusOnprem.RotationLogs
