import MilvusOnprem.PythonText
import MilvusOnprem.GuardedRuns
import Mathlib.Data.Int.Basic

/-!
# The watchdog of the local containers

`LocalComponentWatchdog` of `watchdog.py`, one row of `docker ps` at a time. What
the commands do is an input: the listing succeeds or not, and so does every
restart. A restart that raises ends the tick before its cleanup. The fields of a
row are texts, as docker prints them.

A container that a successful listing lacks is gone, as the cleanup has it, and a
later one of its name is another container. The restarts of a container since it
was last seen healthy are recorded for the statements only.
-/
namespace MilvusOnprem.LocalWatchdog

open PythonText GuardedRuns

/-- What the watchdog reads of the configuration. -/
structure LocalConfig where
  watchdogMode : String
  unhealthyThreshold : ℤ
  restartLoopMax : ℤ

structure Row where
  names : String
  state : String
  status : String
deriving DecidableEq, Repr

/-- `_EXCLUDED_NAMES` and `_WATCHED_PREFIXES` -/
def watched (name : String) : Bool :=
  name ≠ "milvus-onprem-cp" && (startsWith name "milvus-" || startsWith name "milvus")

inductive Health where
  | healthy
  | unhealthy
  | starting
  | none
deriving DecidableEq, Repr

def parseHealth (status : String) : Health :=
  if contains status "(healthy)" then .healthy
  else if contains status "(unhealthy)" then .unhealthy
  else if contains status "(health: starting)" then .starting
  else .none

/-- The lines that the watchdog prints. -/
inductive Line where
  | componentRestart (ts : ℤ) (container : String) (attempt : ℕ)
  | componentRestartLoop (ts : ℤ) (container : String) (restartsTotal : ℕ)
deriving DecidableEq, Repr

/-- What `docker restart` does. -/
inductive Outcome where
  | ok
  | failed
  | raised
deriving DecidableEq, Repr

/-- What the watchdog remembers. The times of the restarts are read by nobody,
only their number is. -/
structure Watch where
  consecutiveUnhealthy : String → ℕ
  restartHistory : String → ℕ
  loopAlerted : List String

namespace Watch

def fresh : Watch := ⟨fun _ => 0, fun _ => 0, []⟩

def setUnhealthy (w : Watch) (name : String) (n : ℕ) : Watch :=
  { w with consecutiveUnhealthy := Function.update w.consecutiveUnhealthy name n }

def setHistory (w : Watch) (name : String) (n : ℕ) : Watch :=
  { w with restartHistory := Function.update w.restartHistory name n }

/-- Whether `_maybe_restart` gets as far as `docker restart`. -/
def restarts (w : Watch) (c : LocalConfig) (name : String) : Bool :=
  !w.loopAlerted.contains name && !decide (c.restartLoopMax ≤ w.restartHistory name) &&
    c.watchdogMode = "auto"

/-- `_maybe_restart` -/
def maybeRestart (w : Watch) (c : LocalConfig) (now : ℤ) (name : String) (o : Outcome) :
    Watch × List Line :=
  if w.loopAlerted.contains name then (w, [])
  else if c.restartLoopMax ≤ w.restartHistory name then
    ({ w with loopAlerted := name :: w.loopAlerted },
      [.componentRestartLoop now name (w.restartHistory name)])
  else if c.watchdogMode ≠ "auto" then (w, [])
  else
    (if o = .ok then (w.setHistory name (w.restartHistory name + 1)).setUnhealthy name 0 else w,
      [.componentRestart now name (w.restartHistory name + 1)])

/-- The end of a tick that has seen some names. -/
def cleanup (w : Watch) (seen : List String) : Watch where
  consecutiveUnhealthy n := if seen.contains n then w.consecutiveUnhealthy n else 0
  restartHistory n :=
    if w.loopAlerted.contains n && !seen.contains n then 0 else w.restartHistory n
  loopAlerted := w.loopAlerted.filter fun n => seen.contains n

end Watch

/-- A row that the watchdog takes for a healthy container. -/
def Row.healthy (r : Row) : Bool :=
  watched r.names && r.state ≠ "restarting" && parseHealth r.status = .healthy

/-- A row that counts as unhealthy. -/
def Row.unhealthy (r : Row) : Bool :=
  watched r.names && r.state ≠ "restarting" && parseHealth r.status = .unhealthy

/-- The watch after the count of an unhealthy row. -/
def Watch.counted (w : Watch) (r : Row) : Watch :=
  w.setUnhealthy r.names (w.consecutiveUnhealthy r.names + 1)

/-- Whether the row makes the watchdog consider a restart. -/
def due (w : Watch) (c : LocalConfig) (r : Row) : Bool :=
  r.unhealthy && c.unhealthyThreshold ≤ (w.counted r).consecutiveUnhealthy r.names

/-- The body of the loop of `_tick`. -/
def visit (w : Watch) (c : LocalConfig) (now : ℤ) (r : Row) (o : Outcome) : Watch × List Line :=
  if !watched r.names then (w, [])
  else if r.state = "restarting" then (w.setUnhealthy r.names 0, [])
  else if parseHealth r.status = .unhealthy then
    if due w c r then (w.counted r).maybeRestart c now r.names o else (w.counted r, [])
  else
    let v := w.setUnhealthy r.names 0
    if parseHealth r.status = .healthy ∧ v.loopAlerted.contains r.names = true then
      ({ v with loopAlerted := v.loopAlerted.filter fun n => n ≠ r.names }.setHistory r.names 0, [])
    else (v, [])

/-- Whether the row leads to a `docker restart`. -/
def callsRestart (w : Watch) (c : LocalConfig) (r : Row) : Bool :=
  due w c r && (w.counted r).restarts c r.names

/-- The points of a tick: before the listing, and in its loop with the names seen.
A listing that failed counts as empty. -/
inductive Pc where
  | idle
  | walking (failed : Bool) (rest : List Row) (seen : List String)
deriving DecidableEq

structure World where
  config : LocalConfig
  watch : Watch
  pc : Pc
  since : String → ℕ

inductive Act where
  | listing (rows : Option (List Row))
  | visit (now : ℤ) (o : Outcome)
  | cleanup
deriving DecidableEq

/-- The restarts since the container was last seen healthy, after a row. -/
def World.sinceAfter (w : World) (r : Row) (o : Outcome) : String → ℕ :=
  if r.healthy then Function.update w.since r.names 0
  else if callsRestart w.watch w.config r ∧ o = .ok then
    Function.update w.since r.names (w.since r.names + 1)
  else w.since

def step (w : World) : Act → Option World
  | .listing rows =>
      match w.pc with
      | .idle => some { w with pc := .walking rows.isNone (rows.getD []) [] }
      | _ => none
  | .visit now o =>
      match w.pc with
      | .walking failed (r :: rest) seen =>
          some { w with
            watch := (visit w.watch w.config now r o).1
            pc :=
              if callsRestart w.watch w.config r ∧ o = .raised then .idle
              else .walking failed rest (r.names :: seen)
            since := w.sinceAfter r o }
      | _ => none
  | .cleanup =>
      match w.pc with
      | .walking failed [] seen =>
          some { w with
            watch := w.watch.cleanup seen
            pc := .idle
            since := fun n => if failed || seen.contains n then w.since n else 0 }
      | _ => none

/-- What a step prints. -/
def printed (w : World) : Act → List Line
  | .visit now o =>
      match w.pc with
      | .walking _ (r :: _) _ => (visit w.watch w.config now r o).2
      | _ => []
  | _ => []

/-- A watchdog that has just started. -/
def start (c : LocalConfig) : World := ⟨c, .fresh, .idle, fun _ => 0⟩

/-! ## What a row does -/

/-- The ways a row can go: nothing of interest, a recovery from a halt, a healthy
row outside a halt, the halt, a restart that succeeds and one that does not. -/
inductive Visited (w : Watch) (c : LocalConfig) (now : ℤ) (r : Row) (o : Outcome) :
    Watch × List Line → Prop
  | counts {v} : r.healthy = false → callsRestart w c r = false →
      v.restartHistory = w.restartHistory → v.loopAlerted = w.loopAlerted →
      Visited w c now r o (v, [])
  | recovers {v} : r.healthy = true → r.names ∈ w.loopAlerted →
      v.restartHistory = Function.update w.restartHistory r.names 0 →
      v.loopAlerted = w.loopAlerted.filter (fun n => n ≠ r.names) → Visited w c now r o (v, [])
  | healthy {v} : r.healthy = true → r.names ∉ w.loopAlerted →
      v.restartHistory = w.restartHistory → v.loopAlerted = w.loopAlerted →
      Visited w c now r o (v, [])
  | halts {v} : r.healthy = false → callsRestart w c r = false →
      c.restartLoopMax ≤ w.restartHistory r.names →
      v.restartHistory = w.restartHistory → v.loopAlerted = r.names :: w.loopAlerted →
      Visited w c now r o (v, [.componentRestartLoop now r.names (w.restartHistory r.names)])
  | restarts {v} : r.healthy = false → callsRestart w c r = true → o = .ok →
      r.names ∉ w.loopAlerted → w.restartHistory r.names < c.restartLoopMax →
      v.restartHistory = Function.update w.restartHistory r.names (w.restartHistory r.names + 1) →
      v.loopAlerted = w.loopAlerted →
      Visited w c now r o (v, [.componentRestart now r.names (w.restartHistory r.names + 1)])
  | tries {v} : r.healthy = false → o ≠ .ok →
      v.restartHistory = w.restartHistory → v.loopAlerted = w.loopAlerted →
      Visited w c now r o (v, [.componentRestart now r.names (w.restartHistory r.names + 1)])

theorem not_healthy_of_unhealthy {r : Row} (h : r.unhealthy = true) : r.healthy = false := by
  simp only [Row.unhealthy, Bool.and_eq_true, decide_eq_true_eq] at h
  simp [Row.healthy, h.2]

theorem visited_maybeRestart {w : Watch} {c : LocalConfig} {now : ℤ} {r : Row} {o : Outcome}
    (hdue : due w c r = true) :
    Visited w c now r o ((w.counted r).maybeRestart c now r.names o) := by
  have hhealthy : r.healthy = false :=
    not_healthy_of_unhealthy (Bool.and_eq_true_iff.mp hdue).1
  have hcalls : callsRestart w c r = (w.counted r).restarts c r.names := by
    rw [callsRestart, hdue, Bool.true_and]
  unfold Watch.maybeRestart
  split_ifs with halerted hmax hmode hok
  · exact .counts hhealthy (by rw [hcalls, Watch.restarts, halerted]; rfl) rfl rfl
  · refine .halts hhealthy ?_ hmax rfl rfl
    rw [hcalls, Watch.restarts, decide_eq_true hmax, Bool.not_true, Bool.and_false, Bool.false_and]
  · refine .counts hhealthy ?_ rfl rfl
    rw [hcalls, Watch.restarts, decide_eq_false hmode, Bool.and_false]
  · have hcall : callsRestart w c r = true := by
      rw [hcalls, Watch.restarts]
      simp only [Bool.and_eq_true, Bool.not_eq_true', decide_eq_false_iff_not, decide_eq_true_eq]
      exact ⟨⟨by simpa using halerted, hmax⟩, by simpa using hmode⟩
    refine .restarts hhealthy hcall hok ?_ (Int.not_le.mp hmax) rfl rfl
    simpa [Watch.counted, Watch.setUnhealthy] using halerted
  · exact .tries hhealthy hok rfl rfl

theorem visited (w : Watch) (c : LocalConfig) (now : ℤ) (r : Row) (o : Outcome) :
    Visited w c now r o (visit w c now r o) := by
  unfold visit
  dsimp only
  split_ifs with hwatched hrestarting hunhealthy hdue hrecovers
  · have hskip : watched r.names = false := by simpa using hwatched
    refine .counts ?_ ?_ rfl rfl <;> simp [Row.healthy, callsRestart, due, Row.unhealthy, hskip]
  · refine .counts ?_ ?_ rfl rfl <;> simp [Row.healthy, callsRestart, due, Row.unhealthy, hrestarting]
  · exact visited_maybeRestart hdue
  · refine .counts ?_ ?_ rfl rfl
    · simp [Row.healthy, hunhealthy]
    · simp only [callsRestart, Bool.eq_false_iff.mpr hdue, Bool.false_and]
  · have hwatched' : watched r.names = true := by simpa using hwatched
    refine .recovers ?_ ?_ rfl rfl
    · simp [Row.healthy, hwatched', hrestarting, hrecovers.1]
    · simpa [Watch.setUnhealthy] using hrecovers.2
  · have hcalls : callsRestart w c r = false := by
      simp [callsRestart, due, Row.unhealthy, hunhealthy]
    cases hhealthy : r.healthy with
    | false => exact .counts hhealthy hcalls rfl rfl
    | true =>
        refine .healthy hhealthy (fun halerted => hrecovers ⟨?_, ?_⟩) rfl rfl
        · simp only [Row.healthy, Bool.and_eq_true, decide_eq_true_eq] at hhealthy
          exact hhealthy.2
        · simpa [Watch.setUnhealthy] using halerted

end MilvusOnprem.LocalWatchdog
