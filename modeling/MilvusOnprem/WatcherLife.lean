import MilvusOnprem.MirrorFold

/-!
# How long the watcher lives

`run` is a bare background task: the lifespan creates it and nobody awaits it
before shutdown. A run here is any sequence of outcomes of the etcd calls, of
writes to the store and of the handlers, which `_notify` calls one by one. A value
over the limits of the interpreter makes `json.loads` raise what neither the seed nor
an event handles.
-/
namespace MilvusOnprem.WatcherLife

open EtcdClient MilvusOnprem.Topology TopologyWatcher MirrorFold GuardedRuns

/-- `_notify` over what the handlers do: an exception is logged and the next
handler is called. -/
def notify : List (Except Exc Unit) → List Exc
  | [] => []
  | .ok _ :: handlers => notify handlers
  | .error e :: handlers => e :: notify handlers

/-- The watcher and what `_notify` has logged. -/
structure Watch where
  world : World
  logged : List Exc

/-- Whether the delivery of the next event ends in `_notify`. -/
def notifies (w : World) : Act → Bool
  | .deliver =>
      match w.phase with
      | .streaming (ev :: _) =>
          match (applyEvent w.peers ev).2 with
          | .ok (some _) => !w.stopping
          | _ => false
      | _ => false
  | _ => false

/-- What decoding raises in a step, when a value goes over the limits. -/
def overLimits (l : Limits) (w : World) : Act → Option Exc
  | .seedAttempt .answered =>
      if w.phase = .seeding then l.scanRaises (withPrefix TOPOLOGY_PREFIX w.kv) else none
  | .deliver =>
      match w.phase with
      | .streaming (ev :: _) => if w.stopping then none else l.eventRaises ev
      | _ => none
  | _ => none

/-- A step and, where it notifies, what the handlers do. -/
def step (l : Limits) (w : Watch) (act : Act × List (Except Exc Unit)) : Option Watch :=
  match overLimits l w.world act.1 with
  | some e => some { w with world := { w.world with phase := .died e } }
  | none =>
      (TopologyWatcher.step w.world act.1).map fun v =>
        ⟨v, if notifies w.world act.1 then w.logged ++ notify act.2 else w.logged⟩

def start (kv : OrderedMap String String) : Watch := ⟨TopologyWatcher.start kv, []⟩

/-- `run` has returned or raised. -/
def isOver : Phase → Bool
  | .ended | .died _ => true
  | .seeding | .connecting | .streaming _ => false

/-- No attempt of the seed read is the last one in vain, and no event carries JSON
that is not an object, before the stop. -/
def handles (w : World) : Act → Bool
  | .seedAttempt a => w.stopping || !a.givesUp w.tries
  | .deliver =>
      match w.phase with
      | .streaming (ev :: _) => w.stopping || hasFields ev
      | _ => true
  | _ => true

/-- Nor does a value that is decoded before the stop go over the limits. -/
def survives (l : Limits) (w : World) (act : Act) : Bool :=
  (w.stopping || (overLimits l w act).isNone) && handles w act

theorem isOver_observe (ev : Event) (key : String) (p : Phase) : isOver (observe ev key p) = isOver p := by
  cases p with
  | streaming pending =>
      simp only [observe]
      split_ifs <;> rfl
  | _ => rfl

theorem stopping_step {w v : World} {act : Act} (h : TopologyWatcher.step w act = some v)
    (hs : w.stopping = true) : v.stopping = true := by
  cases steps_of_step h with
  | stop => rfl
  | _ => exact hs

/-- The seed read raises exactly when its last attempt gives up. -/
theorem seed_raises {tries : ℕ} {kv : OrderedMap String String} {a : Attempt} :
    (∃ e, (attemptOn scan tries kv a).2 = some (.error e)) ↔ a.givesUp tries = true := by
  constructor
  · rintro ⟨e, he⟩
    obtain hgives | ⟨-, text, htext⟩ := attemptOn_error (Prod.ext rfl he)
    · exact hgives
    · cases htext
  · intro hgives
    have hretry : ∀ err, retryDelays.length ≤ tries →
        ∃ e, retry (R := List (String × String)) tries err = some (.error e) := by
      intro err hle
      exact ⟨_, if_neg (by omega)⟩
    cases a with
    | dropped err => exact hretry err (of_decide_eq_true hgives)
    | unanswered err => exact hretry err (of_decide_eq_true hgives)
    | busy text => exact hretry _ (of_decide_eq_true hgives)
    | refused err => exact ⟨_, rfl⟩
    | answered => cases hgives

theorem isOver_seedAttempt {w v : World} {a : Attempt}
    (h : TopologyWatcher.step w (.seedAttempt a) = some v) :
    isOver v.phase = true ↔ a.givesUp w.tries = true := by
  rw [← @seed_raises w.tries w.kv a]
  simp only [TopologyWatcher.step] at h
  split_ifs at h with hphase
  cases hout : (attemptOn scan w.tries w.kv a).2 with
  | none =>
      simp only [hout] at h
      cases h
      simp [hphase, isOver]
  | some r =>
      cases r with
      | ok existing =>
          simp only [hout] at h
          cases h
          simp [isOver]
      | error e =>
          simp only [hout] at h
          cases h
          simp [isOver]

theorem isOver_deliver {w v : World} {ev : Event} {pending : List Event}
    (h : TopologyWatcher.step w .deliver = some v) (hphase : w.phase = .streaming (ev :: pending))
    (hs : w.stopping = false) : isOver v.phase = true ↔ hasFields ev = false := by
  have hok := @applyEvent_ok w.peers ev
  simp only [TopologyWatcher.step, hphase, hs] at h
  cases hev : (applyEvent w.peers ev).2 with
  | ok kind =>
      simp only [hev] at h
      cases h
      simp [isOver, hok.mp ⟨kind, hev⟩]
  | error e =>
      simp only [hev] at h
      cases h
      have hnot : ¬hasFields ev = true := by
        intro hfields
        obtain ⟨kind, hkind⟩ := hok.mpr hfields
        rw [hev] at hkind
        cases hkind
      simpa [isOver] using hnot

/-- `run` returned or raised before anyone called `stop`. -/
def Dead (w : World) : Prop := w.stopping = false ∧ isOver w.phase = true

theorem handles_of_stopping {w : World} (hs : w.stopping = true) (act : Act) :
    handles w act = true := by
  cases act with
  | deliver =>
      simp only [handles, hs, Bool.true_or]
      split <;> rfl
  | seedAttempt a => simp only [handles, hs, Bool.true_or]
  | _ => rfl

/-- A step within the limits ends a live watcher exactly when the guard fails. -/
theorem dead_within {w v : World} {act : Act} (h : TopologyWatcher.step w act = some v)
    (hlive : ¬Dead w) : Dead v ↔ ¬handles w act = true := by
  cases hs : w.stopping with
  | true =>
      have hv : ¬Dead v := fun hd => by rw [Dead, stopping_step h hs] at hd; cases hd.1
      exact iff_of_false hv (not_not.mpr (handles_of_stopping hs act))
  | false =>
      have hover : isOver w.phase = false := by
        simpa [Dead, hs] using hlive
      cases act with
      | put key value =>
          cases h
          exact iff_of_false (fun hd => by simpa [isOver_observe, hover] using hd.2) (by simp [handles])
      | delete key =>
          refine iff_of_false (fun hd => ?_) (by simp [handles])
          cases steps_of_step h with
          | deleteNone hkey => simpa [hover] using hd.2
          | delete hkey => simpa [isOver_observe, hover] using hd.2
      | seedAttempt a =>
          have hseed := isOver_seedAttempt h
          have hvs : v.stopping = false := by
            cases steps_of_step h <;> exact hs
          simp [Dead, hvs, hseed, handles, hs]
      | openStream =>
          refine iff_of_false (fun hd => ?_) (by simp [handles])
          cases steps_of_step h
          cases hd.2
      | breakStream =>
          refine iff_of_false (fun hd => ?_) (by simp [handles])
          cases steps_of_step h
          cases hd.2
      | deliver =>
          have hvs : v.stopping = false := by
            cases steps_of_step h <;> exact hs
          cases hphase : w.phase with
          | streaming pending =>
              cases pending with
              | nil =>
                  rw [TopologyWatcher.step, hphase] at h
                  cases h
              | cons ev pending =>
                  simp [Dead, hvs, isOver_deliver h hphase hs, handles, hphase, hs]
          | _ =>
              rw [TopologyWatcher.step, hphase] at h
              cases h
      | stop =>
          cases h
          exact iff_of_false (fun hd => by cases hd.1) (by simp [handles])

/-- A step ends a live watcher exactly when the guard fails. -/
theorem dead_step {l : Limits} {w v : Watch} {act : Act × List (Except Exc Unit)}
    (h : step l w act = some v) (hlive : ¬Dead w.world) :
    Dead v.world ↔ ¬survives l w.world act.1 = true := by
  unfold step at h
  cases hover : overLimits l w.world act.1 with
  | some e =>
      simp only [hover] at h
      cases h
      cases hs : w.world.stopping with
      | true => simp [Dead, survives, hs, handles_of_stopping hs]
      | false => simp [Dead, survives, hs, hover, isOver]
  | none =>
      simp only [hover] at h
      obtain ⟨v', hv', rfl⟩ := Option.map_eq_some_iff.mp h
      simp only [survives, hover, Option.isNone_none, Bool.or_true, Bool.true_and]
      exact dead_within hv' hlive

end MilvusOnprem.WatcherLife
