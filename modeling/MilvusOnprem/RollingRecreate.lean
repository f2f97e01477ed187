import MilvusOnprem.TopologyWatcher

/-!
# Which daemon sweeps an event

Every daemon gets the events of the topology prefix from a watch of its own, in
the order of the store, and handles them one at a time. When the render is done
the handler looks at the daemon's own `is_leader` and, for an added or removed
peer, runs the rolling recreate of MinIO. The daemons start from the same
mirror. Renders succeed, and at most one daemon has the flag.

The sweeps, and the number of events that the leader or the last leader has
handled, are recorded for the statements only.
-/
namespace MilvusOnprem.RollingRecreate

open EtcdClient GuardedRuns
open TopologyWatcher hiding World Act step start Steps steps_of_step

/-- Where a daemon's watch loop is: between two events, in the handlers of an
event with the kind they are notified of, or over. -/
inductive Stage where
  | idle
  | handling (kind : Option Kind)
  | died
deriving DecidableEq, Repr

/-- A daemon and the number of events it has handled. -/
structure Daemon where
  peers : Mirror
  handled : ℕ
  stage : Stage
deriving DecidableEq

variable {n : ℕ}

structure World (n : ℕ) where
  events : List Event
  daemon : Fin (n + 1) → Daemon
  leader : Option (Fin (n + 1))
  sweeps : List (ℕ × Fin (n + 1))
  reached : ℕ

inductive Act (n : ℕ) where
  | commit (ev : Event)
  | deliver (d : Fin (n + 1))
  | dispatch (d : Fin (n + 1))
  | lead (d : Fin (n + 1))
  | resign
deriving DecidableEq

/-- `kind in ("ADDED", "REMOVED")` -/
def sweepKind : Option Kind → Bool
  | some .added | some .removed => true
  | some .updated | none => false

def World.set (w : World n) (d : Fin (n + 1)) (daemon : Daemon) : World n :=
  { w with daemon := Function.update w.daemon d daemon }

def step (w : World n) : Act n → Option (World n)
  | .commit ev => some { w with events := w.events ++ [ev] }
  | .deliver d =>
      let x := w.daemon d
      match x.stage, w.events[x.handled]? with
      | .idle, some ev =>
          let y := applyEvent x.peers ev
          match y.2 with
          | .ok kind => some (w.set d ⟨y.1, x.handled, .handling kind⟩)
          | .error _ => some (w.set d ⟨y.1, x.handled, .died⟩)
      | _, _ => none
  | .dispatch d =>
      let x := w.daemon d
      match x.stage with
      | .handling kind =>
          let v := w.set d ⟨x.peers, x.handled + 1, .idle⟩
          if w.leader = some d then
            some { v with
              sweeps := if sweepKind kind then w.sweeps ++ [(x.handled, d)] else w.sweeps
              reached := x.handled + 1 }
          else some v
      | _ => none
  | .lead d => if w.leader = none then some { w with leader := some d } else none
  | .resign => some { w with leader := none }

/-- The daemons are up, and no event is committed yet. -/
def start (n : ℕ) (peers : Mirror) (leader : Option (Fin (n + 1))) : World n where
  events := []
  daemon := fun _ => ⟨peers, 0, .idle⟩
  leader := leader
  sweeps := []
  reached := 0

/-- What the handlers are notified of at an event. -/
def kindAt (peers : Mirror) (events : List Event) (i : ℕ) : Option Kind :=
  match events[i]? with
  | some ev =>
      match (applyEvent (applyAll peers (events.take i)) ev).2 with
      | .ok kind => kind
      | .error _ => none
  | none => none

/-- The number of sweeps for an event. -/
def sweepsOf (w : World n) (i : ℕ) : ℕ := w.sweeps.countP fun s => s.1 = i

/-- A daemon that has handled so many events is where the leader, or the last one,
has got to: no event to sweep lies between. -/
def level (peers : Mirror) (w : World n) (handled : ℕ) : Bool :=
  (List.range w.events.length).all fun i =>
    !sweepKind (kindAt peers w.events i) || decide (i < handled) == decide (i < w.reached)

/-- Leadership goes to a daemon that has handled the events the last leader has
handled, and while there is no leader, one daemon of that kind stays behind. -/
def handsOver (peers : Mirror) (w : World n) : Act n → Bool
  | .lead d => level peers w (w.daemon d).handled
  | .dispatch d =>
      w.leader.isSome || !sweepKind (kindAt peers w.events (w.daemon d).handled) ||
        !level peers w (w.daemon d).handled ||
          decide (∃ d', d' ≠ d ∧ level peers w (w.daemon d').handled = true)
  | _ => true

/-! ## What a step can do -/

inductive Steps (w : World n) : Act n → World n → Prop
  | commit (ev : Event) : Steps w (.commit ev) { w with events := w.events ++ [ev] }
  | deliver {d ev kind} : (w.daemon d).stage = .idle → w.events[(w.daemon d).handled]? = some ev →
      (applyEvent (w.daemon d).peers ev).2 = .ok kind →
      Steps w (.deliver d)
        (w.set d ⟨(applyEvent (w.daemon d).peers ev).1, (w.daemon d).handled, .handling kind⟩)
  | die {d ev} : (w.daemon d).stage = .idle → w.events[(w.daemon d).handled]? = some ev →
      Steps w (.deliver d)
        (w.set d ⟨(applyEvent (w.daemon d).peers ev).1, (w.daemon d).handled, .died⟩)
  | leaderDone {d kind} : (w.daemon d).stage = .handling kind → w.leader = some d →
      Steps w (.dispatch d)
        { w.set d ⟨(w.daemon d).peers, (w.daemon d).handled + 1, .idle⟩ with
          sweeps := if sweepKind kind then w.sweeps ++ [((w.daemon d).handled, d)] else w.sweeps
          reached := (w.daemon d).handled + 1 }
  | followerDone {d kind} : (w.daemon d).stage = .handling kind → w.leader ≠ some d →
      Steps w (.dispatch d) (w.set d ⟨(w.daemon d).peers, (w.daemon d).handled + 1, .idle⟩)
  | lead {d} : w.leader = none → Steps w (.lead d) { w with leader := some d }
  | resign : Steps w .resign { w with leader := none }

theorem steps_of_step {w v : World n} {act : Act n} (h : step w act = some v) : Steps w act v := by
  cases act with
  | commit ev =>
      cases h
      exact .commit ev
  | deliver d =>
      simp only [step] at h
      split at h
      · next ev hidle hev =>
          split at h
          · next kind hkind =>
              cases h
              exact .deliver hidle hev hkind
          · cases h
            exact .die hidle hev
      · cases h
  | dispatch d =>
      simp only [step] at h
      split at h
      · next kind hstage =>
          split at h
          · next hleader =>
              cases h
              exact .leaderDone hstage hleader
          · next hleader =>
              cases h
              exact .followerDone hstage hleader
      · cases h
  | lead d =>
      simp only [step] at h
      split_ifs at h with hfree
      cases h
      exact .lead hfree
  | resign =>
      cases h
      exact .resign

/-! ## Every daemon sees the same kinds -/

variable {peers : Mirror}

theorem kindAt_append {events : List Event} {i : ℕ} (hi : i < events.length) (ev : Event) :
    kindAt peers (events ++ [ev]) i = kindAt peers events i := by
  rw [kindAt, kindAt, List.getElem?_append_left hi, List.take_append_of_le_length hi.le]

/-- What a daemon has is what the events up to the one it handles make of the
mirror at the start. -/
def Follows (peers : Mirror) (events : List Event) (x : Daemon) : Prop :=
  match x.stage with
  | .idle => x.handled ≤ events.length ∧ x.peers = applyAll peers (events.take x.handled)
  | .handling kind => x.handled < events.length ∧
      x.peers = applyAll peers (events.take (x.handled + 1)) ∧ kind = kindAt peers events x.handled
  | .died => x.handled ≤ events.length

theorem Follows.le {events : List Event} {x : Daemon} (h : Follows peers events x) :
    x.handled ≤ events.length := by
  unfold Follows at h
  split at h
  · exact h.1
  · exact h.1.le
  · exact h

theorem Follows.append {events : List Event} {x : Daemon} (h : Follows peers events x)
    (ev : Event) : Follows peers (events ++ [ev]) x := by
  have hle := h.le
  have hlen : (events ++ [ev]).length = events.length + 1 := by simp
  unfold Follows at h ⊢
  split at h
  · refine ⟨by omega, ?_⟩
    rw [List.take_append_of_le_length hle]
    exact h.2
  · refine ⟨by omega, ?_, ?_⟩
    · rw [List.take_append_of_le_length h.1]
      exact h.2.1
    · rw [kindAt_append h.1]
      exact h.2.2
  · omega

theorem take_succ {events : List Event} {i : ℕ} {ev : Event} (h : events[i]? = some ev) :
    events.take (i + 1) = events.take i ++ [ev] := by
  rw [List.take_add_one, h]
  rfl

theorem Follows.deliver {events : List Event} {x : Daemon} (h : Follows peers events x)
    (hidle : x.stage = .idle) {ev : Event} (hev : events[x.handled]? = some ev) {kind : Option Kind}
    (hkind : (applyEvent x.peers ev).2 = .ok kind) :
    Follows peers events ⟨(applyEvent x.peers ev).1, x.handled, .handling kind⟩ := by
  unfold Follows at h
  rw [hidle] at h
  have hlt : x.handled < events.length := (List.getElem?_eq_some_iff.mp hev).1
  refine ⟨hlt, ?_, ?_⟩
  · dsimp only
    rw [take_succ hev, applyAll_append, h.2]
  · rw [h.2] at hkind
    simp only [kindAt, hev, hkind]

theorem Follows.done {events : List Event} {x : Daemon} (h : Follows peers events x)
    {kind : Option Kind} (hstage : x.stage = .handling kind) :
    Follows peers events ⟨x.peers, x.handled + 1, .idle⟩ ∧ kind = kindAt peers events x.handled ∧
      x.handled < events.length := by
  unfold Follows at h
  rw [hstage] at h
  exact ⟨⟨h.1, h.2.1⟩, h.2.2, h.1⟩

/-! ## The sweeps so far -/

def Level (peers : Mirror) (w : World n) (handled : ℕ) : Prop :=
  ∀ i < w.events.length, sweepKind (kindAt peers w.events i) = true →
    (i < handled ↔ i < w.reached)

theorem level_iff {w : World n} {handled : ℕ} :
    level peers w handled = true ↔ Level peers w handled := by
  simp only [level, List.all_eq_true, List.mem_range, Bool.or_eq_true, Bool.not_eq_true',
    beq_iff_eq, decide_eq_decide]
  constructor
  · intro h i hi hkind
    exact (h i hi).resolve_left (by simp [hkind])
  · intro h i hi
    cases hkind : sweepKind (kindAt peers w.events i) with
    | false => exact .inl rfl
    | true => exact .inr (h i hi hkind)

/-- The leader is level with the sweeps, some daemon always is, and the events up
to there are swept once. -/
structure Inv (peers : Mirror) (w : World n) : Prop where
  follows : ∀ d, Follows peers w.events (w.daemon d)
  reached_le : w.reached ≤ w.events.length
  leads : ∀ d, w.leader = some d → Level peers w (w.daemon d).handled
  stays : ∃ d, Level peers w (w.daemon d).handled
  sweeps : ∀ i, sweepKind (kindAt peers w.events i) = true →
    sweepsOf w i = if i < w.reached then 1 else 0
  bound : ∀ s ∈ w.sweeps, s.1 < w.events.length

theorem set_self (w : World n) (d : Fin (n + 1)) (x : Daemon) : (w.set d x).daemon d = x := by
  simp [World.set]

theorem set_other (w : World n) {d d' : Fin (n + 1)} (x : Daemon) (h : d' ≠ d) :
    (w.set d x).daemon d' = w.daemon d' := by
  simp [World.set, h]

theorem lt_of_sweepKind {events : List Event} {i : ℕ}
    (h : sweepKind (kindAt peers events i) = true) : i < events.length := by
  by_contra hlen
  have hnone : events[i]? = none := List.getElem?_eq_none (by omega)
  rw [kindAt, hnone] at h
  cases h

theorem follows_set {w : World n} {d : Fin (n + 1)} {x : Daemon}
    (h : ∀ d, Follows peers w.events (w.daemon d)) (hx : Follows peers w.events x) :
    ∀ d', Follows peers w.events ((w.set d x).daemon d') := by
  intro d'
  by_cases hd : d' = d
  · rw [hd, set_self]
    exact hx
  · rw [set_other w x hd]
    exact h d'

theorem handled_set {w : World n} {d : Fin (n + 1)} {x : Daemon}
    (hx : x.handled = (w.daemon d).handled) (d' : Fin (n + 1)) :
    ((w.set d x).daemon d').handled = (w.daemon d').handled := by
  by_cases hd : d' = d
  · rw [hd, set_self, hx]
  · rw [set_other w x hd]

/-- A daemon that goes on without having handled another event. -/
theorem Inv.move {w : World n} (h : Inv peers w) {d : Fin (n + 1)} {x : Daemon}
    (hx : Follows peers w.events x) (hhandled : x.handled = (w.daemon d).handled) :
    Inv peers (w.set d x) where
  follows := follows_set h.follows hx
  reached_le := h.reached_le
  leads := by
    intro d' hd'
    rw [handled_set hhandled]
    exact h.leads d' hd'
  stays := by
    obtain ⟨d', hd'⟩ := h.stays
    exact ⟨d', by rw [handled_set hhandled]; exact hd'⟩
  sweeps := h.sweeps
  bound := h.bound

theorem Inv.commit {w : World n} (h : Inv peers w) (ev : Event) :
    Inv peers { w with events := w.events ++ [ev] } := by
  have hlen : (w.events ++ [ev]).length = w.events.length + 1 := by simp
  -- the new event is ahead of every daemon
  have hlevel : ∀ d, Level peers w (w.daemon d).handled →
      Level peers { w with events := w.events ++ [ev] } (w.daemon d).handled := by
    intro d hd i hi hkind
    dsimp only at hi hkind ⊢
    by_cases hold : i < w.events.length
    · rw [kindAt_append hold] at hkind
      exact hd i hold hkind
    · have := (h.follows d).le
      have := h.reached_le
      omega
  refine ⟨fun d => (h.follows d).append ev, ?_, fun d hd => hlevel d (h.leads d hd), ?_, ?_, ?_⟩
  · have := h.reached_le
    dsimp only
    omega
  · obtain ⟨d, hd⟩ := h.stays
    exact ⟨d, hlevel d hd⟩
  · intro i hkind
    have hi := lt_of_sweepKind hkind
    dsimp only at hi hkind ⊢
    by_cases hold : i < w.events.length
    · rw [kindAt_append hold] at hkind
      exact h.sweeps i hkind
    · have hnone : sweepsOf w i = 0 := by
        refine List.countP_eq_zero.mpr fun s hs => ?_
        have := h.bound s hs
        simp only [decide_eq_true_eq]
        omega
      have := h.reached_le
      rw [if_neg (by omega)]
      exact hnone
  · intro s hs
    have := h.bound s hs
    dsimp only
    omega

theorem Level.succ {w : World n} {handled : ℕ} (h : Level peers w handled)
    (hkind : sweepKind (kindAt peers w.events handled) = false) :
    Level peers w (handled + 1) := by
  intro i hi hsweep
  have hne : i ≠ handled := by
    rintro rfl
    rw [hkind] at hsweep
    cases hsweep
  rw [← h i hi hsweep]
  omega

/-- Some daemon stays level when a daemon that does not lead has handled an event. -/
theorem Inv.staysBehind {w : World n} (h : Inv peers w) {d : Fin (n + 1)}
    (hleader : w.leader ≠ some d)
    (hguard : handsOver peers w (.dispatch d) = true) :
    ∃ d', Level peers w
      ((w.set d ⟨(w.daemon d).peers, (w.daemon d).handled + 1, .idle⟩).daemon d').handled := by
  have hother : ∀ d', d' ≠ d → Level peers w (w.daemon d').handled → ∃ d', Level peers w
      ((w.set d ⟨(w.daemon d).peers, (w.daemon d).handled + 1, .idle⟩).daemon d').handled := by
    intro d' hne hlevel
    exact ⟨d', by rw [set_other w _ hne]; exact hlevel⟩
  cases hlead : w.leader with
  | some d' =>
      exact hother d' (fun he => hleader (he ▸ hlead)) (h.leads d' hlead)
  | none =>
      simp only [handsOver, hlead, Option.isSome_none, Bool.false_or, Bool.or_eq_true,
        Bool.not_eq_true', decide_eq_true_eq] at hguard
      obtain ⟨d₀, hd₀⟩ := h.stays
      by_cases hsame : d₀ = d
      · rcases hguard with (hnot | hnot) | ⟨d', hne, hlevel⟩
        · refine ⟨d, ?_⟩
          rw [set_self]
          exact (hsame ▸ hd₀).succ hnot
        · rw [← hsame, level_iff.mpr hd₀] at hnot
          cases hnot
        · exact hother d' hne (level_iff.mp hlevel)
      · exact hother d₀ hsame hd₀

/-- The leader has handled an event. -/
theorem Inv.swept {w : World n} (h : Inv peers w) {d : Fin (n + 1)} {kind : Option Kind}
    (hstage : (w.daemon d).stage = .handling kind) (hleader : w.leader = some d) :
    Inv peers { w.set d ⟨(w.daemon d).peers, (w.daemon d).handled + 1, .idle⟩ with
      sweeps := if sweepKind kind then w.sweeps ++ [((w.daemon d).handled, d)] else w.sweeps
      reached := (w.daemon d).handled + 1 } := by
  obtain ⟨hdone, hkind, hlt⟩ := (h.follows d).done hstage
  refine ⟨follows_set h.follows hdone, hlt, fun d' hd' => ?_, ⟨d, ?_⟩, fun i hsweep => ?_, ?_⟩
  · obtain rfl : d = d' := Option.some.inj (hleader.symm.trans hd')
    intro i _ _
    dsimp only
    rw [set_self]
  · intro i _ _
    dsimp only
    rw [set_self]
  · have hold := h.sweeps i hsweep
    have hlevel := h.leads d hleader i (lt_of_sweepKind hsweep) hsweep
    have hevent : sweepKind (kindAt peers w.events i) = true := hsweep
    unfold sweepsOf at hold ⊢
    dsimp only
    by_cases hi : i = (w.daemon d).handled
    · have hnot : ¬ i < w.reached := fun hlt' => by
        have := hlevel.mpr hlt'
        omega
      rw [hkind, ← hi, if_pos hevent, List.countP_append, hold, if_neg hnot, if_pos (by omega)]
      simp
    · have hiff : i < (w.daemon d).handled + 1 ↔ i < w.reached := by
        rw [← hlevel]
        omega
      simp only [hiff]
      split_ifs at hold ⊢ <;> simp [List.countP_append, hold, Ne.symm hi]
  · intro s hs
    dsimp only at hs
    split_ifs at hs
    · rcases List.mem_append.mp hs with hs | hs
      · exact h.bound s hs
      · rw [List.mem_singleton.mp hs]
        exact hlt
    · exact h.bound s hs

theorem inv_step {w v : World n} {act : Act n} (h : Inv peers w)
    (hguard : handsOver peers w act = true) (hs : step w act = some v) : Inv peers v := by
  cases steps_of_step hs with
  | commit ev => exact h.commit ev
  | deliver hidle hev hkind => exact h.move ((h.follows _).deliver hidle hev hkind) rfl
  | @die d ev hidle hev =>
      refine h.move ?_ rfl
      exact (h.follows d).le
  | leaderDone hstage hleader => exact h.swept hstage hleader
  | @followerDone d kind hstage hleader =>
      obtain ⟨hdone, -, -⟩ := (h.follows d).done hstage
      refine ⟨follows_set h.follows hdone, h.reached_le, fun d' hd' => ?_,
        h.staysBehind hleader hguard, h.sweeps, h.bound⟩
      have hne : d' ≠ d := fun he => hleader (he ▸ hd')
      rw [set_other w _ hne]
      exact h.leads d' hd'
  | @lead d hfree =>
      refine ⟨h.follows, h.reached_le, fun d' hd' => ?_, h.stays, h.sweeps, h.bound⟩
      obtain rfl : d = d' := Option.some.inj hd'
      exact level_iff.mp hguard
  | resign => exact ⟨h.follows, h.reached_le, fun d hd => (by cases hd), h.stays, h.sweeps, h.bound⟩

/-- When leadership is handed over between daemons that have handled the same
events, an event that adds or removes a peer is swept exactly once when every
daemon has handled it. -/
theorem swept_once {leader : Option (Fin (n + 1))} {as : List (Act n)} {w : World n}
    (hguard : Keeps step (fun w act => handsOver peers w act = true) (start n peers leader) as)
    (hr : run step (start n peers leader) as = some w) {i : ℕ}
    (hkind : sweepKind (kindAt peers w.events i) = true)
    (hall : ∀ d, i < (w.daemon d).handled) : sweepsOf w i = 1 := by
  have hstart : Inv peers (start n peers leader) := by
    refine ⟨fun d => ⟨le_rfl, rfl⟩, le_rfl, fun d _ i hi => ?_, ⟨0, fun i hi => ?_⟩, fun i hi => ?_,
      fun s hs => ?_⟩
    · cases hi
    · cases hi
    · cases lt_of_sweepKind hi
    · cases hs
  have hinv : Inv peers w :=
    run_guarded (fun s a t hinv hg ht => inv_step hinv hg ht) hstart hguard hr
  obtain ⟨d, hd⟩ := hinv.stays
  have hreached := (hd i (lt_of_sweepKind hkind) hkind).mp (hall d)
  rw [hinv.sweeps i hkind, if_pos hreached]

/-! ## Two daemons -/

/-- A third peer is added. -/
def newPeer : Event :=
  .put (Topology.TOPOLOGY_PREFIX ++ "node-3") (some "\x7b\"ip\": \"10.0.0.3\"\x7d")

def handle (d : Fin 2) : List (Act 1) := [.deliver d, .dispatch d]

def allHandled (w : World 1) : Bool :=
  sweepKind (kindAt .empty w.events 0) && decide (∀ d, 0 < (w.daemon d).handled)

/-- Leadership moves when both have handled the event. -/
theorem swept_once_handedOver : ∃ w,
    run step (start 1 .empty (some 0))
      (Act.commit newPeer :: handle 1 ++ handle 0 ++ [Act.resign, .lead 1]) = some w ∧
      sweepsOf w 0 = 1 := by
  have hguard : Keeps step (fun w act => handsOver .empty w act = true) (start 1 .empty (some 0))
      (Act.commit newPeer :: handle 1 ++ handle 0 ++ [Act.resign, .lead 1]) := by
    decide +kernel
  have hrun : (run step (start 1 .empty (some 0))
      (Act.commit newPeer :: handle 1 ++ handle 0 ++ [Act.resign, .lead 1])).any allHandled = true := by
    decide +kernel
  obtain ⟨w, hw, htest⟩ := (Option.any_eq_true _ _).mp hrun
  obtain ⟨hkind, hall⟩ := Bool.and_eq_true_iff.mp htest
  exact ⟨w, hw, swept_once hguard hw hkind (of_decide_eq_true hall)⟩

/-- Leadership moves while only one of them has handled the event: to that one,
and nobody sweeps; from that one, and both do. -/
theorem swept_never_or_twice : ∃ (peers : Mirror) (w v : World 1) (as bs : List (Act 1)),
    run step (start 1 peers (some 0)) as = some w ∧
      run step (start 1 peers (some 0)) bs = some v ∧
        (sweepKind (kindAt peers w.events 0) = true ∧ (∀ d, 0 < (w.daemon d).handled) ∧
          sweepsOf w 0 = 0) ∧
        (sweepKind (kindAt peers v.events 0) = true ∧ (∀ d, 0 < (v.daemon d).handled) ∧
          sweepsOf v 0 = 2) := by
  have hnever : (run step (start 1 .empty (some 0))
      (Act.commit newPeer :: handle 1 ++ [Act.resign, .lead 1] ++ handle 0)).any
        (fun w => allHandled w && decide (sweepsOf w 0 = 0)) = true := by
    decide +kernel
  have htwice : (run step (start 1 .empty (some 0))
      (Act.commit newPeer :: handle 0 ++ [Act.resign, .lead 1] ++ handle 1)).any
        (fun w => allHandled w && decide (sweepsOf w 0 = 2)) = true := by
    decide +kernel
  obtain ⟨w, hw, htest⟩ := (Option.any_eq_true _ _).mp hnever
  obtain ⟨v, hv, htest'⟩ := (Option.any_eq_true _ _).mp htwice
  simp only [allHandled, Bool.and_eq_true, decide_eq_true_eq] at htest htest'
  exact ⟨.empty, w, v, _, _, hw, hv, ⟨htest.1.1, htest.1.2, htest.2⟩,
    ⟨htest'.1.1, htest'.1.2, htest'.2⟩⟩

end MilvusOnprem.RollingRecreate
