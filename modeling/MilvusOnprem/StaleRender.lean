import MilvusOnprem.EnvSync

/-!
# Renders before reloads and recreates

One daemon, its `cluster.env` and its rendered files. A watch event leads to a
sync under the handler lock, to the reload of nginx and, on the leader, to the
recreate of the own MinIO. The request of another leader leads to that recreate
too. The sync has three outcomes. It reports the render as it went, and a skipped
one as a success. The dispatch looks at the report, and the recreate does not.

The host sync, the token rotation, the upgrade of the leader and the operator
render without the lock. Such a render reads the lists when it starts, and its
output replaces the files when it ends. `cluster.env` has one line for each list.

Every reload and recreate is recorded, with the topology it is for and the
rendered lists it finds.
-/
namespace MilvusOnprem.StaleRender

open PythonText EtcdClient MilvusOnprem.Topology Joining OrderedPeers EnvFile GuardedRuns
open TopologyWatcher hiding World Act step start Steps steps_of_step
open EnvSync (orderedPeers newPeerIps newPeerNames Holder peerText)

/-- Who called the sync: the dispatch of an event, or `recreate_minio_local`. -/
inductive Caller where
  | dispatch (kind : Kind)
  | recreate
deriving DecidableEq, Repr

/-- What is done next under the lock. -/
inductive Todo where
  | peerIps (caller : Caller) (ordered : List (String × String))
  | peerNames (caller : Caller) (ordered : List (String × String))
  | render (caller : Caller) (ordered : List (String × String))
  | reload (kind : Kind)
  | sweep (kind : Kind)
  | fetch
  | force
  | rest
deriving DecidableEq

/-- The peer lists of a file, as a render reads them. -/
abbrev Lists := Option String × Option String

def listsOf (file : Lines) : Lists := (valueOf PEER_IPS file, valueOf PEER_NAMES file)

def listsFor (ordered : List (String × String)) : Lists :=
  (some (newPeerIps ordered), some (newPeerNames ordered))

inductive Deed where
  | reloadNginx
  | recreateMinio
deriving DecidableEq, Repr

/-- A reload or a recreate: the topology it is for, whether a render has succeeded
since the lists were last written, and the lists in the rendered files. -/
structure Action where
  deed : Deed
  topology : Mirror
  renderedSince : Bool
  rendered : Lists
deriving DecidableEq

/-- The lock holder's topology: the mirror as the event left it, or what
`recreate_minio_local` has read of the prefix. -/
structure Lock where
  holder : Holder
  topology : Mirror
  todo : Todo
deriving DecidableEq

structure World where
  watcher : TopologyWatcher.World
  file : Lines
  rendered : Lists
  renderedSince : Bool
  others : List Lists
  waiting : Option (Kind × Mirror)
  lock : Option Lock
  actions : List Action

inductive Act where
  | watch (a : TopologyWatcher.Act)
  | dispatch
  | request
  | fetch (answered : Bool)
  | write (written : Bool)
  | render (ok : Bool)
  | reload
  | sweep (isLeader : Bool)
  | force
  | release
  | upsert (key : Key) (value : String)
  | otherReads
  | otherEnds (i : ℕ) (ok : Bool)
  | restart
deriving DecidableEq

/-- The watch loop awaits a handler. -/
def World.handling (w : World) : Bool :=
  w.waiting.isSome || w.lock.any fun l => l.holder = .handler

/-- What the handlers are notified of when an event is delivered. -/
def notified (w : TopologyWatcher.World) : TopologyWatcher.Act → Option (Kind × Mirror)
  | .deliver =>
      match w.phase with
      | .streaming (ev :: _) =>
          if w.stopping then none
          else
            match (applyEvent w.peers ev).2 with
            | .ok (some kind) => some (kind, (applyEvent w.peers ev).1)
            | _ => none
      | _ => none
  | _ => none

/-- What the caller does with the report of the sync. -/
def Caller.resume (caller : Caller) (reported : Bool) : Todo :=
  match caller with
  | .dispatch kind => if reported then .reload kind else .rest
  -- the report is not looked at
  | .recreate => .force

/-- The first half of `_sync_cluster_env_and_render`. An empty topology and one
without the own ip are skipped, and a skip is reported as a success. -/
def syncStart (config : DaemonConfig) (caller : Caller) (peers : Mirror) : Todo :=
  match orderedPeers peers with
  | .ok ordered =>
      if ordered = [] then caller.resume true
      else if config.localIp ≠ "" ∧ config.localIp ∉ ordered.map Prod.snd then caller.resume true
      else .peerIps caller ordered
  | .error _ => .rest

def World.act (w : World) (deed : Deed) (topology : Mirror) : List Action :=
  w.actions ++ [⟨deed, topology, w.renderedSince, w.rendered⟩]

/-- A sync that has written one of the lists, or has failed to. -/
def World.wrote (w : World) (l : Lock) (file : Lines) (todo : Todo) (written : Bool) : World :=
  if written then
    { w with file := file, renderedSince := false, lock := some { l with todo := todo } }
  else { w with lock := some { l with todo := .rest } }

def step (config : DaemonConfig) (w : World) : Act → Option World
  | .watch a =>
      if a = .deliver ∧ w.handling = true then none
      else
        (TopologyWatcher.step w.watcher a).map fun v =>
          { w with watcher := v, waiting := (notified w.watcher a).or w.waiting }
  | .dispatch =>
      match w.waiting, w.lock with
      | some (kind, topology), none =>
          some { w with
            waiting := none
            lock := some ⟨.handler, topology,
              syncStart config (.dispatch kind) w.watcher.peers⟩ }
      | _, _ => none
  | .request =>
      if w.lock = none then some { w with lock := some ⟨.request, w.watcher.peers, .fetch⟩ }
      else none
  | .fetch answered =>
      match w.lock with
      | some ⟨h, topology, .fetch⟩ =>
          let fresh := contents w.watcher.kv
          some { w with
            lock := some (if answered then ⟨h, fresh, syncStart config .recreate fresh⟩
              else ⟨h, topology, .rest⟩) }
      | _ => none
  | .write written =>
      match w.lock with
      | some ⟨h, topology, .peerIps caller ordered⟩ =>
          some (w.wrote ⟨h, topology, .peerIps caller ordered⟩
            (upsertKv PEER_IPS (newPeerIps ordered) w.file) (.peerNames caller ordered) written)
      | some ⟨h, topology, .peerNames caller ordered⟩ =>
          some (w.wrote ⟨h, topology, .peerNames caller ordered⟩
            (upsertKv PEER_NAMES (newPeerNames ordered) w.file) (.render caller ordered) written)
      | _ => none
  | .render ok =>
      match w.lock with
      | some ⟨h, topology, .render caller _⟩ =>
          let v := { w with lock := some ⟨h, topology, caller.resume ok⟩ }
          some (if ok then { v with rendered := listsOf w.file, renderedSince := true } else v)
      | _ => none
  | .reload =>
      match w.lock with
      | some ⟨h, topology, .reload kind⟩ =>
          some { w with
            actions := w.act .reloadNginx topology
            lock := some ⟨h, topology, .sweep kind⟩ }
      | _ => none
  | .sweep isLeader =>
      match w.lock with
      | some ⟨h, topology, .sweep kind⟩ =>
          some { w with
            lock := some ⟨h, topology,
              if (kind = .added ∨ kind = .removed) ∧ isLeader = true then .fetch else .rest⟩ }
      | _ => none
  | .force =>
      match w.lock with
      | some ⟨h, topology, .force⟩ =>
          some { w with
            actions := w.act .recreateMinio topology
            lock := some ⟨h, topology, .rest⟩ }
      | _ => none
  | .release =>
      match w.lock with
      | some ⟨_, _, .rest⟩ => some { w with lock := none }
      | _ => none
  | .upsert key value =>
      if key = PEER_IPS ∨ key = PEER_NAMES then none
      else some { w with file := upsertKv key value w.file }
  | .otherReads => some { w with others := w.others ++ [listsOf w.file] }
  | .otherEnds i ok =>
      match w.others[i]? with
      | some lists =>
          let v := { w with others := w.others.eraseIdx i }
          some (if ok then { v with rendered := lists, renderedSince := true } else v)
      | none => none
  | .restart =>
      some { w with
        watcher := TopologyWatcher.start w.watcher.kv
        waiting := none
        lock := none }

/-- A daemon that starts on a file, on what was rendered before and on a store. -/
def start (file : Lines) (rendered : Lists) (renderedSince : Bool)
    (kv : OrderedMap String String) : World where
  watcher := TopologyWatcher.start kv
  file := file
  rendered := rendered
  renderedSince := renderedSince
  others := []
  waiting := none
  lock := none
  actions := []

/-- A render has succeeded since the lists were last written, and the lists in
the rendered files are those of the topology. -/
def Action.Fresh (a : Action) : Prop :=
  a.renderedSince = true ∧
    ∃ ordered, orderedPeers a.topology = .ok ordered ∧ a.rendered = listsFor ordered

/-! ## Runs in which a sync renders or stops its caller -/

/-- A sync of the topology is not skipped. -/
def complete (config : DaemonConfig) (peers : Mirror) : Bool :=
  match orderedPeers peers with
  | .ok ordered =>
      decide (ordered ≠ []) && (decide (config.localIp = "") ||
        decide (config.localIp ∈ ordered.map Prod.snd))
  | .error _ => true

/-- The lock holder is about to reload or to recreate. -/
def Todo.acts : Todo → Bool
  | .reload _ | .force => true
  | _ => false

/-- The topology of a dispatch and that of a recreate are not skipped, the render
of a recreate succeeds, and between a sync and its reload or recreate no other
render ends that has read older lists. -/
def sound (config : DaemonConfig) (w : World) : Act → Bool
  | .dispatch => complete config w.watcher.peers
  | .fetch answered => !answered || complete config (contents w.watcher.kv)
  | .render ok => ok || !w.lock.any fun l => match l.todo with
      | .render .recreate _ => true
      | _ => false
  | .otherEnds i ok =>
      !ok || !(w.lock.any fun l => l.todo.acts) || decide (w.others[i]? = some (listsOf w.file))
  | _ => true

/-! ## What a step can do -/

inductive Steps (config : DaemonConfig) (w : World) : Act → World → Prop
  | watch {a v} : (a = .deliver → w.handling = false) →
      TopologyWatcher.step w.watcher a = some v →
      Steps config w (.watch a)
        { w with watcher := v, waiting := (notified w.watcher a).or w.waiting }
  | dispatch {kind topology} : w.waiting = some (kind, topology) → w.lock = none →
      Steps config w .dispatch
        { w with
          waiting := none
          lock := some ⟨.handler, topology, syncStart config (.dispatch kind) w.watcher.peers⟩ }
  | request : w.lock = none → Steps config w .request
      { w with lock := some ⟨.request, w.watcher.peers, .fetch⟩ }
  | fetched {h topology} : w.lock = some ⟨h, topology, .fetch⟩ → Steps config w (.fetch true)
      { w with lock := some ⟨h, contents w.watcher.kv,
                syncStart config .recreate (contents w.watcher.kv)⟩ }
  | fetchFailed {h topology} : w.lock = some ⟨h, topology, .fetch⟩ → Steps config w (.fetch false)
      { w with lock := some ⟨h, topology, .rest⟩ }
  | writeIps {h topology caller ordered} :
      w.lock = some ⟨h, topology, .peerIps caller ordered⟩ → Steps config w (.write true)
        { w with
          file := upsertKv PEER_IPS (newPeerIps ordered) w.file
          renderedSince := false
          lock := some ⟨h, topology, .peerNames caller ordered⟩ }
  | writeNames {h topology caller ordered} :
      w.lock = some ⟨h, topology, .peerNames caller ordered⟩ → Steps config w (.write true)
        { w with
          file := upsertKv PEER_NAMES (newPeerNames ordered) w.file
          renderedSince := false
          lock := some ⟨h, topology, .render caller ordered⟩ }
  | writeFailed (h topology) : Steps config w (.write false)
      { w with lock := some ⟨h, topology, .rest⟩ }
  | rendered {h topology caller ordered} :
      w.lock = some ⟨h, topology, .render caller ordered⟩ → Steps config w (.render true)
        { w with
          lock := some ⟨h, topology, caller.resume true⟩
          rendered := listsOf w.file
          renderedSince := true }
  | renderFailed {h topology caller ordered} :
      w.lock = some ⟨h, topology, .render caller ordered⟩ → Steps config w (.render false)
        { w with lock := some ⟨h, topology, caller.resume false⟩ }
  | reload {h topology kind} : w.lock = some ⟨h, topology, .reload kind⟩ → Steps config w .reload
      { w with
        actions := w.act .reloadNginx topology
        lock := some ⟨h, topology, .sweep kind⟩ }
  | swept (isLeader : Bool) (h topology todo) : todo = .fetch ∨ todo = .rest →
      Steps config w (.sweep isLeader) { w with lock := some ⟨h, topology, todo⟩ }
  | force {h topology} : w.lock = some ⟨h, topology, .force⟩ → Steps config w .force
      { w with
        actions := w.act .recreateMinio topology
        lock := some ⟨h, topology, .rest⟩ }
  | release : Steps config w .release { w with lock := none }
  | upsert {key value} : key ≠ PEER_IPS → key ≠ PEER_NAMES →
      Steps config w (.upsert key value) { w with file := upsertKv key value w.file }
  | otherReads : Steps config w .otherReads { w with others := w.others ++ [listsOf w.file] }
  | otherEnds {i lists} : w.others[i]? = some lists → Steps config w (.otherEnds i true)
      { w with others := w.others.eraseIdx i, rendered := lists, renderedSince := true }
  | otherFailed (i : ℕ) : Steps config w (.otherEnds i false)
      { w with others := w.others.eraseIdx i }
  | restart : Steps config w .restart
      { w with watcher := TopologyWatcher.start w.watcher.kv, waiting := none, lock := none }

theorem steps_of_step {config : DaemonConfig} {w v : World} {act : Act}
    (h : step config w act = some v) : Steps config w act v := by
  cases act with
  | watch a =>
      simp only [step] at h
      split_ifs at h with hbusy
      obtain ⟨u, hu, rfl⟩ := Option.map_eq_some_iff.mp h
      refine .watch (fun ha => ?_) hu
      simpa [ha] using hbusy
  | dispatch =>
      simp only [step] at h
      split at h
      · next hwaiting hlock =>
          cases h
          exact .dispatch hwaiting hlock
      · cases h
  | request =>
      simp only [step] at h
      split_ifs at h with hfree
      cases h
      exact .request hfree
  | fetch answered =>
      simp only [step] at h
      split at h
      · next hlock =>
          cases h
          cases answered
          · exact .fetchFailed hlock
          · exact .fetched hlock
      · cases h
  | write written =>
      simp only [step] at h
      split at h
      · next hlock =>
          cases h
          cases written
          · exact .writeFailed _ _
          · exact .writeIps hlock
      · next hlock =>
          cases h
          cases written
          · exact .writeFailed _ _
          · exact .writeNames hlock
      · cases h
  | render ok =>
      simp only [step] at h
      split at h
      · next hlock =>
          cases h
          cases ok
          · exact .renderFailed hlock
          · exact .rendered hlock
      · cases h
  | reload =>
      simp only [step] at h
      split at h
      · next hlock =>
          cases h
          exact .reload hlock
      · cases h
  | sweep isLeader =>
      simp only [step] at h
      split at h
      · cases h
        refine .swept _ _ _ _ ?_
        split_ifs
        · exact .inl rfl
        · exact .inr rfl
      · cases h
  | force =>
      simp only [step] at h
      split at h
      · next hlock =>
          cases h
          exact .force hlock
      · cases h
  | release =>
      simp only [step] at h
      split at h
      · cases h
        exact .release
      · cases h
  | upsert key value =>
      simp only [step] at h
      split_ifs at h with hkey
      cases h
      exact .upsert (fun he => hkey (.inl he)) (fun he => hkey (.inr he))
  | otherReads =>
      cases h
      exact .otherReads
  | otherEnds i ok =>
      simp only [step] at h
      split at h
      · next lists hlists =>
          cases h
          cases ok
          · exact .otherFailed i
          · exact .otherEnds hlists
      · cases h
  | restart =>
      cases h
      exact .restart

/-! ## The topology of a dispatch -/

/-- The mirror stays as the event left it until the handler has the lock. -/
def Kept (w : World) : Prop :=
  ∀ kind topology, w.waiting = some (kind, topology) →
    topology = w.watcher.peers ∧ w.watcher.phase ≠ .seeding

theorem observe_ne_seeding {ev : Event} {key : String} {phase : Phase} (h : phase ≠ .seeding) :
    observe ev key phase ≠ .seeding := by
  cases phase with
  | seeding => exact absurd rfl h
  | streaming pending =>
      simp only [observe]
      split_ifs
      · intro he
        cases he
      · intro he
        cases he
  | _ =>
      intro he
      cases he

/-- The watch loop touches the mirror when it seeds it and when it applies an event. -/
theorem peers_of_other {u v : TopologyWatcher.World} {a : TopologyWatcher.Act}
    (h : TopologyWatcher.step u a = some v) (hdeliver : a ≠ .deliver) (hphase : u.phase ≠ .seeding) :
    v.peers = u.peers ∧ v.phase ≠ .seeding := by
  cases TopologyWatcher.steps_of_step h with
  | put key value => exact ⟨rfl, observe_ne_seeding hphase⟩
  | deleteNone _ => exact ⟨rfl, hphase⟩
  | delete _ => exact ⟨rfl, observe_ne_seeding hphase⟩
  | seedAgain hseeding => exact absurd hseeding hphase
  | seeded hseeding => exact absurd hseeding hphase
  | seedFailed hseeding => exact absurd hseeding hphase
  | openStream _ => exact ⟨rfl, fun he => by cases he⟩
  | breakStream _ => exact ⟨rfl, fun he => by cases he⟩
  | finish _ => exact absurd rfl hdeliver
  | apply _ _ _ => exact absurd rfl hdeliver
  | die _ _ => exact absurd rfl hdeliver
  | stop => exact ⟨rfl, hphase⟩

/-- A notification carries the mirror that the step leaves. -/
theorem peers_of_notified {u v : TopologyWatcher.World} {a : TopologyWatcher.Act}
    (h : TopologyWatcher.step u a = some v) {kind : Kind} {topology : Mirror}
    (hn : notified u a = some (kind, topology)) :
    topology = v.peers ∧ v.phase ≠ .seeding := by
  cases a with
  | deliver =>
      simp only [notified] at hn
      split at hn
      · next ev pending hphase =>
          split_ifs at hn with hstop
          split at hn
          · next kind' hkind =>
              cases hn
              simp only [TopologyWatcher.step, hphase, if_neg hstop, hkind, Option.some.injEq] at h
              rw [← h]
              exact ⟨rfl, fun he => by cases he⟩
          · cases hn
      · cases hn
  | _ => cases hn

theorem kept_step {config : DaemonConfig} {w v : World} {act : Act} (h : Kept w)
    (hs : step config w act = some v) : Kept v := by
  cases steps_of_step hs with
  | @watch a u hbusy hstep =>
      intro kind topology hwaiting
      dsimp only at hwaiting ⊢
      cases hn : notified w.watcher a with
      | some n =>
          rw [hn, Option.some_or] at hwaiting
          exact peers_of_notified hstep (hn.trans hwaiting)
      | none =>
          rw [hn, Option.none_or] at hwaiting
          obtain ⟨hsame, hphase⟩ := h kind topology hwaiting
          -- nothing is delivered while a handler waits
          have hdeliver : a ≠ .deliver := by
            intro ha
            have hfree := hbusy ha
            rw [World.handling, hwaiting] at hfree
            cases hfree
          obtain ⟨hpeers, hphase'⟩ := peers_of_other hstep hdeliver hphase
          exact ⟨hsame.trans hpeers.symm, hphase'⟩
  | dispatch _ _ =>
      intro kind topology hwaiting
      cases hwaiting
  | restart =>
      intro kind topology hwaiting
      cases hwaiting
  | _ => exact h

/-! ## The file behind a reload or a recreate -/

/-- How far the sync under the lock has come. -/
def Ready (lists rendered : Lists) (renderedSince : Bool) (l : Lock) : Prop :=
  match l.todo with
  | .peerIps _ ordered => orderedPeers l.topology = .ok ordered
  | .peerNames _ ordered =>
      orderedPeers l.topology = .ok ordered ∧ lists.1 = some (newPeerIps ordered)
  | .render _ ordered => orderedPeers l.topology = .ok ordered ∧ lists = listsFor ordered
  | .reload _ | .force =>
      renderedSince = true ∧ rendered = lists ∧
        ∃ ordered, orderedPeers l.topology = .ok ordered ∧ lists = listsFor ordered
  | _ => True

theorem ready_syncStart {config : DaemonConfig} {caller : Caller} {peers : Mirror} (h : Holder)
    (hcomplete : complete config peers = true) (lists rendered : Lists) (renderedSince : Bool) :
    Ready lists rendered renderedSince ⟨h, peers, syncStart config caller peers⟩ := by
  unfold syncStart
  cases hordered : orderedPeers peers with
  | error e => trivial
  | ok ordered =>
      simp only [complete, hordered, Bool.and_eq_true, Bool.or_eq_true, decide_eq_true_eq] at hcomplete
      have hown : ¬(config.localIp ≠ "" ∧ config.localIp ∉ ordered.map Prod.snd) := by
        rintro ⟨hset, hout⟩
        exact hcomplete.2.elim hset hout
      dsimp only
      rw [if_neg hcomplete.1, if_neg hown]
      exact hordered

/-- A render that succeeded leaves the caller ready. -/
theorem ready_resume {caller : Caller} {lists : Lists} {h : Holder} {topology : Mirror}
    {ordered : List (String × String)} (hordered : orderedPeers topology = .ok ordered)
    (hlists : lists = listsFor ordered) :
    Ready lists lists true ⟨h, topology, caller.resume true⟩ := by
  cases caller with
  | dispatch kind => exact ⟨rfl, rfl, ordered, hordered, hlists⟩
  | recreate => exact ⟨rfl, rfl, ordered, hordered, hlists⟩

/-- Away from the reload and the recreate, what is rendered does not matter. -/
theorem ready_of_not_acts {lists rendered : Lists} {renderedSince : Bool} {l : Lock}
    (h : Ready lists rendered renderedSince l) (hacts : l.todo.acts = false) (rendered' : Lists)
    (renderedSince' : Bool) : Ready lists rendered' renderedSince' l := by
  obtain ⟨holder, topology, todo⟩ := l
  cases todo with
  | reload kind => cases hacts
  | force => cases hacts
  | _ => exact h

theorem fresh_of_ready {lists rendered : Lists} {renderedSince : Bool} {l : Lock}
    (h : Ready lists rendered renderedSince l) (hacts : l.todo.acts = true) (deed : Deed) :
    Action.Fresh ⟨deed, l.topology, renderedSince, rendered⟩ := by
  have hready : renderedSince = true ∧ rendered = lists ∧
      ∃ ordered, orderedPeers l.topology = .ok ordered ∧ lists = listsFor ordered := by
    obtain ⟨holder, topology, todo⟩ := l
    cases todo with
    | reload kind => exact h
    | force => exact h
    | _ => cases hacts
  obtain ⟨hsince, hrendered, ordered, hordered, hlists⟩ := hready
  exact ⟨hsince, ordered, hordered, hrendered.trans hlists⟩

theorem listsOf_upsertKv {key : Key} {value : String} {file : Lines} (hips : key ≠ PEER_IPS)
    (hnames : key ≠ PEER_NAMES) : listsOf (upsertKv key value file) = listsOf file := by
  rw [listsOf, valueOf_upsertKv, valueOf_upsertKv, if_neg hips.symm, if_neg hnames.symm]
  rfl

theorem listsOf_written {ordered : List (String × String)} {file : Lines}
    (h : (listsOf file).1 = some (newPeerIps ordered)) :
    listsOf (upsertKv PEER_NAMES (newPeerNames ordered) file) = listsFor ordered := by
  rw [listsOf, valueOf_upsertKv, valueOf_upsertKv, if_neg (by decide), if_pos rfl]
  exact Prod.ext h rfl

structure Inv (w : World) : Prop where
  kept : Kept w
  ready : ∀ l, w.lock = some l → Ready (listsOf w.file) w.rendered w.renderedSince l
  fresh : ∀ a ∈ w.actions, a.Fresh

/-- The lock is free or its holder has nothing to be ready for. -/
theorem ready_some {lists rendered : Lists} {renderedSince : Bool} {l : Lock}
    (h : Ready lists rendered renderedSince l) :
    ∀ l', some l = some l' → Ready lists rendered renderedSince l' := by
  intro l' hl
  cases hl
  exact h

theorem ready_none {lists rendered : Lists} {renderedSince : Bool} :
    ∀ l, none = some l → Ready lists rendered renderedSince l := by
  intro l hl
  cases hl

theorem fresh_act {w : World} {l : Lock} (h : Inv w) (hlock : w.lock = some l)
    (hacts : l.todo.acts = true) (deed : Deed) : ∀ a ∈ w.act deed l.topology, a.Fresh := by
  intro a ha
  rcases List.mem_append.mp ha with ha | ha
  · exact h.fresh a ha
  · rw [List.mem_singleton.mp ha]
    exact fresh_of_ready (h.ready l hlock) hacts deed

theorem inv_step {config : DaemonConfig} {w v : World} {act : Act} (h : Inv w)
    (hsound : sound config w act = true) (hs : step config w act = some v) : Inv v := by
  have hkept := kept_step h.kept hs
  cases steps_of_step hs with
  | watch _ _ => exact ⟨hkept, h.ready, h.fresh⟩
  | dispatch hwaiting hlock =>
      rw [(h.kept _ _ hwaiting).1]
      exact ⟨nofun, ready_some (ready_syncStart _ hsound _ _ _), h.fresh⟩
  | request hlock => exact ⟨hkept, ready_some trivial, h.fresh⟩
  | fetched hlock => exact ⟨hkept, ready_some (ready_syncStart _ hsound _ _ _), h.fresh⟩
  | fetchFailed hlock => exact ⟨hkept, ready_some trivial, h.fresh⟩
  | writeIps hlock =>
      have hordered := h.ready _ hlock
      refine ⟨hkept, ready_some ⟨hordered, ?_⟩, h.fresh⟩
      simp only [listsOf, valueOf_upsertKv, if_true]
  | writeNames hlock =>
      obtain ⟨hordered, hips⟩ := h.ready _ hlock
      exact ⟨hkept, ready_some ⟨hordered, listsOf_written hips⟩, h.fresh⟩
  | writeFailed holder topology => exact ⟨hkept, ready_some trivial, h.fresh⟩
  | rendered hlock =>
      obtain ⟨hordered, hlists⟩ := h.ready _ hlock
      exact ⟨hkept, ready_some (ready_resume hordered hlists), h.fresh⟩
  | @renderFailed holder topology caller ordered hlock =>
      cases caller with
      | dispatch kind => exact ⟨hkept, ready_some trivial, h.fresh⟩
      | recreate =>
          rw [sound, hlock] at hsound
          cases hsound
  | reload hlock => exact ⟨hkept, ready_some trivial, fresh_act h hlock rfl _⟩
  | swept isLeader holder topology todo htodo =>
      rcases htodo with rfl | rfl
      · exact ⟨hkept, ready_some trivial, h.fresh⟩
      · exact ⟨hkept, ready_some trivial, h.fresh⟩
  | force hlock => exact ⟨hkept, ready_some trivial, fresh_act h hlock rfl _⟩
  | release => exact ⟨hkept, ready_none, h.fresh⟩
  | upsert hips hnames =>
      refine ⟨hkept, ?_, h.fresh⟩
      dsimp only
      rw [listsOf_upsertKv hips hnames]
      exact h.ready
  | otherReads => exact ⟨hkept, h.ready, h.fresh⟩
  | @otherEnds i lists hlists =>
      refine ⟨hkept, fun l hl => ?_, h.fresh⟩
      have hready := h.ready l hl
      cases hacts : l.todo.acts with
      | false => exact ready_of_not_acts hready hacts _ _
      | true =>
          -- the other render has read the lists of the file
          have hsame : lists = listsOf w.file := by
            simpa [sound, show w.lock = some l from hl, hacts, hlists] using hsound
          obtain ⟨holder, topology, todo⟩ := l
          cases todo with
          | reload kind => exact ⟨rfl, hsame, hready.2.2⟩
          | force => exact ⟨rfl, hsame, hready.2.2⟩
          | _ => cases hacts
  | otherFailed i => exact ⟨hkept, h.ready, h.fresh⟩
  | restart => exact ⟨hkept, ready_none, h.fresh⟩

/-- When no sync of a dispatch or a recreate is skipped, no render of a recreate
fails and no older render ends behind a sync, every reload and every recreate
comes after a render of the lists of its own topology. -/
theorem actions_fresh {config : DaemonConfig} {file : Lines} {rendered : Lists} {since : Bool}
    {kv : OrderedMap String String} {as : List Act} {w : World}
    (hsound : Keeps (step config) (fun w act => sound config w act = true)
      (start file rendered since kv) as)
    (hr : run (step config) (start file rendered since kv) as = some w) :
    ∀ a ∈ w.actions, a.Fresh := by
  have hstart : Inv (start file rendered since kv) :=
    ⟨nofun, ready_none, nofun⟩
  exact (run_guarded (fun s a t hinv hg ht => inv_step hinv hg ht) hstart hsound hr).fresh

/-! ## A render that fails -/

/-- The daemon of the second peer. -/
def secondDaemon : DaemonConfig := ⟨"node-2", "10.0.0.2", "t", 2380, 19500⟩

def oneListed : Lines := ["PEER_IPS=10.0.0.2", "PEER_NAMES=node-2"]

def twoStored : OrderedMap String String :=
  (OrderedMap.empty.put (TOPOLOGY_PREFIX ++ "node-2") (peerText "node-2" "10.0.0.2")).put
    (TOPOLOGY_PREFIX ++ "node-3") (peerText "node-3" "10.0.0.3")

/-- The leader's request, with the outcome of the render. -/
def requested (ok : Bool) : List Act :=
  [.request, .fetch true, .write true, .write true, .render ok, .force, .release]

theorem actions_fresh_requested : ∃ w,
    run (step secondDaemon) (start oneListed (listsOf oneListed) true twoStored)
      (requested true) = some w ∧ w.actions ≠ [] ∧ ∀ a ∈ w.actions, a.Fresh := by
  have hsound : Keeps (step secondDaemon) (fun w act => sound secondDaemon w act = true)
      (start oneListed (listsOf oneListed) true twoStored) (requested true) := by
    decide +kernel
  have hrun : (run (step secondDaemon) (start oneListed (listsOf oneListed) true twoStored)
      (requested true)).any (fun w => decide (w.actions ≠ [])) = true := by
    decide +kernel
  obtain ⟨w, hw, htest⟩ := (Option.any_eq_true _ _).mp hrun
  exact ⟨w, hw, of_decide_eq_true htest, actions_fresh hsound hw⟩

/-- The render fails, and MinIO is recreated all the same. -/
theorem recreated_unrendered : ∃ (config : DaemonConfig) (file : Lines)
    (kv : OrderedMap String String) (as : List Act) (w : World),
    run (step config) (start file (listsOf file) true kv) as = some w ∧
      ∃ a ∈ w.actions, a.deed = .recreateMinio ∧ ¬a.Fresh := by
  have hrun : (run (step secondDaemon) (start oneListed (listsOf oneListed) true twoStored)
      (requested false)).any (fun w => w.actions.any fun a =>
        decide (a.deed = .recreateMinio) && !a.renderedSince) = true := by
    decide +kernel
  obtain ⟨w, hw, htest⟩ := (Option.any_eq_true _ _).mp hrun
  obtain ⟨a, ha, hdeed⟩ := List.any_eq_true.mp htest
  simp only [Bool.and_eq_true, decide_eq_true_eq, Bool.not_eq_true'] at hdeed
  refine ⟨secondDaemon, oneListed, twoStored, _, w, hw, a, ha, hdeed.1, fun hfresh => ?_⟩
  rw [hfresh.1] at hdeed
  cases hdeed.2

end MilvusOnprem.StaleRender
