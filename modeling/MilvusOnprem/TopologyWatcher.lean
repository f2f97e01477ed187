import MilvusOnprem.Topology
import MilvusOnprem.GuardedRuns

/-!
# The mirror of the topology prefix

`TopologyWatcher.run` reads the prefix once and then applies the events of a
watch. The watch is a stream of its own: etcd delivers on it exactly the events
committed while it is open, in order, and `watch_prefix` opens the next stream
without a start revision when one breaks. Every attempt of the seed read, the
creation of a stream, its end and the delivery of one event are steps, and any
party may write to the store between them.

The handlers are left out here. A `PUT` of the empty text arrives without a
value, as on the wire.
-/
namespace MilvusOnprem.TopologyWatcher

open PythonText EtcdClient MilvusOnprem.Topology GuardedRuns

/-- What `_normalise_event` yields; the revision is read by nobody. -/
inductive Event where
  | put (key : String) (value : Option String)
  | delete (key : String)
deriving DecidableEq, Repr

inductive Kind where
  | added
  | updated
  | removed
deriving DecidableEq, Repr

/-- `self.peers`: the infos by node name. -/
abbrev Mirror := OrderedMap String Json

/-- The loop of `_seed` over the range scan. -/
def seed (peers : Mirror) (existing : List (String × String)) : Mirror :=
  peers.putAll (parseTopology existing)

/-- `authoritative_peers` on the range scan. -/
def authoritativePeers (raw : List (String × String)) : Mirror :=
  OrderedMap.empty.putAll (parseTopology raw)

/-- `json.loads(ev["value"]) if ev["value"] is not None else {}` -/
def eventInfo : Option String → Option Json
  | none => some (.obj [])
  | some text => JsonText.loads text

/-- `"ADDED" if old is None else "UPDATED"`; a mirrored `null` counts as none. -/
def putKind : Option Json → Kind
  | none | some .null => .added
  | some _ => .updated

/-- `_apply_event`: the mirror after it, and the kind of the notification, if
there is one. An info without fields raises when its ip is logged. -/
def applyEvent (peers : Mirror) : Event → Mirror × Except Exc (Option Kind)
  | .delete key =>
      if startsWith key TOPOLOGY_PREFIX then
        (peers.erase (removePrefix TOPOLOGY_PREFIX key), .ok (some .removed))
      else (peers, .ok none)
  | .put key value =>
      if startsWith key TOPOLOGY_PREFIX then
        match eventInfo value with
        | none => (peers, .ok none)
        | some info =>
            let name := removePrefix TOPOLOGY_PREFIX key
            (peers.put name info,
              (infoGet "ip" info).map fun _ => some (putKind (peers.get name)))
      else (peers, .ok none)

/-! ## The run loop -/

/-- Where `run` is: at the seed read, between two streams, at a stream with the
events it has not yet delivered, or over. -/
inductive Phase where
  | seeding
  | connecting
  | streaming (pending : List Event)
  | ended
  | died (e : Exc)
deriving DecidableEq

structure World where
  kv : OrderedMap String String
  peers : Mirror
  phase : Phase
  tries : ℕ
  stopping : Bool

inductive Act where
  | put (key value : String)
  | delete (key : String)
  | seedAttempt (a : Attempt)
  | openStream
  | breakStream
  | deliver
  | stop
deriving DecidableEq, Repr

/-- An open stream of the prefix gets the event. -/
def observe (ev : Event) (key : String) : Phase → Phase
  | .streaming pending =>
      if startsWith key TOPOLOGY_PREFIX then .streaming (pending ++ [ev]) else .streaming pending
  | p => p

def eventValue (value : String) : Option String := if value = "" then none else some value

/-- `get_prefix(TOPOLOGY_PREFIX)` at the server. -/
def scan (kv : OrderedMap String String) :
    OrderedMap String String × Except String (List (String × String)) :=
  (kv, .ok (withPrefix TOPOLOGY_PREFIX kv))

def step (w : World) : Act → Option World
  | .put key value =>
      some { w with
        kv := w.kv.put key value
        phase := observe (.put key (eventValue value)) key w.phase }
  | .delete key =>
      if w.kv.get key = none then some w
      else some { w with kv := w.kv.erase key, phase := observe (.delete key) key w.phase }
  | .seedAttempt a =>
      if w.phase = .seeding then
        match (attemptOn scan w.tries w.kv a).2 with
        | none => some { w with tries := w.tries + 1 }
        | some (.ok existing) => some { w with peers := seed w.peers existing, phase := .connecting }
        | some (.error e) => some { w with phase := .died e }
      else none
  | .openStream => if w.phase = .connecting then some { w with phase := .streaming [] } else none
  | .breakStream =>
      match w.phase with
      | .streaming _ => some { w with phase := .connecting }
      | _ => none
  | .deliver =>
      match w.phase with
      | .streaming (ev :: pending) =>
          if w.stopping then some { w with phase := .ended }
          else
            let x := applyEvent w.peers ev
            match x.2 with
            | .ok _ => some { w with peers := x.1, phase := .streaming pending }
            | .error e => some { w with peers := x.1, phase := .died e }
      | _ => none
  | .stop => some { w with stopping := true }

/-- A watcher that was constructed and has not yet read anything. -/
def start (kv : OrderedMap String String) : World := ⟨kv, .empty, .seeding, 0, false⟩

/-- The decoded contents of the prefix. -/
def contents (kv : OrderedMap String String) : Mirror :=
  authoritativePeers (withPrefix TOPOLOGY_PREFIX kv)

/-! ## The contents of the prefix -/

/-- The contents are the decoded entries, by name. -/
theorem get_contents (kv : OrderedMap String String) (name : String) :
    (contents kv).get name = entryOf kv name := by
  have hfun : ∀ v w, (name, v) ∈ parseTopology (withPrefix TOPOLOGY_PREFIX kv) →
      (name, w) ∈ parseTopology (withPrefix TOPOLOGY_PREFIX kv) → v = w := by
    intro v w hv hw
    exact Option.some.inj ((mem_parseTopology.mp hv).symm.trans (mem_parseTopology.mp hw))
  apply Option.ext
  intro info
  unfold contents authoritativePeers
  rw [OrderedMap.get_putAll hfun, mem_parseTopology]
  simp

theorem entryOf_put_prefix (kv : OrderedMap String String) {key : String}
    (hkey : startsWith key TOPOLOGY_PREFIX = true) (value name : String) :
    entryOf (kv.put key value) name =
      if removePrefix TOPOLOGY_PREFIX key = name then JsonText.loads value else entryOf kv name := by
  unfold entryOf
  rw [OrderedMap.get_put]
  by_cases h : removePrefix TOPOLOGY_PREFIX key = name
  · rw [if_pos h, if_pos (by rw [← h, append_removePrefix hkey])]
    rfl
  · rw [if_neg h, if_neg (fun hk => h (by rw [hk, removePrefix_append]))]

theorem entryOf_erase_prefix (kv : OrderedMap String String) {key : String}
    (hkey : startsWith key TOPOLOGY_PREFIX = true) (name : String) :
    entryOf (kv.erase key) name =
      if removePrefix TOPOLOGY_PREFIX key = name then none else entryOf kv name := by
  unfold entryOf
  rw [OrderedMap.get_erase]
  by_cases h : removePrefix TOPOLOGY_PREFIX key = name
  · rw [if_pos h, if_pos (by rw [← h, append_removePrefix hkey])]
    rfl
  · rw [if_neg h, if_neg (fun hk => h (by rw [hk, removePrefix_append]))]

/-- A write to another key leaves the contents alone. -/
theorem contents_congr {kv kv' : OrderedMap String String}
    (h : ∀ name, kv'.get (TOPOLOGY_PREFIX ++ name) = kv.get (TOPOLOGY_PREFIX ++ name)) :
    contents kv' = contents kv := by
  ext1 name
  rw [get_contents, get_contents, entryOf, entryOf, h]

theorem ne_entryKey {key : String} (h : startsWith key TOPOLOGY_PREFIX = false) (name : String) :
    key ≠ TOPOLOGY_PREFIX ++ name := by
  intro hk
  rw [hk, startsWith_append] at h
  cases h

theorem contents_put_other (kv : OrderedMap String String) {key : String} (value : String)
    (h : startsWith key TOPOLOGY_PREFIX = false) : contents (kv.put key value) = contents kv :=
  contents_congr fun name => OrderedMap.get_put_of_ne kv value (ne_entryKey h name)

theorem contents_erase_other (kv : OrderedMap String String) {key : String}
    (h : startsWith key TOPOLOGY_PREFIX = false) : contents (kv.erase key) = contents kv :=
  contents_congr fun name => OrderedMap.get_erase_of_ne kv (ne_entryKey h name)

/-- A text that decodes to an object. -/
def WellFormed (text : String) : Prop := ∃ fields, JsonText.loads text = some (.obj fields)

theorem eventInfo_eventValue {value : String} (h : WellFormed value) :
    eventInfo (eventValue value) = JsonText.loads value := by
  obtain ⟨fields, hf⟩ := h
  have hne : value ≠ "" := by
    intro he
    have hempty : JsonText.loads "" = none := by decide +kernel
    rw [he, hempty] at hf
    cases hf
  rw [eventValue, if_neg hne]
  rfl

/-- The contents after a `PUT` are what its event makes of the contents before. -/
theorem contents_put (kv : OrderedMap String String) {key value : String}
    (hkey : startsWith key TOPOLOGY_PREFIX = true) (hval : WellFormed value) :
    contents (kv.put key value) =
      (applyEvent (contents kv) (.put key (eventValue value))).1 := by
  obtain ⟨fields, hf⟩ := hval
  ext1 name
  simp only [applyEvent, if_pos hkey, eventInfo_eventValue ⟨fields, hf⟩, hf]
  rw [get_contents, entryOf_put_prefix kv hkey, OrderedMap.get_put, get_contents, hf]

/-- The contents after a `DELETE` are what its event makes of the contents before. -/
theorem contents_erase (kv : OrderedMap String String) {key : String}
    (hkey : startsWith key TOPOLOGY_PREFIX = true) :
    contents (kv.erase key) = (applyEvent (contents kv) (.delete key)).1 := by
  ext1 name
  simp only [applyEvent, if_pos hkey]
  rw [get_contents, entryOf_erase_prefix kv hkey, OrderedMap.get_erase, get_contents]

/-! ## What a step can do -/

inductive Steps (w : World) : Act → World → Prop
  | put (key value : String) : Steps w (.put key value)
      { w with
        kv := w.kv.put key value
        phase := observe (.put key (eventValue value)) key w.phase }
  | deleteNone {key} : w.kv.get key = none → Steps w (.delete key) w
  | delete {key} : w.kv.get key ≠ none → Steps w (.delete key)
      { w with kv := w.kv.erase key, phase := observe (.delete key) key w.phase }
  | seedAgain {a} : w.phase = .seeding → Steps w (.seedAttempt a) { w with tries := w.tries + 1 }
  | seeded {a} : w.phase = .seeding → Steps w (.seedAttempt a)
      { w with
        peers := seed w.peers (withPrefix TOPOLOGY_PREFIX w.kv)
        phase := .connecting }
  | seedFailed {a e} : w.phase = .seeding → Steps w (.seedAttempt a) { w with phase := .died e }
  | openStream : w.phase = .connecting → Steps w .openStream { w with phase := .streaming [] }
  | breakStream {pending} : w.phase = .streaming pending →
      Steps w .breakStream { w with phase := .connecting }
  | finish {ev pending} : w.phase = .streaming (ev :: pending) →
      Steps w .deliver { w with phase := .ended }
  | apply {ev pending kind} : w.phase = .streaming (ev :: pending) →
      (applyEvent w.peers ev).2 = .ok kind → w.stopping = false →
      Steps w .deliver { w with peers := (applyEvent w.peers ev).1, phase := .streaming pending }
  | die {ev pending e} : w.phase = .streaming (ev :: pending) →
      (applyEvent w.peers ev).2 = .error e →
      Steps w .deliver { w with peers := (applyEvent w.peers ev).1, phase := .died e }
  | stop : Steps w .stop { w with stopping := true }

theorem steps_of_step {w v : World} {act : Act} (h : step w act = some v) : Steps w act v := by
  cases act with
  | put key value =>
      cases h
      exact .put key value
  | delete key =>
      simp only [step] at h
      split_ifs at h with hkey
      · cases h
        exact .deleteNone hkey
      · cases h
        exact .delete hkey
  | seedAttempt a =>
      simp only [step] at h
      split_ifs at h with hphase
      split at h
      · cases h
        exact .seedAgain hphase
      · next existing hok =>
          cases h
          have hserved := (attemptOn_ok (Prod.ext rfl hok)).2
          have hexisting := (Prod.ext_iff.mp hserved).2
          rw [← Except.ok.inj hexisting]
          exact .seeded hphase
      · cases h
        exact .seedFailed hphase
  | openStream =>
      simp only [step] at h
      split_ifs at h with hphase
      cases h
      exact .openStream hphase
  | breakStream =>
      simp only [step] at h
      split at h
      · next pending hphase =>
          cases h
          exact .breakStream hphase
      · cases h
  | deliver =>
      simp only [step] at h
      split at h
      · next ev pending hphase =>
          split_ifs at h with hstop
          · cases h
            exact .finish hphase
          · split at h
            · next kind hkind =>
                cases h
                exact .apply hphase hkind (by simpa using hstop)
            · next e he =>
                cases h
                exact .die hphase he
      · cases h
  | stop =>
      cases h
      exact .stop

/-! ## The mirror behind the store -/

/-- The mirror once the events a stream still holds are applied. -/
def applyAll (peers : Mirror) (pending : List Event) : Mirror :=
  pending.foldl (fun m ev => (applyEvent m ev).1) peers

theorem applyAll_append (peers : Mirror) (pending : List Event) (ev : Event) :
    applyAll peers (pending ++ [ev]) = (applyEvent (applyAll peers pending) ev).1 := by
  simp only [applyAll, List.foldl_append, List.foldl_cons, List.foldl_nil]

/-- The mirror is behind the store by the undelivered events, and by nothing
once the watch is not open. -/
def Behind (peers : Mirror) (kv : OrderedMap String String) : Phase → Prop
  | .seeding => peers = .empty
  | .connecting => peers = contents kv
  | .streaming pending => applyAll peers pending = contents kv
  | .ended | .died _ => True

/-- A write under the prefix puts objects only. -/
def PutsObjects : Act → Prop
  | .put key value => startsWith key TOPOLOGY_PREFIX = true → WellFormed value
  | _ => True

/-- Whether a write changes the decoded contents of the prefix. -/
def changesContents (kv : OrderedMap String String) : Act → Bool
  | .put key value =>
      startsWith key TOPOLOGY_PREFIX && decide (JsonText.loads value ≠ (kv.get key).bind JsonText.loads)
  | .delete key =>
      startsWith key TOPOLOGY_PREFIX && decide ((kv.get key).bind JsonText.loads ≠ none)
  | _ => false

/-- No change of the contents is committed between the seed read and the first
stream or between two streams, and a stream breaks only when it is drained. -/
def noGap (w : World) (act : Act) : Bool :=
  match act with
  | .breakStream => w.phase = .streaming []
  | act => !(w.phase = .connecting && changesContents w.kv act)

theorem contents_put_same {kv : OrderedMap String String} {key value : String}
    (hkey : startsWith key TOPOLOGY_PREFIX = true)
    (h : JsonText.loads value = (kv.get key).bind JsonText.loads) :
    contents (kv.put key value) = contents kv := by
  ext1 name
  rw [get_contents, get_contents, entryOf_put_prefix kv hkey]
  split_ifs with hname
  · rw [h, entryOf, ← hname, append_removePrefix hkey]
  · rfl

theorem contents_erase_same {kv : OrderedMap String String} {key : String}
    (hkey : startsWith key TOPOLOGY_PREFIX = true)
    (h : (kv.get key).bind JsonText.loads = none) : contents (kv.erase key) = contents kv := by
  ext1 name
  rw [get_contents, get_contents, entryOf_erase_prefix kv hkey]
  split_ifs with hname
  · rw [entryOf, ← hname, append_removePrefix hkey, h]
  · rfl

/-- A write that does not change the contents. -/
theorem contents_unchanged_put {kv : OrderedMap String String} {key value : String}
    (h : changesContents kv (.put key value) = false) :
    contents (kv.put key value) = contents kv := by
  cases hkey : startsWith key TOPOLOGY_PREFIX with
  | false => exact contents_put_other kv value hkey
  | true =>
      apply contents_put_same hkey
      simpa [changesContents, hkey] using h

theorem contents_unchanged_erase {kv : OrderedMap String String} {key : String}
    (h : changesContents kv (.delete key) = false) : contents (kv.erase key) = contents kv := by
  cases hkey : startsWith key TOPOLOGY_PREFIX with
  | false => exact contents_erase_other kv hkey
  | true =>
      apply contents_erase_same hkey
      simpa [changesContents, hkey] using h

/-- What a committed event does to a mirror that is behind the store. -/
theorem behind_observe {peers : Mirror} {kv kv' : OrderedMap String String} {ev : Event}
    {key : String} {phase : Phase} (h : Behind peers kv phase)
    (hopen : startsWith key TOPOLOGY_PREFIX = true →
      contents kv' = (applyEvent (contents kv) ev).1)
    (hother : startsWith key TOPOLOGY_PREFIX = false → contents kv' = contents kv)
    (hgap : phase = .connecting → contents kv' = contents kv) :
    Behind peers kv' (observe ev key phase) := by
  cases phase with
  | seeding => exact h
  | connecting => exact h.trans (hgap rfl).symm
  | streaming pending =>
      simp only [observe]
      split_ifs with hkey
      · change applyAll peers (pending ++ [ev]) = contents kv'
        rw [applyAll_append, show applyAll peers pending = contents kv from h, hopen hkey]
      · exact Eq.trans h (hother (by simpa using hkey)).symm
  | ended => trivial
  | died e => trivial

/-- A step without a gap keeps the mirror behind the store by the undelivered
events only. -/
theorem behind_step {w v : World} {act : Act} (h : Behind w.peers w.kv w.phase)
    (hobj : PutsObjects act) (hgap : noGap w act = true) (hs : step w act = some v) :
    Behind v.peers v.kv v.phase := by
  cases steps_of_step hs with
  | put key value =>
      refine behind_observe h (fun hkey => contents_put w.kv hkey (hobj hkey))
        (contents_put_other w.kv value) ?_
      intro hphase
      apply contents_unchanged_put
      simpa [noGap, hphase] using hgap
  | deleteNone hkey => exact h
  | @delete key hkey =>
      refine behind_observe h (contents_erase w.kv) (contents_erase_other w.kv) ?_
      intro hphase
      apply contents_unchanged_erase
      simpa [noGap, hphase] using hgap
  | seedAgain hphase => exact h
  | seeded hphase =>
      rw [hphase] at h
      change seed w.peers _ = contents w.kv
      rw [show w.peers = OrderedMap.empty from h]
      rfl
  | seedFailed hphase => trivial
  | openStream hphase =>
      rw [hphase] at h
      exact h
  | breakStream hphase =>
      have hdrained : w.phase = .streaming [] := by simpa [noGap] using hgap
      rw [hdrained] at h
      exact h
  | finish hphase => trivial
  | apply hphase hkind hstop =>
      rw [hphase] at h
      exact h
  | die hphase he => trivial
  | stop => exact h

/-- A run that puts objects under the prefix and leaves no gap: whenever a
stream is open and drained, the mirror is the decoded contents of the prefix. -/
theorem mirror_current {kv : OrderedMap String String} {as : List Act} {w : World}
    (hobj : ∀ act ∈ as, PutsObjects act)
    (hgap : Keeps step (fun w act => noGap w act = true) (start kv) as)
    (hr : run step (start kv) as = some w) (hopen : w.phase = .streaming []) :
    w.peers = authoritativePeers (withPrefix TOPOLOGY_PREFIX w.kv) := by
  have hkeeps : Keeps step (fun w act => noGap w act = true ∧ PutsObjects act) (start kv) as :=
    keeps_and_forall hgap hobj
  have hstart : Behind (start kv).peers (start kv).kv (start kv).phase := rfl
  have hbehind : Behind w.peers w.kv w.phase :=
    run_guarded (I := fun w => Behind w.peers w.kv w.phase)
      (fun s a t hs hg ht => behind_step hs hg.2 hg.1 ht) hstart hkeeps hr
  rw [hopen] at hbehind
  exact hbehind

/-- The entry of a peer. -/
def peerEntry : String := "\x7b\"name\": \"node-2\", \"ip\": \"10.0.0.2\"\x7d"

theorem wellFormed_peerEntry : WellFormed peerEntry :=
  ⟨[("name", .str "node-2"), ("ip", .str "10.0.0.2")], by decide +kernel⟩

/-- The peer is written once the stream is open. -/
def watchedRun : List Act :=
  [.seedAttempt .answered, .openStream, .put (TOPOLOGY_PREFIX ++ "node-2") peerEntry, .deliver]

theorem mirror_current_watched : ∃ w, run step (start .empty) watchedRun = some w ∧
    w.phase = .streaming [] ∧ w.peers = authoritativePeers (withPrefix TOPOLOGY_PREFIX w.kv) := by
  have hgap : Keeps step (fun w act => noGap w act = true) (start .empty) watchedRun := by
    decide +kernel
  have hobj : ∀ act ∈ watchedRun, PutsObjects act := by
    simp only [watchedRun, List.forall_mem_cons]
    exact ⟨trivial, trivial, fun _ => wellFormed_peerEntry, trivial, by simp⟩
  have hrun : (run step (start .empty) watchedRun).any (fun w => w.phase = .streaming []) = true := by
    decide +kernel
  obtain ⟨w, hw, hphase⟩ := (Option.any_eq_true _ _).mp hrun
  have hopen := of_decide_eq_true hphase
  exact ⟨w, hw, hopen, mirror_current hobj hgap hw hopen⟩

/-- The peer is written between the seed read and the first stream. -/
def gapRun : List Act :=
  [.seedAttempt .answered, .put (TOPOLOGY_PREFIX ++ "node-2") peerEntry, .openStream]

/-- The mirror of an open and drained watch misses a peer of the store. -/
theorem gap_loses_peer : ∃ w, (∀ act ∈ gapRun, PutsObjects act) ∧
    run step (start .empty) gapRun = some w ∧ w.phase = .streaming [] ∧
    w.peers ≠ authoritativePeers (withPrefix TOPOLOGY_PREFIX w.kv) := by
  have hrun : (run step (start .empty) gapRun).any (fun w => decide (w.phase = .streaming [] ∧
      w.peers ≠ authoritativePeers (withPrefix TOPOLOGY_PREFIX w.kv))) = true := by
    decide +kernel
  obtain ⟨w, hw, htest⟩ := (Option.any_eq_true _ _).mp hrun
  refine ⟨w, ?_, hw, of_decide_eq_true htest⟩
  simp only [gapRun, List.forall_mem_cons]
  exact ⟨trivial, fun _ => wellFormed_peerEntry, trivial, by simp⟩

end MilvusOnprem.TopologyWatcher
