import MilvusOnprem.EnvSync

/-!
# The two peer lists as parallel arrays

`role_detect` reads `PEER_NAMES` and `PEER_IPS` of `cluster.env` as parallel
arrays. A sync replaces `PEER_IPS` first and `PEER_NAMES` in a second step, and
between the two the arrays are those of two topologies.
-/
namespace MilvusOnprem.ParallelLists

open PythonText EtcdClient MilvusOnprem.Topology Joining EnvFile MinioRender GuardedRuns EnvSync
open TopologyWatcher hiding World Act step start Steps steps_of_step

/-- The arrays are parallel: the same number of entries, and the name and the ip
at one position belong to one of the peers. -/
def Paired (peers : List (String × String)) (file : Lines) : Prop :=
  ∃ names ips, valueOf PEER_NAMES file = some names ∧ valueOf PEER_IPS file = some ips ∧
    (readArray names).length = (readArray ips).length ∧
      ∀ e ∈ (readArray names).zip (readArray ips), e ∈ peers

/-- The name and the ip of the entry that is put. -/
def puts : Act → List (String × String)
  | .watch (.put key value) =>
      if startsWith key TOPOLOGY_PREFIX then
        (textIp value).toList.map fun ip => (removePrefix TOPOLOGY_PREFIX key, ip)
      else []
  | _ => []

/-- The peers the topology has had: those at the start and those that were put. -/
def registered (kv : OrderedMap String String) (as : List Act) : List (String × String) :=
  ((contents kv).entries.filterMap fun e => (ipOf e.2).map fun ip => (e.1, ip)) ++ as.flatMap puts

/-- `PEER_IPS` is replaced only by itself, or beside the `PEER_NAMES` that go with
the new list. -/
def oneListChanges (w : World) : Act → Bool
  | .write =>
      match w.lock with
      | some (_, .peerIps ordered) =>
          valueOf PEER_IPS w.file = some (newPeerIps ordered) ||
            valueOf PEER_NAMES w.file = some (newPeerNames ordered)
      | _ => true
  | _ => true

/-! ## What the daemon knows -/

variable {peers : List (String × String)}

def Known (peers : List (String × String)) (name : String) (info : Json) : Prop :=
  IsPeer name info ∧ ∀ ip, ipOf info = some ip → (name, ip) ∈ peers

def KnownMirror (peers : List (String × String)) (m : Mirror) : Prop :=
  ∀ name info, m.get name = some info → Known peers name info

def KnownEvent (peers : List (String × String)) : Event → Prop
  | .put key value => startsWith key TOPOLOGY_PREFIX = true →
      ∃ info, eventInfo value = some info ∧ Known peers (removePrefix TOPOLOGY_PREFIX key) info
  | .delete _ => True

def pendingOf : Phase → List Event
  | .streaming pending => pending
  | _ => []

structure KnownWatcher (peers : List (String × String)) (w : TopologyWatcher.World) : Prop where
  store : KnownMirror peers (contents w.kv)
  mirror : KnownMirror peers w.peers
  events : ∀ ev ∈ pendingOf w.phase, KnownEvent peers ev

theorem known_applyEvent {m : Mirror} {ev : Event} (hm : KnownMirror peers m)
    (hev : KnownEvent peers ev) : KnownMirror peers (applyEvent m ev).1 := by
  intro name info hget
  cases ev with
  | delete key =>
      simp only [applyEvent] at hget
      split_ifs at hget with hkey
      · rw [OrderedMap.get_erase] at hget
        split_ifs at hget
        exact hm name info hget
      · exact hm name info hget
  | put key value =>
      simp only [applyEvent] at hget
      split_ifs at hget with hkey
      · obtain ⟨new, hnew, hknown⟩ := hev hkey
        rw [hnew] at hget
        simp only [OrderedMap.get_put] at hget
        split_ifs at hget with hname
        · rwa [← Option.some.inj hget, ← hname]
        · exact hm name info hget
      · exact hm name info hget

theorem known_seed {m : Mirror} {kv : OrderedMap String String} (hm : KnownMirror peers m)
    (hkv : KnownMirror peers (contents kv)) :
    KnownMirror peers (seed m (withPrefix TOPOLOGY_PREFIX kv)) := by
  intro name info hget
  have hfun : ∀ v w, (name, v) ∈ parseTopology (withPrefix TOPOLOGY_PREFIX kv) →
      (name, w) ∈ parseTopology (withPrefix TOPOLOGY_PREFIX kv) → v = w := fun v w hv hw =>
    Option.some.inj ((mem_parseTopology.mp hv).symm.trans (mem_parseTopology.mp hw))
  unfold seed at hget
  rcases (OrderedMap.get_putAll hfun m info).mp hget with hmem | ⟨-, hold⟩
  · exact hkv name info (by rw [get_contents, mem_parseTopology.mp hmem])
  · exact hm name info hold

/-- A write under the prefix puts one of the peers. -/
def PutsKnown (peers : List (String × String)) : TopologyWatcher.Act → Prop
  | .put key value => ∀ name, key = TOPOLOGY_PREFIX ++ name →
      ∃ info, JsonText.loads value = some info ∧ Known peers name info
  | _ => True

theorem wellFormed_of_known {name value : String} {info : Json}
    (hinfo : JsonText.loads value = some info) (h : Known peers name info) : WellFormed value := by
  obtain ⟨ip, hip, hfield⟩ := h.1.2
  obtain ⟨-, fields, hobj⟩ := OrderedPeers.usedIp_of_ipOf hip hfield.1
  exact ⟨fields, hobj ▸ hinfo⟩

theorem known_event {key value : String} (h : PutsKnown peers (.put key value)) :
    KnownEvent peers (.put key (eventValue value)) := by
  intro hkey
  obtain ⟨info, hinfo, hknown⟩ := h _ (append_removePrefix hkey).symm
  exact ⟨info, (eventInfo_eventValue (wellFormed_of_known hinfo hknown)).trans hinfo, hknown⟩

theorem known_observe {key : String} {ev : Event} {phase : Phase}
    (h : ∀ e ∈ pendingOf phase, KnownEvent peers e) (hev : KnownEvent peers ev) :
    ∀ e ∈ pendingOf (observe ev key phase), KnownEvent peers e := by
  cases phase with
  | streaming pending =>
      simp only [observe]
      split_ifs
      · intro e he
        rcases List.mem_append.mp he with he | he
        · exact h e he
        · exact List.mem_singleton.mp he ▸ hev
      · exact h
  | _ => exact h

/-- What the watcher learns are peers of the topology. -/
theorem known_step {u v : TopologyWatcher.World} {a : TopologyWatcher.Act}
    (h : KnownWatcher peers u) (hputs : PutsKnown peers a)
    (hs : TopologyWatcher.step u a = some v) : KnownWatcher peers v := by
  cases TopologyWatcher.steps_of_step hs with
  | put key value =>
      have hev := known_event hputs
      refine ⟨?_, h.mirror, known_observe h.events hev⟩
      cases hkey : startsWith key TOPOLOGY_PREFIX with
      | true =>
          obtain ⟨info, hinfo, hknown⟩ := hputs _ (append_removePrefix hkey).symm
          change KnownMirror peers (contents (u.kv.put key value))
          rw [contents_put u.kv hkey (wellFormed_of_known hinfo hknown)]
          exact known_applyEvent h.store hev
      | false =>
          change KnownMirror peers (contents (u.kv.put key value))
          rw [contents_put_other u.kv value hkey]
          exact h.store
  | deleteNone hkey => exact h
  | @delete key hget =>
      refine ⟨?_, h.mirror, known_observe h.events trivial⟩
      change KnownMirror peers (contents (u.kv.erase key))
      cases hkey : startsWith key TOPOLOGY_PREFIX with
      | true =>
          rw [contents_erase u.kv hkey]
          exact @known_applyEvent _ _ (.delete key) h.store trivial
      | false =>
          rw [contents_erase_other u.kv hkey]
          exact h.store
  | seedAgain hphase => exact ⟨h.store, h.mirror, h.events⟩
  | seeded hphase => exact ⟨h.store, known_seed h.mirror h.store, by simp [pendingOf]⟩
  | seedFailed hphase => exact ⟨h.store, h.mirror, by simp [pendingOf]⟩
  | openStream hphase => exact ⟨h.store, h.mirror, by simp [pendingOf]⟩
  | breakStream hphase => exact ⟨h.store, h.mirror, by simp [pendingOf]⟩
  | finish hphase => exact ⟨h.store, h.mirror, by simp [pendingOf]⟩
  | apply hphase hkind hstop =>
      have hevents := h.events
      rw [hphase] at hevents
      refine ⟨h.store, known_applyEvent h.mirror (hevents _ List.mem_cons_self), ?_⟩
      exact fun e he => hevents e (List.mem_cons_of_mem _ he)
  | die hphase he =>
      have hevents := h.events
      rw [hphase] at hevents
      exact ⟨h.store, known_applyEvent h.mirror (hevents _ List.mem_cons_self), by simp [pendingOf]⟩
  | stop => exact ⟨h.store, h.mirror, h.events⟩

/-! ## What the file lists -/

/-- A list that is written. -/
def Listable (peers ordered : List (String × String)) : Prop :=
  ordered ≠ [] ∧ ∀ e ∈ ordered, (IsField e.1 ∧ IsField e.2) ∧ e ∈ peers

def KnownTodo (peers : List (String × String)) (file : Lines) : Todo → Prop
  | .peerIps ordered => Listable peers ordered
  | .peerNames ordered =>
      Listable peers ordered ∧ valueOf PEER_IPS file = some (newPeerIps ordered)
  | .rest => True

theorem listable_orderedPeers {m : Mirror} (hm : KnownMirror peers m)
    {ordered : List (String × String)} (h : orderedPeers m = .ok ordered) (hne : ordered ≠ []) :
    Listable peers ordered := by
  obtain ⟨ordered', hordered, hmem⟩ := orderedPeers_ok fun name info hget => (hm name info hget).1
  obtain rfl : ordered' = ordered := Except.ok.inj (hordered.symm.trans h)
  refine ⟨hne, fun e he => ?_⟩
  obtain ⟨info, hget, hip⟩ := (hmem e.1 e.2).mp he
  obtain ⟨⟨hname, ip, hip', hfield⟩, hpeers⟩ := hm e.1 info hget
  obtain rfl : ip = e.2 := Option.some.inj (hip'.symm.trans hip)
  exact ⟨⟨hname, hfield⟩, hpeers _ hip⟩

theorem known_syncStart (config : DaemonConfig) {m : Mirror} (hm : KnownMirror peers m)
    (file : Lines) : KnownTodo peers file (syncStart config m) := by
  unfold syncStart
  split
  · next ordered hordered =>
      split_ifs with hnil hown
      · trivial
      · trivial
      · exact listable_orderedPeers hm hordered hnil
  · trivial

/-- The two lists of one topology are parallel. -/
theorem paired_of_lists {ordered : List (String × String)} (h : Listable peers ordered)
    {file : Lines} (hips : valueOf PEER_IPS file = some (newPeerIps ordered))
    (hnames : valueOf PEER_NAMES file = some (newPeerNames ordered)) : Paired peers file := by
  have hreadNames : readArray (newPeerNames ordered) = ordered.map Prod.fst := by
    refine readArray_join (by simpa using h.1) fun s hs => ?_
    obtain ⟨e, he, rfl⟩ := List.mem_map.mp hs
    exact (h.2 e he).1.1
  have hreadIps : readArray (newPeerIps ordered) = ordered.map Prod.snd := by
    refine readArray_join (by simpa using h.1) fun s hs => ?_
    obtain ⟨e, he, rfl⟩ := List.mem_map.mp hs
    exact (h.2 e he).1.2
  refine ⟨_, _, hnames, hips, ?_, fun e he => ?_⟩
  · rw [hreadNames, hreadIps, List.length_map, List.length_map]
  · rw [hreadNames, hreadIps, List.zip_map'] at he
    obtain ⟨e', he', rfl⟩ := List.mem_map.mp he
    exact (h.2 e' he').2

/-- Files with the same lists. -/
theorem Paired.congr {file file' : Lines} (h : Paired peers file)
    (hnames : valueOf PEER_NAMES file' = valueOf PEER_NAMES file)
    (hips : valueOf PEER_IPS file' = valueOf PEER_IPS file) : Paired peers file' := by
  unfold Paired
  rw [hnames, hips]
  exact h

structure Inv (peers : List (String × String)) (w : World) : Prop where
  watcher : KnownWatcher peers w.watcher
  lock : ∀ l ∈ w.lock, KnownTodo peers w.file l.2
  file : Paired peers w.file

theorem names_ne_ips : PEER_NAMES ≠ PEER_IPS := by decide

theorem inv_step {config : DaemonConfig} {w v : World} {act : Act} (h : Inv peers w)
    (hputs : ∀ a, act = .watch a → PutsKnown peers a) (hguard : oneListChanges w act = true)
    (hs : step config w act = some v) : Inv peers v := by
  cases steps_of_step hs with
  | watch hbusy hstep => exact ⟨known_step h.watcher (hputs _ rfl) hstep, h.lock, h.file⟩
  | dispatch hwaiting hlock =>
      refine ⟨h.watcher, fun l hl => ?_, h.file⟩
      obtain rfl := Option.mem_some.mp hl
      exact known_syncStart config h.watcher.mirror w.file
  | request hlock =>
      refine ⟨h.watcher, fun l hl => ?_, h.file⟩
      obtain rfl := Option.mem_some.mp hl
      trivial
  | refresh hlock =>
      refine ⟨h.watcher, fun l hl => ?_, h.file⟩
      obtain rfl := Option.mem_some.mp hl
      exact known_syncStart config h.watcher.store w.file
  | @writeIps holder ordered hlock =>
      have hlist : Listable peers ordered := h.lock _ hlock
      have hips := valueOf_upsertKv_self PEER_IPS (newPeerIps ordered) w.file
      have hnames := valueOf_upsertKv_of_ne names_ne_ips (newPeerIps ordered) w.file
      refine ⟨h.watcher, fun l hl => ?_, ?_⟩
      · obtain rfl := Option.mem_some.mp hl
        exact ⟨hlist, hips⟩
      · simp only [oneListChanges, hlock, Bool.or_eq_true, decide_eq_true_eq] at hguard
        rcases hguard with hsame | hnew
        · exact h.file.congr hnames (hips.trans hsame.symm)
        · exact paired_of_lists hlist hips (hnames.trans hnew)
  | @writeNames holder ordered hlock =>
      obtain ⟨hlist, hips⟩ := h.lock _ hlock
      have hother := valueOf_upsertKv_of_ne names_ne_ips.symm (newPeerNames ordered) w.file
      refine ⟨h.watcher, fun l hl => ?_, ?_⟩
      · obtain rfl := Option.mem_some.mp hl
        trivial
      · exact paired_of_lists hlist (hother.trans hips) (valueOf_upsertKv_self _ _ _)
  | release hlock => exact ⟨h.watcher, fun l hl => (by cases hl), h.file⟩
  | @upsert key value hips hnames =>
      have hsame := valueOf_upsertKv_of_ne (Ne.symm hips) value w.file
      refine ⟨h.watcher, fun l hl => ?_, ?_⟩
      · have hold := h.lock l hl
        obtain ⟨holder, todo⟩ := l
        cases todo with
        | peerIps ordered => exact hold
        | peerNames ordered => exact ⟨hold.1, hsame.trans hold.2⟩
        | rest => trivial
      · exact h.file.congr (valueOf_upsertKv_of_ne (Ne.symm hnames) value w.file) hsame
  | restart =>
      refine ⟨⟨h.watcher.store, fun name info hget => ?_, ?_⟩, fun l hl => (by cases hl), h.file⟩
      · cases hget
      · exact fun ev hev => by cases hev

theorem puts_known (kv : OrderedMap String String) {as : List Act} {act : Act} (hact : act ∈ as)
    (h : PutsPeers act) : ∀ a, act = .watch a → PutsKnown (registered kv as) a := by
  rintro a rfl
  cases a with
  | put key value =>
      intro name hkey
      obtain ⟨info, hinfo, hpeer⟩ := h name hkey
      refine ⟨info, hinfo, hpeer, fun ip hip => ?_⟩
      refine List.mem_append_right _ (List.mem_flatMap.mpr ⟨_, hact, ?_⟩)
      subst hkey
      simp [puts, startsWith_append, textIp, hinfo, hip, removePrefix_append]
  | _ => trivial

theorem known_start {kv : OrderedMap String String} (hkv : OfPeers (contents kv)) (as : List Act) :
    KnownWatcher (registered kv as) (TopologyWatcher.start kv) where
  store := by
    intro name info hget
    refine ⟨hkv name info hget, fun ip hip => List.mem_append_left _ ?_⟩
    refine List.mem_filterMap.mpr ⟨(name, info), OrderedMap.mem_entries.mpr hget, ?_⟩
    exact Option.map_eq_some_iff.mpr ⟨ip, hip, rfl⟩
  mirror := fun name info hget => by cases hget
  events := fun ev hev => by cases hev

/-- When every sync replaces `PEER_IPS` by itself or beside the names that go with
it, the arrays are parallel in every state, also between two writes and after a
restart. -/
theorem lists_paired {config : DaemonConfig} {file : Lines} {kv : OrderedMap String String}
    {as : List Act} {w : World} (hkv : OfPeers (contents kv)) (hfile : Paired (registered kv []) file)
    (hputs : ∀ act ∈ as, PutsPeers act)
    (hguard : Keeps (step config) (fun w act => oneListChanges w act = true) (start file kv) as)
    (hr : run (step config) (start file kv) as = some w) : Paired (registered kv as) w.file := by
  have hsub : ∀ e ∈ registered kv [], e ∈ registered kv as := by
    intro e he
    rw [registered, List.flatMap_nil, List.append_nil] at he
    exact List.mem_append_left _ he
  have hstart : Inv (registered kv as) (start file kv) := by
    refine ⟨known_start hkv as, fun l hl => ?_, ?_⟩
    · cases hl
    · obtain ⟨names, ips, hnames, hips, hlen, hpairs⟩ := hfile
      exact ⟨names, ips, hnames, hips, hlen, fun e he => hsub e (hpairs e he)⟩
  have hkeeps := keeps_and_forall hguard fun act hact => puts_known kv hact (hputs act hact)
  exact (run_guarded (fun s a t hinv hg ht => inv_step hinv hg.2 hg.1 ht) hstart hkeeps hr).file

/-! ## Two peers and a third -/

/-- The daemon of the second peer. -/
def secondPeer : DaemonConfig := ⟨"node-2", "10.0.0.2", "t", 2380, 19500⟩

def twoPeers : OrderedMap String String :=
  (OrderedMap.empty.put (TOPOLOGY_PREFIX ++ "node-1") (peerText "node-1" "10.0.0.1")).put
    (TOPOLOGY_PREFIX ++ "node-2") (peerText "node-2" "10.0.0.2")

def twoPeersEnv : Lines := ["PEER_IPS=10.0.0.1,10.0.0.2", "PEER_NAMES=node-1,node-2"]

theorem ofPeers_twoPeers : OfPeers (contents twoPeers) := ofPeers_of_all (by decide +kernel)

/-- The array check of `role_detect`. -/
theorem paired_twoPeers : Paired (registered twoPeers []) twoPeersEnv :=
  ⟨"node-1,node-2", "10.0.0.1,10.0.0.2", by decide +kernel, by decide +kernel, by decide +kernel,
    by decide +kernel⟩

/-- One put, up to the first of the two writes. -/
def putAndWrite (name ip : String) : List Act :=
  [.watch (.seedAttempt .answered), .watch .openStream,
    .watch (.put (TOPOLOGY_PREFIX ++ name) (peerText name ip)), .watch .deliver, .dispatch, .write]

theorem putsPeers_putAndWrite {name ip : String} (fields : List (String × Json))
    (hname : IsField name) (hip : IsField ip)
    (hloads : JsonText.loads (peerText name ip) = some (.obj fields))
    (hfields : Json.field "ip" fields = some (.str ip)) :
    ∀ act ∈ putAndWrite name ip, PutsPeers act := by
  simp only [putAndWrite, List.forall_mem_cons]
  refine ⟨trivial, trivial, ?_, trivial, trivial, trivial, by simp⟩
  intro name' hname'
  obtain rfl := append_left_injective hname'
  exact ⟨_, hloads, hname, ip, by simp only [ipOf, hfields], hip⟩

/-- The first peer gets another ip. -/
theorem lists_paired_moved : ∃ w,
    run (step secondPeer) (start twoPeersEnv twoPeers) (putAndWrite "node-1" "10.0.0.7") = some w ∧
      Paired (registered twoPeers (putAndWrite "node-1" "10.0.0.7")) w.file := by
  have hputs : ∀ act ∈ putAndWrite "node-1" "10.0.0.7", PutsPeers act :=
    putsPeers_putAndWrite [("name", .str "node-1"), ("ip", .str "10.0.0.7")]
      (by decide) (by decide) (by decide +kernel) (by decide)
  have hguard : Keeps (step secondPeer) (fun w act => oneListChanges w act = true)
      (start twoPeersEnv twoPeers) (putAndWrite "node-1" "10.0.0.7") := by
    decide +kernel
  have hrun : (run (step secondPeer) (start twoPeersEnv twoPeers)
      (putAndWrite "node-1" "10.0.0.7")).isSome = true := by
    decide +kernel
  obtain ⟨w, hw⟩ := Option.isSome_iff_exists.mp hrun
  exact ⟨w, hw, lists_paired ofPeers_twoPeers paired_twoPeers hputs hguard hw⟩

/-- A third peer is added: between the two writes there are more ips than names. -/
theorem lists_unpaired : ∃ (config : DaemonConfig) (file : Lines) (kv : OrderedMap String String)
    (as : List Act) (w : World), OfPeers (contents kv) ∧ Paired (registered kv []) file ∧
      (∀ act ∈ as, PutsPeers act) ∧ run (step config) (start file kv) as = some w ∧
      ¬ Paired (registered kv as) w.file := by
  have hputs : ∀ act ∈ putAndWrite "node-3" "10.0.0.3", PutsPeers act :=
    putsPeers_putAndWrite [("name", .str "node-3"), ("ip", .str "10.0.0.3")]
      (by decide) (by decide) (by decide +kernel) (by decide)
  have hrun : (run (step secondPeer) (start twoPeersEnv twoPeers)
      (putAndWrite "node-3" "10.0.0.3")).any (fun w => decide (w.file =
        ["PEER_IPS=10.0.0.1,10.0.0.2,10.0.0.3", "PEER_NAMES=node-1,node-2"])) = true := by
    decide +kernel
  obtain ⟨w, hw, htest⟩ := (Option.any_eq_true _ _).mp hrun
  refine ⟨secondPeer, twoPeersEnv, twoPeers, _, w, ofPeers_twoPeers, paired_twoPeers, hputs, hw, ?_⟩
  rw [of_decide_eq_true htest]
  rintro ⟨names, ips, hnames, hips, hlen, -⟩
  have hnames' : valueOf PEER_NAMES ["PEER_IPS=10.0.0.1,10.0.0.2,10.0.0.3",
      "PEER_NAMES=node-1,node-2"] = some "node-1,node-2" := by decide +kernel
  have hips' : valueOf PEER_IPS ["PEER_IPS=10.0.0.1,10.0.0.2,10.0.0.3",
      "PEER_NAMES=node-1,node-2"] = some "10.0.0.1,10.0.0.2,10.0.0.3" := by decide +kernel
  rw [← Option.some.inj (hnames'.symm.trans hnames), ← Option.some.inj (hips'.symm.trans hips)] at hlen
  exact absurd hlen (by decide +kernel)

end MilvusOnprem.ParallelLists
