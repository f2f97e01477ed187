import MilvusOnprem.EnvEdits
import MilvusOnprem.ParallelLists

/-!
# When the peer lists catch up with the topology

A change of the topology reaches `cluster.env` through the event of the watch. The
seed read fills the mirror and notifies nobody, so a change that was committed
before the stream was opened is never written by itself.

The file is a text here, and its last line may lack the newline. The names, the ips
and the other values that are written hold no line break.
-/
namespace MilvusOnprem.EnvConvergence

open PythonText EtcdClient MilvusOnprem.Topology Joining OrderedPeers GuardedRuns EnvSync ParallelLists EnvEdits
open EnvFile (Key PEER_IPS PEER_NAMES)
open EnvText (upsertKv)
open TopologyWatcher hiding World Act step start Steps steps_of_step

/-- A daemon and the text of its `cluster.env`; the lines that the daemon carries
are not used. -/
structure Host where
  daemon : World
  text : String

/-- What a step writes with `_upsert_kv`. -/
def edit (w : World) : Act → Option (Key × String)
  | .write =>
      match w.lock with
      | some (_, .peerIps ordered) => some (PEER_IPS, newPeerIps ordered)
      | some (_, .peerNames ordered) => some (PEER_NAMES, newPeerNames ordered)
      | _ => none
  | .upsert key value => some (key, value)
  | _ => none

/-- The text after a step. -/
def Host.edited (h : Host) (act : Act) : String :=
  match edit h.daemon act with
  | some (key, value) => upsertKv key.text value h.text
  | none => h.text

def hostStep (config : DaemonConfig) (h : Host) (act : Act) : Option Host :=
  (step config h.daemon act).map fun v => ⟨v, h.edited act⟩

def hostStart (text : String) (kv : OrderedMap String String) : Host := ⟨start [] kv, text⟩

/-- A stream is open, every event is delivered and handled, and nothing is under way. -/
def Quiescent (w : World) : Prop :=
  w.watcher.phase = .streaming [] ∧ w.waiting = false ∧ w.lock = none

/-- The two lists are those of the peers in the store, in the order of the nodes. -/
def Listed (kv : OrderedMap String String) (text : String) : Prop :=
  ∃ ordered : List (String × String), ordered.Pairwise Before ∧
    (∀ name ip, (name, ip) ∈ ordered ↔ peerIp kv name = some ip) ∧
      valueIn PEER_IPS text = some (newPeerIps ordered) ∧
        valueIn PEER_NAMES text = some (newPeerNames ordered)

/-- The lists that a sync would write are in the file. -/
def lists (kv : OrderedMap String String) (text : String) : Bool :=
  match orderedPeers (contents kv) with
  | .ok ordered =>
      valueIn PEER_IPS text = some (newPeerIps ordered) &&
        valueIn PEER_NAMES text = some (newPeerNames ordered)
  | .error _ => false

/-- The lists that are being written are those of the store, or the file has them
when the own entry is in the store. -/
def settled (config : DaemonConfig) (kv : OrderedMap String String) (text : String) :
    Option (Holder × Todo) → Bool
  | some (_, .peerIps ordered) => orderedPeers (contents kv) = .ok ordered
  | some (_, .peerNames ordered) =>
      orderedPeers (contents kv) = .ok ordered && valueIn PEER_IPS text = some (newPeerIps ordered)
  | _ => peerIp kv config.nodeName ≠ some config.localIp || lists kv text

/-- When a stream is opened, the mirror is the store, and no event is needed for
the file; and an edit that finds no line of its key finds the last line ended. -/
def nothingMissed (config : DaemonConfig) (h : Host) (act : Act) : Bool :=
  (match act with
    | .watch .openStream =>
        h.daemon.watcher.peers = contents h.daemon.watcher.kv &&
          (h.daemon.waiting || settled config h.daemon.watcher.kv h.text h.daemon.lock)
    | _ => true) &&
    (edit h.daemon act).all fun e => fits e.1 h.text

/-- A value that the other writers put holds no line break. -/
def plain : Act → Bool
  | .upsert key value => OneLine key.text ∧ OneLine value
  | _ => true

/-! ## What a sync writes -/

theorem syncStart_own {config : DaemonConfig} {kv : OrderedMap String String}
    (hkv : OfPeers (contents kv)) (hown : peerIp kv config.nodeName = some config.localIp) :
    ∃ ordered, orderedPeers (contents kv) = .ok ordered ∧
      syncStart config (contents kv) = .peerIps ordered := by
  obtain ⟨ordered, hordered, hmem⟩ := orderedPeers_ok hkv
  obtain ⟨info, hinfo, hip⟩ := Option.bind_eq_some_iff.mp hown
  have hself : (config.nodeName, config.localIp) ∈ ordered :=
    (hmem _ _).mpr ⟨info, (get_contents kv _).trans hinfo, hip⟩
  have hne : ordered ≠ [] := List.ne_nil_of_mem hself
  have hlisted : config.localIp ∈ ordered.map Prod.snd := List.mem_map.mpr ⟨_, hself, rfl⟩
  refine ⟨ordered, hordered, ?_⟩
  simp only [syncStart, hordered, if_neg hne, hlisted, not_true_eq_false, and_false, if_false]

theorem settled_syncStart {config : DaemonConfig} {kv : OrderedMap String String}
    (hkv : OfPeers (contents kv)) (text : String) (h : Holder) :
    settled config kv text (some (h, syncStart config (contents kv))) = true := by
  by_cases hown : peerIp kv config.nodeName = some config.localIp
  · obtain ⟨ordered, hordered, hstart⟩ := syncStart_own hkv hown
    rw [hstart]
    exact decide_eq_true hordered
  · unfold syncStart
    cases hordered : orderedPeers (contents kv) with
    | error e => simp [settled, hown]
    | ok ordered =>
        dsimp only
        split_ifs
        · simp [settled, hown]
        · simp [settled, hown]
        · exact decide_eq_true hordered

theorem listed_of_lists {kv : OrderedMap String String} (hkv : OfPeers (contents kv)) {text : String}
    (h : lists kv text = true) : Listed kv text := by
  obtain ⟨ordered, hordered, hmem⟩ := orderedPeers_ok hkv
  simp only [lists, hordered, Bool.and_eq_true, decide_eq_true_eq] at h
  refine ⟨ordered, ?_, fun name ip => ?_, h.1, h.2⟩
  · have hsorted : sortedPeers (contents kv).entries = .ok ordered := by
      unfold orderedPeers at hordered
      split at hordered
      · next hok =>
          split_ifs at hordered
          exact hok.trans hordered
      · cases hordered
    exact sortedPeers_pairwise ((contents kv).sorted.imp fun hlt => hlt.ne) hsorted
  · rw [hmem, peerIp, Option.bind_eq_some_iff]
    simp only [get_contents]

theorem settled_congr {config : DaemonConfig} {kv kv' : OrderedMap String String}
    (h : contents kv' = contents kv) (text : String) (lock : Option (Holder × Todo)) :
    settled config kv' text lock = settled config kv text lock := by
  have hip : ∀ name, peerIp kv' name = peerIp kv name := by
    intro name
    rw [peerIp, peerIp, ← get_contents, ← get_contents, h]
  have hlists : lists kv' text = lists kv text := by rw [lists, lists, h]
  unfold settled
  split
  · rw [h]
  · rw [h]
  · rw [hip, hlists]

theorem OneLine.join {sep : String} (hsep : OneLine sep) {parts : List String}
    (h : ∀ part ∈ parts, OneLine part) : OneLine (PythonText.join sep parts) := by
  induction parts with
  | nil => exact ⟨by simp [PythonText.join], by simp [PythonText.join]⟩
  | cons part parts ih =>
      have hpart := h part List.mem_cons_self
      have hrest := ih fun p hp => h p (List.mem_cons_of_mem part hp)
      cases parts with
      | nil => exact hpart
      | cons next parts =>
          rw [join_cons_cons]
          exact (hpart.append hsep).append hrest

/-- The lists that are written hold no line break. -/
theorem oneLine_lists {peers ordered : List (String × String)}
    (hpeers : ∀ p ∈ peers, OneLine p.1 ∧ OneLine p.2) (h : Listable peers ordered) :
    OneLine (newPeerIps ordered) ∧ OneLine (newPeerNames ordered) := by
  constructor
  · refine OneLine.join (by decide) fun ip hip => ?_
    obtain ⟨p, hp, rfl⟩ := List.mem_map.mp hip
    exact (hpeers p (h.2 p hp).2).2
  · refine OneLine.join (by decide) fun name hname => ?_
    obtain ⟨p, hp, rfl⟩ := List.mem_map.mp hname
    exact (hpeers p (h.2 p hp).2).1

/-! ## The file behind the store -/

/-- An event that is handled when it is delivered. -/
def Notifying (ev : Event) : Prop := ∀ m : Mirror, ∃ kind, (applyEvent m ev).2 = .ok (some kind)

/-- Once a stream is open: the mirror is behind the store by the undelivered
events, and when there are none and no handler waits, the file is settled. -/
def Caught (config : DaemonConfig) (h : Host) : Phase → Prop
  | .streaming pending =>
      applyAll h.daemon.watcher.peers pending = contents h.daemon.watcher.kv ∧
        (∀ ev ∈ pending, Notifying ev) ∧ (pending = [] → h.daemon.waiting = false →
          settled config h.daemon.watcher.kv h.text h.daemon.lock = true)
  | _ => True

theorem notifying_delete {key : String} (h : startsWith key TOPOLOGY_PREFIX = true) :
    Notifying (.delete key) := fun m => ⟨.removed, by simp only [applyEvent, if_pos h]⟩

theorem notifying_put {peers : List (String × String)} {key value : String}
    (hkey : startsWith key TOPOLOGY_PREFIX = true) (h : PutsKnown peers (.put key value)) :
    Notifying (.put key (eventValue value)) := by
  intro m
  obtain ⟨info, hinfo, hknown⟩ := h _ (append_removePrefix hkey).symm
  obtain ⟨ip, hip, -⟩ := hknown.1.2
  refine ⟨putKind (m.get (removePrefix TOPOLOGY_PREFIX key)), ?_⟩
  have hevent := (eventInfo_eventValue (wellFormed_of_known hinfo hknown)).trans hinfo
  simp only [applyEvent, if_pos hkey, hevent, infoGet_ip_of_ipOf hip, Except.map]

/-- What a write to the store does once a stream is open. -/
theorem caught_observe {config : DaemonConfig} {w : World} {text : String}
    {kv : OrderedMap String String} (ev : Event) (key : String)
    (h : Caught config ⟨w, text⟩ w.watcher.phase)
    (hopen : startsWith key TOPOLOGY_PREFIX = true →
      contents kv = (applyEvent (contents w.watcher.kv) ev).1 ∧ Notifying ev)
    (hother : startsWith key TOPOLOGY_PREFIX = false → contents kv = contents w.watcher.kv)
    {v : World} (hv : v = { w with
      watcher := { w.watcher with kv := kv, phase := observe ev key w.watcher.phase } }) :
    Caught config ⟨v, text⟩ v.watcher.phase := by
  subst hv
  dsimp only
  cases hphase : w.watcher.phase with
  | streaming pending =>
      rw [hphase] at h
      obtain ⟨hbehind, hevents, hsettled⟩ := h
      simp only [observe]
      split_ifs with hkey
      · obtain ⟨hcontents, hev⟩ := hopen hkey
        refine ⟨?_, fun e he => ?_, fun hnil => ?_⟩
        · dsimp only at hbehind ⊢
          rw [applyAll_append, hbehind, hcontents]
        · rcases List.mem_append.mp he with he | he
          · exact hevents e he
          · exact List.mem_singleton.mp he ▸ hev
        · simp at hnil
      · have hsame := hother (by simpa using hkey)
        refine ⟨hbehind.trans hsame.symm, hevents, fun hnil hwaiting => ?_⟩
        exact (settled_congr hsame text w.lock).trans (hsettled hnil hwaiting)
  | _ => trivial

/-- What a step under the lock does once a stream is open: it only has to leave
the file settled. -/
theorem Caught.settle {config : DaemonConfig} {w v : World} {text text' : String}
    (h : Caught config ⟨w, text⟩ w.watcher.phase) (hwatcher : v.watcher = w.watcher)
    (hsettled : w.watcher.phase = .streaming [] → w.watcher.peers = contents w.watcher.kv →
      (w.waiting = false → settled config w.watcher.kv text w.lock = true) →
        v.waiting = false → settled config w.watcher.kv text' v.lock = true) :
    Caught config ⟨v, text'⟩ v.watcher.phase := by
  rw [hwatcher]
  cases hphase : w.watcher.phase with
  | streaming pending =>
      rw [hphase] at h
      obtain ⟨hbehind, hevents, hold⟩ := h
      dsimp only at hbehind hold
      refine ⟨by dsimp only; rw [hwatcher]; exact hbehind, hevents, fun hnil hwaiting => ?_⟩
      subst hnil
      dsimp only
      rw [hwatcher]
      exact hsettled hphase hbehind (hold rfl) hwaiting
  | _ => trivial

theorem caught_watch {config : DaemonConfig} {peers : List (String × String)} {w : World}
    {text : String} {a : TopologyWatcher.Act} {v : TopologyWatcher.World}
    (h : Caught config ⟨w, text⟩ w.watcher.phase) (hputs : PutsKnown peers a)
    (hguard : nothingMissed config ⟨w, text⟩ (.watch a) = true)
    (hs : TopologyWatcher.step w.watcher a = some v) :
    Caught config ⟨{ w with watcher := v, waiting := w.waiting || notifies w.watcher a }, text⟩
      v.phase := by
  cases TopologyWatcher.steps_of_step hs with
  | put key value =>
      refine caught_observe (.put key (eventValue value)) key h (fun hkey => ?_)
        (contents_put_other w.watcher.kv value) (by simp [notifies])
      obtain ⟨info, hinfo, hknown⟩ := hputs _ (append_removePrefix hkey).symm
      exact ⟨contents_put w.watcher.kv hkey (wellFormed_of_known hinfo hknown),
        notifying_put hkey hputs⟩
  | deleteNone hkey => simpa [notifies] using h
  | @delete key hkey =>
      exact caught_observe (.delete key) key h
        (fun hpre => ⟨contents_erase w.watcher.kv hpre, notifying_delete hpre⟩)
        (contents_erase_other w.watcher.kv) (by simp [notifies])
  | seedAgain hphase => simp [Caught, hphase]
  | seeded hphase => trivial
  | seedFailed hphase => trivial
  | openStream hphase =>
      simp only [nothingMissed, edit, Option.all_none, Bool.and_true, Bool.and_eq_true, Bool.or_eq_true,
        decide_eq_true_eq] at hguard
      refine ⟨hguard.1, by simp, fun _ hwaiting => ?_⟩
      simp only [notifies, Bool.or_false] at hwaiting
      exact hguard.2.resolve_left (by simp [hwaiting])
  | breakStream hphase => trivial
  | finish hphase => trivial
  | @apply ev pending kind hphase hkind hstop =>
      rw [hphase] at h
      obtain ⟨hbehind, hevents, -⟩ := h
      refine ⟨hbehind, fun e he => hevents e (List.mem_cons_of_mem _ he), fun _ hwaiting => ?_⟩
      -- the handler of the event waits
      obtain ⟨kind', hkind'⟩ := hevents ev List.mem_cons_self w.watcher.peers
      simp [notifies, hphase, hstop, hkind'] at hwaiting
  | die hphase he => trivial
  | stop =>
      unfold Caught at h ⊢
      simpa [notifies] using h

/-- The list under way is one of known peers. -/
def KnownLock (peers : List (String × String)) : Option (Holder × Todo) → Prop
  | some (_, .peerIps ordered) | some (_, .peerNames ordered) => Listable peers ordered
  | _ => True

theorem knownLock_syncStart (config : DaemonConfig) {peers : List (String × String)} {m : Mirror}
    (hm : KnownMirror peers m) (h : Holder) : KnownLock peers (some (h, syncStart config m)) := by
  have hknown := known_syncStart config hm []
  cases hstart : syncStart config m with
  | peerIps ordered =>
      rw [hstart] at hknown
      exact hknown
  | peerNames ordered =>
      rw [hstart] at hknown
      exact hknown.1
  | rest => trivial

structure Inv (config : DaemonConfig) (peers : List (String × String)) (h : Host) : Prop where
  watcher : KnownWatcher peers h.daemon.watcher
  lock : KnownLock peers h.daemon.lock
  caught : Caught config h h.daemon.watcher.phase

theorem inv_step {config : DaemonConfig} {peers : List (String × String)}
    (hpeers : ∀ p ∈ peers, OneLine p.1 ∧ OneLine p.2) {h u : Host} {act : Act}
    (hinv : Inv config peers h) (hputs : ∀ a, act = .watch a → PutsKnown peers a)
    (hplain : plain act = true) (hguard : nothingMissed config h act = true)
    (hs : hostStep config h act = some u) : Inv config peers u := by
  obtain ⟨w, text⟩ := h
  obtain ⟨v, hv, rfl⟩ := Option.map_eq_some_iff.mp hs
  change step config w act = some v at hv
  have hkv : OfPeers (contents w.watcher.kv) := fun name info hget =>
    (hinv.watcher.store name info hget).1
  have hfits : ∀ key value, edit w act = some (key, value) → fits key text = true := by
    intro key value hedit
    have hlast := (Bool.and_eq_true_iff.mp hguard).2
    rw [hedit] at hlast
    exact hlast
  cases steps_of_step hv with
  | watch hbusy hstep =>
      exact ⟨known_step hinv.watcher (hputs _ rfl) hstep, hinv.lock,
        caught_watch hinv.caught (hputs _ rfl) hguard hstep⟩
  | dispatch hwaiting hlock =>
      refine ⟨hinv.watcher, knownLock_syncStart config hinv.watcher.mirror _,
        hinv.caught.settle rfl fun _ hmirror _ _ => ?_⟩
      dsimp only
      rw [hmirror]
      exact settled_syncStart hkv text .handler
  | request hlock =>
      refine ⟨hinv.watcher, trivial, hinv.caught.settle rfl fun _ _ hold hwaiting => ?_⟩
      have hsettled := hold hwaiting
      rw [hlock] at hsettled
      exact hsettled
  | refresh hlock =>
      exact ⟨hinv.watcher, knownLock_syncStart config hinv.watcher.store _,
        hinv.caught.settle rfl fun _ _ _ _ => settled_syncStart hkv text _⟩
  | @writeIps holder ordered hlock =>
      have hlist : Listable peers ordered := by
        have hknown := hinv.lock
        rw [hlock] at hknown
        exact hknown
      have hedit : edit w .write = some (PEER_IPS, newPeerIps ordered) := by simp only [edit, hlock]
      have hips : valueIn PEER_IPS (upsertKv PEER_IPS.text (newPeerIps ordered) text) =
          some (newPeerIps ordered) := by
        rw [valueIn_upsertKv (by decide) (oneLine_lists hpeers hlist).1 (hfits _ _ hedit), if_pos rfl]
      refine ⟨hinv.watcher, hlist, hinv.caught.settle rfl fun _ _ hold hwaiting => ?_⟩
      have hsettled := hold hwaiting
      simp only [hlock, settled, decide_eq_true_eq] at hsettled
      simp [settled, hsettled, Host.edited, hedit, hips]
  | @writeNames holder ordered hlock =>
      have hlist : Listable peers ordered := by
        have hknown := hinv.lock
        rw [hlock] at hknown
        exact hknown
      have hedit : edit w .write = some (PEER_NAMES, newPeerNames ordered) := by
        simp only [edit, hlock]
      have hkey : OneLine PEER_NAMES.text := by decide
      have hvalues := valueIn_upsertKv hkey (oneLine_lists hpeers hlist).2 (hfits _ _ hedit)
      have hnames := (hvalues PEER_NAMES).trans (if_pos rfl)
      have hips := (hvalues PEER_IPS).trans (if_neg names_ne_ips.symm)
      refine ⟨hinv.watcher, trivial, hinv.caught.settle rfl fun _ _ hold hwaiting => ?_⟩
      have hsettled := hold hwaiting
      simp only [hlock, settled, Bool.and_eq_true, decide_eq_true_eq] at hsettled
      simp [settled, lists, hsettled.1, Host.edited, hedit, hnames, hips.trans hsettled.2]
  | release hlock =>
      refine ⟨hinv.watcher, trivial, hinv.caught.settle rfl fun _ _ hold hwaiting => ?_⟩
      have hsettled := hold hwaiting
      rw [hlock] at hsettled
      exact hsettled
  | @upsert key value hips hnames =>
      obtain ⟨hkey, hvalue⟩ := of_decide_eq_true hplain
      have hvalues := valueIn_upsertKv hkey hvalue (hfits _ _ rfl)
      have hipsSame := (hvalues PEER_IPS).trans (if_neg (Ne.symm hips))
      have hnamesSame := (hvalues PEER_NAMES).trans (if_neg (Ne.symm hnames))
      refine ⟨hinv.watcher, hinv.lock, hinv.caught.settle rfl fun _ _ hold hwaiting => ?_⟩
      have hsettled := hold hwaiting
      simpa only [settled, lists, Host.edited, edit, hipsSame, hnamesSame] using hsettled
  | restart =>
      refine ⟨⟨hinv.watcher.store, fun name info hget => ?_, fun ev hev => ?_⟩, trivial, trivial⟩
      · cases hget
      · cases hev

/-- When every stream is opened on a topology that the file lists already, and every
edit has a line of its own, the file lists the topology in every quiescent state
with the own entry. -/
theorem converges {config : DaemonConfig} {text : String} {kv : OrderedMap String String}
    {as : List Act} {h : Host} (hkv : OfPeers (contents kv)) (hputs : ∀ act ∈ as, PutsPeers act)
    (hpeers : ∀ p ∈ registered kv as, OneLine p.1 ∧ OneLine p.2)
    (hplain : ∀ act ∈ as, plain act = true)
    (hguard : Keeps (hostStep config) (fun h act => nothingMissed config h act = true)
      (hostStart text kv) as)
    (hr : run (hostStep config) (hostStart text kv) as = some h) (hquiet : Quiescent h.daemon)
    (hown : peerIp h.daemon.watcher.kv config.nodeName = some config.localIp) :
    Listed h.daemon.watcher.kv h.text := by
  have hstart : Inv config (registered kv as) (hostStart text kv) :=
    ⟨known_start hkv as, trivial, trivial⟩
  have hkeeps := keeps_and_forall hguard fun act hact =>
    (⟨puts_known kv hact (hputs act hact), hplain act hact⟩ :
      (∀ a, act = .watch a → PutsKnown (registered kv as) a) ∧ plain act = true)
  have hinv : Inv config (registered kv as) h :=
    run_guarded (fun s a t hinv hg ht => inv_step hpeers hinv hg.2.1 hg.2.2 hg.1 ht) hstart hkeeps hr
  obtain ⟨hphase, hwaiting, hlock⟩ := hquiet
  have hcaught := hinv.caught
  rw [hphase] at hcaught
  have hsettled := hcaught.2.2 rfl hwaiting
  rw [hlock] at hsettled
  simp only [settled, hown, ne_eq, not_true_eq_false, decide_false, Bool.false_or] at hsettled
  exact listed_of_lists (fun name info hget => (hinv.watcher.store name info hget).1) hsettled

/-! ## A third peer -/

/-- The third peer is put while the stream is open, and its event is handled. -/
def watchedRun : List Act :=
  putAndWrite "node-3" "10.0.0.3" ++ [Act.write, .release]

theorem putsPeers_watchedRun : ∀ act ∈ watchedRun, PutsPeers act := by
  have hput : ∀ act ∈ putAndWrite "node-3" "10.0.0.3", PutsPeers act :=
    putsPeers_putAndWrite [("name", .str "node-3"), ("ip", .str "10.0.0.3")]
      (by decide) (by decide) (by decide +kernel) (by decide)
  intro act hact
  rcases List.mem_append.mp hact with hact | hact
  · exact hput act hact
  · simp only [List.mem_cons, List.not_mem_nil, or_false] at hact
    rcases hact with rfl | rfl <;> trivial

def quiescent (config : DaemonConfig) (w : World) : Bool :=
  w.watcher.phase = .streaming [] && !w.waiting && w.lock = none &&
    peerIp w.watcher.kv config.nodeName = some config.localIp

theorem quiescent_iff {config : DaemonConfig} {w : World} (h : quiescent config w = true) :
    Quiescent w ∧ peerIp w.watcher.kv config.nodeName = some config.localIp := by
  simp only [quiescent, Bool.and_eq_true, decide_eq_true_eq, Bool.not_eq_true'] at h
  exact ⟨⟨h.1.1.1, h.1.1.2, h.1.2⟩, h.2⟩

def twoPeersText : String := "PEER_IPS=10.0.0.1,10.0.0.2\nPEER_NAMES=node-1,node-2\n"

theorem converges_watched : ∃ h,
    run (hostStep secondPeer) (hostStart twoPeersText twoPeers) watchedRun = some h ∧
      Listed h.daemon.watcher.kv h.text := by
  have hguard : Keeps (hostStep secondPeer) (fun h act => nothingMissed secondPeer h act = true)
      (hostStart twoPeersText twoPeers) watchedRun := by
    decide +kernel
  have hrun : (run (hostStep secondPeer) (hostStart twoPeersText twoPeers) watchedRun).any
      (fun h => quiescent secondPeer h.daemon) = true := by
    decide +kernel
  have hpeers : ∀ p ∈ registered twoPeers watchedRun, OneLine p.1 ∧ OneLine p.2 := by decide +kernel
  obtain ⟨h, hh, htest⟩ := (Option.any_eq_true _ _).mp hrun
  obtain ⟨hquiet, hown⟩ := quiescent_iff htest
  exact ⟨h, hh, converges ofPeers_twoPeers putsPeers_watchedRun hpeers (by decide) hguard hh hquiet hown⟩

/-- The third peer is put while the daemon is down. -/
def missedRun : List Act :=
  [.watch (.seedAttempt .answered), .watch .openStream, .restart,
    .watch (.put (TOPOLOGY_PREFIX ++ "node-3") (peerText "node-3" "10.0.0.3")),
    .watch (.seedAttempt .answered), .watch .openStream]

theorem putsPeers_missedRun : ∀ act ∈ missedRun, PutsPeers act := by
  intro act hact
  by_cases hput : act ∈ watchedRun
  · exact putsPeers_watchedRun act hput
  · simp only [missedRun, List.mem_cons, List.not_mem_nil, or_false] at hact
    rcases hact with rfl | rfl | rfl | rfl | rfl | rfl <;> trivial

/-- The daemon runs, every event is handled, and the third peer is not listed. -/
theorem third_peer_missed : ∃ (config : DaemonConfig) (text : String)
    (kv : OrderedMap String String) (as : List Act) (h : Host), OfPeers (contents kv) ∧
      (∀ act ∈ as, PutsPeers act) ∧ run (hostStep config) (hostStart text kv) as = some h ∧
        Quiescent h.daemon ∧ peerIp h.daemon.watcher.kv config.nodeName = some config.localIp ∧
          ¬ Listed h.daemon.watcher.kv h.text := by
  have hrun : (run (hostStep secondPeer) (hostStart twoPeersText twoPeers) missedRun).any (fun h =>
      quiescent secondPeer h.daemon && decide (peerIp h.daemon.watcher.kv "node-3" = some "10.0.0.3" ∧
        h.text = twoPeersText)) = true := by
    decide +kernel
  obtain ⟨h, hh, htest⟩ := (Option.any_eq_true _ _).mp hrun
  obtain ⟨hquiescent, hfacts⟩ := Bool.and_eq_true_iff.mp htest
  obtain ⟨hthird, htext⟩ := of_decide_eq_true hfacts
  obtain ⟨hquiet, hown⟩ := quiescent_iff hquiescent
  refine ⟨secondPeer, twoPeersText, twoPeers, missedRun, h, ofPeers_twoPeers, putsPeers_missedRun, hh,
    hquiet, hown, ?_⟩
  rintro ⟨ordered, -, hmem, hips, -⟩
  -- the digit of the third ip is in no ip of the file
  have hip : "10.0.0.3" ∈ ordered.map Prod.snd :=
    List.mem_map.mpr ⟨("node-3", "10.0.0.3"), (hmem _ _).mpr hthird, rfl⟩
  have hdigit : '3' ∈ (newPeerIps ordered).toList := mem_join_of_mem hip (by decide)
  have hvalue : valueIn PEER_IPS twoPeersText = some "10.0.0.1,10.0.0.2" := by decide +kernel
  rw [htext, hvalue] at hips
  rw [← Option.some.inj hips] at hdigit
  exact absurd hdigit (by decide)

end MilvusOnprem.EnvConvergence
